import LlRouter.PermitMachine
import LlRouter.TransitionCalls

/-!
# The router: handlers, transitions and exchanges

A request is resolved by its handler, calls `ensure_active` and, in the same
step in which that call returns, goes on to `proxy_request`. Every run of the
router is a run of the transitions and a run of the permits.
-/

set_option autoImplicit false

namespace LlRouter.RouterMachine
open ControlExit LabelledRun
open LlRouter.JsonValue LlRouter.BackendConfig LlRouter.SystemdUnits LlRouter.RequestBody

inductive Handler where
  | chat
  | completion
  | embedding
  deriving DecidableEq, Repr

def Handler.route (c : Config) : Handler → Exit Json → Exit Routed
  | .chat, json => chatCompletions c json
  | .completion, json => completions c json
  | .embedding, json => embeddings c json

structure Request where
  path : String
  body : Fields
  overrides : Option Json

/-- Request `k` is the one whose handler made call `k` of `ensure_active`. -/
structure State where
  services : TransitionMachine.State
  permits : PermitMachine.State
  requests : List Request

def init (u : Units) : State := ⟨TransitionMachine.init u, PermitMachine.init, []⟩

inductive Event where
  | posted (h : Handler) (json : Exit Json)
  | service (e : TransitionMachine.Event)
  | task (i : ℕ) (e : PermitMachine.TaskEvent)

def onward (s : State) (i : ℕ) : Option PermitMachine.Event :=
  match s.services.calls[i]?, s.requests[i]? with
  | some ⟨b, .ended (.returned ())⟩, some q => some (.arrive b q.path q.body q.overrides)
  | _, _ => none

def goOn (s : State) (i : ℕ) : State :=
  match onward s i with
  | some (.arrive b path body overrides) =>
    { s with permits := PermitMachine.proxyRequest s.permits b path body overrides }
  | _ => s

def withServices (s : State) (services : TransitionMachine.State) : State :=
  { s with services := services }

def withRequest (s : State) (b : Backend) (q : Request) : State :=
  ⟨TransitionMachine.arrive s.services b, s.permits, s.requests++[q]⟩

def post (s : State) (r : Exit Routed) : State :=
  match r with
  | .returned (.resolved b path body overrides) =>
    goOn (withRequest s b ⟨path, body, overrides⟩) s.services.calls.length
  -- answered at once, by a 404 or by the framework
  | _ => s

def serve (c : Config) (s : State) (e : TransitionMachine.Event) : Option State :=
  (TransitionMachine.step c s.services e).map (fun services =>
    match s.services.holder with
    -- no other call than the lock's holder can come back
    | some h => goOn (withServices s services) h.index
    | none => withServices s services)

def step (c : Config) (s : State) : Event → Option State
  | .posted h json => some (post s (h.route c json))
  | .service (.called _) => none
  | .service e => serve c s e
  | .task i e => (PermitMachine.step s.permits (.task i e)).map (fun permits =>
      { s with permits := permits })

theorem goOn_services (s : State) (i : ℕ) : (goOn s i).services = s.services := by
  unfold goOn
  split <;> rfl

theorem goOn_requests (s : State) (i : ℕ) : (goOn s i).requests = s.requests := by
  unfold goOn
  split <;> rfl

theorem goOn_permits (s : State) (i : ℕ) :
    run PermitMachine.step s.permits (onward s i).toList = some (goOn s i).permits := by
  unfold goOn
  cases ho : onward s i with
  | none => rfl
  | some e =>
    cases e with
    | arrive b path body overrides => rfl
    | task k e =>
      unfold onward at ho
      split at ho <;> simp at ho

def serviceEvent (c : Config) (_ : State) : Event → Option TransitionMachine.Event
  | .posted h json =>
    match h.route c json with
    | .returned (.resolved b _ _ _) => some (.called b)
    | _ => none
  | .service e => some e
  | .task _ _ => none

theorem serve_cases (c : Config) (s s' : State) (e : TransitionMachine.Event)
    (hs : serve c s e = some s') : ∃ services,
      TransitionMachine.step c s.services e = some services ∧
      (s.services.holder = none ∧ s' = withServices s services ∨
        ∃ h, s.services.holder = some h ∧ s' = goOn (withServices s services) h.index) := by
  simp only [serve, Option.map_eq_some_iff] at hs
  obtain ⟨services, hv, rfl⟩ := hs
  refine ⟨services, hv, ?_⟩
  cases hh : s.services.holder with
  | none => exact Or.inl ⟨rfl, rfl⟩
  | some h => exact Or.inr ⟨h, rfl, rfl⟩

theorem route_declared (c : Config) (h : Handler) (json : Exit Json) (b : Backend) (path : String)
    (fields : Fields) (overrides : Option Json)
    (hr : h.route c json = .returned (.resolved b path fields overrides)) : b ∈ c.backends := by
  have hmem : ∀ embedding a g, c.resolve embedding a = some (b, g) → b ∈ c.backends := by
    intro embedding a g hres
    exact ((mem_sameMap c embedding b).mp (resolve_declared c embedding a b g hres).1).1
  cases h with
  | chat =>
    obtain ⟨a, g, ha⟩ := routeRequest_declared _ _ _ _ _ _ _ _ _ _ hr
    exact hmem false a g ha
  | completion =>
    obtain ⟨a, g, ha⟩ := routeRequest_declared _ _ _ _ _ _ _ _ _ _ hr
    exact hmem false a g ha
  | embedding =>
    obtain ⟨a, g, ha⟩ := routeRequest_declared _ _ _ _ _ _ _ _ _ _ hr
    exact hmem true a g ha

inductive Stepped (c : Config) (s : State) : Event → State → Prop
  | answered (h : Handler) (json : Exit Json) (hr : ∀ b path fields overrides,
      h.route c json ≠ .returned (.resolved b path fields overrides)) :
      Stepped c s (.posted h json) s
  | posted (h : Handler) (json : Exit Json) (b : Backend) (path : String) (fields : Fields)
      (overrides : Option Json) (hb : b ∈ c.backends)
      (hr : h.route c json = .returned (.resolved b path fields overrides)) :
      Stepped c s (.posted h json)
        (goOn (withRequest s b ⟨path, fields, overrides⟩) s.services.calls.length)
  | free (e : TransitionMachine.Event) (services : TransitionMachine.State)
      (hv : TransitionMachine.step c s.services e = some services) (he : ∀ b, e ≠ .called b)
      (hf : s.services.holder = none) : Stepped c s (.service e) (withServices s services)
  | held (e : TransitionMachine.Event) (services : TransitionMachine.State)
      (hv : TransitionMachine.step c s.services e = some services) (he : ∀ b, e ≠ .called b)
      (h : TransitionMachine.Holder) (hh : s.services.holder = some h) :
      Stepped c s (.service e) (goOn (withServices s services) h.index)
  | task (i : ℕ) (e : PermitMachine.TaskEvent) (permits : PermitMachine.State)
      (hp : PermitMachine.step s.permits (.task i e) = some permits) :
      Stepped c s (.task i e) { s with permits := permits }

theorem step_cases (c : Config) (s s' : State) (e : Event) (hs : step c s e = some s') :
    Stepped c s e s' := by
  cases e with
  | posted h json =>
    cases hs
    unfold post
    split
    · next b path fields overrides hr =>
      have hb := route_declared c h json b path fields overrides hr
      exact .posted h json b path fields overrides hb hr
    · next hr => exact .answered h json hr
  | service e =>
    have he : ∀ b, e ≠ .called b := by
      rintro b rfl
      simp [step] at hs
    have hserve : serve c s e = some s' := by
      cases e with
      | called b => exact absurd rfl (he b)
      | _ => exact hs
    obtain ⟨services, hv, ⟨hf, rfl⟩ | ⟨h, hh, rfl⟩⟩ := serve_cases c s s' e hserve
    · exact .free e services hv he hf
    · exact .held e services hv he h hh
  | task i e =>
    simp only [step, Option.map_eq_some_iff] at hs
    obtain ⟨permits, hp, rfl⟩ := hs
    exact .task i e permits hp

def permitEvent (c : Config) (s : State) : Event → Option PermitMachine.Event
  | .posted h json =>
    match h.route c json with
    | .returned (.resolved b path fields overrides) =>
      onward (withRequest s b ⟨path, fields, overrides⟩) s.services.calls.length
    | _ => none
  | .service e => (TransitionMachine.step c s.services e).bind (fun services =>
      s.services.holder.bind (fun h => onward (withServices s services) h.index))
  | .task i e => some (.task i e)

section Projections
variable (c : Config) (s s' : State)

theorem step_services (e : Event) (hs : step c s e = some s') :
    run (TransitionMachine.step c) s.services (serviceEvent c s e).toList = some s'.services := by
  cases step_cases c s s' e hs with
  | answered h json hr =>
    have hn : serviceEvent c s (.posted h json) = none := by simp [serviceEvent]
    rw [hn]
    rfl
  | posted h json b path fields overrides hb hr =>
    rw [goOn_services]
    simp [serviceEvent, hr, TransitionMachine.step, hb, withRequest]
  | free e services hv he hf => simp [serviceEvent, hv, withServices]
  | held e services hv he h hh => simp [serviceEvent, hv, goOn_services, withServices]
  | task i e permits hp => rfl

/-- A run of the router is a run of the transitions. -/
theorem services_run (es : List Event) (hr : run (step c) s es = some s') :
    run (TransitionMachine.step c) s.services (collect (step c) (serviceEvent c) s es) =
      some s'.services :=
  simulated_run (step c) (TransitionMachine.step c) State.services (serviceEvent c)
    (fun m e t hm => step_services c m t e hm) s s' es hr

theorem step_permits (e : Event) (hs : step c s e = some s') :
    run PermitMachine.step s.permits (permitEvent c s e).toList = some s'.permits := by
  cases step_cases c s s' e hs with
  | answered h json hr =>
    have hn : permitEvent c s (.posted h json) = none := by simp [permitEvent]
    rw [hn]
    rfl
  | posted h json b path fields overrides hb hr =>
    simp only [permitEvent, hr]
    exact goOn_permits (withRequest s b ⟨path, fields, overrides⟩) s.services.calls.length
  | free e services hv he hf => simp [permitEvent, hf, withServices]
  | held e services hv he h hh =>
    simp only [permitEvent, hv, hh, Option.bind_some]
    exact goOn_permits (withServices s services) h.index
  | task i e permits hp => simpa [permitEvent] using hp

theorem permits_run (es : List Event) (hr : run (step c) s es = some s') :
    run PermitMachine.step s.permits (collect (step c) (permitEvent c) s es) = some s'.permits :=
  simulated_run (step c) PermitMachine.step State.permits (permitEvent c)
    (fun m e t hm => step_permits c m t e hm) s s' es hr

end Projections

structure Aligned (s : State) : Prop where
  requests : s.requests.length = s.services.calls.length
  owner : TransitionCalls.Owned s.services

section Alignment
variable (c : Config) (s s' : State)

theorem aligned_step (e : Event) (ha : Aligned s) (hs : step c s e = some s') : Aligned s' := by
  cases step_cases c s s' e hs with
  | answered h json hr => exact ha
  | posted h json b path fields overrides hb hr =>
    have ho := TransitionCalls.owned_step c s.services (TransitionMachine.arrive s.services b)
      (.called b) ha.owner (by simp [TransitionMachine.step, hb])
    constructor
    · rw [goOn_requests, goOn_services]
      simp [withRequest, TransitionMachine.arrive, ha.requests]
    · rw [goOn_services]
      exact ho
  | free e services hv he hf =>
    have hl := TransitionCalls.calls_length c s.services services e he hv
    exact ⟨ha.requests.trans hl.symm,
      TransitionCalls.owned_step c s.services services e ha.owner hv⟩
  | held e services hv he h hh =>
    have hl := TransitionCalls.calls_length c s.services services e he hv
    constructor
    · rw [goOn_requests, goOn_services]
      exact ha.requests.trans hl.symm
    · rw [goOn_services]
      exact TransitionCalls.owned_step c s.services services e ha.owner hv
  | task i e permits hp => exact ⟨ha.requests, ha.owner⟩

theorem goOn_returned (i : ℕ) (b : Backend) (ha : s.requests.length = s.services.calls.length)
    (hc : s.services.calls[i]? = some ⟨b, .ended (.returned ())⟩) : ∃ q : Request,
      (goOn s i).permits = PermitMachine.proxyRequest s.permits b q.path q.body q.overrides := by
  have hi : i < s.requests.length := by
    rw [ha]
    exact TaskPool.index_lt hc
  exact ⟨s.requests[i], by simp [goOn, onward, hc, hi]⟩

/-- A call that comes back goes on to `proxy_request` in the same step. -/
theorem returned_goes_on (e : Event) (i : ℕ) (b : Backend) (ha : Aligned s)
    (hs : step c s e = some s')
    (hret : s'.services.calls[i]? = some ⟨b, .ended (.returned ())⟩)
    (hnew : s.services.calls[i]? ≠ some ⟨b, .ended (.returned ())⟩) : ∃ q : Request,
      s'.permits = PermitMachine.proxyRequest s.permits b q.path q.body q.overrides := by
  have ha' := aligned_step c s s' e ha hs
  cases step_cases c s s' e hs with
  | answered h json hr => exact absurd hret hnew
  | posted h json b' path fields overrides hr hb =>
    rw [goOn_services] at hret
    have hi : i = s.services.calls.length := by
      by_contra hne
      simp only [withRequest, TransitionMachine.arrive, TaskPool.getElem?_concat,
        if_neg hne] at hret
      exact hnew hret
    subst hi
    have hlen := ha'.requests
    rw [goOn_requests, goOn_services] at hlen
    exact goOn_returned _ _ b hlen hret
  | free e services hv he hf =>
    rcases TransitionCalls.returned_step c s.services services e i b ha.owner hv hret with
      hold | ⟨hcall, -⟩ | ⟨pc, hpc, -⟩
    · exact absurd hold hnew
    · exact absurd hcall (he b)
    · simp [hf] at hpc
  | held e services hv he h hh =>
    rw [goOn_services] at hret
    rcases TransitionCalls.returned_step c s.services services e i b ha.owner hv hret with
      hold | ⟨hcall, -⟩ | ⟨pc, hpc, -⟩
    · exact absurd hold hnew
    · exact absurd hcall (he b)
    · obtain rfl : ⟨i, b, pc⟩ = h := Option.some.inj (hpc.symm.trans hh)
      have hlen := ha'.requests
      rw [goOn_requests, goOn_services] at hlen
      exact goOn_returned _ _ b hlen hret
  | task k e permits hp => exact absurd hret hnew

end Alignment
end LlRouter.RouterMachine
