import LlRouter.TransitionHold
import LlRouter.RouterMachine

/-!
# A service stays up while its requests are pending

A request is admitted when its call of `ensure_active` returns, and pending
until its exchange has ended. Nothing ties the two together: another request
may take the lock in between and stop the service. Only a request for a
backend of the same group does that, so services stay up in every run in which
no such request takes the lock too early.
-/

set_option autoImplicit false

namespace LlRouter.ServiceUptime
open ControlExit LabelledRun
open LlRouter.BackendConfig LlRouter.SystemdUnits LlRouter.EnsureActive
open LlRouter.TransitionTrack LlRouter.TransitionHold LlRouter.RouterMachine

def Pending (s : PermitMachine.State) (P : String → Prop) : Prop :=
  ∀ t ∈ s.tasks, t.phase.isFinished = false → t.backend.unit ≠ "" → P t.backend.unit

def AllUp (s : State) : Prop := Pending s.permits (fun x => s.services.units x = .active)

def NoPeer (c : Config) (t : Backend) (x : String) : Prop := ∀ b ∈ peersInGroup c t, b.unit ≠ x

def takesLock (s : State) : Event → Option Backend
  | .service e => TransitionCalls.lockTarget s.services e
  | _ => none

/-- A call that takes the lock has no pending request's service among its peers'. -/
def Spares (c : Config) (s : State) (e : Event) : Prop :=
  ∀ t ∈ takesLock s e, Pending s.permits (NoPeer c t)

def leavesNothing : Event → Bool
  | .service e => !leavesJob e
  | _ => true

def Orderly (c : Config) (s : State) (e : Event) : Prop := leavesNothing e = true ∧ Spares c s e

instance (c : Config) (t : Backend) : DecidablePred (NoPeer c t) :=
  fun x => inferInstanceAs (Decidable (∀ b ∈ peersInGroup c t, b.unit ≠ x))

instance (s : PermitMachine.State) (P : String → Prop) [DecidablePred P] :
    Decidable (Pending s P) :=
  inferInstanceAs (Decidable (∀ t ∈ s.tasks, _))

instance (c : Config) (s : State) (e : Event) : Decidable (Orderly c s e) :=
  inferInstanceAs (Decidable (_ ∧ ∀ t ∈ takesLock s e, Pending s.permits (NoPeer c t)))

/-- With the lock free the pending services are up. A call that holds it found
them up, and has none of them among its peers'. -/
inductive Kept (c : Config) (s : State) : Prop
  | free (hf : s.services.holder = none) (hj : s.services.leftJobs = []) (hu : AllUp s)
  | held (i : ℕ) (t : Backend) (u₀ : Units) (l₀ : List TransitionMachine.Entry)
      (hh : Held c i t u₀ l₀ s.services) (hu : Pending s.permits (fun x => u₀ x = .active))
      (hp : Pending s.permits (NoPeer c t))

section Permits
variable (P : String → Prop)

theorem pending_task (s s' : PermitMachine.State) (i : ℕ) (e : PermitMachine.TaskEvent)
    (hs : PermitMachine.step s (.task i e) = some s') (hp : Pending s P) : Pending s' P := by
  obtain ⟨t, value, p, value', ht, -, hstep, rfl⟩ := (PermitMachine.step_task s s' i e).mp hs
  have hmem : t ∈ s.tasks := List.mem_of_getElem? ht
  have hopen : t.phase.isFinished = false := by
    cases hph : t.phase with
    | finished out => simp [hph, PermitMachine.taskStep] at hstep
    | _ => rfl
  intro t' ht' hf hu
  rcases List.mem_or_eq_of_mem_set ht' with hold | rfl
  · exact hp t' hold hf hu
  · exact hp t hmem hopen hu

/-- A call that comes back adds its own request and no other. -/
theorem pending_goOn (s : State) (i : ℕ) (hp : Pending s.permits P)
    (hn : ∀ b, s.services.calls[i]? = some ⟨b, .ended (.returned ())⟩ → b.unit ≠ "" → P b.unit) :
    Pending (goOn s i).permits P := by
  unfold goOn onward
  split
  · next b path body overrides he =>
    split at he
    · next b' q hc hq =>
      simp only [Option.some.injEq, PermitMachine.Event.arrive.injEq] at he
      obtain ⟨rfl, -⟩ := he
      obtain ⟨sems, t, heq, hb, -⟩ :=
        PermitMachine.proxyRequest_cases s.permits b' path body overrides
      rw [heq]
      intro t' ht' hf hu
      rcases List.mem_append.mp ht' with hold | hnew
      · exact hp t' hold hf hu
      · obtain rfl := List.mem_singleton.mp hnew
        rw [hb] at hu ⊢
        exact hn b' hc hu
    · simp at he
  · exact hp

end Permits

section Step
variable (c : Config) (s s' : State)

theorem held_allUp (i : ℕ) (t : Backend) (u₀ : Units) (l₀ : List TransitionMachine.Entry)
    (hh : Held c i t u₀ l₀ s.services) (hu : Pending s.permits (fun x => u₀ x = .active))
    (hp : Pending s.permits (NoPeer c t)) : AllUp s := by
  obtain ⟨pc, -, -, htrack⟩ := hh
  intro q hq hf hunit
  exact track_keeps c t u₀ l₀ q.backend.unit s.services.units _ pc htrack (hu q hq hf hunit)
    (hp q hq hf hunit)

theorem kept_allUp (hk : Kept c s) : AllUp s := by
  cases hk with
  | free hf hj hu => exact hu
  | held i t u₀ l₀ hh hu hp => exact held_allUp c s i t u₀ l₀ hh hu hp

theorem kept_goOn_free (i : ℕ) (hf : s.services.holder = none) (hj : s.services.leftJobs = [])
    (hu : Pending (goOn s i).permits (fun x => s.services.units x = .active)) :
    Kept c (goOn s i) := by
  have hserv := goOn_services s i
  apply Kept.free
  · rw [hserv, hf]
  · rw [hserv, hj]
  · unfold AllUp
    rw [hserv]
    exact hu

theorem kept_goOn_held (k i : ℕ) (t : Backend) (u₀ : Units) (l₀ : List TransitionMachine.Entry)
    (hh : Held c i t u₀ l₀ s.services)
    (hu : Pending (goOn s k).permits (fun x => u₀ x = .active))
    (hp : Pending (goOn s k).permits (NoPeer c t)) : Kept c (goOn s k) := by
  apply Kept.held i t u₀ l₀
  · rw [goOn_services]
    exact hh
  · exact hu
  · exact hp

theorem kept_posted (b : Backend) (q : Request) (hk : Kept c s) :
    Kept c (goOn (withRequest s b q) s.services.calls.length) := by
  have hgo : ∀ P, Pending s.permits P →
      Pending (goOn (withRequest s b q) s.services.calls.length).permits P := by
    intro P hp
    apply pending_goOn
    · exact hp
    · intro b' hc hu
      simp only [withRequest, TransitionMachine.arrive, List.getElem?_concat_length,
        Option.some.injEq, TransitionMachine.Call.mk.injEq] at hc
      obtain ⟨rfl, hst⟩ := hc
      simp [hu] at hst
  cases hk with
  | free hf hj hu => exact kept_goOn_free c (withRequest s b q) _ hf hj (hgo _ hu)
  | held i t u₀ l₀ hh hu hp =>
    exact kept_goOn_held c (withRequest s b q) _ i t u₀ l₀ hh (hgo _ hu) (hgo _ hp)

theorem kept_free (e : TransitionMachine.Event) (services : TransitionMachine.State)
    (hsp : Spares c s (.service e)) (hf : s.services.holder = none)
    (hv : TransitionMachine.step c s.services e = some services) (hk : Kept c s) :
    Kept c (withServices s services) := by
  cases hk with
  | free _ hj hu =>
    rcases free_step c s.services services e hf hj hv with
      ⟨hf', hj', hunits, -⟩ | ⟨k, t, rfl, hw, rfl⟩
    · apply Kept.free hf' hj'
      unfold AllUp withServices
      rw [hunits]
      exact hu
    · have hl : takesLock s (.service (.locked k)) = some t := by
        simp [takesLock, TransitionCalls.lockTarget, hw]
      exact .held k t s.services.units (commands s.services.log)
        ⟨.checkingTarget, rfl, hj, rfl, rfl⟩ hu (hsp t hl)
  | held i t u₀ l₀ hh hu hp =>
    obtain ⟨pc, hpc, -⟩ := hh
    simp [hf] at hpc

theorem kept_held (e : TransitionMachine.Event) (services : TransitionMachine.State)
    (hl : leavesJob e = false) (ho : TransitionCalls.Owned s.services)
    (h : TransitionMachine.Holder) (hh : s.services.holder = some h)
    (hv : TransitionMachine.step c s.services e = some services) (hk : Kept c s) :
    Kept c (goOn (withServices s services) h.index) := by
  cases hk with
  | free hf hj hu => simp [hf] at hh
  | held i t u₀ l₀ hheld hu hp =>
    obtain ⟨pc, hpc, -⟩ := id hheld
    obtain rfl : ⟨i, t, pc⟩ = h := Option.some.inj (hpc.symm.trans hh)
    have hset : ∀ out b, (s.services.calls.set i ⟨t, .ended out⟩)[i]? =
        some ⟨b, .ended (.returned ())⟩ → b = t ∧ out = .returned () := by
      intro out b hc
      rcases TransitionCalls.set_cases s.services i i t b .inside _ _ (ho _ hh) hc with
        ⟨-, hb, hout⟩ | ⟨hne, -⟩
      · rw [TransitionMachine.Status.ended.injEq] at hout
        exact ⟨hb, hout.symm⟩
      · exact absurd rfl hne
    cases held_step c i t u₀ l₀ s.services services e hheld hv with
    | held hh' hi =>
      have hin : services.calls[i]? = some ⟨t, .inside⟩ := by
        obtain ⟨pc', hpc', -⟩ := hh'
        exact TransitionCalls.owned_step c s.services services e ho hv _ hpc'
      have hgo : ∀ P, Pending s.permits P →
          Pending (goOn (withServices s services) i).permits P := by
        intro P hP
        apply pending_goOn
        · exact hP
        · intro b hc
          simp [withServices, hin] at hc
      exact kept_goOn_held c (withServices s services) i i t u₀ l₀ hh' (hgo _ hu) (hgo _ hp)
    | completed out hf hc hunits hlog hn hj =>
      apply kept_goOn_free c (withServices s services) i hf hj
      apply pending_goOn
      · intro q hq hfin hunit
        show services.units q.backend.unit = .active
        rw [hunits]
        exact final_keeps c t u₀ q.backend.unit (hu q hq hfin hunit) (hp q hq hfin hunit)
      · intro b hb _
        obtain ⟨rfl, -⟩ := hset out b (hc ▸ hb)
        show services.units b.unit = .active
        simp [hunits, final]
    | failed out hout hf hc hsucc hkeep hj =>
      apply kept_goOn_free c (withServices s services) i hf (hj hl)
      apply pending_goOn
      · intro q hq hfin hunit
        exact hkeep q.backend.unit (hu q hq hfin hunit) (hp q hq hfin hunit)
      · intro b hb _
        exact absurd (hset out b (hc ▸ hb)).2 hout

theorem kept_step (e : Event) (ha : Aligned s) (ho : Orderly c s e) (hk : Kept c s)
    (hs : step c s e = some s') : Kept c s' := by
  cases step_cases c s s' e hs with
  | answered h json hr => exact hk
  | posted h json b path fields overrides hb hr => exact kept_posted c s b _ hk
  | free e services hv he hf => exact kept_free c s e services ho.2 hf hv hk
  | held e services hv he h hh =>
    have hl : leavesJob e = false := by simpa [leavesNothing] using ho.1
    exact kept_held c s e services hl ha.owner h hh hv hk
  | task i e permits hp =>
    cases hk with
    | free hf hj hu => exact .free hf hj (pending_task _ _ _ i e hp hu)
    | held i' t u₀ l₀ hh hu hpeer =>
      exact .held i' t u₀ l₀ hh (pending_task _ _ _ i e hp hu) (pending_task _ _ _ i e hp hpeer)

end Step

/-- In every run in which no command leaves a job behind and every call that
takes the lock spares the pending requests, the service of every pending
request is active in every state. -/
theorem service_stays_up (c : Config) (u : Units) (es : List Event) (s : State)
    (ha : Each (step c) (Orderly c) (init u) es) (hr : run (step c) (init u) es = some s) :
    AllUp s := by
  have hinv := invariant_run (step c) (Orderly c) (fun m => Aligned m ∧ Kept c m) ?_ (init u) s es
    ha ?_ hr
  · exact kept_allUp c s hinv.2
  · intro m e m' ho hm hs
    exact ⟨aligned_step c m m' e hm.1 hs, kept_step c m m' e hm.1 ho hm.2 hs⟩
  · refine ⟨⟨rfl, fun h hh => ?_⟩, .free rfl rfl fun t ht => ?_⟩
    · simp [init, TransitionMachine.init] at hh
    · simp [init, PermitMachine.init] at ht

def gemmaServed : Backend :=
  { TransitionMachine.gemmaGpu with
    models := AssocDict.Dict.empty.set "gemma" "gemma-4-26B.gguf" }

def qwenServed : Backend :=
  { TransitionMachine.qwenGpu with models := AssocDict.Dict.empty.set "qwen" "qwen-35B.gguf" }

def servedConfig : Config := ⟨[gemmaServed, qwenServed], AssocDict.Dict.empty⟩

def gemmaUp : Units := TransitionMachine.onlyUp gemmaServed.unit

def chatFor (model : String) : Event :=
  .posted .chat (.returned (.obj [("model", .str model)]))

def inExchange : List Event :=
  [chatFor "gemma", .service (.locked 0), .service (.checked TransitionMachine.ok),
    .service (.checked TransitionMachine.notActive), .task 0 .acquired]

def stopsOther : List Event :=
  [chatFor "qwen", .service (.locked 1), .service (.checked TransitionMachine.notActive),
    .service (.checked TransitionMachine.ok),
    .service (.commanded TransitionMachine.ok .inactive false)]

def answered : Event := .task 0 (.upstream (.response 200 (.ok (.obj []))))

theorem up_until_answered :
    ∃ s, run (step servedConfig) (init gemmaUp) (inExchange++answered::stopsOther) = some s ∧
      AllUp s :=
  ⟨_, rfl, service_stays_up servedConfig gemmaUp (inExchange++answered::stopsOther) _
    (by decide) rfl⟩

/-- The server is stopped while it answers the first request. -/
theorem stopped_in_exchange :
    ∃ s, run (step servedConfig) (init gemmaUp) (inExchange++stopsOther) = some s ∧
      (∀ e ∈ inExchange++stopsOther, leavesNothing e = true) ∧ ¬ AllUp s := by
  refine ⟨_, rfl, by decide, fun h => ?_⟩
  have hdown := h _ List.mem_cons_self rfl (by decide)
  exact absurd hdown (by decide)

end LlRouter.ServiceUptime
