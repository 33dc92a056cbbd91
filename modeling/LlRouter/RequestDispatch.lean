import LlRouter.ServiceUptime

/-!
# No request is lost, repeated or mixed up

A request passes through two machines: its call of `ensure_active` waits among
the others, and comes back in whatever order the lock decides. Each call that
came back has gone on to exactly one call of `proxy_request`, which sends what
that request's handler prepared to the backend its handler resolved.
-/

set_option autoImplicit false

namespace LlRouter.RequestDispatch
open ControlExit LabelledRun
open LlRouter.JsonValue LlRouter.BackendConfig LlRouter.SystemdUnits LlRouter.RequestBody
open LlRouter.TransitionCalls LlRouter.RouterMachine

def Returned (s : State) (i : ℕ) : Prop :=
  ∃ b, s.services.calls[i]? = some ⟨b, .ended (.returned ())⟩

inductive Prepared (b : Backend) (q : Request) (t : PermitMachine.Task) : Prop
  | sent (forwarded : Fields) (hc : completeBody q.body q.overrides = .returned forwarded)
      (hb : t.body = forwarded) (hu : t.url = PermitMachine.upstreamUrl b q.path)
  | failed (e : PyException) (hc : completeBody q.body q.overrides = .raised e)
      (hp : t.phase = .finished (.refused e))
  | unlimited (e : PyException) (hm : b.maxConcurrent < 0)
      (hp : t.phase = .finished (.refused e))

def TaskOf (s : State) (i : ℕ) (t : PermitMachine.Task) : Prop :=
  ∃ b q, s.services.calls[i]? = some ⟨b, .ended (.returned ())⟩ ∧ s.requests[i]? = some q ∧
    t.backend = b ∧ Prepared b q t

/-- The tasks are those of the requests in `origin`, one each, and these are
the requests that meet `P`. -/
structure Matched (P : ℕ → Prop) (s : State) (origin : List ℕ) : Prop where
  once : origin.Nodup
  covers : ∀ i, i ∈ origin ↔ P i
  length : origin.length = s.permits.tasks.length
  tasks : ∀ (j i : ℕ) t, origin[j]? = some i → s.permits.tasks[j]? = some t → TaskOf s i t

def accepted (c : Config) : Event → Option (Backend × Request)
  | .posted h json =>
    match h.route c json with
    | .returned (.resolved b path fields overrides) => some (b, ⟨path, fields, overrides⟩)
    | _ => none
  | _ => none

def pending (s : State) : List (Backend × Request) :=
  (s.services.calls.map TransitionMachine.Call.target).zip s.requests

section Tasks
variable (s s' : State)

theorem taskOf_keeps (i : ℕ) (t : PermitMachine.Task) (ht : TaskOf s i t)
    (hc : ∀ b, s.services.calls[i]? = some ⟨b, .ended (.returned ())⟩ →
      s'.services.calls[i]? = some ⟨b, .ended (.returned ())⟩)
    (hq : ∀ q, s.requests[i]? = some q → s'.requests[i]? = some q) : TaskOf s' i t := by
  obtain ⟨b, q, hcall, hreq, hb, hp⟩ := ht
  exact ⟨b, q, hc b hcall, hq q hreq, hb, hp⟩

theorem proxyRequest_task (p : PermitMachine.State) (b : Backend) (q : Request) : ∃ sems t,
    PermitMachine.proxyRequest p b q.path q.body q.overrides = ⟨sems, p.tasks++[t]⟩ ∧
      t.backend = b ∧ Prepared b q t := by
  unfold PermitMachine.proxyRequest
  have hbody : ∀ e : Exit Fields, completeBody q.body q.overrides = e → e ≠ .cancelled := by
    rintro e he rfl
    unfold completeBody at he
    split at he <;> (try split at he) <;> (try split at he) <;> simp at he
  cases hs : PermitMachine.getSemaphore p.semaphores b with
  | returned sems =>
    refine ⟨sems, _, rfl, rfl, ?_⟩
    cases hc : completeBody q.body q.overrides with
    | returned forwarded => exact .sent forwarded hc rfl rfl
    | raised e => exact .failed e hc rfl
    | cancelled => exact absurd rfl (hbody _ hc)
  | raised e =>
    refine ⟨p.semaphores, _, rfl, rfl, .unlimited e ?_ rfl⟩
    unfold PermitMachine.getSemaphore at hs
    split at hs
    · cases hs
    · split at hs
      · next hm => exact hm
      · cases hs
  | cancelled =>
    unfold PermitMachine.getSemaphore at hs
    split at hs
    · cases hs
    · split at hs <;> cases hs

/-- A task keeps what it was created with, and one that was refused stays so. -/
theorem prepared_step (b : Backend) (q : Request) (t : PermitMachine.Task)
    (phase : PermitMachine.Phase) (value value' : ℕ) (e : PermitMachine.TaskEvent)
    (hs : PermitMachine.taskStep t.body t.phase value e = some (phase, value'))
    (hp : Prepared b q t) : Prepared b q { t with phase := phase } := by
  have hover : ∀ out, t.phase ≠ .finished out := by
    intro out ho
    simp [ho, PermitMachine.taskStep] at hs
  cases hp with
  | sent forwarded hc hb hu => exact .sent forwarded hc hb hu
  | failed e hc hp => exact absurd hp (hover _)
  | unlimited e hm hp => exact absurd hp (hover _)

end Tasks

section Steps
variable (c : Config) (s s' : State) (origin : List ℕ)

theorem onward_cases (i : ℕ) (ha : s.requests.length = s.services.calls.length) :
    (∃ b q, s.services.calls[i]? = some ⟨b, .ended (.returned ())⟩ ∧ s.requests[i]? = some q ∧
      onward s i = some (.arrive b q.path q.body q.overrides)) ∨
    ¬ Returned s i ∧ onward s i = none := by
  by_cases hr : Returned s i
  · obtain ⟨b, hb⟩ := hr
    have hi : i < s.requests.length := by
      rw [ha]
      exact TaskPool.index_lt hb
    have hq := List.getElem?_eq_getElem hi
    exact Or.inl ⟨b, s.requests[i], hb, hq, by simp [onward, hb, hq]⟩
  · refine Or.inr ⟨hr, ?_⟩
    unfold onward
    split
    · next b q hb hq => exact absurd ⟨b, hb⟩ hr
    · rfl

theorem goOn_cases (i : ℕ) (ha : s.requests.length = s.services.calls.length) :
    (∃ b q, s.services.calls[i]? = some ⟨b, .ended (.returned ())⟩ ∧ s.requests[i]? = some q ∧
      goOn s i = { s with
        permits := PermitMachine.proxyRequest s.permits b q.path q.body q.overrides }) ∨
    ¬ Returned s i ∧ goOn s i = s := by
  rcases onward_cases s i ha with ⟨b, q, hb, hq, ho⟩ | ⟨hn, ho⟩
  · exact Or.inl ⟨b, q, hb, hq, by simp only [goOn, ho]⟩
  · exact Or.inr ⟨hn, by simp only [goOn, ho]⟩

theorem withRequest_call (b : Backend) (q : Request) (k : ℕ) (x : TransitionMachine.Call)
    (hk : s.services.calls[k]? = some x) :
    (withRequest s b q).services.calls[k]? = some x := by
  simpa only [withRequest, TransitionMachine.arrive,
    List.getElem?_append_left (TaskPool.index_lt hk)] using hk

theorem call_of_withRequest (b : Backend) (q : Request) (k : ℕ) (x : TransitionMachine.Call)
    (hne : k ≠ s.services.calls.length)
    (hk : (withRequest s b q).services.calls[k]? = some x) : s.services.calls[k]? = some x := by
  simpa only [withRequest, TransitionMachine.arrive, TaskPool.getElem?_concat,
    if_neg hne] using hk

/-- While the calls move, only that of the lock's holder can come back. -/
theorem returned_before (services : TransitionMachine.State) (e : TransitionMachine.Event) (k : ℕ)
    (b : Backend) (ho : Owned s.services) (he : ∀ b, e ≠ .called b)
    (hv : TransitionMachine.step c s.services e = some services)
    (hb : services.calls[k]? = some ⟨b, .ended (.returned ())⟩)
    (hk : ∀ h, s.services.holder = some h → k ≠ h.index) :
    s.services.calls[k]? = some ⟨b, .ended (.returned ())⟩ := by
  rcases returned_step c s.services services e k b ho hv hb with
    hold | ⟨hcall, -⟩ | ⟨pc, hpc, -⟩
  · exact hold
  · exact absurd hcall (he b)
  · exact absurd rfl (hk _ hpc)

/-- The call that came back gets its task, and nobody else does. -/
theorem matched_goOn (i : ℕ) (ha : s.requests.length = s.services.calls.length)
    (hm : Matched (fun k => Returned s k ∧ k ≠ i) s origin) :
    ∃ origin', Matched (Returned (goOn s i)) (goOn s i) origin' := by
  rcases goOn_cases s i ha with ⟨b, q, hb, hq, hgo⟩ | ⟨hn, hgo⟩
  · obtain ⟨sems, t, hp, htb, htp⟩ := proxyRequest_task s.permits b q
    rw [hgo, hp]
    refine ⟨origin++[i], ?_, ?_, ?_, ?_⟩
    · have hi : i ∉ origin := fun h => ((hm.covers i).mp h).2 rfl
      exact List.nodup_append.mpr ⟨hm.once, List.nodup_singleton i, by
        rintro k hk k' hk' rfl
        exact hi (List.mem_singleton.mp hk' ▸ hk)⟩
    · intro k
      rw [List.mem_append, List.mem_singleton, hm.covers]
      constructor
      · rintro (⟨hr, -⟩ | rfl)
        · exact hr
        · exact ⟨b, hb⟩
      · intro hr
        by_cases hk : k = i
        · exact Or.inr hk
        · exact Or.inl ⟨hr, hk⟩
    · simp [hm.length]
    · intro j k t' hj ht'
      rw [TaskPool.getElem?_concat] at hj ht'
      rw [hm.length] at hj
      by_cases hlast : j = s.permits.tasks.length
      · rw [if_pos hlast, Option.some.injEq] at hj ht'
        subst hj ht'
        exact ⟨b, q, hb, hq, htb, htp⟩
      · rw [if_neg hlast] at hj ht'
        exact taskOf_keeps s _ k t' (hm.tasks j k t' hj ht') (fun _ h => h) (fun _ h => h)
  · rw [hgo]
    refine ⟨origin, hm.once, ?_, hm.length, hm.tasks⟩
    intro k
    rw [hm.covers]
    exact ⟨fun h => h.1, fun hr => ⟨hr, fun hk => hn (hk ▸ hr)⟩⟩

theorem matched_services (services : TransitionMachine.State) (e : TransitionMachine.Event)
    (P : ℕ → Prop) (hv : TransitionMachine.step c s.services e = some services)
    (ho : Owned s.services)
    (hP : ∀ k, P k ↔ ∃ b, s.services.calls[k]? = some ⟨b, .ended (.returned ())⟩)
    (hm : Matched (Returned s) s origin) : Matched P (withServices s services) origin := by
  refine ⟨hm.once, ?_, hm.length, ?_⟩
  · intro k
    rw [hm.covers, hP]
    rfl
  · intro j k t hj ht
    exact taskOf_keeps s _ k t (hm.tasks j k t hj ht)
      (fun b hb => ended_stays c s.services services e k b _ ho hb hv) (fun _ h => h)

theorem matched_step (e : Event) (ha : Aligned s) (hm : Matched (Returned s) s origin)
    (hs : step c s e = some s') : ∃ origin', Matched (Returned s') s' origin' := by
  cases step_cases c s s' e hs with
  | answered h json hr => exact ⟨origin, hm⟩
  | posted h json b path fields overrides hb hr =>
    have hreq : ∀ (k : ℕ) q, s.requests[k]? = some q →
        (withRequest s b ⟨path, fields, overrides⟩).requests[k]? = some q := by
      intro k q hk
      simpa only [withRequest, List.getElem?_append_left (TaskPool.index_lt hk)] using hk
    apply matched_goOn _ origin
    · simp [withRequest, TransitionMachine.arrive, ha.requests]
    · refine ⟨hm.once, ?_, hm.length, ?_⟩
      · intro k
        rw [hm.covers]
        constructor
        · rintro ⟨b', hb'⟩
          have hne : k ≠ s.services.calls.length := (TaskPool.index_lt hb').ne
          exact ⟨⟨b', withRequest_call s b _ k _ hb'⟩, hne⟩
        · rintro ⟨⟨b', hb'⟩, hne⟩
          exact ⟨b', call_of_withRequest s b _ k _ hne hb'⟩
      · intro j k t hj ht
        exact taskOf_keeps s _ k t (hm.tasks j k t hj ht) (fun b' => withRequest_call s b _ k _)
          (hreq k)
  | free e services hv he hf =>
    refine ⟨origin, matched_services c s origin services e _ hv ha.owner ?_ hm⟩
    intro k
    constructor
    · rintro ⟨b, hb⟩
      exact ⟨b, returned_before c s services e k b ha.owner he hv hb
        (fun h hh => by simp [hf] at hh)⟩
    · rintro ⟨b, hb⟩
      exact ⟨b, ended_stays c s.services services e k b _ ha.owner hb hv⟩
  | held e services hv he h hh =>
    have hl := calls_length c s.services services e he hv
    apply matched_goOn _ origin
    · exact ha.requests.trans hl.symm
    · apply matched_services c s origin services e _ hv ha.owner ?_ hm
      intro k
      constructor
      · rintro ⟨⟨b, hb⟩, hne⟩
        refine ⟨b, returned_before c s services e k b ha.owner he hv hb ?_⟩
        intro h' hh'
        obtain rfl : h = h' := Option.some.inj (hh.symm.trans hh')
        exact hne
      · rintro ⟨b, hb⟩
        refine ⟨⟨b, ended_stays c s.services services e k b _ ha.owner hb hv⟩, ?_⟩
        rintro rfl
        rw [ha.owner h hh] at hb
        simp at hb
  | task i e permits hp =>
    obtain ⟨t, value, phase, value', ht, -, hstep, rfl⟩ :=
      (PermitMachine.step_task s.permits permits i e).mp hp
    refine ⟨origin, hm.once, hm.covers, ?_, ?_⟩
    · rw [hm.length]
      exact (List.length_set ..).symm
    · intro j k t' hj ht'
      simp only [TaskPool.getElem?_set_of_some ht] at ht'
      by_cases hji : j = i
      · rw [if_pos hji, Option.some.injEq] at ht'
        obtain ⟨b, q, hb, hq, htb, htp⟩ := hm.tasks j k t hj (hji ▸ ht)
        subst ht'
        exact ⟨b, q, hb, hq, htb, prepared_step b q t phase value value' e hstep htp⟩
      · rw [if_neg hji] at ht'
        exact hm.tasks j k t' hj ht'

end Steps

section Runs
variable (c : Config) (s s' : State)

theorem targets_step (services services' : TransitionMachine.State) (e : TransitionMachine.Event)
    (ho : Owned services) (he : ∀ b, e ≠ .called b)
    (hv : TransitionMachine.step c services e = some services') :
    services'.calls.map TransitionMachine.Call.target =
      services.calls.map TransitionMachine.Call.target := by
  cases step_turned c services services' e hv with
  | arrived b hb hcall hs => exact absurd hcall (he b)
  | entered i b hf hw hs =>
    rw [hs]
    exact TaskPool.map_set_of_some _ hw _ rfl
  | abandoned i b hw hs =>
    rw [hs]
    exact TaskPool.map_set_of_some _ hw _ rfl
  | ended h out hh hf hc =>
    rw [hc]
    exact TaskPool.map_set_of_some _ (ho h hh) _ rfl
  | kept hc hk => rw [hc]

theorem pending_step (e : Event) (ha : Aligned s) (hs : step c s e = some s') :
    pending s' = pending s++(accepted c e).toList := by
  cases step_cases c s s' e hs with
  | answered h json hr =>
    have hn : accepted c (.posted h json) = none := by simp [accepted]
    simp [hn]
  | posted h json b path fields overrides hb hr =>
    simp only [pending, goOn_services, goOn_requests, withRequest, TransitionMachine.arrive,
      List.map_append, accepted, hr]
    exact List.zip_append (by rw [List.length_map, ha.requests])
  | free e services hv he hf =>
    have ht := targets_step c s.services services e ha.owner he hv
    simp [pending, withServices, ht, accepted]
  | held e services hv he h hh =>
    have ht := targets_step c s.services services e ha.owner he hv
    simp [pending, goOn_services, goOn_requests, withServices, ht, accepted]
  | task i e permits hp => simp [pending, accepted]

theorem aligned_init (u : Units) : Aligned (init u) :=
  ⟨rfl, fun h hh => by simp [init, TransitionMachine.init] at hh⟩

theorem pending_run (u : Units) (es : List Event) (t : State)
    (hr : run (step c) (init u) es = some t) :
    Aligned t ∧ pending t = es.filterMap (accepted c) :=
  history_run (step c) (fun _ _ => True) (init u)
    (fun es s => Aligned s ∧ pending s = es.filterMap (accepted c)) ⟨aligned_init u, rfl⟩
    (fun es e m n _ _ hm hn => by
      refine ⟨aligned_step c m n e hm.1 hn, ?_⟩
      rw [pending_step c m n e hm.1 hn, hm.2, List.filterMap_append]
      cases hacc : accepted c e <;> simp [hacc])
    t es (each_of_mem _ _ _ _ (fun _ _ => trivial)) hr

theorem matched_run (u : Units) (es : List Event) (t : State)
    (hr : run (step c) (init u) es = some t) : ∃ origin, Matched (Returned t) t origin :=
  (invariant_run (step c) (fun _ _ => True)
    (fun s => Aligned s ∧ ∃ origin, Matched (Returned s) s origin)
    (fun s e s' _ hs hstep => by
      obtain ⟨ha, origin, hm⟩ := hs
      exact ⟨aligned_step c s s' e ha hstep, matched_step c s s' origin e ha hm hstep⟩)
    (init u) t es (each_of_mem _ _ _ _ (fun _ _ => trivial))
    ⟨aligned_init u, [], List.nodup_nil, fun i => by simp [Returned, init, TransitionMachine.init],
      rfl, fun j i t' hj => by simp at hj⟩ hr).2

/-- In every reachable state the calls stand in the order of the resolved
requests, and the calls of `proxy_request` are one for each request whose
`ensure_active` has returned, with what that request is to send. -/
theorem dispatched_once (u : Units) (es : List Event) (t : State)
    (hr : run (step c) (init u) es = some t) :
    pending t = es.filterMap (accepted c) ∧ ∃ origin, Matched (Returned t) t origin :=
  ⟨(pending_run c u es t hr).2, matched_run c u es t hr⟩

end Runs

theorem two_dispatched : ∃ t,
    run (step ServiceUptime.servedConfig) (init ServiceUptime.gemmaUp)
        (ServiceUptime.inExchange++ServiceUptime.stopsOther) = some t ∧
      pending t = (ServiceUptime.inExchange++ServiceUptime.stopsOther).filterMap
        (accepted ServiceUptime.servedConfig) ∧
      ∃ origin, Matched (Returned t) t origin :=
  ⟨_, rfl, dispatched_once ServiceUptime.servedConfig ServiceUptime.gemmaUp
    (ServiceUptime.inExchange++ServiceUptime.stopsOther) _ rfl⟩

end LlRouter.RequestDispatch
