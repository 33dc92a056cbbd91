import LlRouter.PermitWedge
import LlRouter.RouterBudget

/-!
# What keeps a request from being answered

When no more requests come, the awaits that end by themselves run out. What
is left then is told exactly: no call of `ensure_active` hangs, and a request
waits for a permit only if every permit of its name was lost for good.
-/

set_option autoImplicit false

namespace LlRouter.RouterDrain
open AssocDict ControlExit LabelledRun
open LlRouter.BackendConfig LlRouter.SystemdUnits LlRouter.EnsureActive

section Permits
open LlRouter.PermitMachine

def Opened (s : State) : Prop :=
  ∀ t ∈ s.tasks, t.phase.isFinished = false → (s.semaphores.get? t.backend.name).isSome

theorem proxyRequest_opened (s : State) (b : Backend) (path : String) (body : JsonValue.Fields)
    (overrides : Option JsonValue.Json) (ho : Opened s) :
    Opened (proxyRequest s b path body overrides) := by
  have hcases : (∃ e, getSemaphore s.semaphores b = .raised e) ∨
      ∃ sems, getSemaphore s.semaphores b = .returned sems ∧ (sems.get? b.name).isSome ∧
        ∀ n, (s.semaphores.get? n).isSome → (sems.get? n).isSome := by
    unfold getSemaphore
    split
    · next hs => exact Or.inr ⟨_, rfl, hs, fun _ h => h⟩
    · split
      · exact Or.inl ⟨_, rfl⟩
      · refine Or.inr ⟨_, rfl, by simp, ?_⟩
        intro n hn
        rw [Dict.get?_set]
        split
        · rfl
        · exact hn
  intro t ht hf
  unfold proxyRequest at ht ⊢
  rcases hcases with ⟨e, he⟩ | ⟨sems, he, hb, hold⟩
  · simp only [he, List.mem_append, List.mem_singleton] at ht ⊢
    rcases ht with ht | rfl
    · exact ho t ht hf
    · cases hf
  · simp only [he, List.mem_append, List.mem_singleton] at ht ⊢
    rcases ht with ht | rfl
    · exact hold _ (ho t ht hf)
    · exact hb

theorem opened_step (s s' : State) (e : Event) (ho : Opened s) (hs : step s e = some s') :
    Opened s' := by
  cases e with
  | arrive b path body overrides =>
    obtain rfl : proxyRequest s b path body overrides = s' := Option.some.inj hs
    exact proxyRequest_opened s b path body overrides ho
  | task i e =>
    obtain ⟨t, value, p, value', ht, hv, hstep, rfl⟩ := (step_task s s' i e).mp hs
    intro t' ht' hf
    rw [Dict.get?_set]
    split
    · rfl
    · next hne =>
      rcases List.mem_or_eq_of_mem_set ht' with hold | rfl
      · exact ho t' hold hf
      · exact absurd rfl hne

theorem opened_run (es : List Event) (t : State) (hr : run step init es = some t) : Opened t :=
  invariant_run step (fun _ _ => True) Opened (fun s e s' _ ho hs => opened_step s s' e ho hs)
    init t es (each_of_mem _ _ _ _ (fun _ _ => trivial)) (fun t ht => by simp [init] at ht) hr

/-- An await that ends by itself, not because somebody gave up. -/
def answersTask : TaskEvent → Bool
  | .acquired => true
  | .upstream (.response _ _) => true
  | .upstream (.failed _) => true
  | .advanced => true
  | .ended .exhausted => true
  | .ended (.failed _) => true
  | _ => false

/-- The await of a call that is not over can end, unless it waits for a permit
and there is none. -/
theorem task_goes_on (s : State) (i : ℕ) (t : Task) (value : ℕ) (ht : s.tasks[i]? = some t)
    (hv : s.semaphores.get? t.backend.name = some value) (hf : t.phase.isFinished = false)
    (hw : t.phase = .acquiring → value ≠ 0) :
    ∃ e s', answersTask e = true ∧ step s (.task i e) = some s' := by
  have hgo : ∀ e p value', taskStep t.body t.phase value e = some (p, value') →
      ∃ s', step s (.task i e) = some s' := fun e p value' hstep =>
    ⟨_, (step_task s _ i e).mpr ⟨t, value, p, value', ht, hv, hstep, rfl⟩⟩
  cases hp : t.phase with
  | acquiring =>
    obtain ⟨free, rfl⟩ := Nat.exists_eq_succ_of_ne_zero (hw hp)
    obtain ⟨s', hs⟩ := hgo .acquired _ _ (by rw [hp]; rfl)
    exact ⟨.acquired, s', rfl, hs⟩
  | posting =>
    obtain ⟨s', hs⟩ := hgo (.upstream (.response 200 (.ok .null))) _ _ (by rw [hp]; rfl)
    exact ⟨.upstream (.response 200 (.ok .null)), s', rfl, hs⟩
  | handed =>
    obtain ⟨s', hs⟩ := hgo .advanced _ _ (by rw [hp]; rfl)
    exact ⟨.advanced, s', rfl, hs⟩
  | streaming =>
    obtain ⟨s', hs⟩ := hgo (.ended .exhausted) _ _ (by rw [hp]; rfl)
    exact ⟨.ended .exhausted, s', rfl, hs⟩
  | finished out => simp [hp, Phase.isFinished] at hf

theorem task_stays (s : State) (i : ℕ) (e : TaskEvent) (he : answersTask e = true)
    (hs : ∀ t ∈ s.tasks, t.phase.isFinished = true ∨
      t.phase = .acquiring ∧ PermitLedger.freePermits t.backend.name s = 0) :
    step s (.task i e) = none := by
  cases hr : step s (.task i e) with
  | none => rfl
  | some s' =>
    obtain ⟨t, value, p, value', ht, hv, hstep, -⟩ := (step_task s s' i e).mp hr
    rcases hs t (List.mem_of_getElem? ht) with hf | ⟨hp, hfree⟩
    · cases hp : t.phase with
      | finished out => simp [hp, taskStep] at hstep
      | _ => simp [hp, Phase.isFinished] at hf
    · obtain rfl : value = 0 := by simpa [PermitLedger.freePermits, hv] using hfree
      rw [hp] at hstep
      cases e with
      | acquireCancelled => cases he
      | _ => cases hstep

end Permits

section Services
open LlRouter.TransitionMachine

def answersService : Event → Bool
  | .locked _ => true
  | .checked .cancelled => false
  | .checked _ => true
  | .commanded .cancelled _ _ => false
  | .commanded _ _ _ => true
  | .probed _ => true
  | .woke => true
  | _ => false

variable (c : Config) (s : State) (h : Holder)

theorem check_ends (service : String) (hh : s.holder = some h)
    (hc : h.pc.checks h.target = some service)
    (hn : ∀ p, ∃ n, resume c h.target s.now h.pc (.process p) = some n) :
    ∃ e s', answersService e = true ∧ step c s e = some s' := by
  by_cases hu : s.units service = .active
  · obtain ⟨n, hn⟩ := hn ok
    refine ⟨.checked ok, proceed s h n, rfl, ?_⟩
    simp only [step, hh, holderStep, hc, Option.bind_some, advance, hn, Option.map_some]
    exact if_pos (by simp [checkEnds, ok, hu])
  · obtain ⟨n, hn⟩ := hn notActive
    refine ⟨.checked notActive, proceed s h n, rfl, ?_⟩
    simp only [step, hh, holderStep, hc, Option.bind_some, advance, hn, Option.map_some]
    exact if_pos (by simp [checkEnds, notActive, hu])

theorem command_ends (j : Job) (hh : s.holder = some h) (hj : h.job = some j)
    (hn : ∀ p, ∃ n, resume c h.target s.now h.pc (.process p) = some n) :
    ∃ e s', answersService e = true ∧ step c s e = some s' := by
  obtain ⟨n, hn⟩ := hn (.timedOut none)
  refine ⟨.commanded (.timedOut none) (s.units j.service) false,
    proceed (afterCommand s j (s.units j.service) false) h n, rfl, ?_⟩
  have hnow : (afterCommand s j (s.units j.service) false).now = s.now := rfl
  simp only [step, hh, holderStep, hj, Option.bind_some, advance, hnow, hn, Option.map_some]
  exact if_pos (by simp [commandEnds])

/-- The holder's await can end, if need be after a wait. -/
theorem holder_goes_on (hh : s.holder = some h) : ∃ now e s', s.now ≤ now ∧
    answersService e = true ∧ step c { s with now := now } e = some s' := by
  have hnow : ∀ e s', answersService e = true ∧ step c s e = some s' → ∃ now e s',
      s.now ≤ now ∧ answersService e = true ∧ step c { s with now := now } e = some s' :=
    fun e s' hs => ⟨s.now, e, s', le_refl _, hs⟩
  cases hp : h.pc with
  | checkingTarget =>
    obtain ⟨e, s', hs⟩ := check_ends c s h h.target.unit hh (by rw [hp]; rfl)
      (fun p => ⟨_, by rw [hp]; rfl⟩)
    exact hnow e s' hs
  | checkingPeer targetActive peer rest active =>
    obtain ⟨e, s', hs⟩ := check_ends c s h peer.unit hh (by rw [hp]; rfl)
      (fun p => ⟨_, by rw [hp]; rfl⟩)
    exact hnow e s' hs
  | stopping targetActive peer rest =>
    obtain ⟨e, s', hs⟩ := command_ends c s h ⟨.stop, peer.unit⟩ hh
      (by rw [Holder.job, hp]; rfl) (fun p => ⟨_, by rw [hp]; rfl⟩)
    exact hnow e s' hs
  | starting =>
    obtain ⟨e, s', hs⟩ := command_ends c s h ⟨.start, h.target.unit⟩ hh
      (by rw [Holder.job, hp]; rfl) (fun p => ⟨_, by rw [hp]; rfl⟩)
    exact hnow e s' hs
  | probing deadline =>
    obtain ⟨n, hn⟩ : ∃ n, resume c h.target s.now h.pc (.probe (.answered 200)) = some n :=
      ⟨_, by rw [hp]; rfl⟩
    refine hnow (.probed (.answered 200)) (proceed (recordProbe s h (.answered 200)) h n) ⟨rfl, ?_⟩
    simp only [step, hh, Option.bind_some, holderStep, advance, recordProbe_now, hn,
      Option.map_some]
  | sleeping deadline wake lastError =>
    refine ⟨max s.now wake, .woke, proceed { s with now := max s.now wake } h
      (pollNext (h.target.healthUrl.getD "") (max s.now wake) deadline lastError),
      le_max_left _ _, rfl, ?_⟩
    simp only [step, hh, Option.bind_some, holderStep, hp, advance, resume, Option.map_some]
    exact if_pos (le_max_right _ _)

end Services
section Router
open LlRouter.RouterMachine LlRouter.RouterBudget LlRouter.RequestDispatch LlRouter.PermitWedge

def answers : Event → Bool
  | .posted _ _ => false
  | .service e => answersService e
  | .task _ e => answersTask e

def waits : Event → Bool
  | .service (.ticked _) => true
  | _ => false

/-- However long one waits, no await ends by itself any more. -/
def Stuck (c : Config) (s : State) : Prop :=
  ∀ ws m, run (step c) s ws = some m → (∀ e ∈ ws, waits e = true) →
    ∀ e, answers e = true → step c m e = none

structure Idle (s : State) : Prop where
  free : s.services.holder = none
  calls : ∀ call ∈ s.services.calls, ∃ out, call.status = .ended out
  tasks : ∀ t ∈ s.permits.tasks, t.phase.isFinished = true ∨
    t.phase = .acquiring ∧ PermitLedger.freePermits t.backend.name s.permits = 0

variable (c : Config)

theorem service_step (s : State) (e : TransitionMachine.Event) (services : TransitionMachine.State)
    (he : ∀ b, e ≠ .called b) (hv : TransitionMachine.step c s.services e = some services) :
    ∃ s', step c s (.service e) = some s' ∧ s'.services = services := by
  have hserve : step c s (.service e) = serve c s e := by
    cases e with
    | called b => exact absurd rfl (he b)
    | _ => rfl
  rw [hserve, serve, hv, Option.map_some]
  cases s.services.holder with
  | none => exact ⟨_, rfl, rfl⟩
  | some h => exact ⟨_, rfl, goOn_services _ _⟩

theorem idle_waits (s s' : State) (e : Event) (hi : Idle s) (he : waits e = true)
    (hs : step c s e = some s') : Idle s' := by
  cases e with
  | posted handler json => cases he
  | task i e => cases he
  | service e =>
    cases e with
    | ticked now =>
      cases step_cases c s s' _ hs with
      | free _ services hv hn hf =>
        cases TransitionMachine.step_cases c s.services services _ hv with
        | ticked now hle => exact ⟨hi.free, hi.calls, hi.tasks⟩
      | held _ services hv hn h hh =>
        rw [hi.free] at hh
        cases hh
    | _ => cases he

theorem idle_stays (s : State) (e : Event) (hi : Idle s) (he : answers e = true) :
    step c s e = none := by
  cases e with
  | posted handler json => cases he
  | task i e =>
    simp only [step, task_stays s.permits i e he hi.tasks, Option.map_none]
  | service e =>
    cases hs : step c s (.service e) with
    | none => rfl
    | some s' =>
      cases step_cases c s s' _ hs with
      | held _ services hv hn h hh =>
        rw [hi.free] at hh
        cases hh
      | free _ services hv hn hf =>
        cases TransitionMachine.step_cases c s.services services e hv with
        | locked i b hfree hw =>
          obtain ⟨out, hout⟩ := hi.calls _ (List.mem_of_getElem? hw)
          cases hout
        | checked p h service n hh hc hend hnext =>
          rw [hf] at hh
          cases hh
        | commanded p after left h j n hh hj hend hnext =>
          rw [hf] at hh
          cases hh
        | probed x h deadline n hh hp hnext =>
          rw [hf] at hh
          cases hh
        | woke h deadline wake lastError n hh hp hw hnext =>
          rw [hf] at hh
          cases hh
        | _ => cases he

theorem stuck_of_idle (s : State) (hi : Idle s) : Stuck c s := by
  intro ws m hr hw e he
  have hm := invariant_run (step c) (fun _ e => waits e = true) Idle
    (fun s e s' he hi hs => idle_waits c s s' e hi he hs) s m ws
    (each_of_mem _ _ _ _ hw) hi hr
  exact idle_stays c m e hm he

/-- Whoever holds the lock or waits for it goes on, and so does an exchange. -/
theorem idle_of_stuck (s : State) (ha : TransitionCalls.Alone s.services)
    (ho : Opened s.permits) (hs : Stuck c s) : Idle s := by
  have hfree : s.services.holder = none := by
    cases hh : s.services.holder with
    | none => rfl
    | some h =>
      obtain ⟨now, e, services', hle, he, hstep⟩ := holder_goes_on c s.services h hh
      have htick : TransitionMachine.step c s.services (.ticked now) =
          some { s.services with now := now } := if_pos hle
      obtain ⟨m, hm, hmv⟩ := service_step c s (.ticked now) _ (fun b hb => by cases hb) htick
      have hcall : ∀ b, e ≠ .called b := by
        rintro b rfl
        cases he
      obtain ⟨t, ht, -⟩ := service_step c m e services' hcall (hmv ▸ hstep)
      have hnone := hs [.service (.ticked now)] m ((run_one _ _ _).trans hm)
        (fun e he => by rw [List.mem_singleton.mp he]; rfl) (.service e) he
      rw [hnone] at ht
      cases ht
  have hnow : ∀ e, answers e = true → step c s e = none :=
    hs [] s rfl (fun e he => by cases he)
  refine ⟨hfree, ?_, ?_⟩
  · intro call hcall
    obtain ⟨i, hi, hget⟩ := List.getElem_of_mem hcall
    obtain ⟨b, st⟩ := call
    have hci : s.services.calls[i]? = some ⟨b, st⟩ := by
      rw [List.getElem?_eq_getElem hi, hget]
    cases st with
    | waiting =>
      have hlock : TransitionMachine.step c s.services (.locked i) =
          some (TransitionMachine.enter s.services i b) := by
        simp [TransitionMachine.step, hfree, hci]
      obtain ⟨t, ht, -⟩ := service_step c s (.locked i) _ (fun b hb => by cases hb) hlock
      rw [hnow _ rfl] at ht
      cases ht
    | inside =>
      obtain ⟨pc, hpc⟩ := ha i b hci
      rw [hfree] at hpc
      cases hpc
    | ended out => exact ⟨out, rfl⟩
  · intro t ht
    obtain ⟨i, hi, hget⟩ := List.getElem_of_mem ht
    have hti : s.permits.tasks[i]? = some t := by rw [List.getElem?_eq_getElem hi, hget]
    cases hf : t.phase.isFinished with
    | true => exact Or.inl rfl
    | false =>
      apply Or.inr
      obtain ⟨value, hv⟩ := Option.isSome_iff_exists.mp (ho t ht hf)
      by_contra hwait
      have hw : t.phase = .acquiring → value ≠ 0 := by
        rintro hp rfl
        exact hwait ⟨hp, by simp [PermitLedger.freePermits, hv]⟩
      obtain ⟨e, permits', he, hstep⟩ := task_goes_on s.permits i t value hti hv hf hw
      have hnone := hnow (.task i e) he
      simp [step, hstep] at hnone

def permitEvents (u : Units) (es : List Event) : List PermitMachine.Event :=
  collect (step c) (permitEvent c) (init u) es

variable (u : Units) (es : List Event) (t : State)

theorem alone_run (hr : run (step c) (init u) es = some t) :
    TransitionCalls.Owned t.services ∧ TransitionCalls.Alone t.services :=
  invariant_run (TransitionMachine.step c) (fun _ _ => True)
    (fun s => TransitionCalls.Owned s ∧ TransitionCalls.Alone s)
    (fun s e s' _ hs hstep => ⟨TransitionCalls.owned_step c s s' e hs.1 hstep,
      TransitionCalls.alone_step c s s' e hs.1 hs.2 hstep⟩)
    _ t.services _ (each_of_mem _ _ _ _ (fun _ _ => trivial))
    ⟨fun h hh => by simp [init, TransitionMachine.init] at hh,
      fun i b hi => by simp [init, TransitionMachine.init] at hi⟩
    (services_run c (init u) t es hr)

theorem stuck_iff_idle (hr : run (step c) (init u) es = some t) : Stuck c t ↔ Idle t :=
  ⟨idle_of_stuck c t (alone_run c u es t hr).2 (opened_run _ _ (permits_run c (init u) t es hr)),
    stuck_of_idle c t⟩

/-- A run has come to rest exactly when every call of `ensure_active` is over
and every call of `proxy_request` is over too or waits for a name whose
permits were all dropped. -/
theorem stuck_iff_lost (hr : run (step c) (init u) es = some t) :
    Stuck c t ↔ (∀ call ∈ t.services.calls, ∃ out, call.status = .ended out) ∧
      ∀ task ∈ t.permits.tasks, task.phase.isFinished = true ∨
        task.phase = .acquiring ∧ Lost task.backend.name (permitEvents c u es) := by
  have hlost : ∀ n, Lost n (permitEvents c u es) ↔
      PermitLedger.freePermits n t.permits = 0 ∧ PermitMachine.holders n t.permits = 0 :=
    fun n => lost_iff n _ t.permits (permits_run c (init u) t es hr)
  rw [stuck_iff_idle c u es t hr]
  constructor
  · intro hi
    refine ⟨hi.calls, ?_⟩
    intro task htask
    rcases hi.tasks task htask with hf | ⟨hp, hfree⟩
    · exact Or.inl hf
    · refine Or.inr ⟨hp, (hlost _).mpr ⟨hfree, List.countP_eq_zero.mpr ?_⟩⟩
      intro x hx
      rcases hi.tasks x hx with hxf | ⟨hxp, -⟩
      · cases hph : x.phase with
        | finished out => simp [PermitMachine.Task.holdsFor, hph, PermitMachine.Phase.holds]
        | _ => simp [hph, PermitMachine.Phase.isFinished] at hxf
      · simp [PermitMachine.Task.holdsFor, hxp, PermitMachine.Phase.holds]
  · rintro ⟨hcalls, htasks⟩
    refine ⟨?_, hcalls, ?_⟩
    · cases hh : t.services.holder with
      | none => rfl
      | some h =>
        have hin := (alone_run c u es t hr).1 h hh
        obtain ⟨out, hout⟩ := hcalls _ (List.mem_of_getElem? hin)
        cases hout
    · intro task htask
      rcases htasks task htask with hf | ⟨hp, hl⟩
      · exact Or.inl hf
      · exact Or.inr ⟨hp, ((hlost _).mp hl).1⟩

theorem answers_ends (e : Event) (he : answers e = true) : ends e = true := by
  cases e with
  | posted handler json => cases he
  | service e => cases e <;> first | rfl | cases he
  | task i e => cases e <;> first | rfl | cases he

theorem not_stuck (s : State) (h : ¬ Stuck c s) : ∃ fs t, run (step c) s fs = some t ∧
    (∀ e ∈ fs, answers e = true ∨ waits e = true) ∧
      1 ≤ tally (step c) (fun _ e => ends e) s fs := by
  simp only [Stuck, not_forall] at h
  obtain ⟨ws, m, hm, hw, e, he, hstep⟩ := h
  obtain ⟨t, ht⟩ := Option.ne_none_iff_exists'.mp hstep
  refine ⟨ws++[e], t, (run_snoc _ _ _ _ _).mpr ⟨m, hm, ht⟩, ?_, ?_⟩
  · intro x hx
    rcases List.mem_append.mp hx with hx | hx
    · exact Or.inr (hw x hx)
    · rw [List.mem_singleton.mp hx]
      exact Or.inl he
  · rw [tally_snoc _ _ _ m _ _ hm, if_pos (answers_ends e he)]
    omega

theorem accepted_none (fs : List Event) (h : ∀ e ∈ fs, answers e = true ∨ waits e = true) :
    fs.filterMap (accepted c) = [] := by
  rw [List.filterMap_eq_nil_iff]
  intro e he
  cases e with
  | posted handler json => rcases h _ he with h | h <;> cases h
  | _ => rfl

/-- From every reachable state the router can come to rest: its calls and
exchanges have only to be answered, and there are finitely many answers left. -/
theorem always_drains (hr : run (step c) (init u) es = some t) :
    ∃ fs t', run (step c) t fs = some t' ∧ (∀ e ∈ fs, answers e = true ∨ waits e = true) ∧
      Stuck c t' := by
  -- `k` bounds the answers that are left.
  obtain ⟨k, hk⟩ : ∃ k, ((es.filterMap (accepted c)).map (requestCost c)).sum ≤
      tally (step c) (fun _ e => ends e) (init u) es+k := ⟨_, Nat.le_add_left _ _⟩
  induction k generalizing es t with
  | zero =>
    refine ⟨[], t, rfl, by simp, ?_⟩
    by_contra hstuck
    obtain ⟨fs, m, hm, hfs, hone⟩ := not_stuck c t hstuck
    have hrun := (run_append _ _ _ _ _).mpr ⟨t, hr, hm⟩
    have hle := ended_le c u (es++fs) m hrun
    rw [allowed_eq c u (es++fs) m hrun, tally_append _ _ _ t _ _ hr, List.filterMap_append,
      accepted_none c fs hfs, List.append_nil] at hle
    omega
  | succ k ih =>
    by_cases hstuck : Stuck c t
    · exact ⟨[], t, rfl, by simp, hstuck⟩
    · obtain ⟨fs, m, hm, hfs, hone⟩ := not_stuck c t hstuck
      obtain ⟨gs, t', ht', hgs, hend⟩ := ih (es++fs) m
        ((run_append _ _ _ _ _).mpr ⟨t, hr, hm⟩) (by
          rw [tally_append _ _ _ t _ _ hr, List.filterMap_append, accepted_none c fs hfs,
            List.append_nil]
          omega)
      refine ⟨fs++gs, t', (run_append _ _ _ _ _).mpr ⟨m, hm, ht'⟩, ?_, hend⟩
      intro e he
      rcases List.mem_append.mp he with he | he
      · exact hfs e he
      · exact hgs e he

def droppedThenOne : List Event :=
  [.posted .chat (.returned (.obj [("model", .str "gemma-31b-cpu"), ("stream", .bool true)])),
    .task 0 .acquired, .task 0 .dropped,
    .posted .chat (.returned (.obj [("model", .str "gemma-31b-cpu")]))]

theorem second_waits : ∃ t,
    run (step RequestBody.gemmaConfig) (init fun _ => .inactive) droppedThenOne = some t ∧
      Stuck RequestBody.gemmaConfig t ∧
      t.permits.tasks.map PermitMachine.Task.phase = [.finished .dropped, .acquiring] := by
  have hlost : Lost "gemma-31b-cpu" (permitEvents RequestBody.gemmaConfig (fun _ => .inactive)
      droppedThenOne) := by
    unfold Lost
    rfl
  have hcalls : ((run (step RequestBody.gemmaConfig) (init fun _ => .inactive)
      droppedThenOne).map (fun t => t.services.calls.map TransitionMachine.Call.status)) =
      some [.ended (.returned ()), .ended (.returned ())] := by rfl
  have htasks : ((run (step RequestBody.gemmaConfig) (init fun _ => .inactive)
      droppedThenOne).map (fun t => t.permits.tasks.map (fun k => (k.backend.name, k.phase)))) =
      some [("gemma-31b-cpu", .finished .dropped), ("gemma-31b-cpu", .acquiring)] := by rfl
  obtain ⟨t, hr, ht⟩ := Option.map_eq_some_iff.mp htasks
  rw [hr, Option.map_some, Option.some.injEq] at hcalls
  have hstuck := (stuck_iff_lost RequestBody.gemmaConfig (fun _ => .inactive) droppedThenOne t
    hr).mpr ⟨?_, ?_⟩
  · refine ⟨t, hr, hstuck, ?_⟩
    have hphases := congrArg (List.map Prod.snd) ht
    rwa [List.map_map] at hphases
  · intro call hcall
    have hmem := List.mem_map_of_mem (f := TransitionMachine.Call.status) hcall
    rw [hcalls] at hmem
    exact ⟨.returned (), by simpa using hmem⟩
  · intro task htask
    have hmem := List.mem_map_of_mem
      (f := fun k : PermitMachine.Task => (k.backend.name, k.phase)) htask
    rw [ht] at hmem
    simp only [List.mem_cons, Prod.mk.injEq, List.not_mem_nil, or_false] at hmem
    rcases hmem with ⟨-, hp⟩ | ⟨hn, hp⟩
    · exact Or.inl (by rw [hp]; rfl)
    · exact Or.inr ⟨hp, hn ▸ hlost⟩

theorem swap_drains : ∃ t, run (step ServiceUptime.servedConfig) (init ServiceUptime.gemmaUp)
      (ServiceUptime.inExchange++ServiceUptime.stopsOther) = some t ∧
    ∃ fs t', run (step ServiceUptime.servedConfig) t fs = some t' ∧
      (∀ e ∈ fs, answers e = true ∨ waits e = true) ∧ Stuck ServiceUptime.servedConfig t' :=
  ⟨_, rfl, always_drains ServiceUptime.servedConfig ServiceUptime.gemmaUp
    (ServiceUptime.inExchange++ServiceUptime.stopsOther) _ rfl⟩

end Router
end LlRouter.RouterDrain
