import LlRouter.LastCall
import LlRouter.RequestDispatch
import LlRouter.ServiceErrors

/-!
# The units a run can touch

Commands are issued for the target of a call and for its peers, and no unit
moves without a command's job. So whatever the commands do, whenever they time
out and whatever they leave behind, a run touches no unit but those of the
backends its requests resolved to and of these backends' groups.
-/

set_option autoImplicit false

namespace LlRouter.CommandScope
open ControlExit LabelledRun RivalClaims
open LlRouter.BackendConfig LlRouter.SystemdUnits LlRouter.EnsureActive
open LlRouter.TransitionMachine LlRouter.TransitionCalls LlRouter.LastCall LlRouter.ServiceErrors

def Within (c : Config) (ts : List Backend) (x : String) : Prop :=
  ∃ t ∈ ts, Concerns Backend.unit (peerUnits c) x t

def service : Entry → Option String
  | .stopping x => some x
  | .starting x => some x
  | .healthy _ _ => none

def targets (s : State) : List Backend := s.calls.map Call.target

structure Scoped (c : Config) (u : Units) (s : State) : Prop where
  owned : Owned s
  locals : ∀ h, s.holder = some h → Locals c h.target (fun _ _ => True) h.pc
  jobs : ∀ j ∈ s.leftJobs, Within c (targets s) j.service
  log : ∀ e ∈ s.log, ∀ x ∈ service e, Within c (targets s) x
  units : ∀ x, ¬ Within c (targets s) x → s.units x = u x

section Scopes
variable (c : Config) (s s' : State) (e : Event)

theorem within_mono (ts ts' : List Backend) (x : String) (ht : ts ⊆ ts') (h : Within c ts x) :
    Within c ts' x := by
  obtain ⟨t, hmem, hx⟩ := h
  exact ⟨t, ht hmem, hx⟩

theorem targets_grow (ho : Owned s) (hs : step c s e = some s') : targets s ⊆ targets s' := by
  cases e with
  | called b =>
    simp only [step, Option.ite_none_right_eq_some, Option.some.injEq] at hs
    obtain ⟨-, rfl⟩ := hs
    simp [targets, arrive]
  | _ =>
    have hsame : targets s' = targets s := RequestDispatch.targets_step c s s' _ ho (by simp) hs
    rw [hsame]
    exact List.Subset.refl _

theorem holder_target (h : Holder) (ho : Owned s) (hh : s.holder = some h) :
    h.target ∈ targets s :=
  List.mem_map.mpr ⟨_, List.mem_of_getElem? (ho h hh), rfl⟩

theorem job_within (h : Holder) (j : Job) (hj : h.job = some j) (ho : Owned s)
    (hh : s.holder = some h) (hl : Locals c h.target (fun _ _ => True) h.pc) :
    Within c (targets s) j.service := by
  refine ⟨h.target, holder_target s h ho hh, ?_⟩
  unfold Holder.job at hj
  cases hp : h.pc with
  | stopping targetActive peer rest =>
    rw [hp] at hj hl
    obtain rfl : ⟨.stop, peer.unit⟩ = j := Option.some.inj hj
    exact Or.inr ⟨peer, hl peer (by simp), rfl⟩
  | starting =>
    rw [hp] at hj
    obtain rfl : ⟨.start, h.target.unit⟩ = j := Option.some.inj hj
    exact Or.inl rfl
  | _ =>
    rw [hp] at hj
    cases hj

theorem unfinished_within (u : Units) (j : Job) (hs : Scoped c u s) (hj : j ∈ unfinished s) :
    Within c (targets s) j.service := by
  simp only [unfinished, List.mem_append, Option.mem_toList, Option.bind_eq_some_iff] at hj
  rcases hj with ⟨h, hh, hj⟩ | hj
  · exact job_within c s h j hj hs.owned hh (hs.locals h hh)
  · exact hs.jobs j hj

theorem issued_within (h : Holder) (pc : Pc) (ho : Owned s) (hh : s.holder = some h)
    (hl : Locals c h.target (fun _ _ => True) pc) (entry : Entry)
    (he : entry ∈ issued h.target pc) (x : String) (hx : x ∈ service entry) :
    Within c (targets s) x := by
  refine ⟨h.target, holder_target s h ho hh, ?_⟩
  cases pc with
  | stopping targetActive peer rest =>
    obtain rfl := List.mem_singleton.mp he
    obtain rfl : peer.unit = x := Option.some.inj hx
    exact Or.inr ⟨peer, hl peer (by simp), rfl⟩
  | starting =>
    obtain rfl := List.mem_singleton.mp he
    obtain rfl : h.target.unit = x := Option.some.inj hx
    exact Or.inl rfl
  | _ => cases he

theorem scoped_proceed (u : Units) (s₁ : State) (h : Holder) (r : Reply) (n : Next)
    (hs : Scoped c u s) (hh : s.holder = some h) (hn : resume c h.target s.now h.pc r = some n)
    (ho : Owned (proceed s₁ h n)) (ht : targets s ⊆ targets (proceed s₁ h n))
    (hj : ∀ j ∈ s₁.leftJobs, Within c (targets s) j.service)
    (hl : ∀ e ∈ s₁.log, ∀ x ∈ service e, Within c (targets s) x)
    (hu : ∀ x, ¬ Within c (targets s) x → s₁.units x = u x) :
    Scoped c u (proceed s₁ h n) := by
  have hf := follows_resume c h.target (fun _ _ => True) s.now h.pc r n (hs.locals h hh) hn trivial
  have hunits : ∀ x, ¬ Within c (targets (proceed s₁ h n)) x → s₁.units x = u x := fun x hx =>
    hu x (fun hw => hx (within_mono c _ _ x ht hw))
  cases n with
  | await pc =>
    refine ⟨ho, ?_, fun j hm => within_mono c _ _ _ ht (hj j hm), ?_, hunits⟩
    · intro k hk
      obtain rfl := Option.some.inj hk
      exact hf
    · intro e he x hx
      rcases List.mem_append.mp he with hnew | hold
      · exact within_mono c _ _ x ht (issued_within c s h pc hs.owned hh hf e hnew x hx)
      · exact within_mono c _ _ x ht (hl e hold x hx)
  | done out =>
    refine ⟨ho, ?_, fun j hm => within_mono c _ _ _ ht (hj j hm),
      fun e he x hx => within_mono c _ _ x ht (hl e he x hx), hunits⟩
    intro k hk
    cases hk

theorem scoped_step (u : Units) (hs : Scoped c u s) (hr : step c s e = some s') :
    Scoped c u s' := by
  have ho := owned_step c s s' e hs.owned hr
  have ht := targets_grow c s s' e hs.owned hr
  have hin : ∀ x, Within c (targets s) x → Within c (targets s') x := fun x =>
    within_mono c _ _ x ht
  have hunits : s'.units = s.units → ∀ x, ¬ Within c (targets s') x → s'.units x = u x := by
    intro hu x hx
    rw [hu]
    exact hs.units x (fun hw => hx (hin x hw))
  cases step_cases c s s' e hr with
  | called b hb =>
    exact ⟨ho, hs.locals, fun j hj => hin _ (hs.jobs j hj),
      fun e he x hx => hin x (hs.log e he x hx), hunits rfl⟩
  | locked k b hf hw =>
    refine ⟨ho, ?_, fun j hj => hin _ (hs.jobs j hj),
      fun e he x hx => hin x (hs.log e he x hx), hunits rfl⟩
    intro h hh
    obtain rfl := Option.some.inj hh
    trivial
  | gaveUp k b hw =>
    exact ⟨ho, hs.locals, fun j hj => hin _ (hs.jobs j hj),
      fun e he x hx => hin x (hs.log e he x hx), hunits rfl⟩
  | checked p h service n hh hc he hn =>
    exact scoped_proceed c s u s h _ n hs hh hn ho ht hs.jobs hs.log hs.units
  | commanded p after left h j n hh hj he hn =>
    have hjob := job_within c s h j hj hs.owned hh (hs.locals h hh)
    refine scoped_proceed c s u _ h _ n hs hh hn ho ht ?_ hs.log ?_
    · intro k hk
      simp only [afterCommand] at hk
      split at hk
      · rcases List.mem_cons.mp hk with rfl | hold
        · exact hjob
        · exact hs.jobs k hold
      · exact hs.jobs k hk
    · intro x hx
      have hne : x ≠ j.service := fun hxj => hx (hxj ▸ hjob)
      simp only [afterCommand, Function.update_of_ne hne]
      exact hs.units x hx
  | probed x h deadline n hh hp hn =>
    have hlog : ∀ e ∈ (recordProbe s h x).log, ∀ y ∈ service e, Within c (targets s) y := by
      intro e he y hy
      cases x with
      | answered status =>
        simp only [recordProbe] at he
        split at he
        · rcases List.mem_cons.mp he with rfl | hold
          · cases hy
          · exact hs.log e hold y hy
        · exact hs.log e he y hy
      | failed cls => exact hs.log e he y hy
    obtain ⟨log, hrecord⟩ := recordProbe_log s h x
    rw [hrecord] at ho ht hlog ⊢
    exact scoped_proceed c s u _ h _ n hs hh hn ho ht hs.jobs hlog hs.units
  | woke h deadline wake lastError n hh hp hw hn =>
    exact scoped_proceed c s u s h _ n hs hh hn ho ht hs.jobs hs.log hs.units
  | interrupted h hh hp =>
    exact scoped_proceed c s u s h _ _ hs hh (resume_cancelled c h s.now hp) ho ht hs.jobs hs.log
      hs.units
  | moved service after j hj hjs hm =>
    have hjob := unfinished_within c s u j hs hj
    refine ⟨ho, hs.locals, hs.jobs, hs.log, ?_⟩
    intro x hx
    have hne : x ≠ service := by
      rintro rfl
      exact hx (hjs ▸ hjob)
    simp only [Function.update_of_ne hne]
    exact hs.units x hx
  | jobEnded k j hk =>
    exact ⟨ho, hs.locals, fun j hj => hs.jobs j (List.mem_of_mem_eraseIdx hj), hs.log, hs.units⟩
  | ticked now hn => exact ⟨ho, hs.locals, hs.jobs, hs.log, hs.units⟩

end Scopes

section Router
variable (c : Config) (u : Units)

theorem scoped_run (es : List Event) (s : State) (hr : run (step c) (init u) es = some s) :
    Scoped c u s :=
  invariant_run (step c) (fun _ _ => True) (Scoped c u)
    (fun s e s' _ hs hstep => scoped_step c s s' e u hs hstep) (init u) s es
    (each_of_mem _ _ _ _ (fun _ _ => trivial))
    ⟨fun h hh => by simp [init] at hh, fun h hh => by simp [init] at hh,
      fun j hj => by simp [init] at hj, fun e he => by simp [init] at he, fun x _ => rfl⟩ hr

/-- The calls' targets are the backends the requests were resolved to. -/
theorem targets_accepted (es : List RouterMachine.Event) (t : RouterMachine.State)
    (hr : run (RouterMachine.step c) (RouterMachine.init u) es = some t) :
    targets t.services = (es.filterMap (RequestDispatch.accepted c)).map Prod.fst := by
  obtain ⟨ha, hp⟩ := RequestDispatch.pending_run c u es t hr
  rw [← hp, RequestDispatch.pending, List.map_fst_zip]
  · rfl
  · rw [List.length_map, ha.requests]

/-- In every run the commands issued are for, and the units that move are,
units of a backend some request was resolved to or of one of its peers. -/
theorem touches_only (es : List RouterMachine.Event) (t : RouterMachine.State)
    (hr : run (RouterMachine.step c) (RouterMachine.init u) es = some t) (x : String)
    (hx : t.services.units x ≠ u x ∨ ∃ e ∈ t.services.log, service e = some x) :
    ∃ p ∈ es.filterMap (RequestDispatch.accepted c),
      x = p.1.unit ∨ ∃ b ∈ peersInGroup c p.1, b.unit = x := by
  have hs := scoped_run c u _ t.services (RouterMachine.services_run c _ t es hr)
  have hwithin : Within c (targets t.services) x := by
    rcases hx with hmoved | ⟨e, he, hservice⟩
    · by_contra hn
      exact hmoved (hs.units x hn)
    · exact hs.log e he x hservice
  obtain ⟨b, hb, hc⟩ := hwithin
  rw [targets_accepted c u es t hr] at hb
  obtain ⟨p, hp, rfl⟩ := List.mem_map.mp hb
  exact ⟨p, hp, hc⟩

end Router

theorem swap_touches : ∃ t, run (RouterMachine.step ServiceUptime.servedConfig)
      (RouterMachine.init ServiceUptime.gemmaUp)
      (ServiceUptime.inExchange++ServiceUptime.stopsOther) = some t ∧
    ∃ p ∈ (ServiceUptime.inExchange++ServiceUptime.stopsOther).filterMap
        (RequestDispatch.accepted ServiceUptime.servedConfig),
      "llama-server-26b.service" = p.1.unit ∨
        ∃ b ∈ peersInGroup ServiceUptime.servedConfig p.1,
          b.unit = "llama-server-26b.service" :=
  ⟨_, rfl, touches_only ServiceUptime.servedConfig ServiceUptime.gemmaUp
    (ServiceUptime.inExchange++ServiceUptime.stopsOther) _ rfl "llama-server-26b.service"
    (Or.inl (by decide))⟩

end LlRouter.CommandScope
