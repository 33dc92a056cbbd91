import LlRouter.TransitionCalls
import LlRouter.TransitionHold

/-!
# A transition that fails makes nothing worse

A call may break off at any of its awaits, its last command half done. The
units it leaves then are those of its position in the code, with the unit of
that command left open. Before the start only peers that were running are
touched; from the start on no peer is running any more.
-/

set_option autoImplicit false

namespace LlRouter.FailedTransition
open ControlExit LabelledRun
open LlRouter.BackendConfig LlRouter.SystemdUnits LlRouter.EnsureActive
open LlRouter.TransitionMachine LlRouter.TransitionCalls LlRouter.TransitionTrack
open LlRouter.TransitionHold

inductive Halfway (c : Config) (t : Backend) (u u' : Units) : Prop
  | stopping (stopped current : List Backend)
      (hm : ∀ b ∈ stopped++current, b ∈ activePeers c t u)
      (hu : ∀ x, x ∉ current.map Backend.unit → u' x = stopAll stopped u x)
  | starting (hu : ∀ x, x ≠ t.unit → u' x = stopAll (activePeers c t u) u x)

structure NoWorse (c : Config) (t : Backend) (u : Units) (l : List Entry) (s' : State) : Prop where
  others : ∀ x, x ≠ t.unit → (∀ b ∈ c.backends, b.mutexGroup = t.mutexGroup → b.unit ≠ x) →
    s'.units x = u x
  started : ∃ new, commands s'.log = new++l ∧ ∀ x, .starting x ∈ new → x = t.unit
  broughtUp : ∀ x, x ≠ t.unit → s'.units x = .active → u x = .active
  contention : t.mutexGroup.getD "" ≠ "" →
    (∀ b ∈ c.backends, b.mutexGroup = t.mutexGroup → b.unit ≠ "" →
      s'.units b.unit = .active → u b.unit = .active) ∨
    (∀ b ∈ c.backends, b.mutexGroup = t.mutexGroup → b.unit ≠ "" →
      s'.units b.unit = .active → b.unit = t.unit)
  free : s'.holder = none
  proceeds : ∀ (k : ℕ) b, s'.calls[k]? = some ⟨b, .waiting⟩ →
    step c s' (.locked k) = some (enter s' k b)

section Positions
variable (c : Config) (t : Backend) (u u' : Units) (l₀ l : List Entry) (pc : Pc)

theorem track_halfway (ht : Track c t u l₀ u' l pc) : Halfway c t u u' := by
  have hdone : u' = final c t u → Halfway c t u u' := by
    intro hu
    apply Halfway.starting
    intro x hx
    rw [hu, final, Function.update_of_ne hx]
  have hnone : u' = u → Halfway c t u u' := by
    intro hu
    apply Halfway.stopping [] [] (by simp)
    intro x _
    rw [hu, stopAll_nil]
  cases pc with
  | checkingTarget => exact hnone ht.1
  | checkingPeer targetActive peer rest active => exact hnone ht.1
  | stopping targetActive peer rest =>
    obtain ⟨-, stopped, hact, -, hu⟩ := ht
    apply Halfway.stopping stopped [peer]
    · intro b hb
      rw [hact]
      rcases List.mem_append.mp hb with hb | hb
      · exact List.mem_append_left _ hb
      · simp [List.mem_singleton.mp hb]
    · intro x hx
      exact hu x (by simpa using hx)
  | starting => exact .starting ht.2.2
  | probing deadline => exact hdone ht.1
  | sleeping deadline wake lastError => exact hdone ht.1

theorem starting_not_mem_stops (bs : List Backend) (x : String) : .starting x ∉ stops bs := by
  simp [stops]

/-- The only start command of a call is the one for its target. -/
theorem track_started (ht : Track c t u l₀ u' l pc) :
    ∃ new, l = new++l₀ ∧ ∀ x, .starting x ∈ new → x = t.unit := by
  have hstop : ∀ bs x, .starting x ∈ stops bs → x = t.unit := by
    intro bs x hx
    exact absurd hx (starting_not_mem_stops bs x)
  have hdone : ∀ x, .starting x ∈ transitionLog c t u → x = t.unit := by
    intro x hx
    rcases List.mem_append.mp hx with hstart | hx
    · split at hstart
      · cases hstart
      · simpa using hstart
    · exact hstop _ x hx
  cases pc with
  | checkingTarget => exact ⟨[], ht.2, by simp⟩
  | checkingPeer targetActive peer rest active => exact ⟨[], ht.2.1, by simp⟩
  | stopping targetActive peer rest =>
    obtain ⟨-, stopped, -, hl, -⟩ := ht
    exact ⟨_, hl, hstop _⟩
  | starting =>
    refine ⟨.starting t.unit::stops (activePeers c t u), ht.2.1, ?_⟩
    intro x hx
    rcases List.mem_cons.mp hx with hstart | hx
    · exact Entry.starting.inj hstart
    · exact hstop _ x hx
  | probing deadline => exact ⟨_, ht.2, hdone⟩
  | sleeping deadline wake lastError => exact ⟨_, ht.2, hdone⟩

theorem stopAll_active (bs : List Backend) (x : String) (h : stopAll bs u x = .active) :
    u x = .active := by
  unfold stopAll at h
  split at h
  · cases h
  · exact h

theorem mem_activePeers (b : Backend) (h : b ∈ activePeers c t u) :
    b ∈ c.backends ∧ b.mutexGroup = t.mutexGroup ∧ u b.unit = .active := by
  obtain ⟨hp, hon⟩ := List.mem_filter.mp h
  have hmem := mem_peersInGroup c t b hp
  exact ⟨hmem.1, hmem.2.1, by simpa [on] using hon⟩

theorem halfway_others (hh : Halfway c t u u') (x : String) (hx : x ≠ t.unit)
    (ho : ∀ b ∈ c.backends, b.mutexGroup = t.mutexGroup → b.unit ≠ x) : u' x = u x := by
  have hn : ∀ bs : List Backend, (∀ b ∈ bs, b ∈ activePeers c t u) →
      x ∉ bs.map Backend.unit := by
    intro bs hbs hm
    obtain ⟨b, hb, he⟩ := List.mem_map.mp hm
    have hpeer := mem_activePeers c t u b (hbs b hb)
    exact ho b hpeer.1 hpeer.2.1 he
  cases hh with
  | stopping stopped current hm hu =>
    have hcurrent := hn current (fun b hb => hm b (List.mem_append_right stopped hb))
    have hstopped := hn stopped (fun b hb => hm b (List.mem_append_left current hb))
    rw [hu x hcurrent, stopAll, if_neg hstopped]
  | starting hu => rw [hu x hx, stopAll, if_neg (hn _ (fun b hb => hb))]

/-- Before the start nothing is up that was not up before. -/
theorem stopping_active (stopped current : List Backend)
    (hm : ∀ b ∈ stopped++current, b ∈ activePeers c t u)
    (hu : ∀ x, x ∉ current.map Backend.unit → u' x = stopAll stopped u x) (x : String)
    (hx : u' x = .active) : u x = .active := by
  by_cases hc : x ∈ current.map Backend.unit
  · obtain ⟨b, hb, he⟩ := List.mem_map.mp hc
    have hpeer := mem_activePeers c t u b (hm b (List.mem_append_right stopped hb))
    rw [← he]
    exact hpeer.2.2
  · rw [hu x hc] at hx
    exact stopAll_active u stopped x hx

theorem halfway_broughtUp (hh : Halfway c t u u') (x : String) (hx : x ≠ t.unit)
    (ha : u' x = .active) : u x = .active := by
  cases hh with
  | stopping stopped current hm hu => exact stopping_active c t u u' stopped current hm hu x ha
  | starting hu =>
    rw [hu x hx] at ha
    exact stopAll_active u _ x ha

/-- Once the start is issued every peer is down. -/
theorem starting_alone (hg : t.mutexGroup.getD "" ≠ "")
    (hu : ∀ x, x ≠ t.unit → u' x = stopAll (activePeers c t u) u x) (b : Backend)
    (hb : b ∈ c.backends) (hm : b.mutexGroup = t.mutexGroup) (hs : b.unit ≠ "")
    (ha : u' b.unit = .active) : b.unit = t.unit := by
  by_contra hne
  rw [hu b.unit hne] at ha
  have hup := stopAll_active u _ b.unit ha
  have hpeer := peersInGroup_of_mem c t b hb hg hm hs hne
  have hact : b ∈ activePeers c t u := List.mem_filter.mpr ⟨hpeer, by simp [on, hup]⟩
  have hdown : b.unit ∈ (activePeers c t u).map Backend.unit := List.mem_map.mpr ⟨b, hact, rfl⟩
  rw [stopAll, if_pos hdown] at ha
  cases ha

end Positions

theorem noWorse_track (c : Config) (t : Backend) (u : Units) (l : List Entry) (s' : State)
    (pc : Pc) (hf : s'.holder = none) (ht : Track c t u l s'.units (commands s'.log) pc) :
    NoWorse c t u l s' := by
  have hh := track_halfway c t u s'.units l _ pc ht
  constructor
  · exact halfway_others c t u s'.units hh
  · exact track_started c t u s'.units l _ pc ht
  · exact halfway_broughtUp c t u s'.units hh
  · intro hg
    cases hh with
    | stopping stopped current hm hu =>
      apply Or.inl
      intro b _ _ _ ha
      exact stopping_active c t u s'.units stopped current hm hu b.unit ha
    | starting hu =>
      apply Or.inr
      intro b hb hm hs ha
      exact starting_alone c t u s'.units hg hu b hb hm hs ha
  · exact hf
  · intro k b hk
    simp [step, hf, hk]

inductive Course (c : Config) (i : ℕ) (u : Units) (l : List Entry) (s : State) : Prop
  | outside (hf : s.holder = none) (hj : s.leftJobs = []) (hu : s.units = u)
      (hl : commands s.log = l)
  | within (t : Backend) (hh : Held c i t u l s)
  | left (t : Backend) (out : Exit Unit) (pc : Pc) (hf : s.holder = none)
      (hj : s.leftJobs = []) (hc : s.calls[i]? = some ⟨t, .ended out⟩)
      (ht : Track c t u l s.units (commands s.log) pc)

section Alone
variable (c : Config) (i : ℕ) (u : Units) (l : List Entry) (s s' : State) (e : Event)

/-- The step in which the call leaves moves no unit but that of its command. -/
theorem left_step (t : Backend) (hh : Held c i t u l s) (hs : step c s e = some s')
    (hf : s'.holder = none) : ∃ pc, Track c t u l s'.units (commands s'.log) pc := by
  obtain ⟨pc, hpc, hj, ht⟩ := hh
  have hleft : ∀ s₁ h n, (proceed s₁ h n).holder = none →
      Track c t u l s₁.units (commands s₁.log) pc →
      Track c t u l (proceed s₁ h n).units (commands (proceed s₁ h n).log) pc := by
    intro s₁ h n hnone htrack
    cases n with
    | await pc' => simp [proceed] at hnone
    | done out => exact htrack
  refine ⟨pc, ?_⟩
  cases step_cases c s s' e hs with
  | locked k b hnone hw => simp [hpc] at hnone
  | checked p h service n hh hc he hn => exact hleft s h n hf ht
  | commanded p after left h j n hh hjob he hn =>
    obtain rfl : ⟨i, t, pc⟩ = h := Option.some.inj (hpc.symm.trans hh)
    have hmoved := track_moved c t u l s.units _ pc j after ht hjob
    exact hleft (afterCommand s j after left) _ n hf hmoved
  | probed x h deadline n hh hp hn =>
    have hl := commands_recordProbe s h x
    obtain ⟨log, hlog⟩ := recordProbe_log s h x
    rw [hlog] at hl hf ⊢
    apply hleft _ h n hf
    rw [hl]
    exact ht
  | woke h deadline wake lastError n hh hp hw hn => exact hleft s h n hf ht
  | interrupted h hh hp => exact hleft s h _ hf ht
  | called b hb => simp [arrive, hpc] at hf
  | gaveUp k b hw => simp [abandon, hpc] at hf
  | moved service after j hju hjs hm => simp [hpc] at hf
  | jobEnded k j hk => simp [hpc] at hf
  | ticked now hn => simp [hpc] at hf

theorem course_step (hl : ∀ j, e = .locked j → j = i) (hleft : leavesJob e = false)
    (ho : Owned s) (hs : step c s e = some s') (hc : Course c i u l s) : Course c i u l s' := by
  cases hc with
  | outside hf hj hu hlog =>
    rcases free_step c s s' e hf hj hs with ⟨hf', hj', hu', hlog'⟩ | ⟨k, b, he, hw, rfl⟩
    · exact .outside hf' hj' (hu'.trans hu) (by rw [hlog', hlog])
    · obtain rfl : k = i := hl k he
      exact .within b ⟨.checkingTarget, rfl, hj, hu, hlog⟩
  | within t hh =>
    have hover : ∀ out, (s.calls.set i ⟨t, .ended out⟩)[i]? = some ⟨t, .ended out⟩ := by
      intro out
      obtain ⟨pc, hpc, -⟩ := hh
      exact owned_ended s ⟨i, t, pc⟩ out ho hpc
    cases held_step c i t u l s s' e hh hs with
    | held hh' hi => exact .within t hh'
    | completed out hf hcalls hu hlog hn hj =>
      obtain ⟨pc, ht⟩ := left_step c i u l s s' e t hh hs hf
      exact .left t out pc hf hj (by rw [hcalls, hover]) ht
    | failed out hout hf hcalls hsucc hk hj =>
      obtain ⟨pc, ht⟩ := left_step c i u l s s' e t hh hs hf
      exact .left t out pc hf (hj hleft) (by rw [hcalls, hover]) ht
  | left t out pc hf hj hcall ht =>
    have hcall' := ended_stays c s s' e i t out ho hcall hs
    rcases free_step c s s' e hf hj hs with ⟨hf', hj', hu', hlog'⟩ | ⟨k, b, he, hw, rfl⟩
    · exact .left t out pc hf' hj' hcall' (by rw [hu', hlog']; exact ht)
    · obtain rfl : k = i := hl k he
      simp [hcall] at hw

theorem course_run (es : List Event) (hf : s.holder = none) (hj : s.leftJobs = [])
    (hl : ∀ j, .locked j ∈ es → j = i) (hleft : ∀ e ∈ es, leavesJob e = false)
    (hr : run (step c) s es = some s') :
    Owned s' ∧ Course c i s.units (commands s.log) s' := by
  apply invariant_run (step c) (fun _ e => (∀ j, e = .locked j → j = i) ∧ leavesJob e = false)
    (fun m => Owned m ∧ Course c i s.units (commands s.log) m) _ s s' es _ _ hr
  · intro m e m' he hm hs
    exact ⟨owned_step c m m' e hm.1 hs,
      course_step c i _ _ m m' e he.1 he.2 hm.1 hs hm.2⟩
  · exact each_of_mem (step c) _ s es
      (fun e he => ⟨fun j hej => hl j (hej ▸ he), hleft e he⟩)
  · exact ⟨fun h hh => by simp [hf] at hh, .outside hf hj rfl rfl⟩

end Alone

/-- A call that finds the lock free, while no other call takes it and no
command has an effect after it ended: wherever the call ends, by an exception
at any of its awaits or otherwise, it has made nothing worse. -/
theorem no_worse_at_end (c : Config) (s s' : State) (es : List Event) (i : ℕ) (t : Backend)
    (out : Exit Unit) (hf : s.holder = none) (hj : s.leftJobs = [])
    (hl : ∀ j, .locked j ∈ es → j = i) (hleft : ∀ e ∈ es, leavesJob e = false)
    (hr : run (step c) s es = some s') (hend : s'.calls[i]? = some ⟨t, .ended out⟩) :
    NoWorse c t s.units (commands s.log) s' := by
  obtain ⟨ho, hc⟩ := course_run c i s s' es hf hj hl hleft hr
  cases hc with
  | outside hf' hj' hu hlog =>
    apply noWorse_track c t s.units _ s' .checkingTarget hf'
    exact ⟨hu, hlog⟩
  | within t' hh =>
    obtain ⟨pc, hpc, -⟩ := hh
    have hin := ho _ hpc
    simp [hend] at hin
  | left t' out' pc hf' hj' hcall ht =>
    rw [hend, Option.some.injEq, Call.mk.injEq] at hcall
    rw [hcall.1]
    exact noWorse_track c t' s.units _ s' pc hf' ht

def refusesStop : List Event :=
  [.called qwenGpu, .locked 0, .checked notActive, .checked ok,
    .commanded (.exited (some 1) "Job for llama-server-26b.service failed.") .active false]

theorem no_worse_after_refused_stop :
    ∃ s', run (step gpuConfig) (init (onlyUp gemmaGpu.unit)) refusesStop = some s' ∧
      NoWorse gpuConfig qwenGpu (onlyUp gemmaGpu.unit) [] s' := by
  refine ⟨_, rfl, no_worse_at_end gpuConfig (init (onlyUp gemmaGpu.unit)) _ refusesStop 0 qwenGpu _
    rfl rfl ?_ ?_ rfl rfl⟩
  · intro j hj
    simpa [refusesStop] using hj
  · decide

end LlRouter.FailedTransition
