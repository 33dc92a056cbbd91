import LlRouter.TransitionCalls
import LlRouter.TransitionHold
import LlRouter.SequentialCalls

/-!
# Interleaved transitions are serial

Whatever the interleaving, calls whose commands all succeed act as if they had
run one after another in the order in which they took the lock. A start always
finds its unit down. A stop finds its unit up as long as no call has two
running peers with one unit between them.
-/

set_option autoImplicit false

namespace LlRouter.SerialTransitions
open ControlExit LabelledRun
open LlRouter.BackendConfig LlRouter.SystemdUnits LlRouter.EnsureActive
open LlRouter.TransitionMachine LlRouter.TransitionCalls LlRouter.TransitionTrack
open LlRouter.TransitionHold LlRouter.SequentialCalls

def lockOrder (c : Config) (s : State) (es : List Event) : List Backend :=
  collect (step c) lockTarget s es

/-- No two running peers of a call that takes the lock share a unit. -/
def PeersDistinct (c : Config) (s : State) (e : Event) : Prop :=
  ∀ t ∈ lockTarget s e, ((activePeers c t s.units).map Backend.unit).Nodup

def Apt (u : Units) : Entry → Prop
  | .stopping service => u service = .active
  | .starting service => u service = .inactive
  | .healthy _ _ => True

def IssuesApt (c : Config) (s : State) (e : Event) : Prop :=
  ∀ s', step c s e = some s' → ∃ new, commands s'.log = new++commands s.log ∧
    ∀ x ∈ new, Apt s'.units x

def Smooth (c : Config) (s : State) (e : Event) : Prop :=
  succeeds e = true ∧ PeersDistinct c s e

instance (c : Config) (s : State) (e : Event) : Decidable (PeersDistinct c s e) :=
  inferInstanceAs (Decidable (∀ t ∈ lockTarget s e, _))

instance (c : Config) (s : State) (e : Event) : Decidable (Smooth c s e) :=
  inferInstanceAs (Decidable (_ ∧ _))

inductive Ordered (c : Config) (u : Units) (es : List Event) (s : State) : Prop
  | free (hf : s.holder = none) (hj : s.leftJobs = [])
      (hr : (s.units, commands s.log) = serial c u (lockOrder c (init u) es))
  | held (i : ℕ) (t : Backend) (ts : List Backend) (ho : lockOrder c (init u) es = ts++[t])
      (hh : Held c i t (serial c u ts).1 (serial c u ts).2 s)
      (hd : ((activePeers c t (serial c u ts).1).map Backend.unit).Nodup)

section Serial
variable (c : Config) (u : Units)

theorem final_settled (t : Backend) (v : Units) (hv : ∀ x, (v x).settled) (x : String) :
    (final c t v x).settled := by
  unfold final
  by_cases hx : x = t.unit
  · subst hx
    simp [UnitState.settled]
  · rw [Function.update_of_ne hx, stopAll]
    split
    · rfl
    · exact hv x

theorem serial_settled (hu : ∀ x, (u x).settled) (ts : List Backend) (x : String) :
    ((serial c u ts).1 x).settled := by
  induction ts using List.reverseRecOn generalizing x with
  | nil => exact hu x
  | append_singleton ts t ih =>
    rw [serial_snoc]
    exact final_settled c t _ ih x

theorem lockOrder_snoc (es : List Event) (m : State) (e : Event)
    (hr : run (step c) (init u) es = some m) :
    lockOrder c (init u) (es++[e]) = lockOrder c (init u) es++(lockTarget m e).toList :=
  collect_snoc (step c) lockTarget (init u) m es e hr

theorem ordered_step (es : List Event) (e : Event) (s s' : State)
    (hr : run (step c) (init u) es = some s) (ha : Smooth c s e) (hp : Ordered c u es s)
    (hs : step c s e = some s') : Ordered c u (es++[e]) s' := by
  have hsnoc := lockOrder_snoc c u es s e hr
  cases hp with
  | free hf hj hserial =>
    rcases free_step c s s' e hf hj hs with ⟨hf', hj', hu', hl'⟩ | ⟨k, t, rfl, hw, rfl⟩
    · rw [lockTarget_none c s s' e hs (Or.inr hf'), Option.toList_none, List.append_nil] at hsnoc
      exact .free hf' hj' (by rw [hsnoc, hu', hl', hserial])
    · have ht : lockTarget s (.locked k) = some t := by simp [lockTarget, hw]
      have hd := ha.2 t ht
      have hunits : s.units = (serial c u (lockOrder c (init u) es)).1 :=
        congrArg Prod.fst hserial
      have hlog : commands s.log = (serial c u (lockOrder c (init u) es)).2 :=
        congrArg Prod.snd hserial
      rw [hunits] at hd
      have horder : lockOrder c (init u) (es++[.locked k]) = lockOrder c (init u) es++[t] := by
        rw [hsnoc, ht]
        rfl
      exact .held k t (lockOrder c (init u) es) horder
        ⟨.checkingTarget, rfl, hj, hunits, hlog⟩ hd
  | held i t ts ho hh hd =>
    have hheld : s.holder ≠ none := by
      obtain ⟨pc, hpc, -⟩ := hh
      simp [hpc]
    rw [lockTarget_none c s s' e hs (Or.inl hheld), Option.toList_none, List.append_nil] at hsnoc
    cases held_step c i t _ _ s s' e hh hs with
    | held hh' hi => exact .held i t ts (hsnoc.trans ho) hh' hd
    | completed out hf hc hu hl hn hj =>
      apply Ordered.free hf hj
      rw [hsnoc, ho, serial_snoc, hu, hl]
      rfl
    | failed out hout hf hc hsucc hk hj => simp [ha.1] at hsucc

/-- The command a call issues is apt when its running peers are distinct. -/
theorem apt_of_issues (t : Backend) (u₀ v : Units) (pc : Pc) (hu : ∀ x, (u₀ x).settled)
    (hd : ((activePeers c t u₀).map Backend.unit).Nodup) (hi : Issues c t u₀ v pc) :
    ∀ x ∈ issued t pc, Apt v x := by
  cases pc with
  | stopping targetActive peer rest =>
    obtain ⟨stopped, hp, hv⟩ := hi
    intro x hx
    obtain rfl : x = .stopping peer.unit := by simpa [issued] using hx
    have hn : peer.unit ∉ stopped.map Backend.unit := by
      rw [hp, List.map_append, List.nodup_append] at hd
      intro hm
      exact hd.2.2 _ hm _ (by simp) rfl
    have hon : on u₀ peer.unit = true := by
      have hm : peer ∈ activePeers c t u₀ := by simp [hp]
      exact (List.mem_filter.mp hm).2
    show v peer.unit = .active
    rw [hv, stopAll, if_neg hn]
    simpa [on] using hon
  | starting =>
    obtain ⟨hoff, hv⟩ := hi
    intro x hx
    obtain rfl : x = .starting t.unit := by simpa [issued] using hx
    show v t.unit = .inactive
    have hs := hu t.unit
    rw [hv]
    cases h : u₀ t.unit with
    | inactive => rfl
    | active => simp [on, h] at hoff
    | activating => simp [UnitState.settled, h] at hs
    | deactivating => simp [UnitState.settled, h] at hs
  | _ =>
    intro x hx
    simp [issued] at hx

theorem ordered_apt (hu : ∀ x, (u x).settled) (es : List Event) (e : Event) (s : State)
    (ha : Smooth c s e) (hp : Ordered c u es s) : IssuesApt c s e := by
  intro s' hs
  have hsame : commands s'.log = commands s.log → ∃ new, commands s'.log = new++commands s.log ∧
      ∀ x ∈ new, Apt s'.units x := fun h => ⟨[], h, by simp⟩
  cases hp with
  | free hf hj hserial =>
    rcases free_step c s s' e hf hj hs with ⟨-, -, -, hl⟩ | ⟨k, t, -, -, rfl⟩
    · exact hsame (by rw [hl])
    · exact hsame rfl
  | held i t ts ho hh hd =>
    cases held_step c i t _ _ s s' e hh hs with
    | held hh' hi =>
      rcases hi with hl | ⟨pc, -, hissues, hl⟩
      · exact hsame hl
      · have hset := serial_settled c u hu ts
        exact ⟨issued t pc, hl, apt_of_issues c t _ s'.units pc hset hd hissues⟩
    | completed out hf hc hu hl hn hj => exact hsame hn
    | failed out hout hf hc hsucc hk hj => simp [ha.1] at hsucc

theorem lockOrder_declared (es : List Event) (s : State)
    (hr : run (step c) (init u) es = some s) :
    ∀ t ∈ lockOrder c (init u) es, t ∈ c.backends ∧ t.unit ≠ "" := by
  have h := history_run (step c) (fun _ _ => True) (init u)
    (fun es m => Owned m ∧ Declared c m ∧
      ∀ t ∈ lockOrder c (init u) es, t ∈ c.backends ∧ t.unit ≠ "") ?_ ?_ s es
    (each_of_mem (step c) (fun _ => True) (init u) es (fun _ _ => trivial)) hr
  · exact h.2.2
  · refine ⟨fun h hh => ?_, fun i b st hc => ?_, fun t ht => ?_⟩
    · simp [init] at hh
    · simp [init] at hc
    · simp [lockOrder, collect] at ht
  · rintro es e m m' hm - ⟨ho, hd, hall⟩ hs
    refine ⟨owned_step c m m' e ho hs, declared_step c m m' e ho hd hs, fun t ht => ?_⟩
    rw [lockOrder_snoc c u es m e hm, List.mem_append] at ht
    rcases ht with hold | hnew
    · exact hall t hold
    · rw [Option.mem_toList] at hnew
      cases e with
      | locked i =>
        cases hc : m.calls[i]? with
        | none => simp [lockTarget, hc] at hnew
        | some call =>
          obtain rfl : call.target = t := by simpa [lockTarget, hc] using hnew
          cases step_cases c m m' _ hs with
          | locked i b hf hw =>
            obtain rfl : ⟨b, .waiting⟩ = call := Option.some.inj (hw.symm.trans hc)
            have hb := hd i b .waiting hw
            exact ⟨hb.1, hb.2 rfl⟩
      | _ => simp [lockTarget] at hnew

end Serial

/-- In a run whose checks are answered and whose commands succeed, and in which
no call that takes the lock finds two running peers with one unit, every
command is apt when issued; and once the lock is free the units and the
commands are those of the same calls run one after another in lock order. -/
theorem serial_in_lock_order (c : Config) (u : Units) (es : List Event) (s : State)
    (hu : ∀ x, (u x).settled) (ha : Each (step c) (Smooth c) (init u) es)
    (hr : run (step c) (init u) es = some s) :
    Each (step c) (IssuesApt c) (init u) es ∧
    (s.holder = none →
      ∃ m, run (step c) (init u) (oneByOne c 0 u (lockOrder c (init u) es)) = some m ∧
        m.holder = none ∧ m.units = s.units ∧ commands m.log = commands s.log) := by
  have h0 : Ordered c u [] (init u) := .free rfl rfl rfl
  have hstep := fun es e m m' hm hae hp hs => ordered_step c u es e m m' hm hae hp hs
  constructor
  · exact each_history (step c) (Smooth c) (IssuesApt c) (init u) (Ordered c u) h0 hstep
      (fun es e m hae hp => ordered_apt c u hu es e m hae hp) s es ha hr
  · intro hf
    have hord := history_run (step c) (Smooth c) (init u) (Ordered c u) h0 hstep s es ha hr
    obtain ⟨m, hm, hfm, hres⟩ := run_oneByOne c (init u) (lockOrder c (init u) es)
      (lockOrder_declared c u es s hr) rfl
    cases hord with
    | free _ _ hserial =>
      have heq : (m.units, commands m.log) = (s.units, commands s.log) := hres.trans hserial.symm
      exact ⟨m, hm, hfm, congrArg Prod.fst heq, congrArg Prod.snd heq⟩
    | held i t ts ho hh hd =>
      obtain ⟨pc, hpc, -⟩ := hh
      simp [hpc] at hf

def bothWays : List Event :=
  [.called qwenGpu, .locked 0, .checked notActive, .called gemmaGpu, .checked ok,
    .commanded ok .inactive false, .commanded ok .active false, .locked 1, .checked notActive,
    .checked ok, .commanded ok .inactive false, .commanded ok .active false]

theorem bothWays_serial :
    ∃ s, run (step gpuConfig) (init (onlyUp gemmaGpu.unit)) bothWays = some s ∧
    Each (step gpuConfig) (IssuesApt gpuConfig) (init (onlyUp gemmaGpu.unit)) bothWays ∧
    (s.holder = none → ∃ m, run (step gpuConfig) (init (onlyUp gemmaGpu.unit))
      (oneByOne gpuConfig 0 (onlyUp gemmaGpu.unit)
        (lockOrder gpuConfig (init (onlyUp gemmaGpu.unit)) bothWays)) = some m ∧
      m.holder = none ∧ m.units = s.units ∧ commands m.log = commands s.log) := by
  refine ⟨_, rfl, serial_in_lock_order gpuConfig (onlyUp gemmaGpu.unit) bothWays _ ?_ ?_ rfl⟩
  · intro x
    unfold onlyUp
    split <;> rfl
  · decide

def gemmaLong : Backend := { gemmaGpu with name := "gemma-26b-long" }

def sharedConfig : Config := ⟨[gemmaGpu, gemmaLong, qwenGpu], AssocDict.Dict.empty⟩

def beforeSecondStop : List Event :=
  [.called qwenGpu, .locked 0, .checked notActive, .checked ok, .checked ok]

/-- The call stops the shared unit, finds it down, and stops it again. -/
theorem double_stop : ∃ s s', run (step sharedConfig) (init (onlyUp gemmaGpu.unit))
      beforeSecondStop = some s ∧
    (∀ e ∈ beforeSecondStop, succeeds e = true) ∧
    step sharedConfig s (.commanded ok .inactive false) = some s' ∧
    commands s'.log = .stopping gemmaGpu.unit::commands s.log ∧
    s'.units gemmaGpu.unit = .inactive :=
  ⟨_, _, rfl, by decide, rfl, rfl, rfl⟩

end LlRouter.SerialTransitions
