import LlRouter.TransitionTrack

/-!
# Calls run one after another

Each call arrives, takes the free lock and runs to its end before the next one
arrives. Its checks are answered, its commands succeed and its first health
probe is accepted. Such a run exists for every list of targets, and leaves
what the calls' transitions leave one by one.
-/

set_option autoImplicit false

namespace LlRouter.SequentialCalls
open ControlExit LabelledRun
open LlRouter.BackendConfig LlRouter.SystemdUnits LlRouter.EnsureActive
open LlRouter.TransitionMachine LlRouter.TransitionTrack

def serialCall (c : Config) (p : Units × List Entry) (t : Backend) : Units × List Entry :=
  (final c t p.1, transitionLog c t p.1++p.2)

def serial (c : Config) (u : Units) (ts : List Backend) : Units × List Entry :=
  ts.foldl (serialCall c) (u, [])

theorem serial_snoc (c : Config) (u : Units) (ts : List Backend) (t : Backend) :
    serial c u (ts++[t]) = serialCall c (serial c u ts) t := by
  rw [serial, List.foldl_append]
  rfl

def reading (u : Units) (service : String) : Process := if on u service then ok else notActive

def checks (u : Units) (bs : List Backend) : List Event :=
  bs.map (fun b => .checked (reading u b.unit))

def stopEvents (bs : List Backend) : List Event := bs.map (fun _ => .commanded ok .inactive false)

def startEvents (t : Backend) (u : Units) : List Event :=
  if on u t.unit then []
  else .commanded ok .active false::
    if t.healthUrl.getD "" = "" then [] else [.probed (.answered 200)]

def answers (c : Config) (t : Backend) (u : Units) : List Event :=
  checks u (t::peersInGroup c t)++stopEvents (activePeers c t u)++startEvents t u

def wholeCall (c : Config) (k : ℕ) (u : Units) (t : Backend) : List Event :=
  .called t::.locked k::answers c t u

def oneByOne (c : Config) : ℕ → Units → List Backend → List Event
  | _, _, [] => []
  | k, u, t::ts => wholeCall c k u t++oneByOne c (k+1) (final c t u) ts

theorem isActive_reading (u : Units) (service : String) :
    isActive service (reading u service) = .returned (on u service) := by
  unfold reading
  split
  · next h => simp [isActive, SystemdUnits.run, ok, Exit.bind, h]
  · next h =>
    rw [Bool.not_eq_true] at h
    simp [isActive, SystemdUnits.run, notActive, Exit.bind, h]

theorem checkEnds_reading (u : Units) (service : String) :
    checkEnds (reading u service) (u service) = true := by
  unfold reading
  split
  · next h => simpa [checkEnds, ok, on] using h
  · next h => simpa [checkEnds, notActive, on] using h

section Run
variable (c : Config)

theorem proceed_proceed (s : State) (h : Holder) (pc : Pc) (n : Next)
    (hi : issued h.target pc = []) :
    proceed (proceed s h (.await pc)) { h with pc := pc } n = proceed s h n := by
  cases n <;> simp [proceed, hi]

theorem step_checkingPeer (s : State) (h : Holder) (targetActive : Bool) (peer : Backend)
    (rest active : List Backend) :
    step c (proceed s h (checkNext targetActive active (peer::rest)))
      (.checked (reading s.units peer.unit)) =
    some (proceed s h (checkNext targetActive
      (if on s.units peer.unit then active++[peer] else active) rest)) := by
  have hp := proceed_proceed s h (.checkingPeer targetActive peer rest active)
    (checkNext targetActive (if on s.units peer.unit then active++[peer] else active) rest) rfl
  rw [← hp]
  simp [checkNext, step, proceed, holderStep, Pc.checks, checkEnds_reading, advance, resume,
    isActive_reading, Next.after]

theorem run_checks (s : State) (h : Holder) (targetActive : Bool) (active rest : List Backend) :
    run (step c) (proceed s h (checkNext targetActive active rest)) (checks s.units rest) =
      some (proceed s h (checkNext targetActive
        (active++rest.filter (fun b => on s.units b.unit)) [])) := by
  induction rest generalizing active with
  | nil => simp [checks]
  | cons peer rest ih =>
    apply (run_cons _ _ _ _ _).mpr ⟨_, step_checkingPeer c s h targetActive peer rest active, _⟩
    apply (ih _).trans
    by_cases hon : on s.units peer.unit <;> simp [hon]

structure Leaves (s s' : State) (u : Units) (l : List Entry) : Prop where
  calls : s'.calls = s.calls
  units : s'.units = u
  log : commands s'.log = l++commands s.log

theorem step_stopping (s : State) (h : Holder) (targetActive : Bool) (peer : Backend)
    (rest : List Backend) :
    ∃ m, step c (proceed s h (stopNext targetActive (peer::rest)))
        (.commanded ok .inactive false) = some (proceed m h (stopNext targetActive rest)) ∧
      Leaves s m (stopAll [peer] s.units) [.stopping peer.unit] := by
  let s₁ := proceed s h (.await (.stopping targetActive peer rest))
  refine ⟨afterCommand s₁ ⟨.stop, peer.unit⟩ .inactive false, ?_, rfl, ?_, ?_⟩
  · have hok : commandEnds .stop ok (s.units peer.unit) .inactive false = true := by
      simp [commandEnds, ok, Verb.goal]
    have hret := (systemctl_returned "stop" peer.unit ok).mpr rfl
    cases rest <;> cases targetActive <;>
      simp [stopNext, step, s₁, proceed, holderStep, Holder.job, Pc.job, hok, advance, resume, stop,
        hret, Next.after, afterCommand]
  · exact stopAll_update s.units s.units [] peer (fun x _ => by rw [stopAll_nil])
  · rfl

theorem stopAll_append (bs bs' : List Backend) (u : Units) :
    stopAll bs' (stopAll bs u) = stopAll (bs++bs') u := by
  ext x
  by_cases hx : x ∈ bs'.map Backend.unit <;> simp [stopAll, hx]

theorem run_stops (s : State) (h : Holder) (targetActive : Bool) (bs : List Backend) :
    ∃ m, run (step c) (proceed s h (stopNext targetActive bs)) (stopEvents bs) =
        some (proceed m h (stopNext targetActive [])) ∧
      Leaves s m (stopAll bs s.units) (stops bs) := by
  induction bs generalizing s with
  | nil => exact ⟨s, rfl, rfl, (stopAll_nil s.units).symm, rfl⟩
  | cons peer rest ih =>
    obtain ⟨m, hm, hl⟩ := step_stopping c s h targetActive peer rest
    obtain ⟨n, hn, hl'⟩ := ih m
    refine ⟨n, (run_cons _ _ _ _ _).mpr ⟨_, hm, hn⟩, hl'.calls.trans hl.calls, ?_, ?_⟩
    · rw [hl'.units, hl.units, stopAll_append]
      rfl
    · rw [hl'.log, hl.log]
      simp [stops]

theorem step_starting (s : State) (h : Holder) :
    ∃ m, step c (proceed s h (.await .starting)) (.commanded ok .active false) =
        some (proceed m h (startNext h.target m.now)) ∧
      Leaves s m (Function.update s.units h.target.unit .active) [.starting h.target.unit] := by
  let s₁ := proceed s h (.await .starting)
  refine ⟨afterCommand s₁ ⟨.start, h.target.unit⟩ .active false, ?_, rfl, rfl, rfl⟩
  have hok : commandEnds .start ok (s.units h.target.unit) .active false = true := by
    simp [commandEnds, ok, Verb.goal]
  have hret := (systemctl_returned "start" h.target.unit ok).mpr rfl
  cases hn : startNext h.target s.now <;>
    simp [step, s₁, proceed, holderStep, Holder.job, Pc.job, hok, advance, resume, start, hret,
      Next.after, afterCommand, hn]

theorem run_health (s : State) (h : Holder) :
    ∃ m, run (step c) (proceed s h (startNext h.target s.now))
        (if h.target.healthUrl.getD "" = "" then [] else [.probed (.answered 200)]) =
        some (proceed m h (.done (.returned ()))) ∧ Leaves s m s.units [] := by
  unfold startNext
  split
  · exact ⟨s, rfl, rfl, rfl, rfl⟩
  · have hnow : s.now < s.now+healthTimeout :=
      lt_add_of_pos_right s.now (by decide)
    have hacc : (Probe.answered 200).accepted = true := rfl
    refine ⟨recordProbe s h (.answered 200), ?_, rfl, rfl, rfl⟩
    simp [pollNext, hnow, step, proceed, holderStep, advance, resume, recordProbe, hacc, issued]

theorem run_starts (s : State) (h : Holder) (u : Units)
    (ha : s.units h.target.unit = u h.target.unit) :
    ∃ m, run (step c) (proceed s h (stopNext (on u h.target.unit) [])) (startEvents h.target u) =
        some (proceed m h (.done (.returned ()))) ∧
      Leaves s m (Function.update s.units h.target.unit .active)
        (if on u h.target.unit then [] else [.starting h.target.unit]) := by
  cases hon : on u h.target.unit with
  | true =>
    have hact : u h.target.unit = .active := by simpa [on] using hon
    refine ⟨s, ?_, rfl, ?_, rfl⟩
    · simp [startEvents, hon, stopNext]
    · rw [← hact, ← ha, Function.update_eq_self]
  | false =>
    obtain ⟨m, hm, hl⟩ := step_starting c s h
    obtain ⟨n, hn, hl'⟩ := run_health c m h
    refine ⟨n, ?_, hl'.calls.trans hl.calls, hl'.units.trans hl.units, hl'.log.trans hl.log⟩
    simp only [startEvents, hon, stopNext, Bool.false_eq_true, if_false]
    exact (run_cons _ _ _ _ _).mpr ⟨_, hm, hn⟩

theorem step_checkingTarget (s : State) (k : ℕ) (t : Backend) :
    step c (enter s k t) (.checked (reading s.units t.unit)) =
      some (proceed (enter s k t) ⟨k, t, .checkingTarget⟩
        (checkNext (on s.units t.unit) [] (peersInGroup c t))) := by
  simp [step, enter, holderStep, Pc.checks, checkEnds_reading, advance, resume, isActive_reading,
    Next.after]

/-- A call that took the lock can run to a normal return. -/
theorem run_answers (s : State) (k : ℕ) (t : Backend) :
    ∃ m, run (step c) (enter s k t) (answers c t s.units) = some m ∧ m.holder = none ∧
      m.calls.length = s.calls.length ∧ m.units = final c t s.units ∧
      commands m.log = transitionLog c t s.units++commands s.log := by
  let h : Holder := ⟨k, t, .checkingTarget⟩
  have hchecks := run_checks c (enter s k t) h (on s.units t.unit) [] (peersInGroup c t)
  rw [checkNext_nil, List.nil_append] at hchecks
  obtain ⟨m, hm, hl⟩ := run_stops c (enter s k t) h (on s.units t.unit) (activePeers c t s.units)
  have hu : m.units t.unit = s.units t.unit := by
    rw [hl.units, stopAll, if_neg (target_not_stopped c t s.units)]
    rfl
  obtain ⟨n, hn, hl'⟩ := run_starts c m h s.units hu
  refine ⟨proceed n h (.done (.returned ())), ?_, rfl, ?_, ?_, ?_⟩
  · have hfirst := (run_cons (step c) _ _ _ _).mpr ⟨_, step_checkingTarget c s k t, hchecks⟩
    apply (run_append _ _ _ _ _).mpr ⟨_, (run_append _ _ _ _ _).mpr ⟨_, hfirst, hm⟩, hn⟩
  · simp only [proceed, List.length_set, hl'.calls, hl.calls, enter]
  · exact hl'.units.trans (congrArg (Function.update · t.unit .active) hl.units)
  · apply hl'.log.trans
    rw [hl.log, transitionLog, List.append_assoc]
    rfl

theorem run_wholeCall (s : State) (t : Backend) (ht : t ∈ c.backends) (hu : t.unit ≠ "")
    (hf : s.holder = none) :
    ∃ m, run (step c) s (wholeCall c s.calls.length s.units t) = some m ∧ m.holder = none ∧
      m.calls.length = s.calls.length+1 ∧ m.units = final c t s.units ∧
      commands m.log = transitionLog c t s.units++commands s.log := by
  obtain ⟨m, hm, hfree, hlen, hunits, hlog⟩ := run_answers c (arrive s t) s.calls.length t
  have hcalled : step c s (.called t) = some (arrive s t) := by simp [step, ht]
  have hwait : (arrive s t).calls[s.calls.length]? = some ⟨t, .waiting⟩ := by simp [arrive, hu]
  have hlocked : step c (arrive s t) (.locked s.calls.length) =
      some (enter (arrive s t) s.calls.length t) := by
    have hf' : (arrive s t).holder = none := hf
    simp only [step, hf', hwait]
  refine ⟨m, (run_cons _ _ _ _ _).mpr ⟨_, hcalled, (run_cons _ _ _ _ _).mpr ⟨_, hlocked, hm⟩⟩,
    hfree, ?_, hunits, hlog⟩
  rw [hlen]
  simp [arrive]

/-- The calls one after another leave the serial result. -/
theorem run_oneByOne (s : State) (ts : List Backend)
    (ht : ∀ t ∈ ts, t ∈ c.backends ∧ t.unit ≠ "") (hf : s.holder = none) :
    ∃ m, run (step c) s (oneByOne c s.calls.length s.units ts) = some m ∧ m.holder = none ∧
      (m.units, commands m.log) = ts.foldl (serialCall c) (s.units, commands s.log) := by
  induction ts generalizing s with
  | nil => exact ⟨s, rfl, hf, rfl⟩
  | cons t ts ih =>
    obtain ⟨htc, htu⟩ := ht t (by simp)
    obtain ⟨m, hm, hfm, hlen, hunits, hlog⟩ := run_wholeCall c s t htc htu hf
    obtain ⟨n, hn, hfn, hres⟩ := ih m (fun b hb => ht b (by simp [hb])) hfm
    rw [hlen, hunits] at hn
    refine ⟨n, (run_append _ _ _ _ _).mpr ⟨m, hm, hn⟩, hfn, ?_⟩
    rw [hres, hunits, hlog]
    rfl

end Run
end LlRouter.SequentialCalls
