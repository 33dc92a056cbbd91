import LlRouter.LabelledRun
import LlRouter.TaskPool
import LlRouter.EnsureActive

/-!
# Interleaved calls of `ensure_active`

All calls share the units, the clock and one lock. The lock has at most one
holder, and the holder's suspended code is kept with it; every other call is
waiting or over. Events choose which call gets the lock, how the awaited
commands and probes end, and when unfinished jobs move their units.
-/

set_option autoImplicit false

namespace LlRouter.TransitionMachine
open ControlExit LabelledRun
open LlRouter.BackendConfig LlRouter.SystemdUnits LlRouter.EnsureActive

inductive Status where
  | waiting
  | inside
  | ended (out : Exit Unit)
  deriving DecidableEq

structure Call where
  target : Backend
  status : Status
  deriving DecidableEq

structure Holder where
  index : ℕ
  target : Backend
  pc : Pc
  deriving DecidableEq

inductive Entry where
  | stopping (service : String)
  | starting (service : String)
  | healthy (url : String) (status : ℕ)
  deriving DecidableEq, Repr

/-- The log is kept newest first. -/
structure State where
  units : Units
  leftJobs : List Job
  now : ℚ
  holder : Option Holder
  calls : List Call
  log : List Entry

def init (u : Units) : State := ⟨u, [], 0, none, [], []⟩

inductive Event where
  | called (b : Backend)
  | locked (i : ℕ)
  | gaveUp (i : ℕ)
  | checked (p : Process)
  | commanded (p : Process) (after : UnitState) (left : Bool)
  | probed (x : Probe)
  | woke
  | interrupted
  | moved (service : String) (after : UnitState)
  | jobEnded (k : ℕ)
  | ticked (now : ℚ)

def Holder.job (h : Holder) : Option Job := h.pc.job h.target

def unfinished (s : State) : List Job := (s.holder.bind Holder.job).toList ++ s.leftJobs

def issued (target : Backend) (pc : Pc) : List Entry :=
  match pc with
  | .stopping _ peer _ => [.stopping peer.unit]
  | .starting => [.starting target.unit]
  | _ => []

def proceed (s : State) (h : Holder) : Next → State
  | .await pc =>
    { s with holder := some { h with pc := pc }, log := issued h.target pc ++ s.log }
  | .done out =>
    { s with holder := none, calls := s.calls.set h.index ⟨h.target, .ended out⟩ }

def advance (c : Config) (s : State) (h : Holder) (r : Reply) : Option State :=
  (resume c h.target s.now h.pc r).map (proceed s h)

def afterCommand (s : State) (j : Job) (after : UnitState) (left : Bool) : State :=
  { s with
    units := Function.update s.units j.service after
    leftJobs := if left then j::s.leftJobs else s.leftJobs }

def recordProbe (s : State) (h : Holder) (x : Probe) : State :=
  match x with
  | .answered status =>
    if x.accepted then
      { s with log := .healthy (h.target.healthUrl.getD "") status::s.log }
    else s
  | .failed _ => s

def arrive (s : State) (b : Backend) : State :=
  -- without a service the call returns before the lock
  { s with calls := s.calls++[⟨b, if b.unit = "" then .ended (.returned ()) else .waiting⟩] }

def holderStep (c : Config) (s : State) (h : Holder) : Event → Option State
  | .checked p => (h.pc.checks h.target).bind (fun service =>
      if checkEnds p (s.units service) then advance c s h (.process p) else none)
  | .commanded p after left => h.job.bind (fun j =>
      if commandEnds j.verb p (s.units j.service) after left then
        advance c (afterCommand s j after left) h (.process p)
      else none)
  | .probed x => advance c (recordProbe s h x) h (.probe x)
  | .woke =>
    match h.pc with
    | .sleeping _ wake _ => if wake ≤ s.now then advance c s h .timer else none
    | _ => none
  | .interrupted => advance c s h .cancelled
  | _ => none

def enter (s : State) (i : ℕ) (b : Backend) : State :=
  { s with holder := some ⟨i, b, .checkingTarget⟩, calls := s.calls.set i ⟨b, .inside⟩ }

def abandon (s : State) (i : ℕ) (b : Backend) : State :=
  { s with calls := s.calls.set i ⟨b, .ended .cancelled⟩ }

def step (c : Config) (s : State) : Event → Option State
  | .called b => if b ∈ c.backends then some (arrive s b) else none
  | .locked i =>
    match s.holder, s.calls[i]? with
    | none, some ⟨b, .waiting⟩ => some (enter s i b)
    | _, _ => none
  | .gaveUp i =>
    match s.calls[i]? with
    | some ⟨b, .waiting⟩ => some (abandon s i b)
    | _ => none
  | .moved service after =>
    if (unfinished s).any (fun j => j.service = service ∧ j.verb.moves (s.units service) after)
    then some { s with units := Function.update s.units service after }
    else none
  | .jobEnded k =>
    match s.leftJobs[k]? with
    | some j =>
      if (s.units j.service).settled then some { s with leftJobs := s.leftJobs.eraseIdx k }
      else none
    | none => none
  | .ticked now => if s.now ≤ now then some { s with now := now } else none
  | e => s.holder.bind (fun h => holderStep c s h e)

inductive Stepped (c : Config) (s : State) : Event → State → Prop
  | called (b : Backend) (hb : b ∈ c.backends) : Stepped c s (.called b) (arrive s b)
  | locked (i : ℕ) (b : Backend) (hf : s.holder = none)
      (hw : s.calls[i]? = some ⟨b, .waiting⟩) : Stepped c s (.locked i) (enter s i b)
  | gaveUp (i : ℕ) (b : Backend) (hw : s.calls[i]? = some ⟨b, .waiting⟩) :
      Stepped c s (.gaveUp i) (abandon s i b)
  | checked (p : Process) (h : Holder) (service : String) (n : Next) (hh : s.holder = some h)
      (hc : h.pc.checks h.target = some service) (he : checkEnds p (s.units service))
      (hn : resume c h.target s.now h.pc (.process p) = some n) :
      Stepped c s (.checked p) (proceed s h n)
  | commanded (p : Process) (after : UnitState) (left : Bool) (h : Holder) (j : Job) (n : Next)
      (hh : s.holder = some h) (hj : h.job = some j)
      (he : commandEnds j.verb p (s.units j.service) after left)
      (hn : resume c h.target s.now h.pc (.process p) = some n) :
      Stepped c s (.commanded p after left) (proceed (afterCommand s j after left) h n)
  | probed (x : Probe) (h : Holder) (deadline : ℚ) (n : Next) (hh : s.holder = some h)
      (hp : h.pc = .probing deadline)
      (hn : resume c h.target s.now h.pc (.probe x) = some n) :
      Stepped c s (.probed x) (proceed (recordProbe s h x) h n)
  | woke (h : Holder) (deadline wake : ℚ) (lastError : String) (n : Next)
      (hh : s.holder = some h) (hp : h.pc = .sleeping deadline wake lastError)
      (hw : wake ≤ s.now) (hn : resume c h.target s.now h.pc .timer = some n) :
      Stepped c s .woke (proceed s h n)
  | interrupted (h : Holder) (hh : s.holder = some h)
      (hp : (∃ deadline, h.pc = .probing deadline) ∨
        ∃ deadline wake lastError, h.pc = .sleeping deadline wake lastError) :
      Stepped c s .interrupted (proceed s h (.done .cancelled))
  | moved (service : String) (after : UnitState) (j : Job) (hj : j ∈ unfinished s)
      (hs : j.service = service) (hm : j.verb.moves (s.units service) after) :
      Stepped c s (.moved service after)
        { s with units := Function.update s.units service after }
  | jobEnded (k : ℕ) (j : Job) (hk : s.leftJobs[k]? = some j) :
      Stepped c s (.jobEnded k) { s with leftJobs := s.leftJobs.eraseIdx k }
  | ticked (now : ℚ) (hn : s.now ≤ now) : Stepped c s (.ticked now) { s with now := now }

theorem recordProbe_log (s : State) (h : Holder) (x : Probe) :
    ∃ log, recordProbe s h x = { s with log := log } := by
  cases x with
  | answered status =>
    simp only [recordProbe]
    split
    · exact ⟨_, rfl⟩
    · exact ⟨s.log, rfl⟩
  | failed cls => exact ⟨s.log, rfl⟩

theorem recordProbe_now (s : State) (h : Holder) (x : Probe) : (recordProbe s h x).now = s.now := by
  obtain ⟨log, hl⟩ := recordProbe_log s h x
  rw [hl]

theorem recordProbe_calls (s : State) (h : Holder) (x : Probe) :
    (recordProbe s h x).calls = s.calls := by
  obtain ⟨log, hl⟩ := recordProbe_log s h x
  rw [hl]

theorem holderStep_cases (c : Config) (s s' : State) (h : Holder) (e : Event)
    (hh : s.holder = some h) (hs : holderStep c s h e = some s') : Stepped c s e s' := by
  cases e with
  | checked p =>
    simp only [holderStep, Option.bind_eq_some_iff, advance, Option.ite_none_right_eq_some,
      Option.map_eq_some_iff] at hs
    obtain ⟨service, hc, he, n, hn, rfl⟩ := hs
    exact .checked p h service n hh hc he hn
  | commanded p after left =>
    simp only [holderStep, Option.bind_eq_some_iff, advance, Option.ite_none_right_eq_some,
      Option.map_eq_some_iff] at hs
    obtain ⟨j, hj, he, n, hn, rfl⟩ := hs
    exact .commanded p after left h j n hh hj he hn
  | probed x =>
    simp only [holderStep, advance, Option.map_eq_some_iff, recordProbe_now] at hs
    obtain ⟨n, hn, rfl⟩ := hs
    cases hp : h.pc with
    | probing deadline => exact .probed x h deadline n hh hp hn
    | _ => simp [hp, resume] at hn
  | woke =>
    cases hp : h.pc with
    | sleeping deadline wake lastError =>
      simp only [holderStep, hp, advance, Option.ite_none_right_eq_some,
        Option.map_eq_some_iff] at hs
      obtain ⟨hw, n, hn, rfl⟩ := hs
      exact .woke h deadline wake lastError n hh hp hw (by rw [hp]; exact hn)
    | _ => simp [holderStep, hp] at hs
  | interrupted =>
    simp only [holderStep, advance, Option.map_eq_some_iff] at hs
    obtain ⟨n, hn, rfl⟩ := hs
    cases hp : h.pc with
    | probing deadline =>
      obtain rfl : Next.done .cancelled = n := by simpa [hp, resume] using hn
      exact .interrupted h hh (Or.inl ⟨deadline, hp⟩)
    | sleeping deadline wake lastError =>
      obtain rfl : Next.done .cancelled = n := by simpa [hp, resume] using hn
      exact .interrupted h hh (Or.inr ⟨deadline, wake, lastError, hp⟩)
    | _ => simp [hp, resume] at hn
  | _ => simp [holderStep] at hs

theorem step_cases (c : Config) (s s' : State) (e : Event) (hs : step c s e = some s') :
    Stepped c s e s' := by
  cases e with
  | called b =>
    simp only [step, Option.ite_none_right_eq_some, Option.some.injEq] at hs
    obtain ⟨hb, rfl⟩ := hs
    exact .called b hb
  | locked i =>
    simp only [step] at hs
    split at hs
    · next b hf hw =>
      cases hs
      exact .locked i b hf hw
    · simp at hs
  | gaveUp i =>
    simp only [step] at hs
    split at hs
    · next b hw =>
      cases hs
      exact .gaveUp i b hw
    · simp at hs
  | moved service after =>
    simp only [step, Option.ite_none_right_eq_some, Option.some.injEq, List.any_eq_true,
      decide_eq_true_eq] at hs
    obtain ⟨⟨j, hj, hjs, hm⟩, rfl⟩ := hs
    exact .moved service after j hj hjs hm
  | jobEnded k =>
    simp only [step] at hs
    split at hs
    · next j hk =>
      simp only [Option.ite_none_right_eq_some, Option.some.injEq] at hs
      obtain ⟨-, rfl⟩ := hs
      exact .jobEnded k j hk
    · simp at hs
  | ticked now =>
    simp only [step, Option.ite_none_right_eq_some, Option.some.injEq] at hs
    obtain ⟨hn, rfl⟩ := hs
    exact .ticked now hn
  | _ =>
    simp only [step, Option.bind_eq_some_iff] at hs
    obtain ⟨h, hh, hs⟩ := hs
    exact holderStep_cases c s s' h _ hh hs

/-! Two servers of one GPU, and how their commands end. -/

def gemmaGpu : Backend :=
  { name := "gemma-26b-a4b", url := "http://localhost:8001", type := "gpu", maxConcurrent := 1,
    service := some "llama-server-26b.service", mutexGroup := some "gpu" }

def qwenGpu : Backend :=
  { name := "qwen-35b", url := "http://localhost:8006", type := "gpu", maxConcurrent := 1,
    service := some "llama-server-35b.service", mutexGroup := some "gpu" }

def gpuConfig : Config := ⟨[gemmaGpu, qwenGpu], AssocDict.Dict.empty⟩

def onlyUp (service : String) : Units := fun x => if x = service then .active else .inactive

def ok : Process := .exited (some 0) ""

def notActive : Process := .exited (some 3) ""

end LlRouter.TransitionMachine
