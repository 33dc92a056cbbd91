import Mathlib.Logic.Function.Basic
import Mathlib.Data.Int.Notation
import LlRouter.ControlExit

/-!
# Units, jobs and the commands that drive them

A unit passes through an intermediate state on its way up or down. A start or
stop job belongs to the command that asked for it, until that command is given
up: then the job is left behind and may still move the unit. No unit moves
without an unfinished job of its own.
-/

set_option autoImplicit false

namespace LlRouter.SystemdUnits
open ControlExit

inductive UnitState where
  | inactive
  | activating
  | active
  | deactivating
  deriving DecidableEq, Repr

def UnitState.settled : UnitState → Bool
  | .inactive => true
  | .active => true
  | _ => false

abbrev Units := String → UnitState

def on (u : Units) (service : String) : Bool := u service = .active

inductive Verb where
  | start
  | stop
  deriving DecidableEq, Repr

structure Job where
  verb : Verb
  service : String
  deriving DecidableEq, Repr

def Verb.goal : Verb → UnitState
  | .start => .active
  | .stop => .inactive

/-- The moves an unfinished job can make. A failing job goes back. -/
def Verb.moves : Verb → UnitState → UnitState → Bool
  | .start, .inactive, .activating => true
  | .start, .deactivating, .activating => true
  | .start, .activating, .active => true
  | .start, .activating, .inactive => true
  | .stop, .active, .deactivating => true
  | .stop, .activating, .deactivating => true
  | .stop, .deactivating, .inactive => true
  | .stop, .deactivating, .active => true
  | _, _, _ => false

inductive Process where
  | exited (returncode : Option ℤ) (out : String)
  | timedOut (killError : Option PyException)
  | notSpawned (e : PyException)
  | cancelled

def run (argv : String) : Process → Exit (ℤ × String)
  | .exited rc out => .returned (rc.getD 0, out)
  -- `proc.kill()` comes before the `raise`, and may not kill the client of a `sudo`
  | .timedOut killError =>
    .raised (killError.getD ⟨"RuntimeError", "timeout running " ++ argv⟩)
  | .notSpawned e => .raised e
  | .cancelled => .cancelled

def isActive (service : String) (p : Process) : Exit Bool :=
  (run ("systemctl is-active --quiet " ++ service) p).bind (fun r => .returned (r.1 = 0))

def systemctl (word service : String) (p : Process) : Exit Unit :=
  (run ("sudo -n systemctl " ++ word ++ " " ++ service) p).bind (fun r =>
    if r.1 = 0 then .returned ()
    else .raised ⟨"RuntimeError", "systemctl " ++ word ++ " " ++ service ++ " failed: " ++ r.2⟩)

def stop (service : String) (p : Process) : Exit Unit := systemctl "stop" service p

def start (service : String) (p : Process) : Exit Unit := systemctl "start" service p

def Process.succeeds : Process → Bool
  | .exited rc _ => rc.getD 0 = 0
  | _ => false

def Process.answers : Process → Bool
  | .exited _ _ => true
  | _ => false

/-- `is-active` answers 0 for an active unit and for no other. -/
def checkEnds (p : Process) (now : UnitState) : Bool :=
  match p with
  | .exited rc _ => decide (rc.getD 0 = 0) == decide (now = .active)
  | _ => true

/-- The states a start or stop command may leave its unit in, and whether its
job is left behind unfinished. Only success promises the goal. -/
def commandEnds (v : Verb) (p : Process) (before after : UnitState) (left : Bool) : Bool :=
  match p with
  | .exited rc _ =>
    if rc.getD 0 = 0 then after = v.goal ∧ left = false
    else after.settled ∧ left = false ∧ (v = .stop → before = .inactive → after = .inactive)
  | .notSpawned _ => after = before ∧ left = false
  | _ => after = before

theorem systemctl_returned (word service : String) (p : Process) :
    systemctl word service p = .returned () ↔ p.succeeds = true := by
  cases p with
  | exited rc out =>
    by_cases h : rc.getD 0 = 0 <;> simp [systemctl, run, Process.succeeds, h]
  | _ => simp [systemctl, run, Process.succeeds]

theorem commandEnds_success (v : Verb) (p : Process) (before after : UnitState) (left : Bool)
    (h : commandEnds v p before after left) (hs : p.succeeds) :
    after = v.goal ∧ left = false := by
  cases p with
  | exited rc out =>
    have hz : rc.getD 0 = 0 := by simpa [Process.succeeds] using hs
    simpa [commandEnds, hz] using h
  | _ => simp [Process.succeeds] at hs

theorem commandEnds_stop_inactive (p : Process) (after : UnitState) (left : Bool)
    (h : commandEnds .stop p .inactive after left) : after = .inactive := by
  cases p with
  | exited rc out =>
    by_cases hz : rc.getD 0 = 0
    · simp only [commandEnds, hz, if_true, decide_eq_true_eq] at h
      exact h.1
    · simp only [commandEnds, hz, if_false, decide_eq_true_eq] at h
      exact h.2.2 trivial trivial
  | notSpawned e =>
    simp only [commandEnds, decide_eq_true_eq] at h
    exact h.1
  | _ => simpa [commandEnds] using h

theorem moves_from_inactive (v : Verb) (after : UnitState) (h : v.moves .inactive after) :
    v = .start := by
  cases v with
  | start => rfl
  | stop => cases after <;> simp [Verb.moves] at h

end LlRouter.SystemdUnits
