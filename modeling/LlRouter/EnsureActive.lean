import Mathlib.Algebra.Order.Field.Rat
import LlRouter.BackendConfig
import LlRouter.SystemdUnits

/-!
# One call of `ensure_active` between its awaits

A call inside the transition lock is suspended at one of its awaits. What it
does with the answer, up to the next await or to its end, is a function of
the answer, the clock and the locals it kept.
-/

set_option autoImplicit false

namespace LlRouter.EnsureActive
open ControlExit
open LlRouter.BackendConfig LlRouter.SystemdUnits

def healthTimeout : ℚ := 180

def healthInterval : ℚ := 1

/-- Backends of the target's group with a service of their own. The source also
asks for `b is not target`; a backend identical to the target has its service,
so the last test already leaves it out. -/
def peersInGroup (c : Config) (target : Backend) : List Backend :=
  if target.mutexGroup.getD "" = "" then []
  else c.backends.filter (fun b => b ≠ target ∧ b.mutexGroup = target.mutexGroup ∧
    b.unit ≠ "" ∧ b.service ≠ target.service)

inductive Pc where
  | checkingTarget
  | checkingPeer (targetActive : Bool) (peer : Backend) (rest active : List Backend)
  | stopping (targetActive : Bool) (peer : Backend) (rest : List Backend)
  | starting
  | probing (deadline : ℚ)
  | sleeping (deadline wake : ℚ) (lastError : String)
  deriving DecidableEq

inductive Next where
  | await (pc : Pc)
  | done (out : Exit Unit)
  deriving DecidableEq

def Next.after {α : Type} (x : Exit α) (f : α → Next) : Next :=
  match x with
  | .returned a => f a
  | .raised e => .done (.raised e)
  | .cancelled => .done .cancelled

theorem after_bind {α β : Type} (x : Exit α) (g : α → Exit β) (f : β → Next) :
    Next.after (x.bind g) f = Next.after x (fun a => Next.after (g a) f) := by
  cases x <;> rfl

def stopNext (targetActive : Bool) : List Backend → Next
  | peer::rest => .await (.stopping targetActive peer rest)
  -- `if not target_active: await _start(target.service)`
  | [] => if targetActive then .done (.returned ()) else .await .starting

def checkNext (targetActive : Bool) (active : List Backend) : List Backend → Next
  | peer::rest => .await (.checkingPeer targetActive peer rest active)
  -- the early `return`, then `for peer in active_peers`
  | [] =>
    if targetActive && active.isEmpty then .done (.returned ())
    else stopNext targetActive active

def pollNext (url : String) (now deadline : ℚ) (lastError : String) : Next :=
  -- `while time.monotonic() < deadline`
  if now < deadline then .await (.probing deadline)
  else .done (.raised ⟨"RuntimeError", "health check timeout for " ++ url ++ ": " ++ lastError⟩)

def startNext (target : Backend) (now : ℚ) : Next :=
  if target.healthUrl.getD "" = "" then .done (.returned ())
  else pollNext (target.healthUrl.getD "") now (now+healthTimeout) ""

inductive Probe where
  | answered (status : ℕ)
  | failed (cls : String)

def Probe.accepted : Probe → Bool
  | .answered status => status < 400
  | .failed _ => false

def Probe.error : Probe → String
  | .answered status => "status " ++ toString status
  | .failed cls => cls

inductive Reply where
  | process (p : Process)
  | probe (x : Probe)
  | timer
  | cancelled

def resume (c : Config) (target : Backend) (now : ℚ) : Pc → Reply → Option Next
  | .checkingTarget, .process p =>
    some (Next.after (isActive target.unit p) (fun a => checkNext a [] (peersInGroup c target)))
  | .checkingPeer targetActive peer rest active, .process p =>
    some (Next.after (isActive peer.unit p) (fun a =>
      checkNext targetActive (if a then active++[peer] else active) rest))
  | .stopping targetActive peer rest, .process p =>
    some (Next.after (stop peer.unit p) (fun _ => stopNext targetActive rest))
  | .starting, .process p => some (Next.after (start target.unit p) (fun _ => startNext target now))
  | .probing deadline, .probe x =>
    some (if x.accepted then .done (.returned ())
      else .await (.sleeping deadline (now+healthInterval) x.error))
  | .sleeping deadline _ lastError, .timer =>
    some (pollNext (target.healthUrl.getD "") now deadline lastError)
  | .probing _, .cancelled => some (.done .cancelled)
  | .sleeping _ _ _, .cancelled => some (.done .cancelled)
  | _, _ => none

def Pc.checks (target : Backend) : Pc → Option String
  | .checkingTarget => some target.unit
  | .checkingPeer _ peer _ _ => some peer.unit
  | _ => none

def Pc.job (target : Backend) : Pc → Option Job
  | .stopping _ peer _ => some ⟨.stop, peer.unit⟩
  | .starting => some ⟨.start, target.unit⟩
  | _ => none

/-- A check is answered with the unit's state, or the call ends with its error. -/
theorem after_check (service : String) (p : Process) (u : Units) (f : Bool → Next)
    (he : checkEnds p (u service)) :
    p.answers = true ∧ Next.after (isActive service p) f = f (on u service) ∨
    p.answers = false ∧ ∃ out, Next.after (isActive service p) f = .done out ∧
      out ≠ .returned () := by
  cases p with
  | exited rc out =>
    have hon : decide (rc.getD 0 = 0) = on u service := by simpa [checkEnds, on] using he
    exact Or.inl ⟨rfl, congrArg f hon⟩
  | timedOut killError => exact Or.inr ⟨rfl, _, rfl, by simp⟩
  | notSpawned e => exact Or.inr ⟨rfl, _, rfl, by simp⟩
  | cancelled => exact Or.inr ⟨rfl, _, rfl, by simp⟩

theorem after_command (word service : String) (p : Process) (f : Unit → Next) :
    p.succeeds = true ∧ Next.after (systemctl word service p) f = f () ∨
    p.succeeds = false ∧ ∃ out, Next.after (systemctl word service p) f = .done out ∧
      out ≠ .returned () := by
  cases hs : p.succeeds with
  | true =>
    rw [(systemctl_returned word service p).mpr hs]
    exact Or.inl ⟨rfl, rfl⟩
  | false =>
    apply Or.inr
    constructor
    · rfl
    · cases hx : systemctl word service p with
      | returned v => simp [(systemctl_returned word service p).mp hx] at hs
      | raised e => exact ⟨_, rfl, by simp⟩
      | cancelled => exact ⟨_, rfl, by simp⟩

inductive Checked (c : Config) (t : Backend) (u : Units) (p : Process) : Pc → String → Next → Prop
  | target (ha : p.answers = true) : Checked c t u p .checkingTarget t.unit
      (checkNext (on u t.unit) [] (peersInGroup c t))
  | peer (targetActive : Bool) (peer : Backend) (rest active : List Backend)
      (ha : p.answers = true) :
      Checked c t u p (.checkingPeer targetActive peer rest active) peer.unit
        (checkNext targetActive (if on u peer.unit then active++[peer] else active) rest)
  | failed (pc : Pc) (service : String) (out : Exit Unit) (ha : p.answers = false)
      (ho : out ≠ .returned ()) : Checked c t u p pc service (.done out)

theorem checked_cases (c : Config) (t : Backend) (u : Units) (now : ℚ) (pc : Pc)
    (service : String) (p : Process) (n : Next) (hc : pc.checks t = some service)
    (he : checkEnds p (u service)) (hn : resume c t now pc (.process p) = some n) :
    Checked c t u p pc service n := by
  cases pc with
  | checkingTarget =>
    cases hc
    cases hn
    rcases after_check t.unit p u (fun a => checkNext a [] (peersInGroup c t)) he with
      ⟨ha, hx⟩ | ⟨ha, out, hx, ho⟩
    · rw [hx]
      exact .target ha
    · rw [hx]
      exact .failed _ _ out ha ho
  | checkingPeer targetActive peer rest active =>
    cases hc
    cases hn
    rcases after_check peer.unit p u
        (fun a => checkNext targetActive (if a then active++[peer] else active) rest) he with
      ⟨ha, hx⟩ | ⟨ha, out, hx, ho⟩
    · rw [hx]
      exact .peer targetActive peer rest active ha
    · rw [hx]
      exact .failed _ _ out ha ho
  | _ => cases hc

inductive Commanded (t : Backend) (now : ℚ) (p : Process) (after : UnitState) (left : Bool) :
    Pc → Job → Next → Prop
  | stopped (targetActive : Bool) (peer : Backend) (rest : List Backend)
      (hs : p.succeeds = true) (ha : after = .inactive) (hl : left = false) :
      Commanded t now p after left (.stopping targetActive peer rest) ⟨.stop, peer.unit⟩
        (stopNext targetActive rest)
  | stopFailed (targetActive : Bool) (peer : Backend) (rest : List Backend) (out : Exit Unit)
      (hs : p.succeeds = false) (ho : out ≠ .returned ()) :
      Commanded t now p after left (.stopping targetActive peer rest) ⟨.stop, peer.unit⟩
        (.done out)
  | started (hs : p.succeeds = true) (ha : after = .active) (hl : left = false) :
      Commanded t now p after left .starting ⟨.start, t.unit⟩ (startNext t now)
  | startFailed (out : Exit Unit) (hs : p.succeeds = false) (ho : out ≠ .returned ()) :
      Commanded t now p after left .starting ⟨.start, t.unit⟩ (.done out)

theorem commanded_cases (c : Config) (t : Backend) (u : Units) (now : ℚ) (pc : Pc) (j : Job)
    (p : Process) (after : UnitState) (left : Bool) (n : Next) (hj : pc.job t = some j)
    (he : commandEnds j.verb p (u j.service) after left)
    (hn : resume c t now pc (.process p) = some n) : Commanded t now p after left pc j n := by
  cases pc with
  | stopping targetActive peer rest =>
    cases hj
    cases hn
    rcases after_command "stop" peer.unit p (fun _ => stopNext targetActive rest) with
      ⟨hs, hx⟩ | ⟨hs, out, hx, ho⟩
    · obtain ⟨ha, hl⟩ := commandEnds_success .stop p _ after left he hs
      rw [stop, hx]
      exact .stopped targetActive peer rest hs ha hl
    · rw [stop, hx]
      exact .stopFailed targetActive peer rest out hs ho
  | starting =>
    cases hj
    cases hn
    rcases after_command "start" t.unit p (fun _ => startNext t now) with
      ⟨hs, hx⟩ | ⟨hs, out, hx, ho⟩
    · obtain ⟨ha, hl⟩ := commandEnds_success .start p _ after left he hs
      rw [start, hx]
      exact .started hs ha hl
    · rw [start, hx]
      exact .startFailed out hs ho
  | _ => cases hj

/-- The early return is the stop loop over no peers. -/
theorem checkNext_nil (targetActive : Bool) (active : List Backend) :
    checkNext targetActive active [] = stopNext targetActive active := by
  cases targetActive <;> cases active <;> rfl

theorem mem_peersInGroup (c : Config) (t b : Backend) (h : b ∈ peersInGroup c t) :
    b ∈ c.backends ∧ b.mutexGroup = t.mutexGroup ∧ t.mutexGroup.getD "" ≠ "" ∧
      b.unit ≠ "" ∧ b.unit ≠ t.unit := by
  unfold peersInGroup at h
  split at h
  · simp at h
  · next hg =>
    simp only [List.mem_filter, decide_eq_true_eq] at h
    obtain ⟨hb, -, hm, hu, hs⟩ := h
    refine ⟨hb, hm, hg, hu, fun he => hs ?_⟩
    unfold Backend.unit at he hu
    cases hbs : b.service with
    | none => simp [hbs] at hu
    | some x =>
      cases hts : t.service with
      | none =>
        rw [hbs, hts] at he
        rw [hbs] at hu
        exact absurd he hu
      | some y =>
        rw [hbs, hts] at he
        exact congrArg some he

/-- Every declared service of the group other than the target's is a peer's. -/
theorem peersInGroup_of_mem (c : Config) (t b : Backend) (hb : b ∈ c.backends)
    (hg : t.mutexGroup.getD "" ≠ "") (hm : b.mutexGroup = t.mutexGroup) (hu : b.unit ≠ "")
    (ht : b.unit ≠ t.unit) : b ∈ peersInGroup c t := by
  have hne : b ≠ t := fun h => ht (congrArg Backend.unit h)
  have hs : b.service ≠ t.service := fun h => ht (by simp [Backend.unit, h])
  simp only [peersInGroup, if_neg hg, List.mem_filter, decide_eq_true_eq]
  exact ⟨hb, hne, hm, hu, hs⟩

end LlRouter.EnsureActive
