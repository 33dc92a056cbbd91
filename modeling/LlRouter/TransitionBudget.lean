import Mathlib.Algebra.Order.Floor.Semiring
import Mathlib.Data.Rat.Floor
import Mathlib.Tactic.Linarith
import LlRouter.TransitionCalls

/-!
# How many awaits a transition can take

Inside the lock a call checks its target and its peers, stops at most all of
these, starts its target and probes it until the deadline. Each of these
awaits ends once, so a call that is answered at all leaves the lock after a
number of them that its group bounds.
-/

set_option autoImplicit false

namespace LlRouter.TransitionBudget
open ControlExit LabelledRun
open LlRouter.BackendConfig LlRouter.SystemdUnits LlRouter.EnsureActive
open LlRouter.TransitionMachine LlRouter.TransitionCalls

def roundsLeft (deadline now : ℚ) : ℕ := ⌈(deadline-now)/healthInterval⌉₊

def healthCost : ℕ := 2*⌈healthTimeout/healthInterval⌉₊

def startCost : ℕ := healthCost+1

def pcCost (c : Config) (t : Backend) (now : ℚ) : Pc → ℕ
  | .checkingTarget => 1+2*(peersInGroup c t).length+startCost
  | .checkingPeer _ _ rest active => 2*(rest.length+1)+active.length+startCost
  | .stopping _ _ rest => 1+rest.length+startCost
  | .starting => startCost
  | .probing deadline => 2+2*roundsLeft deadline (now+healthInterval)
  | .sleeping deadline wake _ => 1+2*roundsLeft deadline wake

def nextCost (c : Config) (t : Backend) (now : ℚ) : Next → ℕ
  | .await pc => pcCost c t now pc
  | .done _ => 0

def callCost (c : Config) (t : Backend) : ℕ := 1+pcCost c t 0 .checkingTarget

theorem healthCost_eq : healthCost = 360 := by
  norm_num [healthCost, healthTimeout, healthInterval]

theorem callCost_eq (c : Config) (t : Backend) :
    callCost c t = 2*(peersInGroup c t).length+363 := by
  simp only [callCost, pcCost, startCost, healthCost_eq]
  omega

section Rounds
variable (deadline now later : ℚ)

theorem roundsLeft_anti (h : now ≤ later) :
    roundsLeft deadline later ≤ roundsLeft deadline now := by
  apply Nat.ceil_mono
  apply div_le_div_of_nonneg_right (by linarith)
  norm_num [healthInterval]

/-- Before the deadline a round is left, and it takes the interval. -/
theorem roundsLeft_step (h : now < deadline) :
    roundsLeft deadline (now+healthInterval)+1 = roundsLeft deadline now := by
  have hi : (0:ℚ) < healthInterval := by norm_num [healthInterval]
  have hsub : (deadline-(now+healthInterval))/healthInterval =
      (deadline-now)/healthInterval-1 := by
    field_simp
    ring
  have hpos : 0 < ⌈(deadline-now)/healthInterval⌉₊ :=
    Nat.ceil_pos.mpr (div_pos (by linarith) hi)
  unfold roundsLeft
  rw [hsub, Nat.ceil_sub_one]
  omega

end Rounds

section Calls
variable (c : Config) (t : Backend) (now : ℚ)

theorem pollNext_cost (url : String) (deadline : ℚ) (lastError : String) :
    nextCost c t now (pollNext url now deadline lastError) ≤ 2*roundsLeft deadline now := by
  unfold pollNext
  split
  · next h =>
    have hstep := roundsLeft_step deadline now h
    simp only [nextCost, pcCost]
    omega
  · exact Nat.zero_le _

theorem startNext_cost : nextCost c t now (startNext t now) ≤ healthCost := by
  unfold startNext
  split
  · exact Nat.zero_le _
  · have h := pollNext_cost c t now (t.healthUrl.getD "") (now+healthTimeout) ""
    have hr : roundsLeft (now+healthTimeout) now = ⌈healthTimeout/healthInterval⌉₊ := by
      simp [roundsLeft]
    rw [healthCost, ← hr]
    exact h

theorem stopNext_cost (targetActive : Bool) (rest : List Backend) :
    nextCost c t now (stopNext targetActive rest) ≤ rest.length+startCost := by
  cases rest with
  | nil => cases targetActive <;> simp [stopNext, nextCost, pcCost]
  | cons peer rest =>
    simp only [stopNext, nextCost, pcCost, List.length_cons]
    omega

theorem checkNext_cost (targetActive : Bool) (active rest : List Backend) :
    nextCost c t now (checkNext targetActive active rest) ≤
      2*rest.length+active.length+startCost := by
  cases rest with
  | nil =>
    rw [checkNext_nil]
    simpa using stopNext_cost c t now targetActive active
  | cons peer rest => simp [checkNext, nextCost, pcCost]

theorem after_cost {α : Type} (x : Exit α) (f : α → Next) (k : ℕ)
    (h : ∀ a, nextCost c t now (f a) ≤ k) : nextCost c t now (Next.after x f) ≤ k := by
  cases x with
  | returned a => exact h a
  | raised e => exact Nat.zero_le k
  | cancelled => exact Nat.zero_le k

/-- Whatever ends an await, what follows is one await less. -/
theorem resume_cost (pc : Pc) (r : Reply) (n : Next) (hn : resume c t now pc r = some n)
    (hw : ∀ deadline wake lastError, pc = .sleeping deadline wake lastError → r = .timer →
      wake ≤ now) : nextCost c t now n+1 ≤ pcCost c t now pc := by
  cases pc with
  | checkingTarget =>
    cases r with
    | process p =>
      cases hn
      have h := after_cost c t now (isActive t.unit p) _ _
        (fun a => checkNext_cost c t now a [] (peersInGroup c t))
      simp only [pcCost, List.length_nil] at h ⊢
      omega
    | _ => cases hn
  | checkingPeer targetActive peer rest active =>
    cases r with
    | process p =>
      cases hn
      have h := after_cost c t now (isActive peer.unit p)
        (fun a => checkNext targetActive (if a then active++[peer] else active) rest)
        (2*rest.length+(active.length+1)+startCost) (fun a => by
          have hcost := checkNext_cost c t now targetActive
            (if a then active++[peer] else active) rest
          cases a
          · simp only [Bool.false_eq_true, if_false] at hcost ⊢
            omega
          · simp only [if_true, List.length_append, List.length_singleton] at hcost ⊢
            omega)
      simp only [pcCost]
      omega
    | _ => cases hn
  | stopping targetActive peer rest =>
    cases r with
    | process p =>
      cases hn
      have h := after_cost c t now (stop peer.unit p) _ _
        (fun _ => stopNext_cost c t now targetActive rest)
      simp only [pcCost]
      omega
    | _ => cases hn
  | starting =>
    cases r with
    | process p =>
      cases hn
      have h := after_cost c t now (start t.unit p) _ _ (fun _ => startNext_cost c t now)
      simp only [pcCost, startCost]
      omega
    | _ => cases hn
  | probing deadline =>
    cases r with
    | probe x =>
      cases hn
      simp only [pcCost]
      split
      · show 0+1 ≤ _
        omega
      · simp only [nextCost, pcCost]
        omega
    | cancelled =>
      cases hn
      simp only [nextCost, pcCost]
      omega
    | _ => cases hn
  | sleeping deadline wake lastError =>
    cases r with
    | timer =>
      cases hn
      have h := pollNext_cost c t now (t.healthUrl.getD "") deadline lastError
      have hmono := roundsLeft_anti deadline wake now (hw deadline wake lastError rfl rfl)
      simp only [pcCost]
      omega
    | cancelled =>
      cases hn
      simp [nextCost, pcCost]
    | _ => cases hn

theorem pcCost_anti (later : ℚ) (pc : Pc) (h : now ≤ later) :
    pcCost c t later pc ≤ pcCost c t now pc := by
  cases pc with
  | probing deadline =>
    have hmono := roundsLeft_anti deadline (now+healthInterval) (later+healthInterval)
      (by linarith)
    simp only [pcCost]
    omega
  | _ => exact le_refl _

end Calls

def spends : Event → Bool
  | .called _ => false
  | .moved _ _ => false
  | .jobEnded _ => false
  | .ticked _ => false
  | _ => true

def waitingCost (c : Config) (call : Call) : ℕ :=
  if call.status = .waiting then callCost c call.target else 0

def heldCost (c : Config) (s : State) : ℕ :=
  (s.holder.map (fun h => pcCost c h.target s.now h.pc)).getD 0

def stock (c : Config) (s : State) : ℕ := heldCost c s+(s.calls.map (waitingCost c)).sum

def allowed (c : Config) (s : State) : ℕ := (s.calls.map (fun call => callCost c call.target)).sum

section Steps
variable (c : Config) (s s' : State)

theorem allowed_set (i : ℕ) (b : Backend) (st st' : Status) (hi : s.calls[i]? = some ⟨b, st⟩) :
    ((s.calls.set i ⟨b, st'⟩).map (fun call => callCost c call.target)).sum = allowed c s := by
  have ht := TaskPool.map_set_of_some Call.target hi ⟨b, st'⟩ rfl
  have hm : ∀ l : List Call, l.map (fun call => callCost c call.target) =
      (l.map Call.target).map (callCost c) := fun l => by simp
  rw [allowed, hm, hm, ht]

theorem paid_proceed (s₁ : State) (e : Event) (h : Holder) (n : Next) (he : spends e = true)
    (hh : s.holder = some h) (ho : Owned s) (hc : s₁.calls = s.calls) (ht : s₁.now = s.now)
    (hn : nextCost c h.target s.now n+1 ≤ pcCost c h.target s.now h.pc) :
    (if spends e then 1 else 0)+stock c (proceed s₁ h n)+allowed c s ≤
      stock c s+allowed c (proceed s₁ h n) := by
  rw [if_pos he]
  have hheld : heldCost c s = pcCost c h.target s.now h.pc := by simp [heldCost, hh]
  cases n with
  | await pc =>
    have hnext : heldCost c (proceed s₁ h (.await pc)) = pcCost c h.target s.now pc := by
      simp [heldCost, proceed, ht]
    simp only [stock, allowed, hnext, hheld, nextCost] at hn ⊢
    simp only [proceed, hc]
    omega
  | done out =>
    have hw := TaskPool.sum_map_set (waitingCost c) (ho h hh) ⟨h.target, .ended out⟩
    have ha := allowed_set c s h.index h.target .inside (.ended out) (ho h hh)
    have hin : waitingCost c ⟨h.target, .inside⟩ = 0 := rfl
    have hout : waitingCost c ⟨h.target, .ended out⟩ = 0 := by simp [waitingCost]
    simp only [stock, allowed, hheld, nextCost] at hn ⊢
    simp only [proceed, heldCost, hc, ha, allowed, Option.map_none, Option.getD_none]
    omega

theorem paid_step (e : Event) (ho : Owned s) (hs : step c s e = some s') :
    (if spends e then 1 else 0)+stock c s'+allowed c s ≤ stock c s+allowed c s' := by
  cases step_cases c s s' e hs with
  | called b hb =>
    have hle : waitingCost c ⟨b, if b.unit = "" then .ended (.returned ()) else .waiting⟩ ≤
        callCost c b := by
      unfold waitingCost
      split <;> simp
    simp only [spends, stock, allowed, heldCost, arrive, List.map_append, List.sum_append,
      List.map_cons, List.map_nil, List.sum_cons, List.sum_nil]
    simp only [Bool.false_eq_true, if_false]
    omega
  | locked i b hf hw =>
    have hsum := TaskPool.sum_map_set (waitingCost c) hw ⟨b, .inside⟩
    have ha := allowed_set c s i b .waiting .inside hw
    have hin : waitingCost c ⟨b, .inside⟩ = 0 := rfl
    have hwait : waitingCost c ⟨b, .waiting⟩ = callCost c b := rfl
    have hcost : callCost c b = 1+pcCost c b s.now .checkingTarget := rfl
    simp only [spends, stock, allowed, heldCost, enter, ha, hf, Option.map_none,
      Option.map_some, Option.getD_none, Option.getD_some, if_true]
    omega
  | gaveUp i b hw =>
    have hsum := TaskPool.sum_map_set (waitingCost c) hw ⟨b, .ended .cancelled⟩
    have ha := allowed_set c s i b .waiting (.ended .cancelled) hw
    have hend : waitingCost c ⟨b, .ended .cancelled⟩ = 0 := rfl
    have hwait : waitingCost c ⟨b, .waiting⟩ = callCost c b := rfl
    have hcost : callCost c b = 1+pcCost c b 0 .checkingTarget := rfl
    simp only [spends, stock, allowed, heldCost, abandon, ha, if_true]
    omega
  | checked p h service n hh hc he hn =>
    exact paid_proceed c s s _ h n rfl hh ho rfl rfl (resume_cost c h.target s.now h.pc _ n hn
      (fun _ _ _ _ hr => by cases hr))
  | commanded p after left h j n hh hj he hn =>
    exact paid_proceed c s _ _ h n rfl hh ho rfl rfl (resume_cost c h.target s.now h.pc _ n hn
      (fun _ _ _ _ hr => by cases hr))
  | probed x h deadline n hh hp hn =>
    exact paid_proceed c s _ _ h n rfl hh ho (recordProbe_calls s h x) (recordProbe_now s h x)
      (resume_cost c h.target s.now h.pc _ n hn (fun _ _ _ _ hr => by cases hr))
  | woke h deadline wake lastError n hh hp hw hn =>
    apply paid_proceed c s s _ h n rfl hh ho rfl rfl (resume_cost c h.target s.now h.pc _ n hn _)
    intro deadline' wake' lastError' hp' _
    rw [hp] at hp'
    cases hp'
    exact hw
  | interrupted h hh hp =>
    have hcost : nextCost c h.target s.now (.done .cancelled)+1 ≤
        pcCost c h.target s.now h.pc := by
      rcases hp with ⟨deadline, hp⟩ | ⟨deadline, wake, lastError, hp⟩
      · simp only [hp, nextCost, pcCost]
        omega
      · simp only [hp, nextCost, pcCost]
        omega
    exact paid_proceed c s s _ h _ rfl hh ho rfl rfl hcost
  | moved service after j hj hjs hm =>
    exact (Nat.zero_add _).symm ▸ le_refl _
  | jobEnded k j hk => exact (Nat.zero_add _).symm ▸ le_refl _
  | ticked now hn =>
    have hmono : heldCost c { s with now := now } ≤ heldCost c s := by
      unfold heldCost
      cases hh : s.holder with
      | none => simp
      | some h => simpa using pcCost_anti c h.target s.now now h.pc hn
    simp only [spends, stock, allowed, Bool.false_eq_true, if_false]
    omega

/-- All calls together end no more awaits than their groups allow them. -/
theorem spent_le (u : Units) (es : List Event) (t : State)
    (hr : run (step c) (init u) es = some t) :
    tally (step c) (fun _ e => spends e) (init u) es+stock c t ≤ allowed c t := by
  have hpaid := tally_paid (step c) (fun _ _ => True) Owned (fun _ e => spends e) (stock c)
    (allowed c) (fun m e n _ ho hn => ⟨owned_step c m n e ho hn, paid_step c m n e ho hn⟩)
    (init u) t es (each_of_mem _ _ _ _ (fun _ _ => trivial))
    (fun h hh => by simp [init] at hh) hr
  have hz : stock c (init u) = 0 := rfl
  have ha : allowed c (init u) = 0 := rfl
  omega

end Steps

end LlRouter.TransitionBudget
