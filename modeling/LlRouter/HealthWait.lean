import Mathlib.Algebra.Order.Floor.Semiring
import Mathlib.Data.Rat.Floor
import Mathlib.Tactic.Linarith
import LlRouter.WhileLoop
import LlRouter.EnsureActive

/-!
# The health wait as a loop

One round is a probe and the sleep after it, as `resume` runs them. The
environment decides how each probe ends and how long it and the sleep take;
no sleep is shorter than the interval, which bounds the number of rounds.
-/

set_option autoImplicit false

namespace LlRouter.HealthWait
open ControlExit WhileLoop
open LlRouter.BackendConfig LlRouter.EnsureActive

structure Round where
  probe : Probe
  took : ℚ
  slept : ℚ
  tookNonneg : 0 ≤ took
  sleptInterval : healthInterval ≤ slept

structure Wait where
  made : ℕ
  now : ℚ
  lastError : String

structure Waited where
  out : Exit Unit
  made : ℕ
  deriving DecidableEq

def waitRound (url : String) (deadline : ℚ) (rounds : ℕ → Round) (s : Wait) : Wait ⊕ Waited :=
  match pollNext url s.now deadline s.lastError with
  | .done out => .inr ⟨out, s.made⟩
  | .await _ =>
    let r := rounds s.made
    if r.probe.accepted then .inr ⟨.returned (), s.made+1⟩
    else .inl ⟨s.made+1, s.now+r.took+r.slept, r.probe.error⟩

def WaitHealthy (url : String) (timeout start : ℚ) (rounds : ℕ → Round) (r : Waited) : Prop :=
  Ends (waitRound url (start+timeout) rounds) ⟨0, start, ""⟩ r

/-- When probe `k` begins, should it come to it. -/
def begun (start : ℚ) (rounds : ℕ → Round) : ℕ → ℚ
  | 0 => start
  | k+1 => begun start rounds k+(rounds k).took+(rounds k).slept

def healthy : Probe → Bool
  | .answered status => 200 ≤ status ∧ status < 300
  | .failed _ => false

section Wait
variable (url : String) (timeout start : ℚ) (rounds : ℕ → Round)

structure WaitsForHealthy (r : Waited) : Prop where
  bound : r.made ≤ ⌈timeout / healthInterval⌉₊
  returned : r.out = .returned () ↔
    ∃ k, begun start rounds k < start+timeout ∧ healthy (rounds k).probe
  first : ∀ k, begun start rounds k < start+timeout → healthy (rounds k).probe →
    (∀ j, j < k → ¬ healthy (rounds j).probe) → r.made = k+1
  otherwise : r.out ≠ .returned () → ∃ text, r.out = .raised ⟨"RuntimeError", text⟩
  keepsWaiting : ∀ k, k < r.made → ¬ healthy (rounds k).probe →
    begun start rounds (k+1) < start+timeout → k+1 < r.made

/-- Every probe that comes to be made is answered with a 2xx status, answered
with one of 400 or above, or not answered at all. -/
def NoOtherAnswer : Prop :=
  ∀ k, begun start rounds k < start+timeout → (∀ j, j < k → ¬ healthy (rounds j).probe) →
    (rounds k).probe.accepted → healthy (rounds k).probe

theorem accepted_of_healthy (x : Probe) (h : healthy x = true) : x.accepted = true := by
  cases x with
  | answered status =>
    simp only [healthy, decide_eq_true_eq] at h
    simp only [Probe.accepted, decide_eq_true_eq]
    omega
  | failed cls => cases h

/-- A round runs the suspended code of a call: its probe, then its sleep. -/
theorem waitRound_resumes (c : Config) (t : Backend) (s : Wait)
    (hu : t.healthUrl.getD "" = url) (hd : s.now < start+timeout) :
    ((rounds s.made).probe.accepted = true ∧
      resume c t (s.now+(rounds s.made).took) (.probing (start+timeout))
        (.probe (rounds s.made).probe) = some (.done (.returned ())) ∧
      waitRound url (start+timeout) rounds s = .inr ⟨.returned (), s.made+1⟩) ∨
    ∃ wake s', (rounds s.made).probe.accepted = false ∧
      resume c t (s.now+(rounds s.made).took) (.probing (start+timeout))
        (.probe (rounds s.made).probe) =
        some (.await (.sleeping (start+timeout) wake s'.lastError)) ∧
      wake ≤ s'.now ∧
      resume c t s'.now (.sleeping (start+timeout) wake s'.lastError) .timer =
        some (pollNext url s'.now (start+timeout) s'.lastError) ∧
      waitRound url (start+timeout) rounds s = .inl s' := by
  cases ha : (rounds s.made).probe.accepted with
  | true =>
    apply Or.inl
    simp [resume, waitRound, pollNext, ha, hd]
  | false =>
    apply Or.inr
    refine ⟨s.now+(rounds s.made).took+healthInterval, ⟨s.made+1,
      s.now+(rounds s.made).took+(rounds s.made).slept, (rounds s.made).probe.error⟩, rfl, ?_⟩
    have hs := (rounds s.made).sleptInterval
    simp [resume, waitRound, pollNext, ha, hd, hu, hs]

theorem begun_advances (k : ℕ) :
    begun start rounds k+healthInterval ≤ begun start rounds (k+1) := by
  have ht := (rounds k).tookNonneg
  have hs := (rounds k).sleptInterval
  show _ ≤ begun start rounds k+(rounds k).took+(rounds k).slept
  linarith

theorem begun_mono : Monotone (begun start rounds) := by
  apply monotone_nat_of_le_succ
  intro k
  have ha := begun_advances start rounds k
  have hi : (0 : ℚ) ≤ healthInterval := by norm_num [healthInterval]
  linarith

theorem begun_lt (k n : ℕ) (hk : begun start rounds k < start+timeout)
    (hn : start+timeout ≤ begun start rounds n) : k < n :=
  (begun_mono start rounds).reflect_lt (lt_of_lt_of_le hk hn)

theorem begun_ge (k : ℕ) : start+k*healthInterval ≤ begun start rounds k := by
  induction k with
  | zero => simp [begun]
  | succ k ih =>
    have ha := begun_advances start rounds k
    push_cast
    linarith

/-- Only so many probes begin before the deadline. -/
theorem begun_bound (k : ℕ) (h : begun start rounds k < start+timeout) :
    k < ⌈timeout / healthInterval⌉₊ := by
  have hg := begun_ge start rounds k
  have hi : (0 : ℚ) < healthInterval := by norm_num [healthInterval]
  rw [Nat.lt_ceil, lt_div_iff₀ hi]
  linarith

structure Waiting (s : Wait) : Prop where
  now : s.now = begun start rounds s.made
  refused : ∀ k, k < s.made →
    begun start rounds k < start+timeout ∧ (rounds k).probe.accepted = false

inductive Outcome : Waited → Prop
  | accepted (k : ℕ) (hb : begun start rounds k < start+timeout)
      (ha : (rounds k).probe.accepted = true)
      (hn : ∀ j, j < k → (rounds j).probe.accepted = false) : Outcome ⟨.returned (), k+1⟩
  | timedOut (n : ℕ) (text : String) (hd : start+timeout ≤ begun start rounds n)
      (hb : ∀ j, j < n → begun start rounds j < start+timeout)
      (hn : ∀ j, j < n → (rounds j).probe.accepted = false) :
      Outcome ⟨.raised ⟨"RuntimeError", text⟩, n⟩

theorem waitRound_cases (s : Wait) (hs : Waiting timeout start rounds s) :
    (∃ s', waitRound url (start+timeout) rounds s = .inl s' ∧ Waiting timeout start rounds s' ∧
      s'.made = s.made+1 ∧ begun start rounds s.made < start+timeout) ∨
    ∃ r, waitRound url (start+timeout) rounds s = .inr r ∧ Outcome timeout start rounds r := by
  have hnow := hs.now
  by_cases hd : s.now < start+timeout
  · cases ha : (rounds s.made).probe.accepted with
    | true =>
      apply Or.inr
      refine ⟨⟨.returned (), s.made+1⟩, by simp [waitRound, pollNext, hd, ha], ?_⟩
      exact .accepted s.made (hnow ▸ hd) ha (fun j hj => (hs.refused j hj).2)
    | false =>
      apply Or.inl
      refine ⟨⟨s.made+1, s.now+(rounds s.made).took+(rounds s.made).slept,
        (rounds s.made).probe.error⟩, by simp [waitRound, pollNext, hd, ha], ?_, rfl, hnow ▸ hd⟩
      constructor
      · simp [begun, hnow]
      · intro k hk
        by_cases he : k = s.made
        · subst he
          exact ⟨hnow ▸ hd, ha⟩
        · exact hs.refused k (by simp only at hk; omega)
  · apply Or.inr
    have hlate : start+timeout ≤ begun start rounds s.made := by
      rw [← hnow]
      exact not_lt.mp hd
    refine ⟨⟨.raised ⟨"RuntimeError", "health check timeout for " ++ url ++ ": " ++ s.lastError⟩,
      s.made⟩, by simp [waitRound, pollNext, hd], ?_⟩
    exact .timedOut s.made _ hlate (fun j hj => (hs.refused j hj).1)
      (fun j hj => (hs.refused j hj).2)

theorem wait_ends : ∃ r, WaitHealthy url timeout start rounds r ∧
    Outcome timeout start rounds r := by
  apply ends_total (waitRound url (start+timeout) rounds) (Waiting timeout start rounds)
    (Outcome timeout start rounds) (fun s => ⌈timeout / healthInterval⌉₊-s.made)
  · intro s t hs hnext
    rcases waitRound_cases url timeout start rounds s hs with
      ⟨s', hr, hw, hm, hb⟩ | ⟨r, hr, -⟩
    · obtain rfl : s' = t := Sum.inl.inj (hr.symm.trans hnext)
      have hlt := begun_bound timeout start rounds s.made hb
      exact ⟨hw, by rw [hm]; omega⟩
    · simp [hr] at hnext
  · intro s b hs hdone
    rcases waitRound_cases url timeout start rounds s hs with
      ⟨s', hr, -⟩ | ⟨r, hr, ho⟩
    · simp [hr] at hdone
    · obtain rfl : r = b := Sum.inr.inj (hr.symm.trans hdone)
      exact ho
  · exact ⟨rfl, fun k hk => absurd hk (Nat.not_lt_zero k)⟩

theorem outcome_bound (r : Waited) (ho : Outcome timeout start rounds r) :
    r.made ≤ ⌈timeout / healthInterval⌉₊ := by
  cases ho with
  | accepted k hb ha hn => exact begun_bound timeout start rounds k hb
  | timedOut n text hd hb hn =>
    cases n with
    | zero => exact Nat.zero_le _
    | succ n => exact begun_bound timeout start rounds n (hb n (Nat.lt_succ_self n))

theorem refused_unhealthy (k : ℕ) (h : (rounds k).probe.accepted = false) :
    ¬ healthy (rounds k).probe := by
  intro hh
  rw [accepted_of_healthy _ hh] at h
  cases h

theorem waits_of_no_other (r : Waited) (ho : Outcome timeout start rounds r)
    (hc : NoOtherAnswer timeout start rounds) : WaitsForHealthy timeout start rounds r := by
  have hbound := outcome_bound timeout start rounds r ho
  cases ho with
  | accepted k hb ha hn =>
    have hun : ∀ j, j < k → ¬ healthy (rounds j).probe := fun j hj =>
      refused_unhealthy rounds j (hn j hj)
    have hh := hc k hb hun ha
    constructor
    · exact hbound
    · exact ⟨fun _ => ⟨k, hb, hh⟩, fun _ => rfl⟩
    · intro m _ hm hfirst
      have hle : m ≤ k := by
        by_contra hlt
        exact hfirst k (by omega) hh
      have hge : k ≤ m := by
        by_contra hlt
        exact hun m (by omega) hm
      show k+1 = m+1
      omega
    · intro hne
      exact absurd rfl hne
    · intro m hm hu _
      have hne : m ≠ k := by
        rintro rfl
        exact hu hh
      show m+1 < k+1
      simp only at hm
      omega
  | timedOut n text hd hb hn =>
    have hnone : ∀ k, begun start rounds k < start+timeout → ¬ healthy (rounds k).probe := by
      intro k hk
      exact refused_unhealthy rounds k (hn k (begun_lt timeout start rounds k n hk hd))
    constructor
    · exact hbound
    · constructor
      · intro hret
        cases hret
      · rintro ⟨k, hk, hh⟩
        exact absurd hh (hnone k hk)
    · intro k hk hh _
      exact absurd hh (hnone k hk)
    · intro _
      exact ⟨text, rfl⟩
    · intro k _ _ hk
      exact begun_lt timeout start rounds (k+1) n hk hd

theorem no_other_of_waits (r : Waited) (ho : Outcome timeout start rounds r)
    (hw : WaitsForHealthy timeout start rounds r) : NoOtherAnswer timeout start rounds := by
  intro k hk hfirst ha
  cases ho with
  | accepted m hb hm hn =>
    have hle : m ≤ k := by
      by_contra hlt
      have hr := hn k (by omega)
      rw [ha] at hr
      cases hr
    obtain ⟨j, hj, hh⟩ := hw.returned.mp rfl
    have hfind : ∃ j, healthy (rounds j).probe = true := ⟨j, hh⟩
    have hmin : ∀ i, i < Nat.find hfind → ¬ healthy (rounds i).probe := fun i hi =>
      Nat.find_min hfind hi
    have hspec := Nat.find_spec hfind
    have hbefore := begun_mono start rounds (Nat.find_min' hfind hh)
    have hmade : m+1 = Nat.find hfind+1 := hw.first _ (by linarith) hspec hmin
    have hme : Nat.find hfind = m := by omega
    rw [hme] at hspec
    by_cases he : m = k
    · rw [← he]
      exact hspec
    · exact absurd hspec (hfirst m (by omega))
  | timedOut n text hd hb hn =>
    rw [hn k (begun_lt timeout start rounds k n hk hd)] at ha
    cases ha

/-- When the wait comes to what it should: exactly when no probe that it makes
is answered with a status below 400 other than 2xx. -/
theorem waits_for_healthy_iff :
    (∃ r, WaitHealthy url timeout start rounds r) ∧
    ∀ r, WaitHealthy url timeout start rounds r →
      (WaitsForHealthy timeout start rounds r ↔ NoOtherAnswer timeout start rounds) := by
  obtain ⟨r, hr, ho⟩ := wait_ends url timeout start rounds
  constructor
  · exact ⟨r, hr⟩
  · intro r' hr'
    obtain rfl : r = r' := ends_unique _ _ r r' hr hr'
    exact ⟨no_other_of_waits timeout start rounds r ho,
      waits_of_no_other timeout start rounds r ho⟩

end Wait

def redirected (_ : ℕ) : Round := ⟨.answered 302, 0, 1, by norm_num, by norm_num [healthInterval]⟩

theorem redirect_accepted : ¬ ∀ url timeout start rounds r,
    WaitHealthy url timeout start rounds r → WaitsForHealthy timeout start rounds r := by
  intro h
  have hround : waitRound "http://localhost:8101/health" (0+healthTimeout) redirected
      ⟨0, 0, ""⟩ = .inr ⟨.returned (), 1⟩ := by
    simp [waitRound, pollNext, healthTimeout, redirected, Probe.accepted]
  have hw := h _ healthTimeout 0 redirected _ (ends_done _ _ _ hround)
  obtain ⟨k, -, hk⟩ := hw.returned.mp rfl
  cases hk

end LlRouter.HealthWait
