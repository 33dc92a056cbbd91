import LlRouter.ContextSearch

/-!
# The search that never goes below a known size

The second script keeps the search but tries no size up to the last good one.
From any lower end it returns nothing smaller than it was given and comes
within two steps of the largest size that fits. From an aligned one both
scripts make the same rounds, about as many as the range has binary digits.
-/

set_option autoImplicit false

namespace LlRouter.GuardedSearch
open WhileLoop LlRouter.ContextSearch

def guardedMidpoint (step : ℤ) (s : Search) : ℤ :=
  let aligned := alignDown ((s.lo+s.hi)/2) step
  if aligned ≤ s.lastOk then s.lastOk+step else aligned

def guardedRound (feasible : ℤ → Bool) (step : ℤ) (s : Search) : Search ⊕ ℤ :=
  roundWith (guardedMidpoint step) feasible step s

/-- A loop of `phase1` over `lo`, `hi` and `step` leaves `r` as its `last_ok`. -/
def Phase1Max (feasible : ℤ → Bool) (lo hi step r : ℤ) : Prop :=
  Ends (guardedRound feasible step) ⟨lo, hi, lo⟩ r

structure FindsNearMax (feasible : ℤ → Bool) (lo hi step r : ℤ) : Prop where
  fits : feasible r = true
  lower : lo ≤ r
  upper : r ≤ hi
  near : ∀ x, r+2*step ≤ x → x ≤ hi → feasible x = false

section Guard
variable (feasible : ℤ → Bool) (step : ℤ)

/-- The guard: what is tried is above what is known, and a size beyond the upper
end is the next step. -/
theorem guardedMidpoint_gt (hs : 0 < step) (s : Search) (hl : s.lo ≤ s.hi) :
    s.lastOk < guardedMidpoint step s ∧
      (s.hi < guardedMidpoint step s → s.hi < s.lastOk+step) := by
  have hle := alignDown_le ((s.lo+s.hi)/2) step hs
  unfold guardedMidpoint
  by_cases hg : alignDown ((s.lo+s.hi)/2) step ≤ s.lastOk
  · simp only [hg, if_true]
    exact ⟨by omega, fun h => h⟩
  · simp only [hg, if_false]
    exact ⟨by omega, fun h => by omega⟩

structure Guarded (base top : ℤ) (s : Search) : Prop where
  good : feasible s.lastOk = true
  above : base ≤ s.lastOk
  within : s.lastOk ≤ top
  next : s.lo = s.lastOk ∨ s.lo = s.lastOk+step
  high : s.hi ≤ top
  beyond : ∀ x, s.hi+step ≤ x → x ≤ top → feasible x = false

variable (base top : ℤ)

theorem guarded_next (hs : 0 < step) (hb : 0 ≤ base) (hd : DownwardClosed feasible)
    (s t : Search) (hg : Guarded feasible step base top s)
    (hr : guardedRound feasible step s = .inl t) :
    Guarded feasible step base top t ∧ t.hi-t.lo < s.hi-s.lo ∧ s.lo ≤ s.hi := by
  have hnext := hg.next
  have habove := hg.above
  have hhigh := hg.high
  cases roundWith_cases feasible step (guardedMidpoint step) s _ hr with
  | accepted hl hm hf =>
    obtain ⟨hgt, -⟩ := guardedMidpoint_gt step hs s hl
    constructor
    · constructor
      · exact hf
      · show base ≤ guardedMidpoint step s
        omega
      · show guardedMidpoint step s ≤ top
        omega
      · exact Or.inr rfl
      · exact hhigh
      · exact hg.beyond
    · show s.hi-(guardedMidpoint step s+step) < s.hi-s.lo ∧ s.lo ≤ s.hi
      omega
  | refused hl hm hf =>
    obtain ⟨hgt, -⟩ := guardedMidpoint_gt step hs s hl
    constructor
    · constructor
      · exact hg.good
      · exact habove
      · exact hg.within
      · exact hnext
      · show guardedMidpoint step s-step ≤ top
        omega
      · intro x hx _
        have hle : guardedMidpoint step s ≤ x := by
          simp only at hx
          omega
        by_contra hn
        rw [Bool.not_eq_false] at hn
        have hmid := hd _ x (by omega) hle hn
        rw [hf] at hmid
        cases hmid
    · show guardedMidpoint step s-step-s.lo < s.hi-s.lo ∧ s.lo ≤ s.hi
      omega

theorem guarded_done (hs : 0 < step) (s : Search) (r : ℤ)
    (hg : Guarded feasible step base top s) (hr : guardedRound feasible step s = .inr r) :
    FindsNearMax feasible base top step r := by
  have hlast : r = s.lastOk ∧ s.hi < s.lastOk+step := by
    have hnext := hg.next
    cases roundWith_cases feasible step (guardedMidpoint step) s _ hr with
    | exhausted h => exact ⟨rfl, by omega⟩
    | beyond hl hm => exact ⟨rfl, (guardedMidpoint_gt step hs s hl).2 hm⟩
  obtain ⟨rfl, hhi⟩ := hlast
  exact ⟨hg.good, hg.above, hg.within, fun x hx ht => hg.beyond x (by omega) ht⟩

/-- From any lower end the guarded search ends, not below it and within two
steps of the largest size that fits. -/
theorem finds_near_max (lo hi : ℤ) (hs : 0 < step) (hlo : 0 ≤ lo) (hl : lo ≤ hi)
    (hf : feasible lo = true) (hd : DownwardClosed feasible) :
    (∃ r, Phase1Max feasible lo hi step r) ∧
    ∀ r, Phase1Max feasible lo hi step r → FindsNearMax feasible lo hi step r := by
  have hstart : Guarded feasible step lo hi ⟨lo, hi, lo⟩ := by
    refine ⟨hf, le_refl lo, hl, Or.inl rfl, le_refl hi, ?_⟩
    intro x hx hx'
    simp only at hx
    omega
  obtain ⟨r, he, hr⟩ := ends_total (guardedRound feasible step) (Guarded feasible step lo hi)
    (FindsNearMax feasible lo hi step) (fun s => (s.hi-s.lo+1).toNat)
    (fun s t hg hb => by
      obtain ⟨ht, hlt, hle⟩ := guarded_next feasible step lo hi hs hlo hd s t hg hb
      exact ⟨ht, by omega⟩)
    (fun s b hg hb => guarded_done feasible step lo hi hs s b hg hb) ⟨lo, hi, lo⟩ hstart
  constructor
  · exact ⟨r, he⟩
  · intro r' he'
    obtain rfl : r = r' := ends_unique _ _ r r' he he'
    exact hr

end Guard

/-- The multi-slot range from which the first search comes back below its start. -/
theorem near_max_unaligned : (∃ r, Phase1Max (upTo 516096) 516096 2064384 16384 r) ∧
    ∀ r, Phase1Max (upTo 516096) 516096 2064384 16384 r →
      FindsNearMax (upTo 516096) 516096 2064384 16384 r :=
  finds_near_max (upTo 516096) 16384 516096 2064384 (by decide) (by decide) (by decide)
    (by decide) (upTo_closed 516096)

section Steps
variable (feasible : ℤ → Bool) (step : ℤ)

theorem alignDown_steps (hs : 0 < step) (l hi : ℤ) :
    alignDown ((l*step+hi)/2) step = (l+hi/step)/2*step := by
  have hdiv : (l*step+hi)/2/step = (l*step+hi)/step/2 := by
    rw [Int.ediv_ediv_of_nonneg (by omega), Int.ediv_ediv_of_nonneg (by omega),
      mul_comm 2 step]
  have hadd : (l*step+hi)/step = l+hi/step := by
    rw [add_comm, Int.add_mul_ediv_right _ _ (by omega : step ≠ 0), add_comm]
  rw [alignDown, hdiv, hadd]

theorem mul_le_iff (hs : 0 < step) (m hi : ℤ) : m*step ≤ hi ↔ m ≤ hi/step :=
  (Int.le_ediv_iff_mul_le hs).symm

def tried (l top a : ℤ) : ℤ := if (l+top)/2 ≤ a then a+1 else (l+top)/2

theorem guardedMidpoint_steps (hs : 0 < step) (l hi a : ℤ) :
    guardedMidpoint step ⟨l*step, hi, a*step⟩ = tried l (hi/step) a*step := by
  unfold guardedMidpoint tried
  simp only [alignDown_steps step hs]
  have hle : (l+hi/step)/2*step ≤ a*step ↔ (l+hi/step)/2 ≤ a := mul_le_mul_iff_left₀ hs
  by_cases h : (l+hi/step)/2 ≤ a
  · rw [if_pos (hle.mpr h), if_pos h]
    ring
  · rw [if_neg (hle.not.mpr h), if_neg h]

theorem guardedRound_steps (hs : 0 < step) (l hi a : ℤ) :
    (∃ r, guardedRound feasible step ⟨l*step, hi, a*step⟩ = .inr r) ∨
    l ≤ hi/step ∧ tried l (hi/step) a ≤ hi/step ∧
      (guardedRound feasible step ⟨l*step, hi, a*step⟩ =
          .inl ⟨(tried l (hi/step) a+1)*step, hi, tried l (hi/step) a*step⟩ ∨
        guardedRound feasible step ⟨l*step, hi, a*step⟩ =
          .inl ⟨l*step, (tried l (hi/step) a-1)*step, a*step⟩) := by
  have hmid := guardedMidpoint_steps step hs l hi a
  cases hr : guardedRound feasible step ⟨l*step, hi, a*step⟩ with
  | inr r => exact Or.inl ⟨r, rfl⟩
  | inl t =>
    refine Or.inr ?_
    cases roundWith_cases feasible step (guardedMidpoint step) _ _ hr with
    | accepted hl hm hf =>
      rw [hmid] at hm
      refine ⟨(mul_le_iff step hs l hi).mp hl, (mul_le_iff step hs _ hi).mp hm, Or.inl ?_⟩
      rw [hmid]
      congr 2
      ring
    | refused hl hm hf =>
      rw [hmid] at hm
      refine ⟨(mul_le_iff step hs l hi).mp hl, (mul_le_iff step hs _ hi).mp hm, Or.inr ?_⟩
      rw [hmid]
      congr 2
      ring

/-- After a success, less than `2^k` further steps take at most `k` tries. -/
theorem advanced_ends (hs : 0 < step) (k : ℕ) (a hi : ℤ) (h : hi/step < a+2^k) :
    ∃ r, loop (guardedRound feasible step) (k+1) ⟨(a+1)*step, hi, a*step⟩ = some r := by
  induction k generalizing a hi with
  | zero =>
    rcases guardedRound_steps feasible step hs (a+1) hi a with ⟨r, hr⟩ | ⟨hl, -⟩
    · exact ⟨r, loop_done _ 0 _ r hr⟩
    · rw [pow_zero] at h
      omega
  | succ k ih =>
    have hpow : (2 : ℤ)^(k+1) = 2*2^k := by ring
    rcases guardedRound_steps feasible step hs (a+1) hi a with ⟨r, hr⟩ | ⟨hl, hm, hr | hr⟩
    · exact ⟨r, loop_done _ (k+1) _ r hr⟩
    · obtain ⟨r, he⟩ := ih (tried (a+1) (hi/step) a) hi (by unfold tried; omega)
      exact ⟨r, (loop_next _ (k+1) _ _ hr).trans he⟩
    · have hlow : (tried (a+1) (hi/step) a-1)*step/step < a+2^k := by
        rw [Int.mul_ediv_cancel _ (by omega : step ≠ 0)]
        unfold tried
        omega
      obtain ⟨r, he⟩ := ih a _ hlow
      exact ⟨r, (loop_next _ (k+1) _ _ hr).trans he⟩

theorem fresh_ends (hs : 0 < step) (k : ℕ) (a hi : ℤ) (h : hi/step < a+2^k) :
    ∃ r, loop (guardedRound feasible step) (k+2) ⟨a*step, hi, a*step⟩ = some r := by
  induction k generalizing hi with
  | zero =>
    rcases guardedRound_steps feasible step hs a hi a with ⟨r, hr⟩ | ⟨hl, hm, -⟩
    · exact ⟨r, loop_done _ 1 _ r hr⟩
    · rw [pow_zero] at h
      unfold tried at hm
      omega
  | succ k ih =>
    have hpow : (2 : ℤ)^(k+1) = 2*2^k := by ring
    have hone : (0 : ℤ) < 2^k := by positivity
    rcases guardedRound_steps feasible step hs a hi a with ⟨r, hr⟩ | ⟨hl, hm, hr | hr⟩
    · exact ⟨r, loop_done _ (k+2) _ r hr⟩
    · obtain ⟨r, he⟩ := advanced_ends feasible step hs (k+1) (tried a (hi/step) a) hi
        (by unfold tried; omega)
      exact ⟨r, (loop_next _ (k+2) _ _ hr).trans he⟩
    · have hlow : (tried a (hi/step) a-1)*step/step < a+2^k := by
        rw [Int.mul_ediv_cancel _ (by omega : step ≠ 0)]
        unfold tried
        omega
      obtain ⟨r, he⟩ := ih _ hlow
      exact ⟨r, (loop_next _ (k+2) _ _ hr).trans he⟩

structure Aligned (s : Search) : Prop where
  lastOk : step ∣ s.lastOk
  lo : step ∣ s.lo
  le : s.lastOk ≤ s.lo

theorem aligned_midpoint (hs : 0 < step) (s : Search) (ha : Aligned step s) (hl : s.lo ≤ s.hi) :
    guardedMidpoint step s = midpoint step s ∧ step ∣ midpoint step s := by
  have hge := le_alignDown ((s.lo+s.hi)/2) s.lo step hs ha.lo (by omega)
  have hle := ha.le
  have hiff : alignDown ((s.lo+s.hi)/2) step ≤ s.lastOk ↔
      alignDown ((s.lo+s.hi)/2) step = s.lastOk := ⟨fun h => by omega, fun h => by omega⟩
  constructor
  · simp only [guardedMidpoint, ContextSearch.midpoint, hiff]
    split
    · next he => rw [he]
    · rfl
  · unfold ContextSearch.midpoint
    simp only
    split
    · exact Int.dvd_add (dvd_alignDown _ step) (dvd_refl step)
    · exact dvd_alignDown _ step

theorem aligned_round (hs : 0 < step) (s : Search) (ha : Aligned step s) :
    guardedRound feasible step s = searchRound feasible step s := by
  unfold guardedRound searchRound roundWith
  split
  · next hl => simp only [(aligned_midpoint step hs s ha hl).1]
  · rfl

theorem aligned_next (hs : 0 < step) (s t : Search) (ha : Aligned step s)
    (hr : guardedRound feasible step s = .inl t) : Aligned step t := by
  cases roundWith_cases feasible step (guardedMidpoint step) s _ hr with
  | accepted hl hm hf =>
    obtain ⟨he, hdvd⟩ := aligned_midpoint step hs s ha hl
    rw [he]
    constructor
    · exact hdvd
    · exact Int.dvd_add hdvd (dvd_refl step)
    · show midpoint step s ≤ midpoint step s+step
      omega
  | refused hl hm hf => exact ⟨ha.lastOk, ha.lo, ha.le⟩

/-- From an aligned lower end the two searches make the same rounds. A range of
less than `2^k` steps takes them at most `k+1` servers and a last round. -/
theorem aligned_searches_agree (lo hi : ℤ) (hs : 0 < step) (hl : step ∣ lo) :
    (∀ n, loop (guardedRound feasible step) n ⟨lo, hi, lo⟩ =
      loop (searchRound feasible step) n ⟨lo, hi, lo⟩) ∧
    ∀ k : ℕ, hi-lo < 2^k*step →
      ∃ r, loop (searchRound feasible step) (k+2) ⟨lo, hi, lo⟩ = some r := by
  have hagree : ∀ n, loop (guardedRound feasible step) n ⟨lo, hi, lo⟩ =
      loop (searchRound feasible step) n ⟨lo, hi, lo⟩ := fun n =>
    loop_congr _ _ (Aligned step) (fun s t => aligned_next feasible step hs s t)
      (fun s => aligned_round feasible step hs s) n ⟨lo, hi, lo⟩ ⟨hl, hl, le_refl lo⟩
  constructor
  · exact hagree
  · intro k hk
    obtain ⟨a, rfl⟩ := hl
    rw [← hagree, mul_comm step a]
    apply fresh_ends feasible step hs k a hi
    rw [Int.ediv_lt_iff_lt_mul hs]
    linarith

end Steps

theorem fp16_agrees : (∀ n, loop (guardedRound (upTo 409600) 8192) n ⟨393216, 491520, 393216⟩ =
      loop (searchRound (upTo 409600) 8192) n ⟨393216, 491520, 393216⟩) ∧
    ∀ k : ℕ, (491520:ℤ)-393216 < 2^k*8192 →
      ∃ r, loop (searchRound (upTo 409600) 8192) (k+2) ⟨393216, 491520, 393216⟩ = some r :=
  aligned_searches_agree (upTo 409600) 8192 393216 491520 (by decide) (by decide)

end LlRouter.GuardedSearch
