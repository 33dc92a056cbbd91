import Mathlib.Algebra.Ring.Int.Defs
import Mathlib.Tactic.Linarith
import Mathlib.Tactic.Ring
import LlRouter.WhileLoop

/-!
# The search for the largest context

The search tries multiples of the step only, and takes its lower end for good
without trying it. From an aligned lower end it finds the largest multiple that
fits. From another one it may try the multiple below the lower end, and then
returns less than it was given.
-/

set_option autoImplicit false

namespace LlRouter.ContextSearch
open WhileLoop

structure Search where
  lo : ℤ
  hi : ℤ
  lastOk : ℤ
  deriving DecidableEq

def alignDown (x step : ℤ) : ℤ := x/step*step

def midpoint (step : ℤ) (s : Search) : ℤ :=
  let aligned := alignDown ((s.lo+s.hi)/2) step
  if aligned = s.lastOk then aligned+step else aligned

/-- One round of a search that tries the size `middle`. `feasible` is whether a
server started with that context stays alive. -/
def roundWith (middle : Search → ℤ) (feasible : ℤ → Bool) (step : ℤ) (s : Search) :
    Search ⊕ ℤ :=
  if s.lo ≤ s.hi then
    let mid := middle s
    if s.hi < mid then .inr s.lastOk
    else if feasible mid then .inl ⟨mid+step, s.hi, mid⟩
    else .inl ⟨s.lo, mid-step, s.lastOk⟩
  else .inr s.lastOk

def searchRound (feasible : ℤ → Bool) (step : ℤ) (s : Search) : Search ⊕ ℤ :=
  roundWith (midpoint step) feasible step s

/-- `binary_search_max(label, lo, hi, step)` returns `r`. -/
def SearchMax (feasible : ℤ → Bool) (lo hi step r : ℤ) : Prop :=
  Ends (searchRound feasible step) ⟨lo, hi, lo⟩ r

structure FindsMax (feasible : ℤ → Bool) (lo hi step r : ℤ) : Prop where
  fits : feasible r = true
  lower : lo ≤ r
  upper : r ≤ hi
  best : ∀ x, r < x → x ≤ hi → step ∣ x → feasible x = false

def DownwardClosed (feasible : ℤ → Bool) : Prop :=
  ∀ x y, 0 ≤ x → x ≤ y → feasible y = true → feasible x = true

/-- The second binary digit of `j` is 0. -/
def Skips (j : ℤ) : Prop := ∃ k : ℕ, 1 ≤ k ∧ 2^(k+1) ≤ j ∧ j < 3*2^k

def width (lo hi step : ℤ) : ℤ := (lo+hi)/step-2*(lo/step)+2

/-- The lower end is aligned, or something above it fits, or the midpoints jump
from above the lower end to below it without trying the multiple in between. -/
def Spared (feasible : ℤ → Bool) (lo hi step : ℤ) : Prop :=
  step ∣ lo ∨ (∃ x, lo < x ∧ x ≤ hi ∧ step ∣ x ∧ feasible x = true) ∨ Skips (width lo hi step)

section Aligning
variable (x y step : ℤ)

theorem alignDown_le (hs : 0 < step) : alignDown x step ≤ x := Int.ediv_mul_le x (by omega)

theorem le_alignDown (hs : 0 < step) (hy : step ∣ y) (h : y ≤ x) : y ≤ alignDown x step := by
  obtain ⟨c, rfl⟩ := hy
  have hc : c ≤ x/step := by
    rw [Int.le_ediv_iff_mul_le hs, mul_comm]
    exact h
  rw [mul_comm]
  exact mul_le_mul_of_nonneg_right hc (by omega)

theorem multiple_gap (hx : step ∣ x) (hy : step ∣ y) (h : x < y) : x+step ≤ y := by
  have hd := Int.le_of_dvd (by omega) (Int.dvd_sub hy hx)
  omega

end Aligning

theorem dvd_alignDown (x step : ℤ) : step ∣ alignDown x step := dvd_mul_left step (x/step)

section Rounds
variable (feasible : ℤ → Bool) (step : ℤ)

inductive Round (mid : ℤ) (s : Search) : Search ⊕ ℤ → Prop
  | exhausted (h : s.hi < s.lo) : Round mid s (.inr s.lastOk)
  | beyond (h : s.lo ≤ s.hi) (hm : s.hi < mid) : Round mid s (.inr s.lastOk)
  | accepted (h : s.lo ≤ s.hi) (hm : mid ≤ s.hi) (hf : feasible mid = true) :
      Round mid s (.inl ⟨mid+step, s.hi, mid⟩)
  | refused (h : s.lo ≤ s.hi) (hm : mid ≤ s.hi) (hf : feasible mid = false) :
      Round mid s (.inl ⟨s.lo, mid-step, s.lastOk⟩)

theorem roundWith_cases (middle : Search → ℤ) (s : Search) (r : Search ⊕ ℤ)
    (hr : roundWith middle feasible step s = r) : Round feasible step (middle s) s r := by
  subst hr
  unfold roundWith
  by_cases h : s.lo ≤ s.hi
  · by_cases hm : s.hi < middle s
    · simp only [h, hm, if_true]
      exact .beyond h hm
    · cases hf : feasible (middle s) with
      | true =>
        simp only [h, hm, hf, if_true, if_false]
        exact .accepted h (by omega) hf
      | false =>
        simp only [h, hm, hf, if_true, if_false, Bool.false_eq_true]
        exact .refused h (by omega) hf
  · simp only [h, if_false]
    exact .exhausted (by omega)

structure Homing (base top : ℤ) (s : Search) : Prop where
  aligned : step ∣ s.lastOk
  good : feasible s.lastOk = true
  above : base ≤ s.lastOk
  within : s.lastOk ≤ top
  next : s.lo = s.lastOk ∨ s.lo = s.lastOk+step
  high : s.hi ≤ top
  beyond : ∀ x, s.hi < x → x ≤ top → step ∣ x → feasible x = false

structure LargestMultiple (base top r : ℤ) : Prop where
  aligned : step ∣ r
  good : feasible r = true
  above : base ≤ r
  within : r ≤ top
  best : ∀ x, r < x → x ≤ top → step ∣ x → feasible x = false

variable (base top : ℤ)

/-- The size that is tried is at least the next multiple. -/
theorem homing_midpoint (hs : 0 < step) (s : Search) (hh : Homing feasible step base top s)
    (hl : s.lo ≤ s.hi) : step ∣ midpoint step s ∧ s.lastOk+step ≤ midpoint step s ∧
      (s.hi < midpoint step s → s.hi < s.lastOk+step) := by
  have hal := dvd_alignDown ((s.lo+s.hi)/2) step
  have hle := alignDown_le ((s.lo+s.hi)/2) step hs
  have hlo : step ∣ s.lo := by
    rcases hh.next with h | h
    · rw [h]
      exact hh.aligned
    · rw [h]
      exact Int.dvd_add hh.aligned (dvd_refl step)
  have hge := le_alignDown ((s.lo+s.hi)/2) s.lo step hs hlo (by omega)
  have hlast : s.lastOk ≤ s.lo := by
    rcases hh.next with h | h <;> omega
  unfold midpoint
  by_cases he : alignDown ((s.lo+s.hi)/2) step = s.lastOk
  · simp only [he, if_true]
    exact ⟨Int.dvd_add hh.aligned (dvd_refl step), le_refl _, fun h => h⟩
  · simp only [he, if_false]
    have hgap := multiple_gap s.lastOk _ step hh.aligned hal (by omega)
    exact ⟨hal, hgap, fun h => by omega⟩

theorem refused_beyond (mid : ℤ) (hm : step ∣ mid) (hpos : 0 ≤ mid) (hf : feasible mid = false)
    (hd : DownwardClosed feasible) (x : ℤ) (hx : mid-step < x) (hdvd : step ∣ x) :
    feasible x = false := by
  have hle : mid ≤ x := by
    by_contra hlt
    have hgap := multiple_gap x mid step hdvd hm (by omega)
    omega
  by_contra hn
  rw [Bool.not_eq_false] at hn
  have hmid := hd mid x hpos hle hn
  rw [hf] at hmid
  cases hmid

theorem homing_next (hs : 0 < step) (hb : 0 ≤ base) (hd : DownwardClosed feasible)
    (s t : Search) (hh : Homing feasible step base top s)
    (hr : searchRound feasible step s = .inl t) :
    Homing feasible step base top t ∧ t.hi-t.lo < s.hi-s.lo ∧ s.lo ≤ s.hi := by
  have hnext := hh.next
  have habove := hh.above
  have hhigh := hh.high
  cases roundWith_cases feasible step (midpoint step) s _ hr with
  | accepted hl hm hf =>
    obtain ⟨hdvd, hge, -⟩ := homing_midpoint feasible step base top hs s hh hl
    constructor
    · constructor
      · exact hdvd
      · exact hf
      · show base ≤ midpoint step s
        omega
      · show midpoint step s ≤ top
        omega
      · exact Or.inr rfl
      · exact hhigh
      · exact hh.beyond
    · show s.hi-(midpoint step s+step) < s.hi-s.lo ∧ s.lo ≤ s.hi
      omega
  | refused hl hm hf =>
    obtain ⟨hdvd, hge, -⟩ := homing_midpoint feasible step base top hs s hh hl
    constructor
    · constructor
      · exact hh.aligned
      · exact hh.good
      · exact habove
      · exact hh.within
      · exact hnext
      · show midpoint step s-step ≤ top
        omega
      · intro x hx _ hxd
        exact refused_beyond feasible step _ hdvd (by omega) hf hd x hx hxd
    · show midpoint step s-step-s.lo < s.hi-s.lo ∧ s.lo ≤ s.hi
      omega

theorem homing_done (hs : 0 < step) (s : Search) (r : ℤ)
    (hh : Homing feasible step base top s) (hr : searchRound feasible step s = .inr r) :
    LargestMultiple feasible step base top r := by
  have hlast : r = s.lastOk ∧ s.hi < s.lastOk+step := by
    have hnext := hh.next
    cases roundWith_cases feasible step (midpoint step) s _ hr with
    | exhausted h => exact ⟨rfl, by omega⟩
    | beyond hl hm =>
      obtain ⟨-, -, hlt⟩ := homing_midpoint feasible step base top hs s hh hl
      exact ⟨rfl, hlt hm⟩
  obtain ⟨rfl, hhi⟩ := hlast
  constructor
  · exact hh.aligned
  · exact hh.good
  · exact hh.above
  · exact hh.within
  · intro x hx htop hxd
    have hgap := multiple_gap s.lastOk x step hh.aligned hxd hx
    exact hh.beyond x (by omega) htop hxd

/-- From an aligned good size the search ends at the largest one. -/
theorem homing_ends (hs : 0 < step) (hb : 0 ≤ base) (hd : DownwardClosed feasible)
    (s : Search) (hh : Homing feasible step base top s) :
    ∃ r, Ends (searchRound feasible step) s r ∧ LargestMultiple feasible step base top r := by
  apply ends_total (searchRound feasible step) (Homing feasible step base top)
    (LargestMultiple feasible step base top) (fun s => (s.hi-s.lo+1).toNat) _ _ s hh
  · intro s t hs' hr
    obtain ⟨ht, hlt, hl⟩ := homing_next feasible step base top hs hb hd s t hs' hr
    exact ⟨ht, by omega⟩
  · intro s r hs' hr
    exact homing_done feasible step base top hs s r hs' hr

end Rounds

section Halving

theorem skips_small (j : ℤ) (h : j < 4) : ¬ Skips j := by
  rintro ⟨k, hk, hl, -⟩
  obtain ⟨k, rfl⟩ := Nat.exists_eq_add_of_le hk
  have hp : (1 : ℤ) ≤ 2^k := one_le_pow₀ (by omega)
  have he : (2 : ℤ)^(1+k+1) = 4*2^k := by ring
  omega

theorem skips_middle (j : ℤ) (h : 4 ≤ j) (h' : j < 6) : Skips j :=
  ⟨1, le_refl 1, by norm_num; omega, by norm_num; omega⟩

theorem skips_half (j : ℤ) (h : 6 ≤ j) : Skips j ↔ Skips (j/2) := by
  constructor
  · rintro ⟨k, hk, hl, hu⟩
    obtain ⟨k, rfl⟩ := Nat.exists_eq_add_of_le hk
    cases k with
    | zero =>
      norm_num at hu
      omega
    | succ k =>
      refine ⟨1+k, by omega, ?_, ?_⟩
      · have he : (2 : ℤ)^(1+(k+1)+1) = 2*2^(1+k+1) := by ring
        omega
      · have he : (2 : ℤ)^(1+(k+1)) = 2*2^(1+k) := by ring
        omega
  · rintro ⟨k, hk, hl, hu⟩
    refine ⟨k+1, by omega, ?_, ?_⟩
    · have he : (2 : ℤ)^(k+1+1) = 2*2^(k+1) := by ring
      omega
    · have he : (2 : ℤ)^(k+1) = 2*2^k := by ring
      omega

variable (lo hi step : ℤ)

theorem midpoint_width (hs : 0 < step) (hl : lo ≤ hi) :
    alignDown ((lo+hi)/2) step = (lo/step+width lo hi step/2-1)*step ∧ 2 ≤ width lo hi step := by
  have hdiv : (lo+hi)/2/step = (lo+hi)/step/2 := by
    rw [Int.ediv_ediv_of_nonneg (by omega), Int.ediv_ediv_of_nonneg (by omega), mul_comm]
  have hge : 2*(lo/step) ≤ (lo+hi)/step := by
    rw [Int.le_ediv_iff_mul_le hs]
    have hle := Int.ediv_mul_le lo (show step ≠ 0 by omega)
    linarith
  constructor
  · rw [alignDown, hdiv, width]
    congr 1
    omega
  · unfold width
    omega

theorem lt_multiple_iff (hs : 0 < step) (m : ℤ) : lo < m*step ↔ lo/step < m :=
  (Int.ediv_lt_iff_lt_mul hs).symm

/-- A refused midpoint halves the width. -/
theorem width_half (hs : 0 < step) : width lo ((lo/step+width lo hi step/2-1)*step-step) step =
    width lo hi step/2 := by
  have he : (lo/step+width lo hi step/2-1)*step-step =
      (lo/step+width lo hi step/2-2)*step := by ring
  rw [he]
  unfold width
  rw [Int.add_mul_ediv_right _ _ (by omega : step ≠ 0)]
  omega

end Halving

section Unaligned
variable (feasible : ℤ → Bool) (lo top step : ℤ)

def FitsAbove : Prop := ∃ x, lo < x ∧ x ≤ top ∧ step ∣ x ∧ feasible x = true

theorem findsMax_of_largest (base r : ℤ) (hl : lo ≤ r)
    (hr : LargestMultiple feasible step base top r) : FindsMax feasible lo top step r :=
  ⟨hr.good, hl, hr.within, hr.best⟩

structure Pending (hi : ℤ) : Prop where
  low : lo ≤ hi
  high : hi ≤ top
  beyond : ∀ x, hi < x → x ≤ top → step ∣ x → feasible x = false

/-- A multiple that fits is the start of a search for the largest one. -/
theorem accepted_ends (hs : 0 < step) (hd : DownwardClosed feasible) (hi m : ℤ)
    (hp : Pending feasible lo top step hi) (hm : midpoint step ⟨lo, hi, lo⟩ = m) (hle : m ≤ hi)
    (hdvd : step ∣ m) (hpos : 0 ≤ m) (hf : feasible m = true) :
    ∃ r, Ends (searchRound feasible step) ⟨lo, hi, lo⟩ r ∧
      LargestMultiple feasible step m top r := by
  have hround : searchRound feasible step ⟨lo, hi, lo⟩ = .inl ⟨m+step, hi, m⟩ := by
    simp [searchRound, roundWith, hp.low, hm, hf, not_lt.mpr hle]
  have hh : Homing feasible step m top ⟨m+step, hi, m⟩ :=
    ⟨hdvd, hf, le_refl m, le_trans hle hp.high, Or.inr rfl, hp.high, hp.beyond⟩
  obtain ⟨r, he, hr⟩ := homing_ends feasible step m top hs hpos hd _ hh
  exact ⟨r, ends_next _ _ _ r hround he, hr⟩

theorem refused_round (hi m : ℤ) (hl : lo ≤ hi) (hm : midpoint step ⟨lo, hi, lo⟩ = m)
    (hle : m ≤ hi) (hf : feasible m = false) :
    searchRound feasible step ⟨lo, hi, lo⟩ = .inl ⟨lo, m-step, lo⟩ := by
  simp [searchRound, roundWith, hl, hm, hf, not_lt.mpr hle]

theorem exhausted_finds (hi : ℤ) (hf : feasible lo = true) (ht : lo ≤ top) (hlt : hi < lo)
    (hbeyond : ∀ x, hi < x → x ≤ top → step ∣ x → feasible x = false) :
    Ends (searchRound feasible step) ⟨lo, hi, lo⟩ lo ∧ FindsMax feasible lo top step lo := by
  have hdone : searchRound feasible step ⟨lo, hi, lo⟩ = .inr lo := by
    simp [searchRound, roundWith, not_le.mpr hlt]
  exact ⟨ends_done _ _ lo hdone, hf, le_refl lo, ht,
    fun x hx hxt hxd => hbeyond x (by omega) hxt hxd⟩

/-- A search that went below the lower end comes back over it only for a
multiple that fits there. -/
theorem findsMax_from_below (base r : ℤ) (hu : ¬ step ∣ lo)
    (hr : LargestMultiple feasible step base top r) :
    FindsMax feasible lo top step r ↔ FitsAbove feasible lo top step := by
  constructor
  · intro hm
    have hne : lo ≠ r := by
      rintro rfl
      exact hu hr.aligned
    have hlower := hm.lower
    exact ⟨r, by omega, hr.within, hr.aligned, hr.good⟩
  · rintro ⟨x, hx, ht, hxd, hxf⟩
    have hle : x ≤ r := by
      by_contra hlt
      have hn := hr.best x (by omega) ht hxd
      rw [hxf] at hn
      cases hn
    exact findsMax_of_largest feasible lo top step base r (by omega) hr

theorem unaligned_midpoint (hi : ℤ) (hs : 0 < step) (hu : ¬ step ∣ lo) (hl : lo ≤ hi) :
    midpoint step ⟨lo, hi, lo⟩ = (lo/step+width lo hi step/2-1)*step ∧
      (lo/step+width lo hi step/2-1)*step ≤ hi := by
  have hne : alignDown ((lo+hi)/2) step ≠ lo := by
    intro he
    exact hu (he ▸ dvd_alignDown ((lo+hi)/2) step)
  have hm : midpoint step ⟨lo, hi, lo⟩ = alignDown ((lo+hi)/2) step := by
    simp [midpoint, hne]
  have hle := alignDown_le ((lo+hi)/2) step hs
  rw [hm, ← (midpoint_width lo hi step hs hl).1]
  exact ⟨rfl, by omega⟩

/-- The search from an unaligned lower end that has found nothing yet, by
induction on what is left of the range. -/
theorem unaligned_ends (hs : 0 < step) (hlo : 0 < lo) (hu : ¬ step ∣ lo)
    (hf : feasible lo = true) (hd : DownwardClosed feasible) (hi : ℤ)
    (hp : Pending feasible lo top step hi) :
    ∃ r, Ends (searchRound feasible step) ⟨lo, hi, lo⟩ r ∧
      (FindsMax feasible lo top step r ↔
        FitsAbove feasible lo top step ∨ Skips (width lo hi step)) := by
  -- on what is left of the range, with nothing found in it so far
  induction hn : (hi-lo).toNat using Nat.strongRecOn generalizing hi with
  | ind n ih =>
    obtain ⟨hmid, hle⟩ := unaligned_midpoint lo step hi hs hu hp.low
    have hwidth := (midpoint_width lo hi step hs hp.low).2
    have habove := lt_multiple_iff lo step hs (lo/step+width lo hi step/2-1)
    have hhalf := width_half lo hi step hs
    have hnext : lo < (lo/step+width lo hi step/2-1)*step-step ↔ 6 ≤ width lo hi step := by
      have he : (lo/step+width lo hi step/2-1)*step-step =
          (lo/step+width lo hi step/2-2)*step := by ring
      rw [he, lt_multiple_iff lo step hs]
      omega
    have hpos : 0 ≤ (lo/step+width lo hi step/2-1)*step := by
      have hq : 0 ≤ lo/step := Int.ediv_nonneg (by omega) (by omega)
      exact mul_nonneg (by omega) (by omega)
    have hdvd : step ∣ (lo/step+width lo hi step/2-1)*step := dvd_mul_left step _
    generalize (lo/step+width lo hi step/2-1)*step = m at *
    have hlow := hp.low
    have hhigh := hp.high
    by_cases hj : 4 ≤ width lo hi step
    · have hgt : lo < m := habove.mpr (by omega)
      cases hfm : feasible m with
      | true =>
        obtain ⟨r, he, hr⟩ := accepted_ends feasible lo top step hs hd hi m hp hmid hle hdvd
          hpos hfm
        have hrm := hr.above
        exact ⟨r, he, fun _ => Or.inl ⟨m, hgt, by omega, hdvd, hfm⟩,
          fun _ => findsMax_of_largest feasible lo top step m r (by omega) hr⟩
      | false =>
        have hround := refused_round feasible lo step hi m hlow hmid hle hfm
        have hbeyond : ∀ x, m-step < x → x ≤ top → step ∣ x → feasible x = false := by
          intro x hx _ hxd
          exact refused_beyond feasible step m hdvd hpos hfm hd x hx hxd
        by_cases hj' : 6 ≤ width lo hi step
        · have hlt := hnext.mpr hj'
          obtain ⟨r, he, hr⟩ := ih _ (by omega) (m-step) ⟨by omega, by omega, hbeyond⟩ rfl
          rw [hhalf, ← skips_half _ hj'] at hr
          exact ⟨r, ends_next _ _ _ r hround he, hr⟩
        · have hne : m-step ≠ lo := by
            intro he
            exact hu (he ▸ Int.dvd_sub hdvd (dvd_refl step))
          have hlt : m-step < lo := by
            have hnot := hnext.not.mpr hj'
            omega
          obtain ⟨he, hr⟩ := exhausted_finds feasible lo top step (m-step) hf (by omega) hlt
            hbeyond
          exact ⟨lo, ends_next _ _ _ lo hround he,
            fun _ => Or.inr (skips_middle _ hj (by omega)), fun _ => hr⟩
    · -- The midpoint is the multiple below the lower end, which fits.
      have hlt : m ≤ lo := not_lt.mp (habove.not.mpr (by omega))
      have hfm := hd m lo hpos hlt hf
      obtain ⟨r, he, hr⟩ := accepted_ends feasible lo top step hs hd hi m hp hmid hle hdvd
        hpos hfm
      have hskip := skips_small (width lo hi step) (by omega)
      refine ⟨r, he, ?_⟩
      rw [findsMax_from_below feasible lo top step m r hu hr]
      exact ⟨Or.inl, fun h => h.resolve_right hskip⟩

end Unaligned

theorem search_ends (feasible : ℤ → Bool) (lo hi step : ℤ) (hs : 0 < step) (hlo : 0 < lo)
    (hl : lo ≤ hi) (hf : feasible lo = true) (hd : DownwardClosed feasible) :
    ∃ r, SearchMax feasible lo hi step r ∧
      (FindsMax feasible lo hi step r ↔ Spared feasible lo hi step) := by
  have hnone : ∀ x, hi < x → x ≤ hi → step ∣ x → feasible x = false := by
    intro x hx hx' _
    omega
  by_cases hu : step ∣ lo
  · have hh : Homing feasible step lo hi ⟨lo, hi, lo⟩ :=
      ⟨hu, hf, le_refl lo, hl, Or.inl rfl, le_refl hi, hnone⟩
    obtain ⟨r, he, hr⟩ := homing_ends feasible step lo hi hs (by omega) hd _ hh
    exact ⟨r, he, fun _ => Or.inl hu,
      fun _ => findsMax_of_largest feasible lo hi step lo r hr.above hr⟩
  · obtain ⟨r, he, hr⟩ := unaligned_ends feasible lo hi step hs hlo hu hf hd hi
      ⟨hl, le_refl hi, hnone⟩
    refine ⟨r, he, hr.trans ?_⟩
    unfold Spared
    exact ⟨Or.inr, fun h => h.resolve_left hu⟩

/-- The search ends, and finds the maximum exactly when it is spared the
multiple below its lower end. -/
theorem finds_max_iff (feasible : ℤ → Bool) (lo hi step : ℤ) (hs : 0 < step) (hlo : 0 < lo)
    (hl : lo ≤ hi) (hf : feasible lo = true) (hd : DownwardClosed feasible) :
    (∃ r, SearchMax feasible lo hi step r) ∧ ∀ r, SearchMax feasible lo hi step r →
      (FindsMax feasible lo hi step r ↔ Spared feasible lo hi step) := by
  obtain ⟨r, he, hr⟩ := search_ends feasible lo hi step hs hlo hl hf hd
  constructor
  · exact ⟨r, he⟩
  · intro r' he'
    obtain rfl : r = r' := ends_unique _ _ r r' he he'
    exact hr

def upTo (limit : ℤ) (x : ℤ) : Bool := x ≤ limit

theorem upTo_closed (limit : ℤ) : DownwardClosed (upTo limit) := by
  intro x y _ hxy hy
  simp only [upTo, decide_eq_true_eq] at hy ⊢
  omega

theorem finds_max_fp16 : (∃ r, SearchMax (upTo 409600) 393216 471040 8192 r) ∧
    ∀ r, SearchMax (upTo 409600) 393216 471040 8192 r →
      (FindsMax (upTo 409600) 393216 471040 8192 r ↔ Spared (upTo 409600) 393216 471040 8192) :=
  finds_max_iff (upTo 409600) 393216 471040 8192 (by decide) (by decide) (by decide) (by decide)
    (upTo_closed 409600)

/-- The multi-slot search after a maximum of 63 steps, with a known size that
is no multiple: it returns less than that size. -/
theorem multi_slot_below_known : ¬ ∀ (feasible : ℤ → Bool) (lo hi step : ℤ), 0 < step → 0 < lo →
    lo ≤ hi → feasible lo = true → DownwardClosed feasible →
    ∀ r, SearchMax feasible lo hi step r → FindsMax feasible lo hi step r := by
  intro h
  have he : SearchMax (upTo 516096) 516096 2064384 16384 507904 := ⟨20, by decide⟩
  have hm := h (upTo 516096) 516096 2064384 16384 (by decide) (by decide) (by decide) (by decide)
    (upTo_closed 516096) 507904 he
  have hlower := hm.lower
  omega

end LlRouter.ContextSearch
