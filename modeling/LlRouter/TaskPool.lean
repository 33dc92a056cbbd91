import Mathlib.Algebra.GroupWithZero.Nat
import Mathlib.Data.List.Basic

/-!
# Pools of tasks addressed by position

A task keeps its position for good: a step rewrites one position, a new task
is appended.
-/

set_option autoImplicit false

namespace TaskPool
variable {τ : Type*} {l : List τ} {i : ℕ} {a : τ}

theorem index_lt (h : l[i]? = some a) : i < l.length := (List.getElem?_eq_some_iff.mp h).1

theorem getElem?_set_of_some (h : l[i]? = some a) (b : τ) (j : ℕ) :
    (l.set i b)[j]? = if j = i then some b else l[j]? := by
  rw [List.getElem?_set]
  by_cases hj : j = i
  · subst hj
    simp [index_lt h]
  · simp [hj, Ne.symm hj]

theorem getElem?_concat (l : List τ) (b : τ) (j : ℕ) :
    (l++[b])[j]? = if j = l.length then some b else l[j]? := by
  rw [List.getElem?_append]
  by_cases hj : j < l.length
  · simp [hj, Nat.ne_of_lt hj]
  · by_cases he : j = l.length
    · simp [he]
    · have hsub : j - l.length ≠ 0 := by omega
      simp [he, hj, hsub]

theorem map_set_of_some {γ : Type*} (f : τ → γ) (h : l[i]? = some a) (b : τ) (hf : f b = f a) :
    (l.set i b).map f = l.map f := by
  apply List.ext_getElem?
  intro j
  rw [List.getElem?_map, List.getElem?_map, getElem?_set_of_some h]
  by_cases hj : j = i
  · rw [if_pos hj, hj, h, Option.map_some, Option.map_some, hf]
  · rw [if_neg hj]

/-- Rewriting one position moves a sum by what that position contributes. -/
theorem sum_map_set (f : τ → ℕ) (h : l[i]? = some a) (b : τ) :
    ((l.set i b).map f).sum + f a = (l.map f).sum + f b := by
  induction l generalizing i with
  | nil => simp at h
  | cons x l ih =>
    cases i with
    | zero =>
      obtain rfl : x = a := by simpa using h
      simp only [List.set_cons_zero, List.map_cons, List.sum_cons]
      omega
    | succ i =>
      have hrest := ih (i := i) (by simpa using h)
      simp only [List.set_cons_succ, List.map_cons, List.sum_cons]
      omega

theorem countP_set (p : τ → Bool) (h : l[i]? = some a) (b : τ) :
    (l.set i b).countP p + (if p a then 1 else 0) = l.countP p + (if p b then 1 else 0) := by
  obtain ⟨hi, rfl⟩ := List.getElem?_eq_some_iff.mp h
  rw [List.countP_set hi]
  have hpos : p l[i] = true → 0 < l.countP p := fun hp =>
    List.countP_pos_iff.mpr ⟨l[i], List.getElem_mem hi, hp⟩
  by_cases hp : p l[i] = true
  · have := hpos hp
    simp only [hp, if_true]
    omega
  · simp [hp]

section Filter
variable (p : τ → Bool)

def rank (l : List τ) (i : ℕ) : ℕ := (l.take i).countP p

theorem filter_rank (h : l[i]? = some a) (hp : p a = true) :
    (l.filter p)[rank p l i]? = some a := by
  induction l generalizing i with
  | nil => simp at h
  | cons x l ih =>
    cases i with
    | zero =>
      obtain rfl : x = a := by simpa using h
      simp [rank, hp]
    | succ i =>
      have hrest := ih (i := i) (by simpa using h)
      by_cases hx : p x = true
      · simpa [rank, hx] using hrest
      · simpa [rank, hx] using hrest

theorem filter_set_rank (h : l[i]? = some a) (b : τ) (ha : p a = true) (hb : p b = true) :
    (l.set i b).filter p = (l.filter p).set (rank p l i) b := by
  induction l generalizing i with
  | nil => simp at h
  | cons x l ih =>
    cases i with
    | zero =>
      obtain rfl : x = a := by simpa using h
      simp [rank, ha, hb]
    | succ i =>
      have hrest := ih (i := i) (by simpa using h)
      by_cases hx : p x = true
      · simpa [rank, hx] using hrest
      · simpa [rank, hx] using hrest

theorem filter_set_of_not (h : l[i]? = some a) (b : τ) (ha : p a = false) (hb : p b = false) :
    (l.set i b).filter p = l.filter p := by
  induction l generalizing i with
  | nil => simp at h
  | cons x l ih =>
    cases i with
    | zero =>
      obtain rfl : x = a := by simpa using h
      simp [ha, hb]
    | succ i =>
      have hrest := ih (i := i) (by simpa using h)
      simp [List.filter_cons, hrest]

end Filter
end TaskPool
