import Mathlib.Data.List.Induction
import Mathlib.Data.Set.Insert

/-!
# Claims that exclude their rivals

A claim makes its own place taken and its rivals' places free, and leaves all
others alone. After any sequence of claims a place is as the last claim that
was concerned with it left it.
-/

set_option autoImplicit false

namespace RivalClaims
variable {α υ : Type*} (own : α → υ) (rivals : α → Set υ)

def claim (taken : Set υ) (a : α) : Set υ := insert (own a) (taken \ rivals a)

def claims (taken : Set υ) (as : List α) : Set υ := as.foldl (claim own rivals) taken

def Concerns (x : υ) (a : α) : Prop := x = own a ∨ x ∈ rivals a

theorem claims_snoc (taken : Set υ) (as : List α) (a : α) :
    claims own rivals taken (as++[a]) = claim own rivals (claims own rivals taken as) a := by
  rw [claims, List.foldl_append]
  rfl

theorem mem_claim_of_concerns (taken : Set υ) (x : υ) (a : α) (h : Concerns own rivals x a) :
    x ∈ claim own rivals taken a ↔ own a = x := by
  simp only [claim, Set.mem_insert_iff, Set.mem_sdiff]
  constructor
  · rintro (hx | ⟨-, hn⟩)
    · exact hx.symm
    · rcases h with hx | hr
      · exact hx.symm
      · exact absurd hr hn
  · intro hx
    exact Or.inl hx.symm

theorem mem_claim_of_not_concerns (taken : Set υ) (x : υ) (a : α)
    (h : ¬ Concerns own rivals x a) : x ∈ claim own rivals taken a ↔ x ∈ taken := by
  simp only [claim, Set.mem_insert_iff, Set.mem_sdiff]
  constructor
  · rintro (hx | ⟨hx, -⟩)
    · exact absurd (Or.inl hx) h
    · exact hx
  · intro hx
    exact Or.inr ⟨hx, fun hr => h (Or.inr hr)⟩

section Last
variable (x : υ) [DecidablePred (Concerns own rivals x)]

def lastConcerned (as : List α) : Option α :=
  as.reverse.find? (fun a => decide (Concerns own rivals x a))

theorem mem_claims_iff (taken : Set υ) (as : List α) :
    x ∈ claims own rivals taken as ↔
      (lastConcerned own rivals x as).elim (x ∈ taken) (fun a => own a = x) := by
  induction as using List.reverseRecOn with
  | nil => rfl
  | append_singleton as a ih =>
    rw [claims_snoc]
    unfold lastConcerned at ih ⊢
    rw [List.reverse_append, List.reverse_singleton, List.singleton_append]
    by_cases h : Concerns own rivals x a
    · rw [List.find?_cons_of_pos (by simpa using h)]
      exact mem_claim_of_concerns own rivals _ x a h
    · rw [List.find?_cons_of_neg (by simpa using h), mem_claim_of_not_concerns own rivals _ x a h]
      exact ih

end Last
end RivalClaims
