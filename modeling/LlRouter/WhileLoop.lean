import Mathlib.Data.Nat.Notation

/-!
# Loops counted by their rounds

`body s` is the state after one more round, or the value the loop ends with.
A loop that keeps an invariant and makes a measure smaller in every round ends,
after at most as many further rounds as the measure says.
-/

set_option autoImplicit false

namespace WhileLoop
variable {σ β : Type*} (body : σ → σ ⊕ β)

def loop : ℕ → σ → Option β
  | 0, _ => none
  | n+1, s =>
    match body s with
    | .inl t => loop n t
    | .inr b => some b

def Ends (s : σ) (b : β) : Prop := ∃ n, loop body n s = some b

theorem loop_next (n : ℕ) (s t : σ) (h : body s = .inl t) : loop body (n+1) s = loop body n t := by
  simp only [loop, h]

theorem loop_done (n : ℕ) (s : σ) (b : β) (h : body s = .inr b) :
    loop body (n+1) s = some b := by
  simp only [loop, h]

theorem loop_more (n k : ℕ) (s : σ) (b : β) (h : loop body n s = some b) :
    loop body (n+k) s = some b := by
  induction n generalizing s with
  | zero => cases h
  | succ n ih =>
    rw [Nat.succ_add]
    cases hb : body s with
    | inl t =>
      rw [loop_next body n s t hb] at h
      rw [loop_next body (n+k) s t hb]
      exact ih t h
    | inr a =>
      rw [loop_done body n s a hb] at h
      rw [loop_done body (n+k) s a hb]
      exact h

theorem ends_unique (s : σ) (a b : β) (ha : Ends body s a) (hb : Ends body s b) : a = b := by
  obtain ⟨n, hn⟩ := ha
  obtain ⟨k, hk⟩ := hb
  have hn' := loop_more body n k s a hn
  have hk' := loop_more body k n s b hk
  rw [Nat.add_comm, hn'] at hk'
  exact Option.some.inj hk'

theorem ends_next (s t : σ) (b : β) (h : body s = .inl t) (ht : Ends body t b) :
    Ends body s b := by
  obtain ⟨n, hn⟩ := ht
  exact ⟨n+1, (loop_next body n s t h).trans hn⟩

theorem ends_done (s : σ) (b : β) (h : body s = .inr b) : Ends body s b :=
  ⟨1, loop_done body 0 s b h⟩

/-- Two loops whose bodies agree wherever the invariant of one holds. -/
theorem loop_congr (body' : σ → σ ⊕ β) (I : σ → Prop)
    (hnext : ∀ s t, I s → body s = .inl t → I t) (heq : ∀ s, I s → body s = body' s)
    (n : ℕ) (s : σ) (hs : I s) : loop body n s = loop body' n s := by
  induction n generalizing s with
  | zero => rfl
  | succ n ih =>
    cases hb : body s with
    | inl t =>
      rw [loop_next body n s t hb, loop_next body' n s t (heq s hs ▸ hb)]
      exact ih t (hnext s t hs hb)
    | inr b => rw [loop_done body n s b hb, loop_done body' n s b (heq s hs ▸ hb)]

/-- Total correctness from an invariant and a measure. -/
theorem ends_total (I : σ → Prop) (Q : β → Prop) (μ : σ → ℕ)
    (hnext : ∀ s t, I s → body s = .inl t → I t ∧ μ t < μ s)
    (hdone : ∀ s b, I s → body s = .inr b → Q b) (s : σ) (hs : I s) :
    ∃ b, Ends body s b ∧ Q b := by
  induction hm : μ s using Nat.strongRecOn generalizing s with
  | ind m ih =>
    cases hb : body s with
    | inl t =>
      obtain ⟨ht, hlt⟩ := hnext s t hs hb
      obtain ⟨b, he, hq⟩ := ih (μ t) (hm ▸ hlt) t ht rfl
      exact ⟨b, ends_next body s t b hb he, hq⟩
    | inr b => exact ⟨b, ends_done body s b hb, hdone s b hs hb⟩

end WhileLoop
