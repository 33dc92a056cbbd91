import LlRouter.DictHeap
import LlRouter.JsonValue

/-!
# JSON values in cells

Every object of a decoded value is a dictionary of its own. Arrays and scalars
are leaves: nothing in the router writes inside them.
-/

set_option autoImplicit false

namespace LlRouter.JsonCells
open AssocDict DictHeap
open LlRouter.JsonValue LlRouter.JsonValue.Json

abbrev JsonHeap := Heap String Json

def asObject : Json → Option Fields
  | .obj fields => some fields
  | _ => none

mutual

/-- Decoding makes a new dictionary for every object. -/
def load : Json → JsonHeap → Slot Json × JsonHeap
  | .obj fields, h =>
    (.ref (loadFields fields h).2.length,
      (loadFields fields h).2++[Dict.ofList (loadFields fields h).1])
  | j, h => (.leaf j, h)

def loadFields : List (String × Json) → JsonHeap → List (String × Slot Json) × JsonHeap
  | [], h => ([], h)
  | (k, j)::rest, h =>
    ((k, (load j h).1)::(loadFields rest (load j h).2).1, (loadFields rest (load j h).2).2)

end

theorem asObject_none (j : Json) : asObject j = none ↔ j.isObject = false := by
  cases j <;> simp [asObject, isObject]

theorem asObject_some (j : Json) (fields : Fields) (h : asObject j = some fields) :
    j = .obj fields := by
  cases j with
  | obj fields' => rw [Option.some.inj h]
  | _ => cases h

def Loaded (j : Json) : Prop :=
  ∀ h, (∃ cells, (load j h).2 = h++cells) ∧
    Owned asObject (load j h).2 (since h.length (load j h).2) (load j h).1 j

theorem load_leaf (j : Json) (h : JsonHeap) (hl : j.isObject = false) :
    load j h = (.leaf j, h) := by
  cases j with
  | obj fields => cases hl
  | _ => simp [load]

theorem loadFields_loaded (fields : Fields) (h : JsonHeap) (hn : (keys fields).Nodup)
    (hl : ∀ p ∈ fields, Loaded p.2) : ∃ cells, (loadFields fields h).2 = h++cells ∧
      keys (loadFields fields h).1 = keys fields ∧ ∃ F : String → Set ℕ,
        (∀ k, F k ⊆ since h.length (loadFields fields h).2) ∧
        (∀ k k', k ≠ k' → Disjoint (F k) (F k')) ∧
        ∀ k slot w, (loadFields fields h).1.lookup k = some slot → fields.lookup k = some w →
          Owned asObject (loadFields fields h).2 (F k) slot w := by
  induction fields generalizing h with
  | nil =>
    refine ⟨[], by simp [loadFields], by simp [loadFields], fun _ => ∅, ?_, ?_, ?_⟩
    · intro k
      exact Set.empty_subset _
    · intro k k' _
      exact Set.empty_disjoint _
    · intro k slot w hs
      simp [loadFields] at hs
  | cons p fields ih =>
    obtain ⟨k, j⟩ := p
    obtain ⟨hk, hn⟩ := List.nodup_cons.mp hn
    obtain ⟨⟨first, hfirst⟩, howned⟩ := hl (k, j) List.mem_cons_self h
    obtain ⟨rest, hrest, hkeys, F, hF, hd, hs⟩ := ih (load j h).2 hn
      (fun p hp => hl p (List.mem_cons_of_mem _ hp))
    simp only [loadFields]
    have hgrow : (load j h).2.length = h.length+first.length := by rw [hfirst, List.length_append]
    have hlast : (loadFields fields (load j h).2).2.length =
        h.length+first.length+rest.length := by
      rw [hrest, List.length_append, hgrow]
    -- The value of `k` has the cells before the others'.
    refine ⟨first++rest, by rw [hrest, hfirst, List.append_assoc], by simp [hkeys],
      fun x => if x = k then since h.length (load j h).2 else F x, ?_, ?_, ?_⟩
    · intro x r hr
      by_cases hx : x = k
      · simp only [hx, if_true, mem_since] at hr ⊢
        omega
      · simp only [hx, if_false] at hr
        have hin := hF x hr
        simp only [mem_since] at hin ⊢
        omega
    · have hsep : ∀ x, Disjoint (since h.length (load j h).2) (F x) := by
        intro x
        rw [Set.disjoint_left]
        intro r hr hrx
        have hin := hF x hrx
        simp only [mem_since] at hr hin
        omega
      intro x x' hne
      by_cases hx : x = k
      · have hx' : x' ≠ k := fun he => hne (hx.trans he.symm)
        simp only [hx, hx', if_true, if_false]
        exact hsep x'
      · by_cases hx' : x' = k
        · simp only [hx, hx', if_true, if_false]
          exact (hsep x).symm
        · simp only [hx, hx', if_false]
          exact hd x x' hne
    · intro x slot w hxs hxw
      rw [lookup_cons_if] at hxs hxw
      by_cases hx : x = k
      · rw [if_pos hx, Option.some.injEq] at hxs hxw
        subst hxs hxw
        simp only [hx, if_true]
        refine owned_frame _ _ _ _ _ _ ?_ howned
        rw [hrest]
        exact keeps_append _ _ rest
      · rw [if_neg hx] at hxs hxw
        simp only [hx, if_false]
        exact hs x slot w hxs hxw

theorem loaded (j : Json) (hu : j.Unique) : Loaded j := by
  induction j using induction_on_objects with
  | leaf j hl =>
    intro h
    rw [load_leaf j h hl]
    exact ⟨⟨[], by simp⟩, .leaf _ j ((asObject_none j).mpr hl)⟩
  | obj fields ih =>
    intro h
    rw [Json.Unique] at hu
    have hl : ∀ p ∈ fields, Loaded p.2 := by
      intro p hp
      have hlook := (mem_iff_lookup fields hu.1 p.1 p.2).mp hp
      exact ih p.1 p.2 hlook (unique_lookup fields hu.2 p.1 p.2 hlook)
    obtain ⟨cells, hcells, hkeys, F, hF, hd, hs⟩ := loadFields_loaded fields h hu.1 hl
    have hitems := Dict.items_ofList (loadFields fields h).1 (hkeys ▸ hu.1)
    have hlen : (loadFields fields h).2.length = h.length+cells.length := by
      rw [hcells, List.length_append]
    have hnew : ∀ r, r ∈ since h.length (loadFields fields h).2 →
        r ≠ (loadFields fields h).2.length := by
      intro r hr
      simp only [mem_since] at hr
      omega
    simp only [load]
    constructor
    · exact ⟨cells++[Dict.ofList (loadFields fields h).1], by rw [hcells, List.append_assoc]⟩
    · refine .dict _ F _ (Dict.ofList (loadFields fields h).1) _ fields rfl ?_
        (List.getElem?_concat_length) (by rw [hitems, hkeys]) ?_ ?_ hd ?_
      · simp only [mem_since, List.length_append, List.length_singleton]
        omega
      · intro k r hr
        have hin := hF k hr
        simp only [mem_since, List.length_append, List.length_singleton] at hin ⊢
        omega
      · intro k hr
        exact hnew _ (hF k hr) rfl
      · intro k slot w hslot hw
        rw [Dict.get?, hitems] at hslot
        exact owned_frame _ _ _ _ _ _ (keeps_append _ _ _) (hs k slot w hslot hw)

end LlRouter.JsonCells
