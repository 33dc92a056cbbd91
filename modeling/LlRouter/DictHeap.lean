import Mathlib.Data.Set.Lattice
import Mathlib.Order.CompletePartialOrder
import LlRouter.AssocDict
import LlRouter.TaskPool

/-!
# Nested dictionaries in a heap

A nested dictionary is kept in cells that refer to each other. Any cell may be
shared, and a write to it is seen wherever it is shared. `Reads` says which
value a slot stands for. `Owned` says besides that no part of it is reached
twice, so that a write to one part leaves the others alone. Everything that is
no dictionary is a leaf.
-/

set_option autoImplicit false

namespace DictHeap
open AssocDict

inductive Slot (ν : Type*) where
  | leaf (v : ν)
  | ref (r : ℕ)

abbrev Cell (α ν : Type*) := Dict α (Slot ν)

/-- A cell keeps its address for good. A new cell is appended. -/
abbrev Heap (α ν : Type*) := List (Cell α ν)

section Heap
variable {α ν : Type*}

def Keeps (R : Set ℕ) (h h' : Heap α ν) : Prop :=
  ∀ r ∈ R, ∀ cell, h[r]? = some cell → h'[r]? = some cell

theorem keeps_refl (R : Set ℕ) (h : Heap α ν) : Keeps R h h := fun _ _ _ hc => hc

theorem keeps_trans (R : Set ℕ) (h m h' : Heap α ν) (hm : Keeps R h m) (hn : Keeps R m h') :
    Keeps R h h' :=
  fun r hr cell hc => hn r hr cell (hm r hr cell hc)

theorem keeps_mono (R R' : Set ℕ) (h h' : Heap α ν) (hs : R ⊆ R') (hk : Keeps R' h h') :
    Keeps R h h' :=
  fun r hr => hk r (hs hr)

theorem keeps_append (R : Set ℕ) (h cells : Heap α ν) : Keeps R h (h++cells) := by
  intro r _ cell hc
  rw [List.getElem?_append_left (TaskPool.index_lt hc), hc]

def since (m : ℕ) (h : Heap α ν) : Set ℕ := {r | m ≤ r ∧ r < h.length}

@[simp] theorem mem_since (m : ℕ) (h : Heap α ν) (r : ℕ) :
    r ∈ since m h ↔ m ≤ r ∧ r < h.length := Iff.rfl

theorem since_apart (m : ℕ) (h h' : Heap α ν) (R : Set ℕ) (hR : R ⊆ since m h) :
    Disjoint (since h.length h') R := by
  rw [Set.disjoint_left]
  intro r hr hm
  have hin := hR hm
  simp only [mem_since] at hr hin
  omega

variable [DecidableEq α]

def store (h : Heap α ν) (r : ℕ) (k : α) (slot : Slot ν) : Heap α ν :=
  h.modify r (fun cell => cell.set k slot)

theorem store_here (h : Heap α ν) (r : ℕ) (k : α) (slot : Slot ν) (cell : Cell α ν)
    (hc : h[r]? = some cell) : (store h r k slot)[r]? = some (cell.set k slot) := by
  rw [store, List.getElem?_modify_eq, hc]
  rfl

theorem store_elsewhere (h : Heap α ν) (r x : ℕ) (k : α) (slot : Slot ν) (hx : x ≠ r) :
    (store h r k slot)[x]? = h[x]? :=
  List.getElem?_modify_ne _ _ (Ne.symm hx)

@[simp] theorem store_length (h : Heap α ν) (r : ℕ) (k : α) (slot : Slot ν) :
    (store h r k slot).length = h.length :=
  List.length_modify _ _ _

theorem keeps_store (R : Set ℕ) (h : Heap α ν) (r : ℕ) (k : α) (slot : Slot ν) (hr : r ∉ R) :
    Keeps R h (store h r k slot) := by
  intro x hx cell hc
  have hne : x ≠ r := fun he => hr (he ▸ hx)
  rw [store_elsewhere h r x k slot hne, hc]

end Heap

section Values
variable {α ν : Type*} [DecidableEq α] (view : ν → Option (List (α × ν)))

/-- The slot stands for the value, and only cells of `R` are looked at. -/
inductive Reads (h : Heap α ν) (R : Set ℕ) : Slot ν → ν → Prop
  | leaf (v : ν) (hv : view v = none) : Reads h R (.leaf v) v
  | dict (r : ℕ) (cell : Cell α ν) (v : ν) (fields : List (α × ν)) (hv : view v = some fields)
      (hr : r ∈ R) (hc : h[r]? = some cell) (hk : keys cell.items = keys fields)
      (hs : ∀ k slot w, cell.get? k = some slot → fields.lookup k = some w → Reads h R slot w) :
      Reads h R (.ref r) v

/-- The same, with regions that the values of different keys do not share. -/
inductive Owned (h : Heap α ν) : Set ℕ → Slot ν → ν → Prop
  | leaf (R : Set ℕ) (v : ν) (hv : view v = none) : Owned h R (.leaf v) v
  | dict (R : Set ℕ) (F : α → Set ℕ) (r : ℕ) (cell : Cell α ν) (v : ν) (fields : List (α × ν))
      (hv : view v = some fields) (hr : r ∈ R) (hc : h[r]? = some cell)
      (hk : keys cell.items = keys fields) (hF : ∀ k, F k ⊆ R) (hn : ∀ k, r ∉ F k)
      (hd : ∀ k k', k ≠ k' → Disjoint (F k) (F k'))
      (hs : ∀ k slot w, cell.get? k = some slot → fields.lookup k = some w →
        Owned h (F k) slot w) : Owned h R (.ref r) v

variable (h h' : Heap α ν) (R R' : Set ℕ) (slot : Slot ν) (v : ν)

theorem reads_mono (hs : R ⊆ R') (hr : Reads view h R slot v) : Reads view h R' slot v := by
  induction hr with
  | leaf v hv => exact .leaf v hv
  | dict r cell v fields hv hr hc hk _ ih => exact .dict r cell v fields hv (hs hr) hc hk ih

theorem reads_inside (hr : Reads view h R slot v) :
    Reads view h (Set.Iio h.length) slot v := by
  induction hr with
  | leaf v hv => exact .leaf v hv
  | dict r cell v fields hv _ hc hk _ ih =>
    exact .dict r cell v fields hv (TaskPool.index_lt hc) hc hk ih

theorem reads_frame (hk : Keeps R h h') (hr : Reads view h R slot v) :
    Reads view h' R slot v := by
  induction hr with
  | leaf v hv => exact .leaf v hv
  | dict r cell v fields hv hr hc hkeys _ ih =>
    exact .dict r cell v fields hv hr (hk r hr cell hc) hkeys ih

theorem owned_frame (hk : Keeps R h h') (ho : Owned view h R slot v) :
    Owned view h' R slot v := by
  induction ho with
  | leaf R v hv => exact .leaf R v hv
  | dict R F r cell v fields hv hr hc hkeys hF hn hd _ ih =>
    exact .dict R F r cell v fields hv hr (hk r hr cell hc) hkeys hF hn hd
      (fun k slot w hs hw => ih k slot w hs hw (keeps_mono (F k) R h h' (hF k) hk))

theorem owned_reads (ho : Owned view h R slot v) : Reads view h R slot v := by
  induction ho with
  | leaf R v hv => exact .leaf v hv
  | dict R F r cell v fields hv hr hc hk hF hn hd _ ih =>
    exact .dict r cell v fields hv hr hc hk
      (fun k slot w hs hw => reads_mono view h (F k) R slot w (hF k) (ih k slot w hs hw))

theorem get?_isSome_iff (cell : Cell α ν) (fields : List (α × ν))
    (hk : keys cell.items = keys fields) (k : α) :
    (cell.get? k).isSome ↔ (fields.lookup k).isSome := by
  rw [← Dict.mem_keys_iff, hk, mem_keys_iff_lookup]

theorem get?_none_iff (cell : Cell α ν) (fields : List (α × ν))
    (hk : keys cell.items = keys fields) (k : α) :
    cell.get? k = none ↔ fields.lookup k = none := by
  have hi := get?_isSome_iff cell fields hk k
  cases hc : cell.get? k <;> cases hf : fields.lookup k <;> simp_all

/-- A dictionary that owns its cells may be given a leaf under any key. -/
theorem owned_store (r : ℕ) (fields : List (α × ν)) (k : α) (w v' : ν)
    (hv : view v = some fields) (hv' : view v' = some (assign k w fields))
    (hw : view w = none) (ho : Owned view h R (.ref r) v) :
    Owned view (store h r k (.leaf w)) R (.ref r) v' := by
  cases ho with
  | dict _ F _ cell _ fields' hview hr hc hk hF hn hd hs =>
    obtain rfl : fields = fields' := Option.some.inj (hv.symm.trans hview)
    refine .dict R F r (cell.set k (.leaf w)) v' _ hv' hr (store_here h r k _ cell hc) ?_
      hF hn hd ?_
    · show keys (assign k (.leaf w) cell.items) = keys (assign k w fields)
      rw [keys_assign, keys_assign, hk]
    · intro x slot u hx hu
      rw [Dict.get?_set] at hx
      rw [lookup_assign] at hu
      by_cases hxk : x = k
      · rw [if_pos hxk, Option.some.injEq] at hx hu
        subst hx hu
        exact .leaf (F x) w hw
      · rw [if_neg hxk] at hx hu
        exact owned_frame view h _ (F x) slot u (keeps_store (F x) h r k _ (hn x))
          (hs x slot u hx hu)

theorem reads_ref (r : ℕ) (fields : List (α × ν)) (hv : view v = some fields)
    (hr : Reads view h R (.ref r) v) : r ∈ R ∧ ∃ cell, h[r]? = some cell ∧
      keys cell.items = keys fields ∧
      ∀ k slot w, cell.get? k = some slot → fields.lookup k = some w → Reads view h R slot w := by
  cases hr with
  | dict r cell v fields' hv' hr hc hk hs =>
    obtain rfl : fields = fields' := Option.some.inj (hv.symm.trans hv')
    exact ⟨hr, cell, hc, hk, hs⟩

end Values
end DictHeap
