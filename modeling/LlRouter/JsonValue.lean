import Mathlib.Data.Int.Notation
import LlRouter.AssocDict

/-!
# JSON values as the router holds them

Objects keep their insertion order. A float is known by the text Python
prints for it, so zero and the non-finite values can be told apart without
computing with floats.
-/

set_option autoImplicit false

namespace LlRouter.JsonValue
open AssocDict

inductive Json where
  | null
  | bool (b : Bool)
  | int (n : ℤ)
  | float (repr : String)
  | str (s : String)
  | arr (items : List Json)
  | obj (fields : List (String × Json))
  deriving Repr

abbrev Fields := List (String × Json)

namespace Json

def truthy : Json → Bool
  | .null => false
  | .bool b => b
  | .int n => n ≠ 0
  | .float r => r ≠ "0.0" ∧ r ≠ "-0.0"
  | .str s => s ≠ ""
  | .arr items => !items.isEmpty
  | .obj fields => !fields.isEmpty

def typeName : Json → String
  | .null => "NoneType"
  | .bool _ => "bool"
  | .int _ => "int"
  | .float _ => "float"
  | .str _ => "str"
  | .arr _ => "list"
  | .obj _ => "dict"

def isObject : Json → Bool
  | .obj _ => true
  | _ => false

/-- The value at a path of object keys. Arrays and scalars have nothing below. -/
def atPath : Json → List String → Option Json
  | j, [] => some j
  | .obj fields, k::p => (fields.lookup k).bind (fun j => j.atPath p)
  | _, _::_ => none

@[simp] theorem atPath_nil (j : Json) : j.atPath [] = some j := by
  cases j <;> rfl

@[simp] theorem atPath_obj (fields : Fields) (k : String) (p : List String) :
    (obj fields).atPath (k::p) = (fields.lookup k).bind (fun j => j.atPath p) := rfl

theorem atPath_append (j : Json) (p q : List String) :
    j.atPath (p++q) = (j.atPath p).bind (fun m => m.atPath q) := by
  induction p generalizing j with
  | nil => simp
  | cons k p ih =>
    cases j with
    | obj fields => cases hl : fields.lookup k <;> simp [hl, ih]
    | _ => rfl

mutual

def Unique : Json → Prop
  | .obj fields => (keys fields).Nodup ∧ UniqueFields fields
  | _ => True

def UniqueFields : List (String × Json) → Prop
  | [] => True
  | (_, v)::rest => v.Unique ∧ UniqueFields rest

end

theorem unique_lookup (fields : Fields) (h : UniqueFields fields) (k : String) (v : Json)
    (hl : fields.lookup k = some v) : v.Unique := by
  induction fields with
  | nil => simp at hl
  | cons p fields ih =>
    obtain ⟨a, w⟩ := p
    rw [lookup_cons_if] at hl
    split at hl
    · obtain rfl : w = v := Option.some.inj hl
      exact h.1
    · exact ih h.2 hl

theorem sizeOf_lookup (fields : Fields) (k : String) (v : Json)
    (h : fields.lookup k = some v) : sizeOf v < sizeOf fields := by
  induction fields with
  | nil => simp at h
  | cons p fields ih =>
    obtain ⟨a, w⟩ := p
    rw [lookup_cons_if] at h
    simp only [List.cons.sizeOf_spec, Prod.mk.sizeOf_spec]
    split at h
    · obtain rfl : w = v := Option.some.inj h
      omega
    · have hlt := ih h
      omega

/-- Induction over nested objects. Everything else is a leaf. -/
theorem induction_on_objects {motive : Json → Prop}
    (leaf : ∀ j, j.isObject = false → motive j)
    (obj : ∀ fields, (∀ k v, fields.lookup k = some v → motive v) → motive (.obj fields))
    (j : Json) : motive j := by
  induction hn : sizeOf j using Nat.strongRecOn generalizing j with
  | ind n ih =>
    cases j with
    | obj fields =>
      apply obj
      intro k v hv
      have hlt := sizeOf_lookup fields k v hv
      simp only [Json.obj.sizeOf_spec] at hn
      exact ih (sizeOf v) (by omega) v rfl
    | _ => exact leaf _ rfl

end Json
end LlRouter.JsonValue
