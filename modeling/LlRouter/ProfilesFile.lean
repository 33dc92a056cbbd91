import Mathlib.Data.List.DropRight
import LlRouter.RequestBody

/-!
# The overrides table of a profiles file

The file maps paths to entries, and the loader keeps the overrides of each
entry under the last component of its path. Entries without overrides are
skipped, so they do not clear what an earlier entry left.
-/

set_option autoImplicit false

namespace LlRouter.ProfilesFile
open AssocDict ControlExit
open LlRouter.JsonValue LlRouter.BackendConfig LlRouter.RequestBody

/-- What the loader finds. `failed` is any exception of reading and parsing but
the `JSONDecodeError` it catches. -/
inductive Profiles where
  | missing
  | undecodable
  | failed (e : PyException)
  | json (raw : Json)

def orEmpty (v : Option Json) : Json :=
  match v with
  | some j => if j.truthy then j else .obj []
  | none => .obj []

def getOrEmpty (key : String) : Json → Exit Json
  | .obj fields => .returned (orEmpty (fields.lookup key))
  | j => .raised ⟨"AttributeError", "'" ++ j.typeName ++ "' object has no attribute 'get'"⟩

def items : Json → Exit Fields
  | .obj fields => .returned fields
  | j => .raised ⟨"AttributeError", "'" ++ j.typeName ++ "' object has no attribute 'items'"⟩

/-- `rel_path.rsplit("/", 1)[-1]`. -/
def basename (relPath : String) : String :=
  String.ofList (relPath.toList.rtakeWhile (fun ch => ch != '/'))

def loadEntries (out : Dict String Json) : Fields → Exit (Dict String Json)
  | [] => .returned out
  | (relPath, entry)::rest =>
    (getOrEmpty "request_overrides" entry).bind (fun ov =>
      loadEntries (if ov.truthy then out.set (basename relPath) ov else out) rest)

def loadOverrides : Profiles → Exit (Dict String Json)
  | .missing => .returned Dict.empty
  | .undecodable => .returned Dict.empty
  | .failed e => .raised e
  | .json raw =>
    (getOrEmpty "models" raw).bind (fun models => (items models).bind (loadEntries Dict.empty))

def overridden : Json → Option Json
  | .obj fields =>
    let ov := orEmpty (fields.lookup "request_overrides")
    if ov.truthy then some ov else none
  | _ => none

def addEntry (out : Dict String Json) (p : String × Json) : Dict String Json :=
  match overridden p.2 with
  | some ov => out.set (basename p.1) ov
  | none => out

def overrideFor (g : String) (p : String × Json) : Option Json :=
  if basename p.1 = g then overridden p.2 else none

def LastOverride (entries : Fields) (g : String) (ov : Json) : Prop :=
  ∃ before p after, entries = before++p::after ∧ basename p.1 = g ∧ overridden p.2 = some ov ∧
    ∀ q ∈ after, basename q.1 = g → overridden q.2 = none

section Suffix
variable {α : Type*} (p : α → Bool)

/-- The longest suffix in a class: everything, or what follows a breaking element. -/
theorem rtakeWhile_eq_iff (l m : List α) : l.rtakeWhile p = m ↔
    (∀ x ∈ m, p x) ∧ (l = m ∨ ∃ pre x, p x = false ∧ l = pre++x::m) := by
  constructor
  · rintro rfl
    constructor
    · intro x hx
      exact List.mem_rtakeWhile_imp hx
    · have hsplit : l.rdropWhile p++l.rtakeWhile p = l := List.rdropWhile_append_rtakeWhile
      by_cases hd : l.rdropWhile p = []
      · apply Or.inl
        rw [hd, List.nil_append] at hsplit
        exact hsplit.symm
      · apply Or.inr
        have hlast := List.rdropWhile_last_not p l hd
        have hconcat := List.dropLast_append_getLast hd
        rw [← hconcat, List.append_assoc, List.singleton_append] at hsplit
        exact ⟨_, _, by simpa using hlast, hsplit.symm⟩
  · rintro ⟨hm, rfl | ⟨pre, x, hx, rfl⟩⟩
    · exact List.rtakeWhile_eq_self_iff.mpr hm
    · have hr : ∀ y ∈ m.reverse, p y = true := fun y hy => hm y (List.mem_reverse.mp hy)
      rw [List.rtakeWhile, List.reverse_append, List.reverse_cons, List.append_assoc,
        List.takeWhile_append_of_pos hr]
      simp [hx]

end Suffix

theorem basename_eq_iff (path g : String) : basename path = g ↔
    '/' ∉ g.toList ∧ (path = g ∨ ∃ dir, path = dir ++ "/" ++ g) := by
  have hb : basename path = g ↔
      path.toList.rtakeWhile (fun ch => ch != '/') = g.toList := by
    constructor
    · rintro rfl
      rw [basename, String.toList_ofList]
    · intro h
      rw [basename, h, String.ofList_toList]
  have hin : (∀ ch ∈ g.toList, (ch != '/') = true) ↔ '/' ∉ g.toList := by
    constructor
    · intro h hm
      have hc := h '/' hm
      simp at hc
    · intro h ch hc
      rw [bne_iff_ne]
      rintro rfl
      exact h hc
  rw [hb, rtakeWhile_eq_iff, hin]
  apply and_congr_right
  intro _
  apply or_congr
  · exact String.toList_inj
  · constructor
    · rintro ⟨pre, ch, hch, hp⟩
      have hs : ch = '/' := by simpa using hch
      refine ⟨String.ofList pre, ?_⟩
      apply String.toList_inj.mp
      simp [hp, hs, String.toList_append]
    · rintro ⟨dir, rfl⟩
      exact ⟨dir.toList, '/', by simp, by simp [String.toList_append]⟩

theorem getOrEmpty_object (key : String) (fields : Fields) :
    getOrEmpty key (.obj fields) = .returned (orEmpty (fields.lookup key)) := rfl

theorem getOrEmpty_scalar (key : String) (j : Json) (h : j.isObject = false) :
    ∃ e, getOrEmpty key j = .raised e := by
  cases j with
  | obj fields => cases h
  | _ => exact ⟨_, rfl⟩

section Table
variable (out : Dict String Json) (entries : Fields)

theorem loadEntries_returned (h : ∀ p ∈ entries, p.2.isObject = true) :
    loadEntries out entries = .returned (entries.foldl addEntry out) := by
  induction entries generalizing out with
  | nil => rfl
  | cons p entries ih =>
    obtain ⟨relPath, entry⟩ := p
    have hp := h (relPath, entry) (List.mem_cons_self)
    cases entry with
    | obj fields =>
      have hadd : addEntry out (relPath, .obj fields) =
          if (orEmpty (fields.lookup "request_overrides")).truthy then
            out.set (basename relPath) (orEmpty (fields.lookup "request_overrides"))
          else out := by
        cases ht : (orEmpty (fields.lookup "request_overrides")).truthy <;>
          simp [addEntry, overridden, ht]
      rw [loadEntries, getOrEmpty_object, Exit.bind_returned, ← hadd, List.foldl_cons]
      exact ih _ (fun q hq => h q (List.mem_cons_of_mem _ hq))
    | _ => cases hp

theorem loadEntries_raised (p : String × Json) (hp : p ∈ entries)
    (h : p.2.isObject = false) : ∃ e, loadEntries out entries = .raised e := by
  induction entries generalizing out with
  | nil => cases hp
  | cons q entries ih =>
    obtain ⟨relPath, entry⟩ := q
    rw [loadEntries]
    cases ho : entry.isObject with
    | false =>
      obtain ⟨e, he⟩ := getOrEmpty_scalar "request_overrides" entry ho
      exact ⟨e, by rw [he, Exit.bind_raised]⟩
    | true =>
      have hrest : p ∈ entries := by
        rcases List.mem_cons.mp hp with rfl | hrest
        · rw [ho] at h
          cases h
        · exact hrest
      cases entry with
      | obj fields =>
        rw [getOrEmpty_object, Exit.bind_returned]
        exact ih _ hrest
      | _ => cases ho

theorem addEntry_get? (g : String) (p : String × Json) :
    (addEntry out p).get? g = (overrideFor g p).or (out.get? g) := by
  unfold addEntry overrideFor
  cases overridden p.2 with
  | none => simp
  | some ov =>
    by_cases hg : basename p.1 = g
    · simp [hg]
    · simp [hg, Ne.symm hg]

theorem table_get? (g : String) : (entries.foldl addEntry Dict.empty).get? g =
    entries.reverse.findSome? (overrideFor g) := by
  rw [Dict.get?_foldl addEntry g (overrideFor g) (fun d p => addEntry_get? d g p)]
  simp

theorem overrideFor_eq_some (g : String) (p : String × Json) (ov : Json) :
    overrideFor g p = some ov ↔ basename p.1 = g ∧ overridden p.2 = some ov := by
  simp [overrideFor]

theorem overrideFor_eq_none (g : String) (p : String × Json) :
    overrideFor g p = none ↔ (basename p.1 = g → overridden p.2 = none) := by
  simp [overrideFor]

theorem table_eq_some (g : String) (ov : Json) :
    (entries.foldl addEntry Dict.empty).get? g = some ov ↔ LastOverride entries g ov := by
  simp only [table_get?, findSome?_reverse_eq_some, overrideFor_eq_some, overrideFor_eq_none,
    LastOverride, and_assoc]

theorem table_eq_none (g : String) : (entries.foldl addEntry Dict.empty).get? g = none ↔
    ∀ p ∈ entries, basename p.1 = g → overridden p.2 = none := by
  simp only [table_get?, findSome?_reverse_eq_none, overrideFor_eq_none]

end Table

theorem overridden_truthy (entry ov : Json) (h : overridden entry = some ov) :
    ov.truthy = true := by
  cases entry with
  | obj fields =>
    simp only [overridden, Option.ite_none_right_eq_some, Option.some.injEq] at h
    rw [← h.2]
    exact h.1
  | _ => cases h

end LlRouter.ProfilesFile
