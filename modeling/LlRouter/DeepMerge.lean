import LlRouter.JsonValue

/-!
# Hole-filling merge of request defaults

`deepMerge dst src` walks the source once, in order. A key the destination
already has is left alone unless both values are objects. The lookup law
below is the whole meaning of the loop; every path law follows from it.
-/

set_option autoImplicit false

namespace LlRouter.DeepMerge
open AssocDict LlRouter.JsonValue LlRouter.JsonValue.Json

mutual

def deepMerge : Fields → List (String × Json) → Fields
  | dst, [] => dst
  | dst, (k, v)::rest =>
    match dst.lookup k with
    | some d => deepMerge (assign k (mergeValue d v) dst) rest
    | none => deepMerge (assign k v dst) rest

def mergeValue : Json → Json → Json
  | .obj d, .obj v => .obj (deepMerge d v)
  | d, _ => d

end

@[simp] theorem deepMerge_nil (dst : Fields) : deepMerge dst [] = dst := by
  simp [deepMerge]

theorem deepMerge_cons (dst : Fields) (k : String) (v : Json) (rest : Fields) :
    deepMerge dst ((k, v)::rest) =
      deepMerge (assign k (((dst.lookup k).map (mergeValue · v)).getD v) dst) rest := by
  rw [deepMerge]
  cases dst.lookup k <;> rfl

@[simp] theorem mergeValue_obj (d v : Fields) :
    mergeValue (.obj d) (.obj v) = .obj (deepMerge d v) := by
  simp [mergeValue]

theorem mergeValue_leaf_left (d v : Json) (h : d.isObject = false) : mergeValue d v = d := by
  cases d with
  | obj fields => simp [isObject] at h
  | _ => simp [mergeValue]

theorem mergeValue_leaf_right (d v : Json) (h : v.isObject = false) : mergeValue d v = d := by
  cases v with
  | obj fields => simp [isObject] at h
  | _ => cases d <;> simp [mergeValue]

def fill (d v : Option Json) : Option Json :=
  match d, v with
  | none, v => v
  | some d, none => some d
  | some d, some v => some (mergeValue d v)

@[simp] theorem fill_none_left (v : Option Json) : fill none v = v := rfl

@[simp] theorem fill_none_right (d : Option Json) : fill d none = d := by
  cases d <;> rfl

theorem lookup_deepMerge (dst src : Fields) (h : (keys src).Nodup) (x : String) :
    (deepMerge dst src).lookup x = fill (dst.lookup x) (src.lookup x) := by
  induction src generalizing dst with
  | nil => simp
  | cons p src ih =>
    obtain ⟨k, v⟩ := p
    obtain ⟨hk, hs⟩ := List.nodup_cons.mp h
    rw [deepMerge_cons, ih _ hs, lookup_assign, lookup_cons_if]
    by_cases hx : x = k
    · subst hx
      rw [lookup_eq_none_of_not_mem x src hk]
      cases hd : dst.lookup x <;> simp [fill]
    · simp [hx]

theorem mem_keys_deepMerge (dst src : Fields) (h : (keys src).Nodup) (x : String) :
    x ∈ keys (deepMerge dst src) ↔ x ∈ keys dst ∨ x ∈ keys src := by
  simp only [mem_keys_iff_lookup, lookup_deepMerge dst src h]
  cases dst.lookup x <;> cases src.lookup x <;> simp [fill]

theorem nodup_deepMerge (dst src : Fields) (h : (keys dst).Nodup) :
    (keys (deepMerge dst src)).Nodup := by
  induction src generalizing dst with
  | nil => simpa using h
  | cons p src ih =>
    obtain ⟨k, v⟩ := p
    rw [deepMerge_cons]
    exact ih _ (nodup_assign k _ dst h)

/-- A source that has nothing to add to any value it meets changes nothing. -/
theorem deepMerge_absorbed (dst src : Fields) (h : (keys src).Nodup)
    (ha : ∀ k v, src.lookup k = some v → ∃ d, dst.lookup k = some d ∧ mergeValue d v = d) :
    deepMerge dst src = dst := by
  induction src with
  | nil => simp
  | cons p src ih =>
    obtain ⟨k, v⟩ := p
    obtain ⟨hk, hs⟩ := List.nodup_cons.mp h
    obtain ⟨d, hd, hm⟩ := ha k v (by simp)
    have hassign : assign k (((dst.lookup k).map (mergeValue · v)).getD v) dst = dst := by
      rw [hd, Option.map_some, Option.getD_some, hm]
      exact assign_self k d dst hd
    rw [deepMerge_cons, hassign]
    apply ih hs
    intro x w hw
    apply ha x w
    rw [lookup_cons_if, if_neg]
    · exact hw
    · rintro rfl
      rw [lookup_eq_none_of_not_mem x src hk] at hw
      cases hw

section Paths
variable (d v : Json)

/-- A value the destination has, and all that is absent below a leaf of it,
comes through unchanged. -/
theorem atPath_merge_leaf (hv : v.Unique) (q r : List String) (leaf : Json)
    (hq : d.atPath q = some leaf) (hl : leaf.isObject = false) :
    (mergeValue d v).atPath (q++r) = d.atPath (q++r) := by
  induction q generalizing d v with
  | nil =>
    obtain rfl : d = leaf := by simpa using hq
    rw [mergeValue_leaf_left d v hl]
  | cons k q ih =>
    cases d with
    | obj ds =>
      cases v with
      | obj vs =>
        rw [Json.Unique] at hv
        simp only [atPath_obj, Option.bind_eq_some_iff] at hq
        obtain ⟨m, hm, hq⟩ := hq
        simp only [mergeValue_obj, List.cons_append, atPath_obj, lookup_deepMerge ds vs hv.1, hm]
        cases hs : vs.lookup k with
        | none => rfl
        | some w => exact ih m w (unique_lookup vs hv.2 k w hs) hq
      | _ => rw [mergeValue_leaf_right _ _ rfl]
    | _ => simp [atPath] at hq

/-- An object of the destination stays an object; it gains exactly the keys of
the source's object at the same path. -/
theorem atPath_merge_object (hv : v.Unique) (p : List String) (fields : Fields)
    (hp : d.atPath p = some (.obj fields)) :
    ∃ merged, (mergeValue d v).atPath p = some (.obj merged) ∧ ∀ k, k ∈ keys merged ↔
      k ∈ keys fields ∨ ∃ src, v.atPath p = some (.obj src) ∧ k ∈ keys src := by
  induction p generalizing d v with
  | nil =>
    obtain rfl : d = .obj fields := by simpa using hp
    cases v with
    | obj vs =>
      rw [Json.Unique] at hv
      exact ⟨deepMerge fields vs, by simp, fun k => by simp [mem_keys_deepMerge fields vs hv.1]⟩
    | _ => exact ⟨fields, by rw [mergeValue_leaf_right _ _ rfl]; rfl, by simp⟩
  | cons k p ih =>
    cases d with
    | obj ds =>
      simp only [atPath_obj, Option.bind_eq_some_iff] at hp
      obtain ⟨m, hm, hp⟩ := hp
      cases v with
      | obj vs =>
        rw [Json.Unique] at hv
        simp only [mergeValue_obj, atPath_obj, lookup_deepMerge ds vs hv.1, hm]
        cases hs : vs.lookup k with
        | none => exact ⟨fields, hp, by simp⟩
        | some w => exact ih m w (unique_lookup vs hv.2 k w hs) hp
      | _ =>
        rw [mergeValue_leaf_right _ _ rfl]
        exact ⟨fields, by simp [hm, hp], by simp [atPath]⟩
    | _ => simp [atPath] at hp

/-- Where the destination's object at `q` lacks the key, the source decides. -/
theorem atPath_merge_hole (hv : v.Unique) (q : List String) (k : String) (r : List String)
    (fields : Fields) (hq : d.atPath q = some (.obj fields)) (hk : k ∉ keys fields) :
    (mergeValue d v).atPath (q++k::r) = v.atPath (q++k::r) := by
  induction q generalizing d v with
  | nil =>
    obtain rfl : d = .obj fields := by simpa using hq
    have hn := lookup_eq_none_of_not_mem k fields hk
    cases v with
    | obj vs =>
      rw [Json.Unique] at hv
      simp [lookup_deepMerge fields vs hv.1, hn]
    | _ => simp [mergeValue, hn, atPath]
  | cons a q ih =>
    cases d with
    | obj ds =>
      simp only [atPath_obj, Option.bind_eq_some_iff] at hq
      obtain ⟨m, hm, hq⟩ := hq
      cases v with
      | obj vs =>
        rw [Json.Unique] at hv
        simp only [mergeValue_obj, List.cons_append, atPath_obj, lookup_deepMerge ds vs hv.1, hm]
        cases hs : vs.lookup a with
        | none =>
          simp only [fill_none_right, Option.bind_some, Option.bind_none]
          rw [atPath_append, hq]
          simp [lookup_eq_none_of_not_mem k fields hk]
        | some w => exact ih m w (unique_lookup vs hv.2 a w hs) hq
      | _ =>
        rw [mergeValue_leaf_right _ _ rfl, atPath_append]
        simp [hm, hq, lookup_eq_none_of_not_mem k fields hk, atPath]
    | _ => simp [atPath] at hq

end Paths
end LlRouter.DeepMerge
