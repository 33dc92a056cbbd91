import LlRouter.DeepMerge

/-!
# The algebra of the merge

The merge completes its destination: it keeps every leaf, fills every hole, is
idempotent, and does not see the order of keys. Each law is one about lookups, carried down the
nested objects by induction.
-/

set_option autoImplicit false

namespace LlRouter.MergeLaws
open AssocDict
open LlRouter.JsonValue LlRouter.JsonValue.Json LlRouter.DeepMerge

/-- Equal up to the order of keys, at each level of nested objects. -/
inductive Permuted : Json → Json → Prop
  | leaf (j : Json) (h : j.isObject = false) : Permuted j j
  | obj (f f' : Fields) (hk : (keys f).Perm (keys f'))
      (hv : ∀ k v v', f.lookup k = some v → f'.lookup k = some v' → Permuted v v') :
      Permuted (.obj f) (.obj f')

structure Completes (d s : Fields) : Prop where
  leaves : ∀ p leaf, (obj d).atPath p = some leaf → leaf.isObject = false →
    (obj (deepMerge d s)).atPath p = some leaf
  fills : ∀ p a r fields, (obj d).atPath p = some (.obj fields) → a ∉ keys fields →
    (obj (deepMerge d s)).atPath (p++a::r) = (obj s).atPath (p++a::r)
  again : deepMerge (deepMerge d s) s = deepMerge d s
  self : deepMerge d d = d
  keyOrder : ∀ d' s', Permuted (.obj d) (.obj d') → Permuted (.obj s) (.obj s') →
    Permuted (.obj (deepMerge d s)) (.obj (deepMerge d' s'))

theorem unique_object (fields : Fields) (h : (obj fields).Unique) :
    (keys fields).Nodup ∧ ∀ k v, fields.lookup k = some v → v.Unique := by
  rw [Json.Unique] at h
  exact ⟨h.1, unique_lookup fields h.2⟩

theorem mergeValue_self (j : Json) (h : j.Unique) : mergeValue j j = j := by
  induction j using induction_on_objects with
  | leaf j hl => exact mergeValue_leaf_left j j hl
  | obj fields ih =>
    obtain ⟨hn, hu⟩ := unique_object fields h
    rw [mergeValue_obj, deepMerge_absorbed fields fields hn]
    intro k v hv
    exact ⟨v, hv, ih k v hv (hu k v hv)⟩

/-- What was merged once is absorbed the second time. -/
theorem mergeValue_again (d v : Json) (h : v.Unique) :
    mergeValue (mergeValue d v) v = mergeValue d v := by
  -- on the source, for every destination it may meet below
  induction v using induction_on_objects generalizing d with
  | leaf v hl => rw [mergeValue_leaf_right _ v hl]
  | obj src ih =>
    obtain ⟨hn, hu⟩ := unique_object src h
    cases d with
    | obj dst =>
      rw [mergeValue_obj, mergeValue_obj, deepMerge_absorbed (deepMerge dst src) src hn]
      intro k v hv
      rw [lookup_deepMerge dst src hn, hv]
      cases hd : dst.lookup k with
      | none => exact ⟨v, rfl, mergeValue_self v (hu k v hv)⟩
      | some a => exact ⟨mergeValue a v, rfl, ih k v hv a (hu k v hv)⟩
    | _ => rw [mergeValue_leaf_left _ _ rfl, mergeValue_leaf_left _ _ rfl]

theorem permuted_nodup (f f' : Fields) (hk : (keys f).Perm (keys f')) (hn : (keys f).Nodup) :
    (keys f').Nodup := hk.nodup_iff.mp hn

theorem permuted_lookup (f f' : Fields) (hk : (keys f).Perm (keys f')) (k : String) :
    (∃ v v', f.lookup k = some v ∧ f'.lookup k = some v') ∨
      f.lookup k = none ∧ f'.lookup k = none := by
  have hmem : k ∈ keys f ↔ k ∈ keys f' := hk.mem_iff
  rw [mem_keys_iff_lookup, mem_keys_iff_lookup] at hmem
  cases hf : f.lookup k with
  | some v =>
    rw [hf] at hmem
    obtain ⟨v', hv'⟩ := Option.isSome_iff_exists.mp (hmem.mp rfl)
    exact Or.inl ⟨v, v', rfl, hv'⟩
  | none =>
    rw [hf] at hmem
    cases hf' : f'.lookup k with
    | none => exact Or.inr ⟨rfl, rfl⟩
    | some v' =>
      rw [hf'] at hmem
      exact absurd (hmem.mpr rfl) (by simp)

theorem deepMerge_keys (d d' s s' : Fields) (hd : (keys d).Perm (keys d'))
    (hs : (keys s).Perm (keys s')) (hdn : (keys d).Nodup) (hsn : (keys s).Nodup) :
    (keys (deepMerge d s)).Perm (keys (deepMerge d' s')) := by
  have hdn' := permuted_nodup d d' hd hdn
  have hsn' := permuted_nodup s s' hs hsn
  rw [List.perm_ext_iff_of_nodup (nodup_deepMerge d s hdn) (nodup_deepMerge d' s' hdn')]
  intro k
  rw [mem_keys_deepMerge d s hsn, mem_keys_deepMerge d' s' hsn', hd.mem_iff, hs.mem_iff]

theorem permuted_mergeValue (d d' s s' : Json) (hd : Permuted d d') (hs : Permuted s s')
    (hdu : d.Unique) (hsu : s.Unique) : Permuted (mergeValue d s) (mergeValue d' s') := by
  induction hd generalizing s s' with
  | leaf j hl =>
    rw [mergeValue_leaf_left j s hl, mergeValue_leaf_left j s' hl]
    exact .leaf j hl
  | obj f f' hk hv ih =>
    cases hs with
    | leaf j hl =>
      rw [mergeValue_leaf_right _ _ hl, mergeValue_leaf_right _ _ hl]
      exact .obj f f' hk hv
    | obj g g' hgk hgv =>
      obtain ⟨hfn, hfu⟩ := unique_object f hdu
      obtain ⟨hgn, hgu⟩ := unique_object g hsu
      have hgn' := permuted_nodup g g' hgk hgn
      rw [mergeValue_obj, mergeValue_obj]
      apply Permuted.obj
      · exact deepMerge_keys f f' g g' hk hgk hfn hgn
      · intro k v v' hkv hkv'
        rw [lookup_deepMerge f g hgn] at hkv
        rw [lookup_deepMerge f' g' hgn'] at hkv'
        rcases permuted_lookup f f' hk k with ⟨a, a', ha, ha'⟩ | ⟨ha, ha'⟩
        · rcases permuted_lookup g g' hgk k with ⟨b, b', hb, hb'⟩ | ⟨hb, hb'⟩
          · rw [ha, hb] at hkv
            rw [ha', hb'] at hkv'
            cases hkv
            cases hkv'
            exact ih k a a' ha ha' b b' (hgv k b b' hb hb') (hfu k a ha) (hgu k b hb)
          · rw [ha, hb] at hkv
            rw [ha', hb'] at hkv'
            cases hkv
            cases hkv'
            exact hv k v v' ha ha'
        · rw [ha] at hkv
          rw [ha'] at hkv'
          exact hgv k v v' hkv hkv'

/-- The laws of the merge, for dictionaries without repeated keys. -/
theorem merge_completes (d s : Fields) (hd : (obj d).Unique) (hs : (obj s).Unique) :
    Completes d s := by
  constructor
  · intro p leaf hp hl
    have hm := atPath_merge_leaf (obj d) (obj s) hs p [] leaf hp hl
    rw [List.append_nil, mergeValue_obj, hp] at hm
    exact hm
  · intro p a r fields hp ha
    rw [← mergeValue_obj]
    exact atPath_merge_hole (obj d) (obj s) hs p a r fields hp ha
  · have hm := mergeValue_again (obj d) (obj s) hs
    rw [mergeValue_obj, mergeValue_obj, Json.obj.injEq] at hm
    exact hm
  · have hm := mergeValue_self (obj d) hd
    rw [mergeValue_obj, Json.obj.injEq] at hm
    exact hm
  · intro d' s' hpd hps
    have hm := permuted_mergeValue _ _ _ _ hpd hps hd hs
    rw [mergeValue_obj, mergeValue_obj] at hm
    exact hm

def thinkingOn : Fields :=
  [("messages", .arr []), ("chat_template_kwargs", .obj [("enable_thinking", .bool true)])]

def thinkingOff : Fields :=
  [("chat_template_kwargs", .obj [("enable_thinking", .bool false), ("budget", .int 0)]),
    ("temperature", .float "0.7")]

theorem thinking_completes : Completes thinkingOn thinkingOff :=
  merge_completes thinkingOn thinkingOff
    (by simp [thinkingOn, Json.Unique, UniqueFields, keys])
    (by simp [thinkingOff, Json.Unique, UniqueFields, keys])

end LlRouter.MergeLaws
