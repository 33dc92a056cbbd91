import LlRouter.DeepMerge
import LlRouter.JsonCells

/-!
# The merge as it runs, in place

`_deep_merge` writes into the destination's own cells and puts the source's
values there by reference. As long as the destination owns its cells and
shares none with the source, it leaves the destination reading as the merged
value, and every cell outside the destination as it was.
-/

set_option autoImplicit false

namespace LlRouter.MergeInPlace
open AssocDict DictHeap
open LlRouter.JsonValue LlRouter.JsonValue.Json LlRouter.DeepMerge LlRouter.JsonCells

def mergeItem (deeper : JsonHeap → ℕ → ℕ → Option JsonHeap) (dst : ℕ) (h : JsonHeap)
    (p : String × Slot Json) : Option JsonHeap :=
  (h[dst]?).bind (fun cell =>
    match cell.get? p.1, p.2 with
    | some (.ref d), .ref s => deeper h d s
    | some _, _ => some h
    | none, slot => some (store h dst p.1 slot))

/-- `_deep_merge(dst, src)` within a number of nested calls. -/
def mergeInto : ℕ → JsonHeap → ℕ → ℕ → Option JsonHeap
  | 0, _, _, _ => none
  | limit+1, h, dst, src =>
    (h[src]?).bind (fun cell => cell.items.foldlM (mergeItem (mergeInto limit) dst) h)

mutual

def depth : Json → ℕ
  | .obj fields => depthFields fields+1
  | _ => 0

def depthFields : List (String × Json) → ℕ
  | [] => 0
  | (_, j)::rest => max (depth j) (depthFields rest)

end

theorem depth_lookup (fields : Fields) (k : String) (v : Json)
    (h : fields.lookup k = some v) : depth v < depth (.obj fields) := by
  rw [depth]
  induction fields with
  | nil => simp at h
  | cons p fields ih =>
    obtain ⟨a, w⟩ := p
    rw [lookup_cons_if] at h
    rw [depthFields]
    split at h
    · obtain rfl : w = v := Option.some.inj h
      omega
    · have hlt := ih h
      omega

structure Merging (h : JsonHeap) (R S : Set ℕ) (dst : ℕ) (F : String → Set ℕ) (cur : Fields)
    (todo : List String) : Prop where
  inside : dst ∈ R
  within : ∀ k, F k ⊆ R
  outside : ∀ k, dst ∉ F k
  apart : ∀ k k', k ≠ k' → Disjoint (F k) (F k')
  cell : ∃ cell, h[dst]? = some cell ∧ keys cell.items = keys cur ∧
    ∀ k slot w, cell.get? k = some slot → cur.lookup k = some w →
      Reads asObject h (F k ∪ S) slot w ∧ (k ∈ todo → Owned asObject h (F k) slot w)

structure Frame (h h' : JsonHeap) (R : Set ℕ) : Prop where
  same : ∀ r, r ∉ R → h'[r]? = h[r]?
  length : h'.length = h.length

def Merges (limit : ℕ) (v : Json) : Prop :=
  ∀ (h : JsonHeap) (dst src : ℕ) (d : Json) (R S : Set ℕ), Owned asObject h R (.ref dst) d →
    Reads asObject h S (.ref src) v → Disjoint R S → ∃ h', mergeInto limit h dst src = some h' ∧
      Frame h h' R ∧ Reads asObject h' (R ∪ S) (.ref dst) (mergeValue d v)

theorem frame_refl (h : JsonHeap) (R : Set ℕ) : Frame h h R := ⟨fun _ _ => rfl, rfl⟩

theorem frame_trans (h m h' : JsonHeap) (R : Set ℕ) (hm : Frame h m R) (hn : Frame m h' R) :
    Frame h h' R :=
  ⟨fun r hr => (hn.same r hr).trans (hm.same r hr), hn.length.trans hm.length⟩

theorem frame_mono (h h' : JsonHeap) (R R' : Set ℕ) (hs : R ⊆ R') (hf : Frame h h' R) :
    Frame h h' R' :=
  ⟨fun r hr => hf.same r (fun hm => hr (hs hm)), hf.length⟩

theorem frame_keeps (h h' : JsonHeap) (R K : Set ℕ) (hf : Frame h h' R) (hd : Disjoint R K) :
    Keeps K h h' := by
  intro r hr cell hc
  have hn : r ∉ R := fun hm => Set.disjoint_left.mp hd hm hr
  rw [hf.same r hn, hc]

section Loop
variable (h : JsonHeap) (R S : Set ℕ) (dst : ℕ) (F : String → Set ℕ) (cur : Fields)

theorem merging_skip (k : String) (todo : List String)
    (hm : Merging h R S dst F cur (k::todo)) : Merging h R S dst F cur todo := by
  obtain ⟨cell, hc, hk, hs⟩ := hm.cell
  refine ⟨hm.inside, hm.within, hm.outside, hm.apart, cell, hc, hk, ?_⟩
  intro x slot w hx hw
  obtain ⟨hr, ho⟩ := hs x slot w hx hw
  exact ⟨hr, fun ht => ho (List.mem_cons_of_mem k ht)⟩

theorem merging_store (k : String) (slot : Slot Json) (v : Json) (todo : List String)
    (hm : Merging h R S dst F cur (k::todo)) (hR : Disjoint R S) (hk : k ∉ todo)
    (hn : cur.lookup k = none) (hv : Reads asObject h S slot v) :
    Merging (store h dst k slot) R S dst F (assign k v cur) todo := by
  obtain ⟨cell, hc, hkeys, hs⟩ := hm.cell
  have hout : ∀ K, dst ∉ K → Keeps K h (store h dst k slot) := fun K hK =>
    keeps_store K h dst k slot hK
  have hS : dst ∉ S := Set.disjoint_left.mp hR hm.inside
  have hunion : ∀ x, dst ∉ F x ∪ S := fun x hx => hx.elim (hm.outside x) hS
  refine ⟨hm.inside, hm.within, hm.outside, hm.apart, cell.set k slot,
    store_here h dst k slot cell hc, ?_, ?_⟩
  · show keys (assign k slot cell.items) = keys (assign k v cur)
    rw [keys_assign, keys_assign, hkeys]
  · intro x slot' w hx hw
    rw [Dict.get?_set] at hx
    rw [lookup_assign] at hw
    by_cases hxk : x = k
    · subst hxk
      rw [if_pos rfl, Option.some.injEq] at hx hw
      subst hx hw
      constructor
      · exact reads_mono _ _ S _ _ _ Set.subset_union_right
          (reads_frame _ h _ S _ _ (hout S hS) hv)
      · intro ht
        exact absurd ht hk
    · rw [if_neg hxk] at hx hw
      obtain ⟨hr, ho⟩ := hs x slot' w hx hw
      constructor
      · exact reads_frame _ h _ _ _ _ (hout _ (hunion x)) hr
      · intro ht
        exact owned_frame _ h _ _ _ _ (hout _ (hm.outside x)) (ho (List.mem_cons_of_mem k ht))

theorem merging_deeper (h' : JsonHeap) (k : String) (d : ℕ) (w w' : Json) (todo : List String)
    (cell : Cell String Json) (hm : Merging h R S dst F cur (k::todo)) (hR : Disjoint R S)
    (hk : k ∉ todo) (hc : h[dst]? = some cell) (hd : cell.get? k = some (.ref d))
    (hw : cur.lookup k = some w) (hf : Frame h h' (F k))
    (hr : Reads asObject h' (F k ∪ S) (.ref d) w') :
    Merging h' R S dst F (assign k w' cur) todo := by
  obtain ⟨cell', hc', hkeys, hs⟩ := hm.cell
  obtain rfl : cell = cell' := Option.some.inj (hc.symm.trans hc')
  have hmem : k ∈ keys cur := (mem_keys_iff_lookup k cur).mpr (by rw [hw]; rfl)
  have hFS : Disjoint (F k) S := Set.disjoint_of_subset_left (hm.within k) hR
  refine ⟨hm.inside, hm.within, hm.outside, hm.apart, cell,
    (hf.same dst (hm.outside k)).trans hc, ?_, ?_⟩
  · rw [keys_assign, if_pos hmem, hkeys]
  · intro x slot u hx hu
    rw [lookup_assign] at hu
    by_cases hxk : x = k
    · subst hxk
      rw [if_pos rfl, Option.some.injEq] at hu
      rw [hd, Option.some.injEq] at hx
      subst hx hu
      exact ⟨hr, fun ht => absurd ht hk⟩
    · rw [if_neg hxk] at hu
      obtain ⟨hrx, hox⟩ := hs x slot u hx hu
      have hapart := hm.apart k x (Ne.symm hxk)
      have hunion : Disjoint (F k) (F x ∪ S) := Set.disjoint_union_right.mpr ⟨hapart, hFS⟩
      constructor
      · exact reads_frame _ h h' _ _ _ (frame_keeps h h' (F k) _ hf hunion) hrx
      · intro ht
        exact owned_frame _ h h' _ _ _ (frame_keeps h h' (F k) _ hf hapart)
          (hox (List.mem_cons_of_mem k ht))

/-- One round of the loop does what one round of the pure merge does. -/
theorem mergeItem_merging (limit : ℕ) (k : String) (slot : Slot Json) (v : Json)
    (todo : List String) (hm : Merging h R S dst F cur (k::todo)) (hR : Disjoint R S)
    (hk : k ∉ todo) (hv : Reads asObject h S slot v)
    (hdeep : v.isObject = true → Merges limit v) :
    ∃ h', mergeItem (mergeInto limit) dst h (k, slot) = some h' ∧ Frame h h' R ∧
      Merging h' R S dst F (assign k (((cur.lookup k).map (mergeValue · v)).getD v) cur) todo := by
  obtain ⟨cell, hc, hkeys, hs⟩ := hm.cell
  have hnone := get?_none_iff cell cur hkeys k
  cases hg : cell.get? k with
  | none =>
    have hn := hnone.mp hg
    refine ⟨store h dst k slot, by simp [mergeItem, hc, hg], ?_, ?_⟩
    · exact ⟨fun r hr => store_elsewhere h dst r k slot (fun he => hr (he ▸ hm.inside)),
        store_length h dst k slot⟩
    · rw [hn]
      exact merging_store h R S dst F cur k slot v todo hm hR hk hn hv
  | some old =>
    obtain ⟨w, hw⟩ : ∃ w, cur.lookup k = some w := by
      cases hl : cur.lookup k with
      | some w => exact ⟨w, rfl⟩
      | none =>
        rw [hnone.mpr hl] at hg
        cases hg
    have hown := (hs k old w hg hw).2 List.mem_cons_self
    rw [hw, Option.map_some, Option.getD_some]
    have hskip : mergeValue w v = w → Merging h R S dst F (assign k (mergeValue w v) cur) todo := by
      intro he
      rw [he, assign_self k w cur hw]
      exact merging_skip h R S dst F cur k todo hm
    cases hown with
    | leaf _ _ hl =>
      have he := mergeValue_leaf_left w v ((asObject_none w).mp hl)
      exact ⟨h, by simp [mergeItem, hc, hg], frame_refl h R, hskip he⟩
    | dict _ G d dcell _ dfields hview hd hdc hdk hG hGn hGd hGs =>
      cases hv with
      | leaf _ hl =>
        have he := mergeValue_leaf_right w v ((asObject_none v).mp hl)
        exact ⟨h, by simp [mergeItem, hc, hg], frame_refl h R, hskip he⟩
      | dict s scell _ sfields hsview hsin hsc hsk hss =>
        have hobj : v.isObject = true := by rw [asObject_some v sfields hsview]; rfl
        have hFS : Disjoint (F k) S := Set.disjoint_of_subset_left (hm.within k) hR
        obtain ⟨h', hmerge, hframe, hread⟩ := hdeep hobj h d s w (F k) S
          (.dict _ G d dcell w dfields hview hd hdc hdk hG hGn hGd hGs)
          (.dict s scell v sfields hsview hsin hsc hsk hss) hFS
        refine ⟨h', by simp [mergeItem, hc, hg, hmerge],
          frame_mono h h' (F k) R (hm.within k) hframe, ?_⟩
        exact merging_deeper h R S dst F cur h' k d w _ todo cell hm hR hk hc hg hw hframe hread

/-- The whole loop does what the pure merge does. The source's items were read
in the heap `h₀` and are still there. -/
theorem mergeItems_merging (limit : ℕ) (h₀ : JsonHeap) (items : List (String × Slot Json))
    (fields : Fields)
    (hi : List.Forall₂ (fun p q => p.1 = q.1 ∧ Reads asObject h₀ S p.2 q.2) items fields)
    (hS : Keeps S h₀ h) (hn : (keys fields).Nodup)
    (hm : Merging h R S dst F cur (keys fields)) (hR : Disjoint R S)
    (hdeep : ∀ p ∈ fields, p.2.isObject = true → Merges limit p.2) :
    ∃ h', items.foldlM (mergeItem (mergeInto limit) dst) h = some h' ∧ Frame h h' R ∧
      Merging h' R S dst F (deepMerge cur fields) [] := by
  induction hi generalizing h cur with
  | nil =>
    rw [deepMerge_nil]
    exact ⟨h, rfl, frame_refl h R, hm⟩
  | @cons p q items fields hpq hrest ih =>
    obtain ⟨k, slot⟩ := p
    obtain ⟨k', v⟩ := q
    obtain ⟨rfl, hv⟩ := hpq
    obtain ⟨hk, hn⟩ := List.nodup_cons.mp hn
    have hvh := reads_frame _ h₀ h S slot v hS hv
    obtain ⟨m, hstep, hfm, hmm⟩ := mergeItem_merging h R S dst F cur limit k slot v (keys fields)
      hm hR hk hvh (hdeep (k, v) List.mem_cons_self)
    have hSm := keeps_trans S h₀ h m hS (frame_keeps h m R S hfm hR)
    obtain ⟨h', hloop, hfh, hmh⟩ := ih m _ hSm hn hmm
      (fun p hp => hdeep p (List.mem_cons_of_mem _ hp))
    refine ⟨h', by simp [hstep, hloop], frame_trans h m h' R hfm hfh, ?_⟩
    rw [deepMerge_cons]
    exact hmh

theorem merging_start (d : Fields) (todo : List String)
    (ho : Owned asObject h R (.ref dst) (.obj d)) : ∃ F, Merging h R S dst F d todo := by
  cases ho with
  | dict _ F _ cell _ fields hv hr hc hk hF hn hd hs =>
    obtain rfl : d = fields := Option.some.inj hv
    refine ⟨F, hr, hF, hn, hd, cell, hc, hk, ?_⟩
    intro k slot w hx hw
    have ho := hs k slot w hx hw
    exact ⟨reads_mono _ h _ _ _ _ Set.subset_union_left (owned_reads _ h _ _ _ ho), fun _ => ho⟩

theorem merging_end (hm : Merging h R S dst F cur []) :
    Reads asObject h (R ∪ S) (.ref dst) (.obj cur) := by
  obtain ⟨cell, hc, hk, hs⟩ := hm.cell
  apply Reads.dict dst cell (.obj cur) cur rfl (Or.inl hm.inside) hc hk
  intro k slot w hx hw
  exact reads_mono _ h _ _ _ _ (Set.union_subset_union_left S (hm.within k)) (hs k slot w hx hw).1

end Loop

/-- The merge in place leaves the destination reading as the pure merge of the
two values, within as many nested calls as the source is deep, and writes to no
cell but the destination's own. -/
theorem merges_within (v : Json) (limit : ℕ) (hd : depth v ≤ limit) : Merges limit v := by
  induction v using induction_on_objects generalizing limit with
  | leaf v hl =>
    intro h dst src d R S _ hv _
    cases hv with
    | dict _ _ _ fields hview _ _ _ _ => simp [(asObject_none v).mpr hl] at hview
  | obj s ih =>
    intro h dst src d R S ho hv hR
    obtain ⟨-, cell, hc, hk, hs⟩ := reads_ref asObject h S _ src s rfl hv
    cases limit with
    | zero => simp [depth] at hd
    | succ limit =>
      have hn : (keys s).Nodup := hk ▸ cell.nodup
      have hi := forall₂_of_lookup (Reads asObject h S) cell.items s hk cell.nodup hs
      have hdeep : ∀ p ∈ s, p.2.isObject = true → Merges limit p.2 := by
        intro p hp _
        have hl : s.lookup p.1 = some p.2 := (mem_iff_lookup s hn p.1 p.2).mp hp
        have hlt := depth_lookup s p.1 p.2 hl
        exact ih p.1 p.2 hl limit (by omega)
      cases d with
      | obj d =>
        obtain ⟨F, hm⟩ := merging_start h R S dst d (keys s) ho
        obtain ⟨h', hloop, hf, hm'⟩ := mergeItems_merging h R S dst F d limit h cell.items s
          hi (keeps_refl S h) hn hm hR hdeep
        refine ⟨h', by simp [mergeInto, hc, hloop], hf, ?_⟩
        rw [mergeValue_obj]
        exact merging_end h' R S dst F _ hm'
      | _ => cases ho with | dict _ _ _ _ _ _ hview _ _ _ _ _ _ _ => cases hview

end LlRouter.MergeInPlace
