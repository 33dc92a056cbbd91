import Mathlib.Data.List.Pairwise
import LlRouter.BackendConfig

/-!
# The model listing against the router

`/v1/models` walks the backend list, so it shows every declaration of an
alias. Requests are routed through the alias maps, which keep one declaration
per alias and map. The two agree exactly when no alias is declared twice
within one map.
-/

set_option autoImplicit false

namespace LlRouter.ModelListing
open AssocDict LlRouter.JsonValue LlRouter.BackendConfig

structure ModelEntry where
  id : String
  object : String := "model"
  created : ℕ := 0
  ownedBy : String
  kind : String
  backendType : String
  backendModel : String
  requestOverrides : Json

structure ModelList where
  object : String := "list"
  data : List ModelEntry

def entriesOf (c : Config) (b : Backend) : List ModelEntry :=
  b.models.items.map (fun p =>
    { id := p.1, ownedBy := b.name, kind := b.kind, backendType := b.type,
      backendModel := p.2, requestOverrides := c.overridesFor p.2 })

def listModels (c : Config) : ModelList := { data := c.backends.flatMap (entriesOf c) }

def entryOf (embedding : Bool) (e : ModelEntry) : Bool := (e.kind = "embedding") == embedding

structure ListingAgrees (c : Config) : Prop where
  served : ∀ a n k g, (∃ e ∈ (listModels c).data,
      e.id = a ∧ e.ownedBy = n ∧ e.kind = k ∧ e.backendModel = g) ↔
    ∃ b, c.resolve (k = "embedding") a = some (b, g) ∧ b.name = n ∧ b.kind = k
  once : ∀ embedding,
    (((listModels c).data.filter (entryOf embedding)).map ModelEntry.id).Nodup

def Apart (b b' : Backend) : Prop :=
  isEmbedding b = isEmbedding b' → ∀ a, a ∈ keys b.models.items → a ∉ keys b'.models.items

instance : Std.Symm Apart where
  symm _ _ h hk a ha ha' := h hk.symm a ha' ha

def AliasesDistinct (c : Config) : Prop := c.backends.Pairwise Apart

theorem mem_listModels (c : Config) (a n k g : String) :
    (∃ e ∈ (listModels c).data,
      e.id = a ∧ e.ownedBy = n ∧ e.kind = k ∧ e.backendModel = g) ↔
    ∃ b ∈ c.backends, b.name = n ∧ b.kind = k ∧ b.models.get? a = some g := by
  simp only [listModels, entriesOf, List.mem_flatMap, List.mem_map]
  constructor
  · rintro ⟨e, ⟨b, hb, p, hp, rfl⟩, rfl, hn, hk, rfl⟩
    exact ⟨b, hb, hn, hk, (Dict.mem_items_iff b.models p.1 p.2).mp hp⟩
  · rintro ⟨b, hb, hn, hk, hg⟩
    have hp := (Dict.mem_items_iff b.models a g).mpr hg
    exact ⟨_, ⟨b, hb, (a, g), hp, rfl⟩, rfl, hn, hk, rfl⟩

theorem listed_ids (c : Config) (embedding : Bool) :
    ((listModels c).data.filter (entryOf embedding)).map ModelEntry.id =
      (c.sameMap embedding).flatMap (fun b => keys b.models.items) := by
  simp only [listModels, Config.sameMap]
  induction c.backends with
  | nil => rfl
  | cons b bs ih =>
    have he : (entriesOf c b).filter (entryOf embedding) =
        if isEmbedding b == embedding then entriesOf c b else [] := by
      by_cases h : isEmbedding b == embedding
      · rw [if_pos h, List.filter_eq_self]
        intro e hm
        obtain ⟨p, -, rfl⟩ := List.mem_map.mp hm
        exact h
      · rw [if_neg h, List.filter_eq_nil_iff]
        intro e hm
        obtain ⟨p, -, rfl⟩ := List.mem_map.mp hm
        exact h
    have hi : (entriesOf c b).map ModelEntry.id = keys b.models.items := by
      simp [entriesOf, keys]
    rw [List.flatMap_cons, List.filter_append, List.map_append, ih, he]
    by_cases h : isEmbedding b == embedding <;> simp [h, hi]

theorem once_iff (c : Config) :
    (∀ embedding, (((listModels c).data.filter (entryOf embedding)).map ModelEntry.id).Nodup) ↔
      AliasesDistinct c := by
  simp only [listed_ids, List.nodup_flatMap, Config.sameMap, List.pairwise_filter]
  constructor
  · intro h
    have ht := (h true).2
    have hf := (h false).2
    apply (ht.and hf).imp
    rintro b b' ⟨h1, h2⟩ hk a ha hb
    cases hb' : isEmbedding b' with
    | true => exact h1 (by simp [hk, hb']) (by simp [hb']) ha hb
    | false => exact h2 (by simp [hk, hb']) (by simp [hb']) ha hb
  · intro h embedding
    constructor
    · intro b _
      exact b.models.nodup
    · apply h.imp
      intro b b' hd hb hb' a ha ha'
      exact hd ((beq_iff_eq.mp hb).trans (beq_iff_eq.mp hb').symm) a ha ha'

/-- Under distinct aliases the resolved backend is the only declaring one. -/
theorem resolve_of_declared (c : Config) (hd : AliasesDistinct c) (b : Backend)
    (hb : b ∈ c.backends) (a g : String) (hg : b.models.get? a = some g) :
    c.resolve (isEmbedding b) a = some (b, g) := by
  have hk : (b.models.get? a).isSome := by simp [hg]
  have hs := resolve_isSome c (isEmbedding b) a b ((mem_sameMap c _ b).mpr ⟨hb, rfl⟩) hk
  obtain ⟨⟨b', g'⟩, hr⟩ := Option.isSome_iff_exists.mp hs
  obtain ⟨hm, hg'⟩ := resolve_declared c _ a b' g' hr
  obtain ⟨hb', he⟩ := (mem_sameMap c _ b').mp hm
  by_cases hne : b = b'
  · subst hne
    rw [hg, Option.some.injEq] at hg'
    rw [hr, hg']
  · have hka := (Dict.mem_keys_iff b.models a).mpr hk
    have hka' := (Dict.mem_keys_iff b'.models a).mpr (by simp [hg'])
    exact absurd hka' (hd.forall hb hb' hne he.symm a hka)

theorem listing_agrees_iff (c : Config) : ListingAgrees c ↔ AliasesDistinct c := by
  constructor
  · intro h
    exact (once_iff c).mp h.once
  · intro hd
    constructor
    · intro a n k g
      rw [mem_listModels]
      constructor
      · rintro ⟨b, hb, rfl, rfl, hg⟩
        exact ⟨b, resolve_of_declared c hd b hb a g hg, rfl, rfl⟩
      · rintro ⟨b, hr, rfl, rfl⟩
        obtain ⟨hm, hg⟩ := resolve_declared c _ a b g hr
        exact ⟨b, ((mem_sameMap c _ b).mp hm).1, rfl, rfl, hg⟩
    · exact (once_iff c).mpr hd

def firstChat : Backend :=
  { name := "gemma-cpu", url := "http://localhost:8004", type := "cpu", maxConcurrent := 1,
    models := Dict.empty.set "gemma" "gemma-4-31B.gguf" }

def secondChat : Backend :=
  { name := "gemma-gpu", url := "http://localhost:8202", type := "gpu", maxConcurrent := 1,
    models := Dict.empty.set "gemma" "gemma-4-26B.gguf" }

/-- The first entry shown for the alias is not the backend that answers. -/
theorem shadowed_alias_disagrees : ¬ ListingAgrees ⟨[firstChat, secondChat], Dict.empty⟩ := by
  intro h
  obtain ⟨b, hr, hn, -⟩ := (h.served "gemma" "gemma-cpu" "chat" "gemma-4-31B.gguf").mp
    ((mem_listModels _ _ _ _ _).mpr ⟨firstChat, by simp, rfl, rfl, rfl⟩)
  have hg : Config.resolve ⟨[firstChat, secondChat], Dict.empty⟩ false "gemma" =
    some (secondChat, "gemma-4-26B.gguf") := rfl
  have hk : decide ("chat" = "embedding") = false := by decide
  rw [hk, hg, Option.some.injEq, Prod.mk.injEq] at hr
  exact absurd hr.2 (by decide)

end LlRouter.ModelListing
