import LlRouter.RequestBody

/-!
# Which declaration an alias resolves to

Each of the two maps answers an alias from the last backend of its kind that
declares it. The backends of the other kind have no say in it.
-/

set_option autoImplicit false

namespace LlRouter.AliasResolution
open AssocDict ControlExit
open LlRouter.JsonValue LlRouter.BackendConfig LlRouter.RequestBody

def LastDeclares (c : Config) (embedding : Bool) (a : String) (b : Backend) (g : String) : Prop :=
  ∃ before after, c.backends = before++b::after ∧ isEmbedding b = embedding ∧
    b.models.get? a = some g ∧
    ∀ b' ∈ after, isEmbedding b' = embedding → b'.models.get? a = none

structure LastWins (c : Config) (embedding : Bool) (get : String → Option (Backend × String))
    (aliases : List String) : Prop where
  found : ∀ a b g, get a = some (b, g) ↔ LastDeclares c embedding a b g
  absent : ∀ a, get a = none ↔
    ∀ b ∈ c.backends, isEmbedding b = embedding → b.models.get? a = none
  once : aliases.Nodup
  listed : ∀ a, a ∈ aliases ↔ (get a).isSome

structure ChatIsolated (c : Config) : Prop where
  answered : ∀ json b path fields overrides,
    chatCompletions c json = .returned (.resolved b path fields overrides) ∨
      completions c json = .returned (.resolved b path fields overrides) →
    b ∈ c.backends ∧ b.kind ≠ "embedding"
  rejected : ∀ client a, HasAlias client a →
    (∀ b ∈ c.backends, b.kind ≠ "embedding" → b.models.get? a = none) →
    ∃ detail, chatCompletions c (.returned (.obj client)) = .returned (.rejected 404 detail) ∧
      completions c (.returned (.obj client)) = .returned (.rejected 404 detail)

def declaredIn (embedding : Bool) (a : String) (b : Backend) : Option (Backend × String) :=
  if isEmbedding b == embedding then declared a b else none

theorem declaredIn_eq_some (embedding : Bool) (a : String) (b b' : Backend) (g : String) :
    declaredIn embedding a b = some (b', g) ↔
      b' = b ∧ isEmbedding b = embedding ∧ b.models.get? a = some g := by
  by_cases h : isEmbedding b = embedding <;> simp [declaredIn, h, declared_eq_some]

theorem declaredIn_eq_none (embedding : Bool) (a : String) (b : Backend) :
    declaredIn embedding a b = none ↔ (isEmbedding b = embedding → b.models.get? a = none) := by
  by_cases h : isEmbedding b = embedding <;> simp [declaredIn, h, declared]

theorem resolve_eq_lastIn (c : Config) (embedding : Bool) (a : String) :
    c.resolve embedding a = c.backends.reverse.findSome? (declaredIn embedding a) := by
  rw [resolve_eq_last, Config.sameMap, ← List.filter_reverse, findSome?_filter]
  rfl

theorem resolve_eq_some (c : Config) (embedding : Bool) (a : String) (b : Backend) (g : String) :
    c.resolve embedding a = some (b, g) ↔ LastDeclares c embedding a b g := by
  rw [resolve_eq_lastIn, findSome?_reverse_eq_some]
  constructor
  · rintro ⟨before, b', after, hb, hd, hn⟩
    obtain ⟨rfl, hk, hg⟩ := (declaredIn_eq_some embedding a b' b g).mp hd
    exact ⟨before, after, hb, hk, hg,
      fun x hx => (declaredIn_eq_none embedding a x).mp (hn x hx)⟩
  · rintro ⟨before, after, hb, hk, hg, hn⟩
    exact ⟨before, b, after, hb, (declaredIn_eq_some embedding a b b g).mpr ⟨rfl, hk, hg⟩,
      fun x hx => (declaredIn_eq_none embedding a x).mpr (hn x hx)⟩

theorem resolve_eq_none (c : Config) (embedding : Bool) (a : String) :
    c.resolve embedding a = none ↔
      ∀ b ∈ c.backends, isEmbedding b = embedding → b.models.get? a = none := by
  rw [resolve_eq_lastIn, findSome?_reverse_eq_none]
  simp only [declaredIn_eq_none]

def aliasMap (c : Config) (embedding : Bool) : AliasMap :=
  if embedding then c.embedMap else c.chatMap

theorem aliasMap_eq (c : Config) (embedding : Bool) :
    aliasMap c embedding = (c.sameMap embedding).foldl register Dict.empty := by
  have hs := postInit_split c.backends (Dict.empty, Dict.empty)
  cases embedding with
  | false => simp [aliasMap, Config.chatMap, postInit, hs, Config.sameMap]
  | true => simp [aliasMap, Config.embedMap, postInit, hs, Config.sameMap]

theorem lastWins (c : Config) (embedding : Bool) :
    LastWins c embedding (c.resolve embedding) (keys (aliasMap c embedding).items) := by
  have hget : ∀ a, (aliasMap c embedding).get? a = c.resolve embedding a := by
    intro a
    cases embedding <;> rfl
  constructor
  · exact resolve_eq_some c embedding
  · exact resolve_eq_none c embedding
  · exact (aliasMap c embedding).nodup
  · intro a
    rw [Dict.mem_keys_iff, hget]

theorem chatIsolated (c : Config) : ChatIsolated c := by
  constructor
  · intro json b path fields overrides h
    have hget : ∃ a g, c.getBackend a = some (b, g) := by
      rcases h with h | h
      · exact routeRequest_declared _ _ _ _ _ _ _ _ _ _ h
      · exact routeRequest_declared _ _ _ _ _ _ _ _ _ _ h
    obtain ⟨a, g, ha⟩ := hget
    obtain ⟨hb, hk⟩ := (mem_sameMap c false b).mp (resolve_declared c false a b g ha).1
    exact ⟨hb, by simpa [isEmbedding] using hk⟩
  · intro client a ha hn
    have hnone : c.getBackend a = none := by
      apply (resolve_eq_none c false a).mpr
      intro b hb hk
      exact hn b hb (by simpa [isEmbedding] using hk)
    exact ⟨_, routeRequest_rejected _ _ _ _ _ client a ha hnone,
      routeRequest_rejected _ _ _ _ _ client a ha hnone⟩

section Isolation
variable (c c' : Config)

theorem aliasMap_congr (embedding : Bool) (h : c'.sameMap embedding = c.sameMap embedding) :
    aliasMap c' embedding = aliasMap c embedding := by
  rw [aliasMap_eq, aliasMap_eq, h]

/-- Embedding backends have no say in chat lookups. -/
theorem chat_unaffected (h : c'.sameMap false = c.sameMap false) :
    c'.getBackend = c.getBackend ∧ c'.allModels = c.allModels := by
  have hm : c'.chatMap = c.chatMap := aliasMap_congr c c' false h
  constructor
  · ext1 a
    rw [Config.getBackend, Config.getBackend, hm]
  · rw [Config.allModels, Config.allModels, hm]

theorem embedding_unaffected (h : c'.sameMap true = c.sameMap true) :
    c'.getEmbeddingBackend = c.getEmbeddingBackend ∧
      c'.allEmbeddingModels = c.allEmbeddingModels := by
  have hm : c'.embedMap = c.embedMap := aliasMap_congr c c' true h
  constructor
  · ext1 a
    rw [Config.getEmbeddingBackend, Config.getEmbeddingBackend, hm]
  · rw [Config.allEmbeddingModels, Config.allEmbeddingModels, hm]

end Isolation

/-- The last declaration of a kind wins, the other kind cannot interfere, and
no request is answered across the kinds. -/
theorem alias_resolution (c : Config) :
    LastWins c false c.getBackend c.allModels ∧
    LastWins c true c.getEmbeddingBackend c.allEmbeddingModels ∧
    (∀ c' : Config, c'.sameMap false = c.sameMap false →
      c'.getBackend = c.getBackend ∧ c'.allModels = c.allModels) ∧
    (∀ c' : Config, c'.sameMap true = c.sameMap true →
      c'.getEmbeddingBackend = c.getEmbeddingBackend ∧
        c'.allEmbeddingModels = c.allEmbeddingModels) ∧
    ChatIsolated c :=
  ⟨lastWins c false, lastWins c true, chat_unaffected c, embedding_unaffected c, chatIsolated c⟩

end LlRouter.AliasResolution
