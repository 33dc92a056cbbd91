import LlRouter.JsonValue

/-!
# Backends and alias resolution

The two alias maps are filled by walking the backend list in order, each
backend writing into the map of its kind. A later write of an alias replaces
an earlier one.
-/

set_option autoImplicit false

namespace LlRouter.BackendConfig
open AssocDict LlRouter.JsonValue

structure Backend where
  name : String
  url : String
  type : String
  maxConcurrent : ℤ
  models : Dict String String := Dict.empty
  service : Option String := none
  mutexGroup : Option String := none
  healthUrl : Option String := none
  kind : String := "chat"
  deriving DecidableEq

/-- The unit name as the orchestrator's `if not target.service` reads it: a
missing service and an empty one are the same. -/
def Backend.unit (b : Backend) : String := b.service.getD ""

abbrev AliasMap := Dict String (Backend × String)

structure Config where
  backends : List Backend
  overridesByBasename : Dict String Json := Dict.empty

def register (target : AliasMap) (b : Backend) : AliasMap :=
  b.models.items.foldl (fun m p => m.set p.1 (b, p.2)) target

def isEmbedding (b : Backend) : Bool := b.kind = "embedding"

def postInit (backends : List Backend) : AliasMap × AliasMap :=
  backends.foldl (fun maps b =>
    if isEmbedding b then (maps.1, register maps.2 b) else (register maps.1 b, maps.2))
    (Dict.empty, Dict.empty)

namespace Config

def chatMap (c : Config) : AliasMap := (postInit c.backends).1

def embedMap (c : Config) : AliasMap := (postInit c.backends).2

def getBackend (c : Config) (model : String) : Option (Backend × String) :=
  c.chatMap.get? model

def getEmbeddingBackend (c : Config) (model : String) : Option (Backend × String) :=
  c.embedMap.get? model

def allModels (c : Config) : List String := keys c.chatMap.items

def allEmbeddingModels (c : Config) : List String := keys c.embedMap.items

def overridesFor (c : Config) (backendModel : String) : Json :=
  (c.overridesByBasename.get? backendModel).getD (.obj [])

end Config

def declared (a : String) (b : Backend) : Option (Backend × String) :=
  (b.models.get? a).map (fun g => (b, g))

theorem register_get? (m : AliasMap) (b : Backend) (a : String) :
    (register m b).get? a = (declared a b).or (m.get? a) :=
  Dict.get?_foldl_set (fun g => (b, g)) b.models.items b.models.nodup m a

/-- The last backend of the list that declares the alias decides. -/
theorem registered_get? (bs : List Backend) (m : AliasMap) (a : String) :
    (bs.foldl register m).get? a = (bs.reverse.findSome? (declared a)).or (m.get? a) :=
  Dict.get?_foldl register a (declared a) (fun m b => register_get? m b a) bs m

theorem postInit_split (bs : List Backend) (maps : AliasMap × AliasMap) :
    bs.foldl (fun maps b =>
      if isEmbedding b then (maps.1, register maps.2 b) else (register maps.1 b, maps.2)) maps =
    ((bs.filter (fun b => !isEmbedding b)).foldl register maps.1,
      (bs.filter isEmbedding).foldl register maps.2) := by
  induction bs generalizing maps with
  | nil => rfl
  | cons b bs ih =>
    rw [List.foldl_cons, ih]
    by_cases h : isEmbedding b <;> simp [h]

def Config.sameMap (c : Config) (embedding : Bool) : List Backend :=
  c.backends.filter (fun b => isEmbedding b == embedding)

def Config.resolve (c : Config) (embedding : Bool) (a : String) : Option (Backend × String) :=
  if embedding then c.getEmbeddingBackend a else c.getBackend a

theorem resolve_eq_last (c : Config) (embedding : Bool) (a : String) :
    c.resolve embedding a = (c.sameMap embedding).reverse.findSome? (declared a) := by
  have hs := postInit_split c.backends (Dict.empty, Dict.empty)
  cases embedding with
  | false =>
    have hf : c.sameMap false = c.backends.filter (fun b => !isEmbedding b) := by
      simp [Config.sameMap]
    simp only [Config.resolve, Bool.false_eq_true, if_false, Config.getBackend, Config.chatMap,
      postInit, hs, registered_get?, hf]
    simp
  | true =>
    have hf : c.sameMap true = c.backends.filter isEmbedding := by
      simp [Config.sameMap]
    simp only [Config.resolve, if_true, Config.getEmbeddingBackend, Config.embedMap,
      postInit, hs, registered_get?, hf]
    simp

theorem mem_sameMap (c : Config) (embedding : Bool) (b : Backend) :
    b ∈ c.sameMap embedding ↔ b ∈ c.backends ∧ isEmbedding b = embedding := by
  simp [Config.sameMap]

theorem declared_eq_some (a : String) (b b' : Backend) (g : String) :
    declared a b = some (b', g) ↔ b' = b ∧ b.models.get? a = some g := by
  cases h : b.models.get? a with
  | none => simp [declared, h]
  | some w => simp [declared, h, eq_comm]

/-- What is resolved was declared, by a backend of that map. -/
theorem resolve_declared (c : Config) (embedding : Bool) (a : String) (b : Backend) (g : String)
    (h : c.resolve embedding a = some (b, g)) :
    b ∈ c.sameMap embedding ∧ b.models.get? a = some g := by
  rw [resolve_eq_last] at h
  obtain ⟨b', hb, hd⟩ := List.exists_of_findSome?_eq_some h
  obtain ⟨rfl, hg⟩ := (declared_eq_some a b' b g).mp hd
  exact ⟨List.mem_reverse.mp hb, hg⟩

theorem resolve_isSome (c : Config) (embedding : Bool) (a : String) (b : Backend)
    (hb : b ∈ c.sameMap embedding) (ha : (b.models.get? a).isSome) :
    (c.resolve embedding a).isSome := by
  rw [resolve_eq_last, List.findSome?_isSome_iff]
  exact ⟨b, List.mem_reverse.mpr hb, by simpa [declared] using ha⟩

end LlRouter.BackendConfig
