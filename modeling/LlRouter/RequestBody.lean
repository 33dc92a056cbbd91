import LlRouter.ControlExit
import LlRouter.BackendConfig
import LlRouter.DeepMerge

/-!
# From the client's body to the forwarded body

The three POST handlers up to the call of `ensure_active`, and the part of
`proxy_request` that completes the body with the model's defaults. Client text
that Python does not decode or that is not an object, or an alias that cannot
be a dictionary key, ends a handler with an exception of Python's own.
-/

set_option autoImplicit false

namespace LlRouter.RequestBody
open AssocDict ControlExit
open LlRouter.JsonValue LlRouter.JsonValue.Json LlRouter.DeepMerge LlRouter.BackendConfig

inductive Routed where
  | rejected (status : ℕ) (detail : String)
  | resolved (backend : Backend) (path : String) (body : Fields) (overrides : Option Json)

def requestedModel : Json → Exit Json
  | .obj fields => .returned ((fields.lookup "model").getD (.str ""))
  | j => .raised ⟨"AttributeError", "'" ++ j.typeName ++ "' object has no attribute 'get'"⟩

def lookupAlias (get : String → Option (Backend × String)) :
    Json → Exit (Option (Backend × String))
  | .str s => .returned (get s)
  -- a container is no dictionary key, and nothing else equals an alias
  | .arr _ => .raised ⟨"TypeError", "unhashable type: 'list'"⟩
  | .obj _ => .raised ⟨"TypeError", "unhashable type: 'dict'"⟩
  | _ => .returned none

def scalarText : Json → String
  | .null => "None"
  | .bool b => if b then "True" else "False"
  | .int n => toString n
  | .float r => r
  | .str s => s
  -- a container has ended the handler in `lookupAlias`
  | j => j.typeName

def withModel (fields : Fields) (backendModel : String) : Fields :=
  assign "model" (.str backendModel) fields

/-- `json` is how `await request.json()` ends: with the decoded body, or with an
exception where the text is not JSON or beyond what Python decodes, such as an
integer of too many digits. -/
def routeRequest (get : String → Option (Backend × String)) (notFound available path : String)
    (overrides : String → Option Json) (json : Exit Json) : Exit Routed :=
  json.bind (fun body =>
    (requestedModel body).bind (fun model =>
      (lookupAlias get model).bind (fun result =>
        match result, body with
        | some (backend, backendModel), .obj fields =>
          .returned (.resolved backend path (withModel fields backendModel)
            (overrides backendModel))
        | _, _ => .returned (.rejected 404
            (notFound ++ " '" ++ scalarText model ++ "' not found. Available: " ++ available)))))

def chatCompletions (c : Config) (json : Exit Json) : Exit Routed :=
  routeRequest c.getBackend "Model" (", ".intercalate c.allModels) "/v1/chat/completions"
    (fun g => some (c.overridesFor g)) json

def completions (c : Config) (json : Exit Json) : Exit Routed :=
  routeRequest c.getBackend "Model" (", ".intercalate c.allModels) "/v1/completions"
    (fun g => some (c.overridesFor g)) json

def embeddings (c : Config) (json : Exit Json) : Exit Routed :=
  let available := ", ".intercalate c.allEmbeddingModels
  routeRequest c.getEmbeddingBackend "Embedding model"
    (if available = "" then "(none configured)" else available) "/v1/embeddings"
    (fun _ => none) json

def completeBody (body : Fields) : Option Json → Exit Fields
  | none => .returned body
  | some ov =>
    if ov.truthy then
      match ov with
      | .obj src => .returned (deepMerge body src)
      -- any other truthy value is passed on too, and has no `items`
      | j => .raised ⟨"AttributeError", "'" ++ j.typeName ++ "' object has no attribute 'items'"⟩
    else .returned body

def forwardedBody : Routed → Exit Fields
  | .rejected _ detail => .raised ⟨"HTTPException", detail⟩
  | .resolved _ _ body overrides => completeBody body overrides

theorem completeBody_object (body src : Fields) :
    completeBody body (some (.obj src)) = .returned (deepMerge body src) := by
  cases src with
  | nil => simp [completeBody, truthy]
  | cons p src => simp [completeBody, truthy]

/-- Every path other than the model's sees the client's body and the defaults
filled into its holes; the model is the backend's. -/
structure HoleFilled (client defaults : Fields) (g : String) (forwarded : Fields) : Prop where
  model : forwarded.lookup "model" = some (.str g)
  leaf : ∀ k p q r leaf, k ≠ "model" → k::p = q++r →
    (obj client).atPath q = some leaf → leaf.isObject = false →
    (obj forwarded).atPath (k::p) = (obj client).atPath (k::p)
  object : ∀ k p fields, k ≠ "model" → (obj client).atPath (k::p) = some (.obj fields) →
    ∃ merged, (obj forwarded).atPath (k::p) = some (.obj merged) ∧ ∀ x, x ∈ keys merged ↔
      x ∈ keys fields ∨ ∃ src, (obj defaults).atPath (k::p) = some (.obj src) ∧ x ∈ keys src
  hole : ∀ k p q a r fields, k ≠ "model" → k::p = q++a::r →
    (obj client).atPath q = some (.obj fields) → a ∉ keys fields →
    (obj forwarded).atPath (k::p) = (obj defaults).atPath (k::p)

theorem atPath_withModel (fields : Fields) (g k : String) (p : List String) (hk : k ≠ "model") :
    (obj (withModel fields g)).atPath (k::p) = (obj fields).atPath (k::p) := by
  simp [withModel, lookup_assign, hk]

theorem withModel_holeFilled (client defaults : Fields) (g : String)
    (hu : (obj defaults).Unique) :
    HoleFilled client defaults g (deepMerge (withModel client g) defaults) := by
  have hn : (keys defaults).Nodup := by
    rw [Json.Unique] at hu
    exact hu.1
  have hm := mergeValue_obj (withModel client g) defaults
  constructor
  · rw [lookup_deepMerge _ _ hn]
    have hg : (withModel client g).lookup "model" = some (.str g) := by
      simp [withModel, lookup_assign]
    rw [hg]
    cases defaults.lookup "model" with
    | none => rfl
    | some v => simp [fill, mergeValue_leaf_left (.str g) v rfl]
  · intro k p q r leaf hk hp hq hl
    rw [← hm, ← atPath_withModel client g k p hk, hp]
    cases q with
    | nil =>
      obtain rfl : obj client = leaf := by simpa using hq
      simp [isObject] at hl
    | cons b q =>
      obtain ⟨rfl, -⟩ := List.cons.inj hp
      rw [← atPath_withModel client g k q hk] at hq
      exact atPath_merge_leaf _ _ hu (k::q) r leaf hq hl
  · intro k p fields hk hf
    rw [← atPath_withModel client g k p hk] at hf
    rw [← hm]
    exact atPath_merge_object _ _ hu (k::p) fields hf
  · intro k p q a r fields hk hp hq ha
    rw [← hm, hp]
    cases q with
    | nil =>
      obtain rfl : client = fields := by simpa using hq
      obtain ⟨rfl, -⟩ := List.cons.inj hp
      have hka : k ∉ keys (withModel client g) := by
        intro hmem
        rcases (mem_keys_assign "model" k (Json.str g) client).mp hmem with h | h
        · exact hk h
        · exact ha h
      exact atPath_merge_hole _ _ hu [] k r _ rfl hka
    | cons b q =>
      obtain ⟨rfl, -⟩ := List.cons.inj hp
      rw [← atPath_withModel client g k q hk] at hq
      exact atPath_merge_hole _ _ hu (k::q) a r fields hq ha

theorem lookupAlias_some (get : String → Option (Backend × String)) (j : Json)
    (result : Backend × String) (h : lookupAlias get j = .returned (some result)) :
    ∃ s, j = .str s ∧ get s = some result := by
  cases j with
  | str s => exact ⟨s, rfl, by simpa [lookupAlias] using h⟩
  | _ => simp [lookupAlias] at h

def HasAlias (client : Fields) (a : String) : Prop :=
  (client.lookup "model").getD (.str "") = .str a

theorem routeRequest_resolved (get : String → Option (Backend × String))
    (notFound available path : String) (overrides : String → Option Json) (client : Fields)
    (a g : String) (b : Backend) (ha : HasAlias client a) (hr : get a = some (b, g)) :
    routeRequest get notFound available path overrides (.returned (.obj client)) =
      .returned (.resolved b path (withModel client g) (overrides g)) := by
  unfold HasAlias at ha
  simp [routeRequest, requestedModel, ha, lookupAlias, hr]

theorem routeRequest_rejected (get : String → Option (Backend × String))
    (notFound available path : String) (overrides : String → Option Json) (client : Fields)
    (a : String) (ha : HasAlias client a) (hr : get a = none) :
    routeRequest get notFound available path overrides (.returned (.obj client)) =
      .returned (.rejected 404
        (notFound ++ " '" ++ a ++ "' not found. Available: " ++ available)) := by
  unfold HasAlias at ha
  simp [routeRequest, requestedModel, ha, lookupAlias, hr, scalarText]

theorem routeRequest_inv (get : String → Option (Backend × String))
    (notFound available path : String) (overrides : String → Option Json) (json : Exit Json)
    (b : Backend) (path' : String) (fields : Fields) (ov : Option Json)
    (hr : routeRequest get notFound available path overrides json =
      .returned (.resolved b path' fields ov)) : ∃ client a g,
      json = .returned (.obj client) ∧ HasAlias client a ∧ get a = some (b, g) ∧
      fields = withModel client g ∧ ov = overrides g := by
  cases json with
  | returned body =>
    cases body with
    | obj client =>
      simp only [routeRequest, requestedModel, Exit.bind] at hr
      cases hl : lookupAlias get ((client.lookup "model").getD (.str "")) with
      | returned result =>
        cases result with
        | some r =>
          obtain ⟨a, ha, hget⟩ := lookupAlias_some get _ r hl
          simp only [hl, Exit.returned.injEq, Routed.resolved.injEq] at hr
          obtain ⟨rfl, -, rfl, rfl⟩ := hr
          exact ⟨client, a, r.2, rfl, ha, hget, rfl, rfl⟩
        | none => simp [hl] at hr
      | raised e => simp [hl] at hr
      | cancelled => simp [hl] at hr
    | _ => simp [routeRequest, requestedModel, Exit.bind] at hr
  | raised e => cases hr
  | cancelled => cases hr

theorem routeRequest_declared (get : String → Option (Backend × String))
    (notFound available path : String) (overrides : String → Option Json) (json : Exit Json)
    (b : Backend) (path' : String) (fields : Fields) (ov : Option Json)
    (hr : routeRequest get notFound available path overrides json =
      .returned (.resolved b path' fields ov)) : ∃ a g, get a = some (b, g) := by
  obtain ⟨-, a, g, -, -, hget, -, -⟩ := routeRequest_inv _ _ _ _ _ _ _ _ _ _ hr
  exact ⟨a, g, hget⟩

def OverridesAreObjects (c : Config) : Prop :=
  ∀ g, ∃ src, c.overridesFor g = .obj src ∧ (obj src).Unique

theorem embeddings_forwards_client (c : Config) (client : Fields) (a g : String) (b : Backend)
    (ha : HasAlias client a) (hr : c.getEmbeddingBackend a = some (b, g)) :
    (embeddings c (.returned (.obj client))).bind forwardedBody =
      .returned (withModel client g) := by
  rw [embeddings, routeRequest_resolved _ _ _ _ _ client a g b ha hr]
  rfl

/-- Chat and completion requests go out with the client's body, the model
rewritten, and the defaults of that model in the holes. Embedding requests go
out without defaults. -/
theorem forwarded_is_client_filled (c : Config) (hov : OverridesAreObjects c) (client : Fields)
    (a g : String) (b : Backend) (ha : HasAlias client a) :
    (c.getBackend a = some (b, g) → ∃ defaults forwarded,
      (c.overridesByBasename.get? g).getD (.obj []) = .obj defaults ∧
      (chatCompletions c (.returned (.obj client))).bind forwardedBody = .returned forwarded ∧
      (completions c (.returned (.obj client))).bind forwardedBody = .returned forwarded ∧
      HoleFilled client defaults g forwarded) ∧
    (c.getEmbeddingBackend a = some (b, g) → ∃ forwarded,
      (embeddings c (.returned (.obj client))).bind forwardedBody = .returned forwarded ∧
      HoleFilled client [] g forwarded) := by
  constructor
  · intro hr
    obtain ⟨defaults, hd, hu⟩ := hov g
    have hfilled := withModel_holeFilled client defaults g hu
    refine ⟨defaults, deepMerge (withModel client g) defaults, hd, ?_, ?_, hfilled⟩
    · rw [chatCompletions, routeRequest_resolved _ _ _ _ _ client a g b ha hr, hd]
      exact completeBody_object _ _
    · rw [completions, routeRequest_resolved _ _ _ _ _ client a g b ha hr, hd]
      exact completeBody_object _ _
  · intro hr
    have hfilled := withModel_holeFilled client [] g (by simp [Json.Unique, UniqueFields])
    rw [deepMerge_nil] at hfilled
    exact ⟨withModel client g, embeddings_forwards_client c client a g b ha hr, hfilled⟩

def gemmaCpu : Backend :=
  { name := "gemma-31b-cpu", url := "http://localhost:8004", type := "cpu", maxConcurrent := 1,
    models := Dict.empty.set "gemma-31b-cpu" "gemma-4-31B.gguf" }

def gemmaDefaults : Fields :=
  [("model", .str "other"), ("chat_template_kwargs", .obj [("enable_thinking", .bool false)])]

def gemmaConfig : Config :=
  ⟨[gemmaCpu], Dict.empty.set "gemma-4-31B.gguf" (.obj gemmaDefaults)⟩

theorem gemmaConfig_overrides : OverridesAreObjects gemmaConfig := by
  intro g
  have hg : gemmaConfig.overridesFor g =
      if g = "gemma-4-31B.gguf" then obj gemmaDefaults else obj [] := by
    by_cases h : g = "gemma-4-31B.gguf" <;> simp [gemmaConfig, Config.overridesFor, h]
  rw [hg]
  split
  · exact ⟨gemmaDefaults, rfl, by simp [gemmaDefaults, Json.Unique, UniqueFields, keys]⟩
  · exact ⟨[], rfl, by simp [Json.Unique, UniqueFields]⟩

theorem gemma_forwarded : ∃ defaults forwarded,
    (gemmaConfig.overridesByBasename.get? "gemma-4-31B.gguf").getD (.obj []) = .obj defaults ∧
    (chatCompletions gemmaConfig
      (.returned (.obj [("model", .str "gemma-31b-cpu")]))).bind forwardedBody =
        .returned forwarded ∧
    (completions gemmaConfig
      (.returned (.obj [("model", .str "gemma-31b-cpu")]))).bind forwardedBody =
        .returned forwarded ∧
    HoleFilled [("model", .str "gemma-31b-cpu")] defaults "gemma-4-31B.gguf" forwarded :=
  (forwarded_is_client_filled gemmaConfig gemmaConfig_overrides
    [("model", .str "gemma-31b-cpu")] "gemma-31b-cpu" "gemma-4-31B.gguf" gemmaCpu rfl).1 rfl

end LlRouter.RequestBody
