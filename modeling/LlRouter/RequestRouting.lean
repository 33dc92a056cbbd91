import LlRouter.RouterMachine

/-!
# Which bodies a handler can route

The body is decoded unguarded, it is untyped JSON when it is asked for its
model, and the model is untyped when it is looked up. A handler comes through
all three exactly for an object whose model can be a dictionary key.
-/

set_option autoImplicit false

namespace LlRouter.RequestRouting
open AssocDict ControlExit
open LlRouter.JsonValue LlRouter.BackendConfig LlRouter.RequestBody LlRouter.RouterMachine

inductive Settled (c : Config) : Exit Routed → Prop
  | resolved (b : Backend) (path : String) (fields : Fields) (overrides : Option Json)
      (hb : b ∈ c.backends) : Settled c (.returned (.resolved b path fields overrides))
  | rejected (status : ℕ) (detail : String) (hs : 400 ≤ status) (hs' : status < 500) :
      Settled c (.returned (.rejected status detail))

def hashable : Json → Bool
  | .arr _ => false
  | .obj _ => false
  | _ => true

def routable : Exit Json → Bool
  | .returned (.obj fields) => hashable ((fields.lookup "model").getD (.str ""))
  | _ => false

theorem lookupAlias_hashable (get : String → Option (Backend × String)) (j : Json)
    (h : hashable j = true) : ∃ result, lookupAlias get j = .returned result := by
  cases j with
  | str s => exact ⟨get s, rfl⟩
  | arr items => simp [hashable] at h
  | obj fields => simp [hashable] at h
  | _ => exact ⟨none, rfl⟩

theorem lookupAlias_unhashable (get : String → Option (Backend × String)) (j : Json)
    (h : hashable j = false) : ∃ e, lookupAlias get j = .raised e := by
  cases j with
  | arr items => exact ⟨_, rfl⟩
  | obj fields => exact ⟨_, rfl⟩
  | _ => simp [hashable] at h

section Lookup
variable (get : String → Option (Backend × String)) (notFound available path : String)
  (overrides : String → Option Json)

theorem routeRequest_routable (json : Exit Json) (h : routable json = true) :
    (∃ detail, routeRequest get notFound available path overrides json =
      .returned (.rejected 404 detail)) ∨
    ∃ b fields ov, routeRequest get notFound available path overrides json =
      .returned (.resolved b path fields ov) := by
  cases json with
  | returned body =>
    cases body with
    | obj fields =>
      obtain ⟨result, hl⟩ := lookupAlias_hashable get _ h
      simp only [routeRequest, requestedModel, Exit.bind_returned, hl]
      cases result with
      | none => exact Or.inl ⟨_, rfl⟩
      | some r => exact Or.inr ⟨r.1, _, _, rfl⟩
    | _ => simp [routable] at h
  | raised e => simp [routable] at h
  | cancelled => simp [routable] at h

theorem routeRequest_unroutable (json : Exit Json) (h : routable json = false) (r : Routed) :
    routeRequest get notFound available path overrides json ≠ .returned r := by
  intro hr
  cases json with
  | returned body =>
    cases body with
    | obj fields =>
      obtain ⟨e, hl⟩ := lookupAlias_unhashable get _ h
      simp only [routeRequest, requestedModel, Exit.bind_returned, hl, Exit.bind_raised] at hr
      cases hr
    | _ => cases hr
  | raised e => cases hr
  | cancelled => cases hr

end Lookup

/-- The three handlers are one lookup with parameters. -/
theorem route_eq (c : Config) (h : Handler) : ∃ get notFound available path overrides,
    ∀ json, h.route c json = routeRequest get notFound available path overrides json := by
  cases h with
  | chat => exact ⟨_, _, _, _, _, fun _ => rfl⟩
  | completion => exact ⟨_, _, _, _, _, fun _ => rfl⟩
  | embedding => exact ⟨_, _, _, _, _, fun _ => rfl⟩

/-- A handler settles what was posted exactly when it is decoded and routable. -/
theorem settled_iff (c : Config) (h : Handler) (json : Exit Json) :
    Settled c (h.route c json) ↔ routable json = true := by
  obtain ⟨get, notFound, available, path, overrides, hroute⟩ := route_eq c h
  constructor
  · intro hs
    by_contra hn
    rw [Bool.not_eq_true] at hn
    have hne := routeRequest_unroutable get notFound available path overrides json hn
    rw [← hroute] at hne
    generalize h.route c json = out at hs hne
    cases hs with
    | resolved b path fields ov hb => exact hne _ rfl
    | rejected status detail h400 h500 => exact hne _ rfl
  · intro hb
    rcases routeRequest_routable get notFound available path overrides json hb with
      ⟨detail, hr⟩ | ⟨b, fields, ov, hr⟩
    · rw [hroute, hr]
      exact .rejected 404 detail (by omega) (by omega)
    · rw [← hroute] at hr
      have hmem := route_declared c h json b path fields ov hr
      rw [hr]
      exact .resolved b path fields ov hmem

/-- An empty array posted to the chat handler ends it with an AttributeError. -/
theorem array_unsettled :
    ¬ ∀ (c : Config) (h : Handler) (body : Json), Settled c (h.route c (.returned body)) := by
  intro h
  have hs := h gemmaConfig .chat (.arr [])
  have he : Handler.chat.route gemmaConfig (.returned (.arr [])) =
    .raised ⟨"AttributeError", "'list' object has no attribute 'get'"⟩ := rfl
  rw [he] at hs
  cases hs

end LlRouter.RequestRouting
