import LlRouter.ProfilesFile

/-!
# What a profiles file does to requests

The table is searched by the backend's model name on every chat request, and
what it gives is merged into the body. So a file can stop the router when it is
loaded, or break the requests for one model later. Where it does neither, each
model gets the overrides of the last entry written for it.
-/

set_option autoImplicit false

namespace LlRouter.ProfileOverrides
open AssocDict ControlExit
open LlRouter.JsonValue LlRouter.JsonValue.Json LlRouter.BackendConfig LlRouter.RequestBody
open LlRouter.ProfilesFile

def Safe (p : Profiles) : Prop :=
  ∃ table, loadOverrides p = .returned table ∧ (p = .undecodable → table = Dict.empty) ∧
    ∀ backends (body : Fields) g, ∃ merged,
      completeBody body (some (Config.overridesFor ⟨backends, table⟩ g)) = .returned merged

/-- The document and its `models` are objects, `models` possibly empty in any
way, its entries are objects, and the last overrides for each name are one. -/
def Sound : Profiles → Prop
  | .json raw => ∃ doc entries, raw = .obj doc ∧ orEmpty (doc.lookup "models") = .obj entries ∧
      (∀ p ∈ entries, p.2.isObject = true) ∧
      ∀ g ov, LastOverride entries g ov → ov.isObject = true
  | .failed _ => False
  | _ => True

theorem loaded_returned (doc entries : Fields)
    (hm : orEmpty (doc.lookup "models") = .obj entries)
    (ho : ∀ p ∈ entries, p.2.isObject = true) :
    loadOverrides (.json (.obj doc)) = .returned (entries.foldl addEntry Dict.empty) := by
  rw [loadOverrides, getOrEmpty_object, Exit.bind_returned, hm]
  exact loadEntries_returned Dict.empty entries ho

theorem loaded_raised (doc entries : Fields)
    (hm : orEmpty (doc.lookup "models") = .obj entries) (p : String × Json) (hp : p ∈ entries)
    (ho : p.2.isObject = false) :
    ∃ e, loadOverrides (.json (.obj doc)) = .raised e := by
  rw [loadOverrides, getOrEmpty_object, Exit.bind_returned, hm]
  exact loadEntries_raised Dict.empty entries p hp ho

/-- A document that loads is an object with entries that are objects. -/
theorem loaded_shape (raw : Json) (table : Dict String Json)
    (h : loadOverrides (.json raw) = .returned table) : ∃ doc entries, raw = .obj doc ∧
      orEmpty (doc.lookup "models") = .obj entries ∧ (∀ p ∈ entries, p.2.isObject = true) ∧
      table = entries.foldl addEntry Dict.empty := by
  cases raw with
  | obj doc =>
    cases hm : orEmpty (doc.lookup "models") with
    | obj entries =>
      have ho : ∀ p ∈ entries, p.2.isObject = true := by
        intro p hp
        by_contra hn
        rw [Bool.not_eq_true] at hn
        obtain ⟨e, he⟩ := loaded_raised doc entries hm p hp hn
        rw [he] at h
        cases h
      rw [loaded_returned doc entries hm ho] at h
      exact ⟨doc, entries, rfl, hm, ho, (Exit.returned.inj h).symm⟩
    | _ => simp [loadOverrides, getOrEmpty, hm, items] at h
  | _ => simp [loadOverrides, getOrEmpty] at h

section Applied
variable (backends : List Backend) (entries : Fields) (g : String)

def withEntries : Config := ⟨backends, entries.foldl addEntry Dict.empty⟩

theorem overridesFor_last (ov : Json) (h : LastOverride entries g ov) :
    (withEntries backends entries).overridesFor g = ov := by
  rw [Config.overridesFor, withEntries, (table_eq_some entries g ov).mpr h]
  rfl

theorem overridesFor_absent (h : ∀ p ∈ entries, basename p.1 = g → overridden p.2 = none) :
    (withEntries backends entries).overridesFor g = .obj [] := by
  rw [Config.overridesFor, withEntries, (table_eq_none entries g).mpr h]
  rfl

theorem last_or_absent : (∃ ov, LastOverride entries g ov) ∨
    ∀ p ∈ entries, basename p.1 = g → overridden p.2 = none := by
  cases ht : (entries.foldl addEntry Dict.empty).get? g with
  | some ov => exact Or.inl ⟨ov, (table_eq_some entries g ov).mp ht⟩
  | none => exact Or.inr ((table_eq_none entries g).mp ht)

theorem overridesFor_object (ho : ∀ ov, LastOverride entries g ov → ov.isObject = true) :
    ∃ src, (withEntries backends entries).overridesFor g = .obj src := by
  rcases last_or_absent entries g with ⟨ov, hl⟩ | hn
  · have hobj := ho ov hl
    rw [overridesFor_last backends entries g ov hl]
    cases ov with
    | obj src => exact ⟨src, rfl⟩
    | _ => cases hobj
  · exact ⟨[], overridesFor_absent backends entries g hn⟩

end Applied

theorem completeBody_scalar (body : Fields) (ov : Json) (ht : ov.truthy = true)
    (ho : ov.isObject = false) : ∃ e, completeBody body (some ov) = .raised e := by
  cases ov with
  | obj src => cases ho
  | _ => exact ⟨_, by simp only [completeBody, ht, if_true]; rfl⟩

theorem empty_safe (p : Profiles) (h : loadOverrides p = .returned Dict.empty) : Safe p :=
  ⟨Dict.empty, h, fun _ => rfl, fun _ body _ => ⟨body, rfl⟩⟩

theorem sound_of_safe (p : Profiles) (h : Safe p) : Sound p := by
  obtain ⟨table, hload, -, hbody⟩ := h
  cases p with
  | missing => trivial
  | undecodable => trivial
  | failed e => cases hload
  | json raw =>
    obtain ⟨doc, entries, hraw, hm, ho, rfl⟩ := loaded_shape raw table hload
    refine ⟨doc, entries, hraw, hm, ho, ?_⟩
    intro g ov hl
    by_contra hn
    rw [Bool.not_eq_true] at hn
    obtain ⟨merged, hmerged⟩ := hbody [] [] g
    obtain ⟨before, q, after, -, -, hov, -⟩ := id hl
    obtain ⟨e, he⟩ := completeBody_scalar [] ov (overridden_truthy q.2 ov hov) hn
    have hfor := overridesFor_last [] entries g ov hl
    rw [withEntries] at hfor
    rw [hfor, he] at hmerged
    cases hmerged

theorem safe_of_sound (p : Profiles) (h : Sound p) : Safe p := by
  cases p with
  | missing => exact empty_safe _ rfl
  | undecodable => exact empty_safe _ rfl
  | failed e => cases h
  | json raw =>
    obtain ⟨doc, entries, rfl, hm, ho, hlast⟩ := h
    refine ⟨_, loaded_returned doc entries hm ho, (fun hp => by cases hp), ?_⟩
    intro backends body g
    obtain ⟨src, hsrc⟩ := overridesFor_object backends entries g (hlast g)
    rw [withEntries] at hsrc
    exact ⟨_, by rw [hsrc]; exact completeBody_object body src⟩

/-- Which files neither stop the router nor break a request. -/
theorem safe_iff (p : Profiles) : Safe p ↔ Sound p := ⟨sound_of_safe p, safe_of_sound p⟩

theorem list_unsafe : ¬ ∀ p, Safe p := by
  intro h
  obtain ⟨table, hload, -⟩ := h (.json (.arr []))
  cases hload

theorem unique_member (fields : Fields) (h : UniqueFields fields) (p : String × Json)
    (hp : p ∈ fields) : p.2.Unique := by
  induction fields with
  | nil => cases hp
  | cons q fields ih =>
    rcases List.mem_cons.mp hp with rfl | hp
    · exact h.1
    · exact ih h.2 hp

theorem orEmpty_unique (fields : Fields) (h : UniqueFields fields) (key : String) :
    (orEmpty (fields.lookup key)).Unique := by
  cases hl : fields.lookup key with
  | none => simp [orEmpty, Json.Unique, UniqueFields]
  | some j =>
    have hj := unique_lookup fields h key j hl
    simp only [orEmpty]
    split
    · exact hj
    · simp [Json.Unique, UniqueFields]

/-- A sound document gives the table that the completion of bodies relies on. -/
theorem loaded_overrides_are_objects (raw : Json) (table : Dict String Json)
    (backends : List Backend) (hu : raw.Unique) (hs : Sound (.json raw))
    (h : loadOverrides (.json raw) = .returned table) :
    OverridesAreObjects ⟨backends, table⟩ := by
  obtain ⟨doc, entries, rfl, hm, ho, hlast⟩ := hs
  rw [loaded_returned doc entries hm ho, Exit.returned.injEq] at h
  subst h
  rw [Json.Unique] at hu
  have hentries : (Json.obj entries).Unique := hm ▸ orEmpty_unique doc hu.2 "models"
  rw [Json.Unique] at hentries
  intro g
  obtain ⟨src, hsrc⟩ := overridesFor_object backends entries g (hlast g)
  refine ⟨src, hsrc, ?_⟩
  rcases last_or_absent entries g with ⟨ov, hl⟩ | hn
  · have hfor := overridesFor_last backends entries g ov hl
    obtain ⟨before, p, after, he, -, hov, -⟩ := hl
    rw [← hsrc, hfor]
    have hp := unique_member entries hentries.2 p (by simp [he])
    cases hp2 : p.2 with
    | obj fields =>
      rw [hp2, Json.Unique] at hp
      rw [hp2] at hov
      simp only [overridden, Option.ite_none_right_eq_some, Option.some.injEq] at hov
      rw [← hov.2]
      exact orEmpty_unique fields hp.2 "request_overrides"
    | _ => simp [hp2, overridden] at hov
  · rw [overridesFor_absent backends entries g hn] at hsrc
    rw [← hsrc]
    simp [Json.Unique, UniqueFields]

def EntryWellFormed (entry : Json) : Prop :=
  ∃ fields, entry = .obj fields ∧
    ∀ ov, fields.lookup "request_overrides" = some ov → ov = .null ∨ ov.isObject = true

def WellFormed (entries : Fields) : Prop := ∀ p ∈ entries, EntryWellFormed p.2

def Overrides (entry : Json) (src : Fields) : Prop :=
  ∃ fields, entry = .obj fields ∧ fields.lookup "request_overrides" = some (.obj src) ∧ src ≠ []

def Names (path g : String) : Prop :=
  '/' ∉ g.toList ∧ (path = g ∨ ∃ dir, path = dir ++ "/" ++ g)

def relevant (g : String) (entries : Fields) : Fields :=
  entries.filter (fun p => basename p.1 = g ∧ (overridden p.2).isSome)

structure ReachesItsModel (entries : Fields) (c : Config) : Prop where
  last : ∀ g before p after src, entries = before++p::after → Names p.1 g →
    Overrides p.2 src → (∀ q ∈ after, Names q.1 g → ∀ src, ¬ Overrides q.2 src) →
    c.overridesFor g = .obj src
  absent : ∀ g, (∀ p ∈ entries, Names p.1 g → ∀ src, ¬ Overrides p.2 src) →
    c.overridesFor g = .obj []
  slash : ∀ g, '/' ∈ g.toList → c.overridesFor g = .obj []

theorem overridden_eq_some (entry ov : Json) (hw : EntryWellFormed entry) :
    overridden entry = some ov ↔ ∃ src, ov = .obj src ∧ Overrides entry src := by
  obtain ⟨fields, rfl, hw⟩ := hw
  have hsrc : ∀ src, Overrides (.obj fields) src ↔
      fields.lookup "request_overrides" = some (.obj src) ∧ src ≠ [] := by
    intro src
    constructor
    · rintro ⟨fields', he, h⟩
      rw [Json.obj.injEq] at he
      rw [he]
      exact h
    · intro h
      exact ⟨fields, rfl, h⟩
  simp only [hsrc, overridden]
  cases hl : fields.lookup "request_overrides" with
  | none => simp [orEmpty, truthy]
  | some j =>
    rcases hw j hl with rfl | hobj
    · simp [orEmpty, truthy]
    · cases j with
      | obj src =>
        cases src with
        | nil => simp [orEmpty, truthy]
        | cons p src =>
          simp only [orEmpty, truthy, List.isEmpty_cons, Bool.not_false, if_true,
            Option.some.injEq, Json.obj.injEq]
          constructor
          · rintro rfl
            exact ⟨_, rfl, rfl, List.cons_ne_nil p src⟩
          · rintro ⟨src', rfl, rfl, -⟩
            rfl
      | _ => cases hobj

theorem overridden_eq_none (entry : Json) (hw : EntryWellFormed entry) :
    overridden entry = none ↔ ∀ src, ¬ Overrides entry src := by
  constructor
  · intro hn src hs
    have hsome := (overridden_eq_some entry (.obj src) hw).mpr ⟨src, rfl, hs⟩
    rw [hn] at hsome
    cases hsome
  · intro hn
    cases ho : overridden entry with
    | none => rfl
    | some ov =>
      obtain ⟨src, -, hs⟩ := (overridden_eq_some entry ov hw).mp ho
      exact absurd hs (hn src)

theorem reachesItsModel (backends : List Backend) (entries : Fields) (hw : WellFormed entries) :
    ReachesItsModel entries (withEntries backends entries) := by
  constructor
  · intro g before p after src he hname hov hafter
    apply overridesFor_last
    have hmem : ∀ q ∈ p::after, q ∈ entries := by
      intro q hq
      rw [he]
      exact List.mem_append_right before hq
    have hp := hw p (hmem p List.mem_cons_self)
    refine ⟨before, p, after, he, (basename_eq_iff p.1 g).mpr hname,
      (overridden_eq_some p.2 _ hp).mpr ⟨src, rfl, hov⟩, ?_⟩
    intro q hq hb
    have hwq := hw q (hmem q (List.mem_cons_of_mem p hq))
    exact (overridden_eq_none q.2 hwq).mpr (hafter q hq ((basename_eq_iff q.1 g).mp hb))
  · intro g hn
    apply overridesFor_absent
    intro p hp hb
    exact (overridden_eq_none p.2 (hw p hp)).mpr (hn p hp ((basename_eq_iff p.1 g).mp hb))
  · intro g hg
    apply overridesFor_absent
    intro p _ hb
    exact absurd hg ((basename_eq_iff p.1 g).mp hb).1

/-- Only the entries that are about `g` decide what `g` gets. -/
theorem overridesFor_relevant (backends backends' : List Backend) (entries entries' : Fields)
    (g : String) (h : relevant g entries' = relevant g entries) :
    (withEntries backends' entries').overridesFor g =
      (withEntries backends entries).overridesFor g := by
  have hkeep : ∀ l : Fields, l.reverse.findSome? (overrideFor g) =
      (relevant g l).reverse.findSome? (overrideFor g) := by
    intro l
    rw [relevant, ← List.filter_reverse, findSome?_filter]
    congr 1
    ext1 p
    cases ho : overridden p.2 with
    | none => simp [overrideFor, ho]
    | some ov => by_cases hb : basename p.1 = g <;> simp [overrideFor, hb, ho]
  simp only [Config.overridesFor, withEntries, table_get?]
  rw [hkeep entries', hkeep entries, h]

theorem orEmpty_object (v : Option Json) (entries : Fields) (h : v = some (.obj entries)) :
    orEmpty v = .obj entries := by
  subst h
  cases entries <;> simp [orEmpty, truthy]

theorem wellFormed_returned (doc entries : Fields)
    (hm : doc.lookup "models" = some (.obj entries)) (hw : WellFormed entries) :
    loadOverrides (.json (.obj doc)) = .returned (entries.foldl addEntry Dict.empty) := by
  apply loaded_returned doc entries (orEmpty_object _ entries hm)
  intro p hp
  obtain ⟨fields, he, -⟩ := hw p hp
  rw [he]
  rfl

/-- Overrides reach exactly the models they are written for, and what is
written for other models has no influence. -/
theorem overrides_reach_their_models (doc entries : Fields)
    (hm : doc.lookup "models" = some (.obj entries)) (hw : WellFormed entries) :
    ∃ table, loadOverrides (.json (.obj doc)) = .returned table ∧ ∀ backends,
      ReachesItsModel entries ⟨backends, table⟩ ∧
      ∀ doc' entries' table', doc'.lookup "models" = some (.obj entries') → WellFormed entries' →
        loadOverrides (.json (.obj doc')) = .returned table' →
        ∀ g, relevant g entries' = relevant g entries →
          Config.overridesFor ⟨backends, table'⟩ g = Config.overridesFor ⟨backends, table⟩ g := by
  refine ⟨_, wellFormed_returned doc entries hm hw, ?_⟩
  intro backends
  constructor
  · exact reachesItsModel backends entries hw
  · intro doc' entries' table' hm' hw' hload g hg
    rw [wellFormed_returned doc' entries' hm' hw', Exit.returned.injEq] at hload
    rw [← hload]
    exact overridesFor_relevant backends backends entries entries' g hg

def gemmaProfiles : Fields :=
  [("gemma/gemma-4-31B.gguf", .obj [("request_overrides", .obj gemmaDefaults)]),
    ("gemma-4-31B.gguf", .obj [("request_overrides", .null)])]

theorem gemma_overrides_reach : ∃ table,
    loadOverrides (.json (.obj [("models", .obj gemmaProfiles)])) = .returned table ∧
      ∀ backends, ReachesItsModel gemmaProfiles ⟨backends, table⟩ := by
  have hw : WellFormed gemmaProfiles := by
    intro p hp
    rcases List.mem_cons.mp hp with rfl | hp
    · exact ⟨_, rfl, fun ov hov => Or.inr (by cases hov; rfl)⟩
    · obtain rfl := List.mem_singleton.mp hp
      exact ⟨_, rfl, fun ov hov => Or.inl (by cases hov; rfl)⟩
  obtain ⟨table, hload, hreach⟩ :=
    overrides_reach_their_models [("models", .obj gemmaProfiles)] gemmaProfiles rfl hw
  exact ⟨table, hload, fun backends => (hreach backends).1⟩

end LlRouter.ProfileOverrides
