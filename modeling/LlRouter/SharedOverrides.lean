import LlRouter.MergeInPlace
import LlRouter.RouterMachine

/-!
# Request bodies that share the overrides' cells

A body takes over the overrides by reference, so the bodies of many requests
and the table of the configuration are one heap. Between its handler and its
merge, and between its merge and the moment it is sent, other requests run.
Nothing they do changes what the table or another request's body reads as.
-/

set_option autoImplicit false

namespace LlRouter.SharedOverrides
open AssocDict DictHeap ControlExit LabelledRun
open LlRouter.JsonValue LlRouter.JsonValue.Json LlRouter.BackendConfig LlRouter.RequestBody
open LlRouter.DeepMerge LlRouter.JsonCells LlRouter.MergeInPlace LlRouter.RouterMachine

abbrev Table := Dict String (Slot Json)

def loadTable (c : Config) : Table × JsonHeap :=
  (Dict.ofList (loadFields c.overridesByBasename.items []).1,
    (loadFields c.overridesByBasename.items []).2)

structure Body where
  root : ℕ
  handler : Handler
  client : Fields
  backendModel : String
  out : Option (Exit Unit)

structure State where
  heap : JsonHeap
  bodies : List Body

def init (c : Config) : State := ⟨(loadTable c).2, []⟩

/-- `posted` is a handler up to its first await after decoding, `completed` the
part of `proxy_request` before its first await. -/
inductive Event where
  | posted (handler : Handler) (client : Fields)
  | completed (i : ℕ)

def embeds : Handler → Bool
  | .embedding => true
  | _ => false

def found (c : Config) (handler : Handler) (client : Fields) : Option (Backend × String) :=
  match (client.lookup "model").getD (.str "") with
  | .str a => c.resolve (embeds handler) a
  | _ => none

def postBody (s : State) (handler : Handler) (client : Fields) (g : String) : Option State :=
  match load (.obj client) s.heap with
  | (.ref root, h) => some ⟨store h root "model" (.leaf (.str g)),
      s.bodies++[⟨root, handler, client, g, none⟩]⟩
  | _ => none

def completeAt (limit : ℕ) (table : Table) (h : JsonHeap) (b : Body) : Exit JsonHeap :=
  match if embeds b.handler then none else table.get? b.backendModel with
  | none => .returned h
  | some (.leaf j) =>
    if j.truthy then
      .raised ⟨"AttributeError", "'" ++ j.typeName ++ "' object has no attribute 'items'"⟩
    else .returned h
  | some (.ref src) =>
    if ((h[src]?).map (fun cell => cell.items.isEmpty)).getD true then .returned h
    else
      match mergeInto limit h b.root src with
      | some h' => .returned h'
      | none => .raised ⟨"RecursionError", "maximum recursion depth exceeded"⟩

def completion (s : State) (i : ℕ) (b : Body) : Exit JsonHeap → State
  | .returned h => ⟨h, s.bodies.set i { b with out := some (.returned ()) }⟩
  | .raised e => { s with bodies := s.bodies.set i { b with out := some (.raised e) } }
  | .cancelled => { s with bodies := s.bodies.set i { b with out := some .cancelled } }

def step (c : Config) (limit : ℕ) (table : Table) (s : State) : Event → Option State
  | .posted handler client =>
    match found c handler client with
    | some (_, g) => postBody s handler client g
    | none => some s
  | .completed i => (s.bodies[i]?).bind (fun b =>
      if b.out.isSome then none else some (completion s i b (completeAt limit table s.heap b)))

def given (c : Config) (b : Body) : Exit Fields :=
  completeBody (withModel b.client b.backendModel)
    (if embeds b.handler then none else some (c.overridesFor b.backendModel))

/-- The body's cells are its own until its merge. After it the body reads as
the completed one, or the request has failed as it should. -/
def Stands (c : Config) (h : JsonHeap) (R S : Set ℕ) (b : Body) : Prop :=
  match b.out with
  | none => Owned asObject h R (.ref b.root) (.obj (withModel b.client b.backendModel))
  | some (.returned _) => ∃ forwarded, given c b = .returned forwarded ∧
      Reads asObject h (R ∪ S) (.ref b.root) (.obj forwarded)
  | some (.raised e) => given c b = .raised e
  | some .cancelled => False

def TableReads (c : Config) (table : Table) (h : JsonHeap) (S : Set ℕ) : Prop :=
  ∀ g, (table.get? g = none ∧ c.overridesByBasename.get? g = none) ∨ ∃ slot j,
    table.get? g = some slot ∧ c.overridesByBasename.get? g = some j ∧ Reads asObject h S slot j

structure Shared (c : Config) (table : Table) (base : ℕ) (R : ℕ → Set ℕ) (s : State) : Prop where
  room : base ≤ s.heap.length
  apart : ∀ i j, i ≠ j → Disjoint (R i) (R j)
  fresh : ∀ i, R i ⊆ since base s.heap
  table : TableReads c table s.heap (Set.Iio base)
  bodies : ∀ (i : ℕ) b, s.bodies[i]? = some b → Stands c s.heap (R i) (Set.Iio base) b

section Frames
variable (c : Config) (h h' : JsonHeap) (R S : Set ℕ)

theorem stands_frame (b : Body) (hk : Keeps (R ∪ S) h h') (hb : Stands c h R S b) :
    Stands c h' R S b := by
  unfold Stands at hb ⊢
  cases ho : b.out with
  | none =>
    rw [ho] at hb
    exact owned_frame _ h h' R _ _ (keeps_mono R _ h h' Set.subset_union_left hk) hb
  | some out =>
    rw [ho] at hb
    cases out with
    | returned u =>
      obtain ⟨forwarded, hg, hr⟩ := hb
      exact ⟨forwarded, hg, reads_frame _ h h' _ _ _ hk hr⟩
    | _ => exact hb

theorem tableReads_frame (table : Table) (hk : Keeps S h h') (ht : TableReads c table h S) :
    TableReads c table h' S := by
  intro g
  rcases ht g with hn | ⟨slot, j, hs, hj, hr⟩
  · exact Or.inl hn
  · exact Or.inr ⟨slot, j, hs, hj, reads_frame _ h h' S _ _ hk hr⟩

end Frames

section Steps
variable (c : Config) (table : Table) (limit base : ℕ) (R : ℕ → Set ℕ) (s s' : State)

theorem shared_disjoint (hs : Shared c table base R s) (i : ℕ) :
    Disjoint (R i) (Set.Iio base) := by
  rw [Set.disjoint_left]
  intro r hr hb
  have hin := hs.fresh i hr
  simp only [mem_since, Set.mem_Iio] at hin hb
  omega

/-- A new body: its cells are new, and the model is written into them. -/
theorem shared_posted (handler : Handler) (client : Fields) (g : String)
    (hu : (obj client).Unique) (hs : Shared c table base R s)
    (hr : postBody s handler client g = some s') : ∃ R', Shared c table base R' s' := by
  obtain ⟨⟨cells, hcells⟩, hown⟩ := loaded (.obj client) hu s.heap
  unfold postBody at hr
  split at hr
  · next root h hl =>
    rw [hl] at hcells hown
    cases hr
    have hgrow : h.length = s.heap.length+cells.length := by
      rw [show h = s.heap++cells from hcells, List.length_append]
    have hroot : root ∈ since s.heap.length h := (reads_ref _ _ _ _ root client rfl
      (owned_reads _ _ _ _ _ hown)).1
    have hkeep : ∀ K : Set ℕ, (∀ r ∈ K, r < s.heap.length) →
        Keeps K s.heap (store h root "model" (.leaf (.str g))) := by
      intro K hK
      have hout : root ∉ K := fun hm => by
        have hlt := hK root hm
        simp only [mem_since] at hroot
        omega
      apply keeps_trans K s.heap h _ _ (keeps_store K h root _ _ hout)
      rw [show h = s.heap++cells from hcells]
      exact keeps_append K s.heap cells
    have hbase := hs.room
    have hold : ∀ i, ∀ r ∈ R i ∪ Set.Iio base, r < s.heap.length := by
      rintro i r (hr | hr)
      · exact (hs.fresh i hr).2
      · simp only [Set.mem_Iio] at hr
        omega
    refine ⟨Function.update R s.bodies.length (since s.heap.length h), ?_, ?_, ?_, ?_, ?_⟩
    · rw [store_length]
      omega
    · have hsep : ∀ i, Disjoint (since s.heap.length h) (R i) := fun i =>
        since_apart base s.heap h (R i) (hs.fresh i)
      intro i j hne
      by_cases hi : i = s.bodies.length
      · have hj : j ≠ s.bodies.length := fun he => hne (hi.trans he.symm)
        rw [hi, Function.update_self, Function.update_of_ne hj]
        exact hsep j
      · rw [Function.update_of_ne hi]
        by_cases hj : j = s.bodies.length
        · rw [hj, Function.update_self]
          exact (hsep i).symm
        · rw [Function.update_of_ne hj]
          exact hs.apart i j hne
    · intro i r hr
      by_cases hi : i = s.bodies.length
      · rw [hi, Function.update_self] at hr
        simp only [mem_since, store_length] at hr ⊢
        omega
      · rw [Function.update_of_ne hi] at hr
        have hin := hs.fresh i hr
        simp only [mem_since, store_length] at hin ⊢
        omega
    · apply tableReads_frame c s.heap _ _ table _ hs.table
      exact hkeep _ (fun r hr => hold 0 r (Or.inr hr))
    · intro i b hb
      rw [TaskPool.getElem?_concat] at hb
      by_cases hi : i = s.bodies.length
      · rw [if_pos hi, Option.some.injEq] at hb
        rw [hi, Function.update_self, ← hb]
        exact owned_store _ h _ _ root client "model" (.str g) _ rfl rfl rfl hown
      · rw [if_neg hi] at hb
        rw [Function.update_of_ne hi]
        exact stands_frame c s.heap _ _ _ b (hkeep _ (hold i)) (hs.bodies i b hb)
  · cases hr

theorem completeAt_stands (h : JsonHeap) (K : Set ℕ) (b : Body) (ho : b.out = none)
    (hd : ∀ g j, c.overridesByBasename.get? g = some j → depth j ≤ limit)
    (ht : TableReads c table h (Set.Iio base)) (hK : Disjoint K (Set.Iio base))
    (hb : Stands c h K (Set.Iio base) b) :
    (∃ h', completeAt limit table h b = .returned h' ∧ Frame h h' K ∧
      Stands c h' K (Set.Iio base) { b with out := some (.returned ()) }) ∨
    ∃ e, completeAt limit table h b = .raised e ∧ given c b = .raised e := by
  have hown : Owned asObject h K (.ref b.root) (.obj (withModel b.client b.backendModel)) := by
    simpa only [Stands, ho] using hb
  have hread := reads_mono _ h K (K ∪ Set.Iio base) _ _ Set.subset_union_left
    (owned_reads _ h K _ _ hown)
  have hsame : given c b = .returned (withModel b.client b.backendModel) →
      completeAt limit table h b = .returned h → ∃ h', completeAt limit table h b = .returned h' ∧
        Frame h h' K ∧ Stands c h' K (Set.Iio base) { b with out := some (.returned ()) } :=
    fun hg hc => ⟨h, hc, frame_refl h K, _, hg, hread⟩
  rcases Bool.eq_false_or_eq_true (embeds b.handler) with hdef | hdef
  · exact Or.inl (hsame (by simp [given, hdef, completeBody]) (by simp [completeAt, hdef]))
  · rcases ht b.backendModel with ⟨hn, hnone⟩ | ⟨slot, j, hslot, hj, hr⟩
    · apply Or.inl
      apply hsame
      · simp [given, hdef, Config.overridesFor, hnone, completeBody, truthy]
      · simp [completeAt, hdef, hn]
    · have hgiven : given c b = completeBody (withModel b.client b.backendModel) (some j) := by
        simp [given, hdef, Config.overridesFor, hj]
      cases hr with
      | leaf _ hl =>
        have hleaf := (asObject_none j).mp hl
        cases htr : j.truthy with
        | true =>
          apply Or.inr
          refine ⟨⟨"AttributeError", "'" ++ j.typeName ++ "' object has no attribute 'items'"⟩,
            by simp [completeAt, hdef, hslot, htr], ?_⟩
          rw [hgiven]
          cases j with
          | obj fields => cases hleaf
          | _ => simp [completeBody, htr]
        | false =>
          apply Or.inl
          apply hsame
          · simp [hgiven, completeBody, htr]
          · simp [completeAt, hdef, hslot, htr]
      | dict src cell _ fields hview hsrc hc hkeys hs =>
        obtain rfl := asObject_some j fields hview
        apply Or.inl
        rw [completeBody_object] at hgiven
        cases hf : fields with
        | nil =>
          have hempty : cell.items = [] := by
            rw [hf] at hkeys
            exact List.map_eq_nil_iff.mp hkeys
          apply hsame
          · rw [hgiven, hf, deepMerge_nil]
          · simp [completeAt, hdef, hslot, hc, hempty]
        | cons p rest =>
          have hne : cell.items.isEmpty = false := by
            rw [List.isEmpty_eq_false_iff]
            rintro hnil
            rw [hnil, hf] at hkeys
            cases hkeys
          obtain ⟨h', hm, hframe, hread'⟩ := merges_within (.obj fields) limit
            (hd b.backendModel _ hj) h b.root src _ K (Set.Iio base) hown
            (.dict src cell _ fields hview hsrc hc hkeys hs) hK
          refine ⟨h', by simp [completeAt, hdef, hslot, hc, hne, hm], hframe, _, hgiven, ?_⟩
          rw [mergeValue_obj] at hread'
          exact hread'

/-- A merge writes into its own body only. -/
theorem shared_completed (i : ℕ)
    (hd : ∀ g j, c.overridesByBasename.get? g = some j → depth j ≤ limit)
    (hs : Shared c table base R s) (hr : step c limit table s (.completed i) = some s') :
    Shared c table base R s' := by
  simp only [step, Option.bind_eq_some_iff] at hr
  obtain ⟨b, hb, hr⟩ := hr
  split at hr
  · cases hr
  · next hopen =>
    have ho : b.out = none := by simpa using hopen
    cases hr
    have hset : ∀ x, (s.bodies.set i { b with out := some x })[i]? =
        some { b with out := some x } := fun x => by
      rw [TaskPool.getElem?_set_of_some hb, if_pos rfl]
    have hother : ∀ x (j : ℕ) b', (s.bodies.set i { b with out := some x })[j]? = some b' →
        j = i ∧ b' = { b with out := some x } ∨ j ≠ i ∧ s.bodies[j]? = some b' := by
      intro x j b' hj
      rw [TaskPool.getElem?_set_of_some hb] at hj
      by_cases hji : j = i
      · rw [if_pos hji, Option.some.injEq] at hj
        exact Or.inl ⟨hji, hj.symm⟩
      · rw [if_neg hji] at hj
        exact Or.inr ⟨hji, hj⟩
    have hdis := shared_disjoint c table base R s hs
    rcases completeAt_stands c table limit base s.heap (R i) b ho hd hs.table (hdis i)
      (hs.bodies i b hb) with ⟨h', hc, hframe, hstands⟩ | ⟨e, hc, hg⟩
    · rw [hc]
      refine ⟨hframe.length ▸ hs.room, hs.apart, ?_, ?_, ?_⟩
      · intro j r hrj
        have hin := hs.fresh j hrj
        simp only [completion, mem_since, hframe.length] at hin ⊢
        exact hin
      · exact tableReads_frame c s.heap h' _ table
          (frame_keeps s.heap h' (R i) _ hframe (hdis i)) hs.table
      · intro j b' hj
        rcases hother (.returned ()) j b' hj with ⟨rfl, rfl⟩ | ⟨hne, hold⟩
        · exact hstands
        · apply stands_frame c s.heap h' _ _ b' _ (hs.bodies j b' hold)
          exact frame_keeps s.heap h' (R i) _ hframe
            (Set.disjoint_union_right.mpr ⟨hs.apart i j (Ne.symm hne), hdis i⟩)
    · rw [hc]
      refine ⟨hs.room, hs.apart, hs.fresh, hs.table, ?_⟩
      intro j b' hj
      rcases hother (.raised e) j b' hj with ⟨rfl, rfl⟩ | ⟨hne, hold⟩
      · exact hg
      · exact hs.bodies j b' hold

end Steps

theorem route_found (c : Config) (handler : Handler) (client : Fields) (b : Backend) (g : String)
    (hf : found c handler client = some (b, g)) : ∃ path,
      handler.route c (.returned (.obj client)) = .returned (.resolved b path (withModel client g)
        (if embeds handler then none else some (c.overridesFor g))) := by
  unfold found at hf
  split at hf
  · next a ha =>
    have halias : HasAlias client a := ha
    cases handler with
    | chat => exact ⟨_, routeRequest_resolved _ _ _ _ _ client a g b halias hf⟩
    | completion => exact ⟨_, routeRequest_resolved _ _ _ _ _ client a g b halias hf⟩
    | embedding => exact ⟨_, routeRequest_resolved _ _ _ _ _ client a g b halias hf⟩
  · cases hf

/-- What a body in the heap stands for at any time: the handler's body before
its merge, and what the request is to be forwarded with after it. -/
def Undisturbed (c : Config) (h : JsonHeap) (b : Body) : Prop :=
  match b.out with
  | none => ∃ backend path body overrides,
      b.handler.route c (.returned (.obj b.client)) =
        .returned (.resolved backend path body overrides) ∧
      Reads asObject h Set.univ (.ref b.root) (.obj body)
  | some (.returned _) => ∃ forwarded,
      (b.handler.route c (.returned (.obj b.client))).bind forwardedBody = .returned forwarded ∧
      Reads asObject h Set.univ (.ref b.root) (.obj forwarded)
  | some (.raised e) =>
    (b.handler.route c (.returned (.obj b.client))).bind forwardedBody = .raised e
  | some .cancelled => False

def admitted (c : Config) : Event → Option (Handler × Fields)
  | .posted handler client =>
    if (found c handler client).isSome then some (handler, client) else none
  | .completed _ => none

section Runs
variable (c : Config) (table : Table) (limit : ℕ)

theorem stands_undisturbed (h : JsonHeap) (R S : Set ℕ) (b : Body) (backend : Backend)
    (hf : found c b.handler b.client = some (backend, b.backendModel))
    (hb : Stands c h R S b) : Undisturbed c h b := by
  obtain ⟨path, hroute⟩ := route_found c b.handler b.client backend b.backendModel hf
  have hgiven : (b.handler.route c (.returned (.obj b.client))).bind forwardedBody = given c b := by
    rw [hroute]
    rfl
  unfold Stands at hb
  unfold Undisturbed
  cases ho : b.out with
  | none =>
    rw [ho] at hb
    exact ⟨backend, path, _, _, hroute,
      reads_mono _ h R _ _ _ (Set.subset_univ R) (owned_reads _ h R _ _ hb)⟩
  | some out =>
    rw [ho] at hb
    cases out with
    | returned u =>
      obtain ⟨forwarded, hg, hr⟩ := hb
      exact ⟨forwarded, hgiven.trans hg, reads_mono _ h _ _ _ _ (Set.subset_univ _) hr⟩
    | raised e => exact hgiven.trans hb
    | cancelled => exact hb

structure Served (es : List Event) (s : State) : Prop where
  found : ∀ b ∈ s.bodies, ∃ backend,
    found c b.handler b.client = some (backend, b.backendModel)
  order : s.bodies.map (fun b => (b.handler, b.client)) = es.filterMap (admitted c)

theorem postBody_bodies (s s' : State) (handler : Handler) (client : Fields) (g : String)
    (hr : postBody s handler client g = some s') :
    ∃ root, s'.bodies = s.bodies++[⟨root, handler, client, g, none⟩] := by
  unfold postBody at hr
  split at hr
  · next root h hl =>
    cases hr
    exact ⟨root, rfl⟩
  · cases hr

theorem completed_bodies (i : ℕ) (s s' : State)
    (hr : step c limit table s (.completed i) = some s') : ∃ b out, s.bodies[i]? = some b ∧
      s'.bodies = s.bodies.set i { b with out := out } := by
  simp only [step, Option.bind_eq_some_iff] at hr
  obtain ⟨b, hb, hr⟩ := hr
  split at hr
  · cases hr
  · cases hr
    refine ⟨b, ?_⟩
    cases completeAt limit table s.heap b with
    | returned h => exact ⟨some (.returned ()), hb, rfl⟩
    | raised e => exact ⟨some (.raised e), hb, rfl⟩
    | cancelled => exact ⟨some .cancelled, hb, rfl⟩

theorem served_step (es : List Event) (e : Event) (s s' : State) (hs : Served c es s)
    (hr : step c limit table s e = some s') : Served c (es++[e]) s' := by
  cases e with
  | posted handler client =>
    cases hf : found c handler client with
    | none =>
      simp only [step, hf, Option.some.injEq] at hr
      subst hr
      exact ⟨hs.found, by simp [hs.order, admitted, hf]⟩
    | some result =>
      obtain ⟨backend, g⟩ := result
      simp only [step, hf] at hr
      obtain ⟨root, hbodies⟩ := postBody_bodies s s' handler client g hr
      constructor
      · intro b hb
        rw [hbodies, List.mem_append, List.mem_singleton] at hb
        rcases hb with hb | rfl
        · exact hs.found b hb
        · exact ⟨backend, hf⟩
      · rw [hbodies]
        simp [hs.order, admitted, hf]
  | completed i =>
    obtain ⟨b, out, hb, hbodies⟩ := completed_bodies c table limit i s s' hr
    constructor
    · intro b' hb'
      rw [hbodies] at hb'
      rcases List.mem_or_eq_of_mem_set hb' with hold | rfl
      · exact hs.found b' hold
      · exact hs.found b (List.mem_of_getElem? hb)
    · have hsame : s'.bodies.map (fun b => (b.handler, b.client)) =
          s.bodies.map (fun b => (b.handler, b.client)) := by
        rw [hbodies]
        exact TaskPool.map_set_of_some _ hb _ rfl
      simp [hsame, hs.order, admitted]

theorem shared_init (h : JsonHeap) (ht : TableReads c table h (Set.Iio h.length)) :
    Shared c table h.length (fun _ => ∅) ⟨h, []⟩ := by
  refine ⟨le_refl _, ?_, ?_, ht, ?_⟩
  · intro i j _
    exact Set.empty_disjoint _
  · intro i
    exact Set.empty_subset _
  · intro i b hb
    simp at hb

def Decoded : Event → Prop
  | .posted _ client => (obj client).Unique
  | .completed _ => True

theorem shared_step (base : ℕ) (s s' : State) (e : Event) (he : Decoded e)
    (hd : ∀ g j, c.overridesByBasename.get? g = some j → depth j ≤ limit)
    (hs : ∃ R, Shared c table base R s) (hr : step c limit table s e = some s') :
    ∃ R, Shared c table base R s' := by
  obtain ⟨R, hs⟩ := hs
  cases e with
  | posted handler client =>
    cases hf : found c handler client with
    | none =>
      simp only [step, hf, Option.some.injEq] at hr
      exact ⟨R, hr ▸ hs⟩
    | some result =>
      simp only [step, hf] at hr
      exact shared_posted c table base R s s' handler client result.2 he hs hr
  | completed i => exact ⟨R, shared_completed c table limit base R s s' i hd hs hr⟩

theorem loadTable_reads (hu : ∀ p ∈ c.overridesByBasename.items, p.2.Unique) :
    TableReads c (loadTable c).1 (loadTable c).2 (Set.Iio (loadTable c).2.length) := by
  obtain ⟨cells, hcells, hkeys, F, hF, hd, hs⟩ := loadFields_loaded c.overridesByBasename.items []
    c.overridesByBasename.nodup (fun p hp => loaded p.2 (hu p hp))
  have hitems : (loadTable c).1.items = (loadFields c.overridesByBasename.items []).1 :=
    Dict.items_ofList _ (hkeys ▸ c.overridesByBasename.nodup)
  intro g
  have hnone := get?_none_iff (loadTable c).1 c.overridesByBasename.items (hitems ▸ hkeys) g
  cases hg : (loadTable c).1.get? g with
  | none => exact Or.inl ⟨rfl, hnone.mp hg⟩
  | some slot =>
    cases hj : c.overridesByBasename.get? g with
    | none =>
      rw [hnone.mpr hj] at hg
      cases hg
    | some j =>
      rw [Dict.get?, hitems] at hg
      have hown := hs g slot j hg hj
      exact Or.inr ⟨slot, j, rfl, rfl, reads_inside _ _ _ _ _ (owned_reads _ _ _ _ _ hown)⟩

/-- Whatever requests come and however their steps interleave, each body reads
at any time as that request alone would have it, and the table of overrides as
it was read from the profiles. -/
theorem bodies_undisturbed (t : State) (es : List Event)
    (hu : ∀ p ∈ c.overridesByBasename.items, p.2.Unique ∧ depth p.2 ≤ limit)
    (he : ∀ e ∈ es, Decoded e)
    (hr : run (step c limit (loadTable c).1) (init c) es = some t) :
    TableReads c (loadTable c).1 t.heap Set.univ ∧
      t.bodies.map (fun b => (b.handler, b.client)) = es.filterMap (admitted c) ∧
      ∀ b ∈ t.bodies, Undisturbed c t.heap b := by
  have hstart := loadTable_reads c (fun p hp => (hu p hp).1)
  have hd : ∀ g j, c.overridesByBasename.get? g = some j → depth j ≤ limit := fun g j hg =>
    (hu (g, j) ((mem_iff_lookup _ c.overridesByBasename.nodup g j).mpr hg)).2
  have hserved : Served c es t := history_run (step c limit (loadTable c).1) (fun _ _ => True)
    (init c) (Served c) ⟨by simp [init], rfl⟩
    (fun es e m n _ _ hm hn => served_step c (loadTable c).1 limit es e m n hm hn)
    t es (each_of_mem _ _ _ _ (fun _ _ => trivial)) hr
  obtain ⟨R, hshared⟩ := invariant_run (step c limit (loadTable c).1) (fun _ e => Decoded e)
    (fun s => ∃ R, Shared c (loadTable c).1 (loadTable c).2.length R s)
    (fun s e s' hdec hs hstep => shared_step c (loadTable c).1 limit _ s s' e hdec hd hs hstep)
    (init c) t es (each_of_mem _ _ _ _ he) ⟨_, shared_init c _ _ hstart⟩ hr
  refine ⟨?_, hserved.order, ?_⟩
  · intro g
    rcases hshared.table g with hn | ⟨slot, j, hs, hj, hr⟩
    · exact Or.inl hn
    · exact Or.inr ⟨slot, j, hs, hj, reads_mono _ _ _ _ _ _ (Set.subset_univ _) hr⟩
  · intro b hb
    obtain ⟨i, hi, hget⟩ := List.getElem_of_mem hb
    obtain ⟨backend, hf⟩ := hserved.found b hb
    exact stands_undisturbed c t.heap (R i) _ b backend hf
      (hshared.bodies i b (by rw [List.getElem?_eq_getElem hi, hget]))

end Runs

/-- Two requests for one model. The first takes the defaults' inner dictionary
over by reference, the second brings one of its own and is merged in between. -/
def twoRequests : List Event :=
  [.posted .chat [("model", .str "gemma-31b-cpu")],
    .posted .completion [("model", .str "gemma-31b-cpu"),
      ("chat_template_kwargs", .obj [("enable_thinking", .bool true)])],
    .completed 0, .completed 1]

theorem twoRequests_undisturbed : ∃ t,
    run (step gemmaConfig 2 (loadTable gemmaConfig).1) (init gemmaConfig) twoRequests = some t ∧
      TableReads gemmaConfig (loadTable gemmaConfig).1 t.heap Set.univ ∧
      ∀ b ∈ t.bodies, Undisturbed gemmaConfig t.heap b := by
  have hsome : (run (step gemmaConfig 2 (loadTable gemmaConfig).1) (init gemmaConfig)
      twoRequests).isSome := by rfl
  obtain ⟨t, hr⟩ := Option.isSome_iff_exists.mp hsome
  have hitems : gemmaConfig.overridesByBasename.items =
      [("gemma-4-31B.gguf", .obj gemmaDefaults)] := by rfl
  obtain ⟨htable, -, hbodies⟩ := bodies_undisturbed gemmaConfig 2 t twoRequests
    (by simp [hitems, gemmaDefaults, Json.Unique, UniqueFields, keys, depth, depthFields])
    (by simp [twoRequests, Decoded, Json.Unique, UniqueFields, keys]) hr
  exact ⟨t, hr, htable, hbodies⟩

end LlRouter.SharedOverrides
