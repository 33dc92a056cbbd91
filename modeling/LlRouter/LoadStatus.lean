import LlRouter.ModelListing
import LlRouter.PermitMachine
import LlRouter.EnsureActive

/-!
# The liveness snapshot

Every backend is probed, and the results are joined back to the backends
through a dictionary keyed by the backend's name. An entry shows the result of
the last backend of that name.
-/

set_option autoImplicit false

namespace LlRouter.LoadStatus
open AssocDict ControlExit
open LlRouter.BackendConfig LlRouter.ModelListing LlRouter.EnsureActive

structure ProbeReport where
  healthOk : Bool
  statusCode : Option ℕ
  error : Option String
  probedUrl : String
  deriving DecidableEq

def probeUrl (b : Backend) : String :=
  if b.healthUrl.getD "" = "" then PermitMachine.rstripSlash b.url ++ "/health"
  else b.healthUrl.getD ""

def probeBackend (b : Backend) : Probe → ProbeReport
  | .answered status => ⟨status < 400, some status, none, probeUrl b⟩
  | .failed cls => ⟨false, none, some cls, probeUrl b⟩

def gathered (c : Config) (outcome : ℕ → Probe) : List (Backend × Probe) :=
  -- `gather` answers in the order of its arguments
  c.backends.zipIdx.map (fun p => (p.1, outcome p.2))

def byBackend (probes : List (Backend × Probe)) : Dict String ProbeReport :=
  probes.foldl (fun d p => d.set p.1.name (probeBackend p.1 p.2)) Dict.empty

structure StatusEntry where
  id : String
  backend : String
  backendType : String
  kind : String
  url : String
  backendModel : String
  healthOk : Bool
  healthStatusCode : Option ℕ
  healthError : Option String
  probedUrl : String
  deriving DecidableEq

structure StatusList where
  object : String := "list"
  data : List StatusEntry

def statusOf (b : Backend) (probe : ProbeReport) : List StatusEntry :=
  b.models.items.map (fun p =>
    { id := p.1, backend := b.name, backendType := b.type, kind := b.kind, url := b.url,
      backendModel := p.2, healthOk := probe.healthOk, healthStatusCode := probe.statusCode,
      healthError := probe.error, probedUrl := probe.probedUrl })

def statusLoop (reports : Dict String ProbeReport) : List Backend → Exit (List StatusEntry)
  | [] => .returned []
  | b::bs =>
    match reports.get? b.name with
    | some probe => (statusLoop reports bs).bind (fun rest => .returned (statusOf b probe++rest))
    | none => .raised ⟨"KeyError", "'" ++ b.name ++ "'"⟩

def modelsLoadStatus (c : Config) (outcome : ℕ → Probe) : Exit StatusList :=
  (statusLoop (byBackend (gathered c outcome)) c.backends).bind (fun data =>
    .returned { data := data })

def StatusEntry.listing (e : StatusEntry) : String × String × String × String :=
  (e.id, e.backend, e.kind, e.backendModel)

def listing (e : ModelEntry) : String × String × String × String :=
  (e.id, e.ownedBy, e.kind, e.backendModel)

def StatusEntry.report (e : StatusEntry) : ProbeReport :=
  ⟨e.healthOk, e.healthStatusCode, e.healthError, e.probedUrl⟩

def ownReports (c : Config) (outcome : ℕ → Probe) : List ProbeReport :=
  (gathered c outcome).flatMap (fun p =>
    p.1.models.items.map (fun _ => probeBackend p.1 p.2))

structure Attributed (c : Config) (outcome : ℕ → Probe) (l : StatusList) : Prop where
  listed : l.data.map StatusEntry.listing = (listModels c).data.map listing
  own : l.data.map StatusEntry.report = ownReports c outcome

def LastNamed (name : String) (probes : List (Backend × Probe)) (q : Backend × Probe) : Prop :=
  ∃ before after, probes = before++q::after ∧ q.1.name = name ∧ ∀ r ∈ after, r.1.name ≠ name

/-- Every backend with an alias was probed at the same address and with the
same outcome as the last backend of its name. -/
def NamesakesAgree (c : Config) (outcome : ℕ → Probe) : Prop :=
  ∀ p ∈ gathered c outcome, p.1.models.items ≠ [] →
    ∀ q, LastNamed p.1.name (gathered c outcome) q → q.2 = p.2 ∧ probeUrl q.1 = probeUrl p.1

theorem gathered_backends (c : Config) (outcome : ℕ → Probe) :
    (gathered c outcome).map Prod.fst = c.backends := by
  simp [gathered, Function.comp_def]

theorem probeBackend_eq_iff (b b' : Backend) (x x' : Probe) :
    probeBackend b x = probeBackend b' x' ↔ x = x' ∧ probeUrl b = probeUrl b' := by
  cases x <;> cases x' <;> simp [probeBackend]
  intro h _
  rw [h]

theorem byBackend_get? (probes : List (Backend × Probe)) (name : String) :
    (byBackend probes).get? name = probes.reverse.findSome? (fun p =>
      if name = p.1.name then some (probeBackend p.1 p.2) else none) := by
  have hstep : ∀ (d : Dict String ProbeReport) (p : Backend × Probe),
      (d.set p.1.name (probeBackend p.1 p.2)).get? name =
        (if name = p.1.name then some (probeBackend p.1 p.2) else none).or (d.get? name) := by
    intro d p
    rw [Dict.get?_set]
    split <;> rfl
  rw [byBackend, Dict.get?_foldl _ name _ hstep]
  simp

/-- The dictionary answers for a probed name with its last backend's report. -/
theorem byBackend_last (probes : List (Backend × Probe)) (p : Backend × Probe)
    (hp : p ∈ probes) : ∃ q, LastNamed p.1.name probes q ∧
      (byBackend probes).get? p.1.name = some (probeBackend q.1 q.2) := by
  cases hg : (byBackend probes).get? p.1.name with
  | none =>
    rw [byBackend_get?, findSome?_reverse_eq_none] at hg
    have hn := hg p hp
    simp at hn
  | some report =>
    have hlast := hg
    rw [byBackend_get?, findSome?_reverse_eq_some] at hlast
    obtain ⟨before, q, after, hl, hq, hn⟩ := hlast
    simp only [Option.ite_none_right_eq_some, Option.some.injEq] at hq
    refine ⟨q, ⟨before, after, hl, hq.1.symm, ?_⟩, by rw [hq.2]⟩
    intro r hr he
    have hnone := hn r hr
    simp [he] at hnone

theorem lastNamed_unique (name : String) (probes : List (Backend × Probe))
    (q q' : Backend × Probe) (hq : LastNamed name probes q) (hq' : LastNamed name probes q') :
    q = q' := by
  have hfind : ∀ r, LastNamed name probes r →
      probes.reverse.findSome? (fun p => if name = p.1.name then some p else none) = some r := by
    rintro r ⟨before, after, hl, hr, hn⟩
    apply (findSome?_reverse_eq_some _ _ r).mpr
    refine ⟨before, r, after, hl, by simp [hr], ?_⟩
    intro p hp
    simp [(hn p hp).symm]
  have he := (hfind q hq).symm.trans (hfind q' hq')
  exact Option.some.inj he

theorem flatMap_const_eq_iff {α β γ : Type*} (k : α → List γ) (f g : α → β) (l : List α) :
    l.flatMap (fun p => (k p).map (fun _ => f p)) =
      l.flatMap (fun p => (k p).map (fun _ => g p)) ↔ ∀ p ∈ l, k p ≠ [] → f p = g p := by
  have hblock : ∀ p, (k p).map (fun _ => f p) = (k p).map (fun _ => g p) ↔
      (k p ≠ [] → f p = g p) := by
    intro p
    cases k p with
    | nil => simp
    | cons x xs =>
      constructor
      · intro h _
        exact (List.cons.inj h).1
      · intro h
        rw [h (List.cons_ne_nil x xs)]
  induction l with
  | nil => simp
  | cons p l ih =>
    rw [List.flatMap_cons, List.flatMap_cons, List.forall_mem_cons]
    constructor
    · intro h
      have hsplit := List.append_inj h (by simp)
      exact ⟨(hblock p).mp hsplit.1, ih.mp hsplit.2⟩
    · intro h
      rw [(hblock p).mpr h.1, ih.mpr h.2]

section Snapshot
variable (c : Config) (outcome : ℕ → Probe)

def shown (b : Backend) : ProbeReport :=
  ((byBackend (gathered c outcome)).get? b.name).getD (probeBackend b (outcome 0))

theorem shown_eq (p : Backend × Probe) (hp : p ∈ gathered c outcome) :
    (byBackend (gathered c outcome)).get? p.1.name = some (shown c outcome p.1) := by
  obtain ⟨q, -, hg⟩ := byBackend_last _ p hp
  rw [shown, hg]
  rfl

theorem statusLoop_returned (reports : Dict String ProbeReport) (seen : Backend → ProbeReport)
    (bs : List Backend) (hb : ∀ b ∈ bs, reports.get? b.name = some (seen b)) :
    statusLoop reports bs = .returned (bs.flatMap (fun b => statusOf b (seen b))) := by
  induction bs with
  | nil => rfl
  | cons b bs ih =>
    have hrest := ih (fun x hx => hb x (List.mem_cons_of_mem b hx))
    rw [statusLoop, hb b (List.mem_cons_self), hrest]
    rfl

/-- The lookup by name never fails. -/
theorem load_status_returned : modelsLoadStatus c outcome =
    .returned { data := c.backends.flatMap (fun b => statusOf b (shown c outcome b)) } := by
  have hb : ∀ b ∈ c.backends, (byBackend (gathered c outcome)).get? b.name =
      some (shown c outcome b) := by
    intro b hb
    rw [← gathered_backends c outcome] at hb
    obtain ⟨p, hp, rfl⟩ := List.mem_map.mp hb
    exact shown_eq c outcome p hp
  rw [modelsLoadStatus, statusLoop_returned _ _ _ hb]
  rfl

theorem status_listing : (c.backends.flatMap (fun b => statusOf b (shown c outcome b))).map
    StatusEntry.listing = (listModels c).data.map listing := by
  simp [listModels, entriesOf, statusOf, List.map_flatMap, Function.comp_def,
    StatusEntry.listing, listing]

theorem status_reports : (c.backends.flatMap (fun b => statusOf b (shown c outcome b))).map
    StatusEntry.report = (gathered c outcome).flatMap (fun p =>
      p.1.models.items.map (fun _ => shown c outcome p.1)) := by
  have hb : c.backends.flatMap (fun b => statusOf b (shown c outcome b)) =
      (gathered c outcome).flatMap (fun p => statusOf p.1 (shown c outcome p.1)) := by
    conv_lhs => rw [← gathered_backends c outcome]
    rw [List.flatMap_map]
  rw [hb, List.map_flatMap]
  simp [statusOf, Function.comp_def, StatusEntry.report]

theorem shown_own_iff (p q : Backend × Probe) (hp : p ∈ gathered c outcome)
    (hq : LastNamed p.1.name (gathered c outcome) q) :
    shown c outcome p.1 = probeBackend p.1 p.2 ↔ q.2 = p.2 ∧ probeUrl q.1 = probeUrl p.1 := by
  obtain ⟨q', hq', hg⟩ := byBackend_last _ p hp
  obtain rfl : q' = q := lastNamed_unique _ _ q' q hq' hq
  have he := shown_eq c outcome p hp
  rw [hg, Option.some.injEq] at he
  rw [← he, probeBackend_eq_iff]

theorem all_shown_own_iff : (∀ p ∈ gathered c outcome, p.1.models.items ≠ [] →
    shown c outcome p.1 = probeBackend p.1 p.2) ↔ NamesakesAgree c outcome := by
  constructor
  · intro h p hp hm q hq
    exact (shown_own_iff c outcome p q hp hq).mp (h p hp hm)
  · intro h p hp hm
    obtain ⟨q, hq, -⟩ := byBackend_last _ p hp
    exact (shown_own_iff c outcome p q hp hq).mpr (h p hp hm q hq)

/-- Each entry shows its own backend's probe exactly when namesakes agree. -/
theorem attributed_iff : ∃ l, modelsLoadStatus c outcome = .returned l ∧
    (Attributed c outcome l ↔ NamesakesAgree c outcome) := by
  refine ⟨_, load_status_returned c outcome, ?_⟩
  rw [← all_shown_own_iff, ← flatMap_const_eq_iff (fun p : Backend × Probe => p.1.models.items)]
  constructor
  · intro h
    exact (status_reports c outcome).symm.trans h.own
  · intro h
    exact ⟨status_listing c outcome, (status_reports c outcome).trans h⟩

end Snapshot

def deadFirst : ℕ → Probe
  | 0 => .failed "ConnectError"
  | _ => .answered 200

def namesakes : Config :=
  ⟨[firstChat, { secondChat with name := "gemma-cpu" }], Dict.empty⟩

theorem dead_shown_healthy : ¬ ∀ c outcome l, modelsLoadStatus c outcome = .returned l →
    Attributed c outcome l := by
  intro h
  have ha := (h namesakes deadFirst _ (load_status_returned _ _)).own
  exact absurd ha (by decide)

end LlRouter.LoadStatus
