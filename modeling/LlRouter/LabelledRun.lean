import Mathlib.Data.List.Induction

/-!
# Runs of a partial step function

`step s e` is the state after the event `e`, or nothing when `e` cannot
happen in `s`. A run is a list of events, each taken from the state the
earlier ones left.
-/

set_option autoImplicit false

namespace LabelledRun
variable {σ ε β : Type*} (step : σ → ε → Option σ)

def run : σ → List ε → Option σ
  | s, [] => some s
  | s, e::es => (step s e).bind (fun t => run t es)

@[simp] theorem run_nil (s : σ) : run step s [] = some s := rfl

theorem run_cons (s t : σ) (e : ε) (es : List ε) :
    run step s (e::es) = some t ↔ ∃ m, step s e = some m ∧ run step m es = some t := by
  simp [run, Option.bind_eq_some_iff]

@[simp] theorem run_one (s : σ) (e : ε) : run step s [e] = step s e := by
  simp [run]

theorem run_append (s t : σ) (es fs : List ε) :
    run step s (es++fs) = some t ↔ ∃ m, run step s es = some m ∧ run step m fs = some t := by
  induction es generalizing s with
  | nil => simp [run]
  | cons e es ih =>
    simp only [List.cons_append, run_cons, ih]
    constructor
    · rintro ⟨m, hm, n, hn, ht⟩
      exact ⟨n, ⟨m, hm, hn⟩, ht⟩
    · rintro ⟨n, ⟨m, hm, hn⟩, ht⟩
      exact ⟨m, hm, n, hn, ht⟩

theorem run_snoc (s t : σ) (es : List ε) (e : ε) :
    run step s (es++[e]) = some t ↔ ∃ m, run step s es = some m ∧ step m e = some t := by
  simp [run_append]

def Each (A : σ → ε → Prop) : σ → List ε → Prop
  | _, [] => True
  | s, e::es => A s e ∧ ∀ t, step s e = some t → Each A t es

instance eachDecidable (A : σ → ε → Prop) [∀ s e, Decidable (A s e)] :
    ∀ (s : σ) (es : List ε), Decidable (Each step A s es)
  | _, [] => .isTrue trivial
  | s, e::es =>
    have : Decidable (∀ t, step s e = some t → Each step A t es) :=
      match step s e with
      | none => .isTrue (by simp)
      | some t =>
        have := eachDecidable A t es
        decidable_of_iff (Each step A t es) (by simp)
    inferInstanceAs (Decidable (A s e ∧ ∀ t, step s e = some t → Each step A t es))

theorem each_snoc (A : σ → ε → Prop) (s m : σ) (es : List ε) (e : ε)
    (hr : run step s es = some m) :
    Each step A s (es++[e]) ↔ Each step A s es ∧ A m e := by
  induction es generalizing s with
  | nil =>
    obtain rfl : s = m := Option.some.inj hr
    simp [Each]
  | cons a es ih =>
    obtain ⟨n, hn, hr⟩ := (run_cons step s m a es).mp hr
    simp only [List.cons_append, Each, hn, Option.some.injEq, forall_eq', ih n hr, and_assoc]

theorem each_append (A : σ → ε → Prop) (s m : σ) (es fs : List ε)
    (hr : run step s es = some m) (he : Each step A s es) (hf : Each step A m fs) :
    Each step A s (es++fs) := by
  induction es generalizing s with
  | nil =>
    obtain rfl : s = m := Option.some.inj hr
    exact hf
  | cons e es ih =>
    obtain ⟨n, hn, hr⟩ := (run_cons step s m e es).mp hr
    constructor
    · exact he.1
    · intro t ht
      obtain rfl : n = t := Option.some.inj (hn.symm.trans ht)
      exact ih n hr (he.2 n hn)

theorem each_of_mem (A : ε → Prop) (s : σ) (es : List ε) (h : ∀ e ∈ es, A e) :
    Each step (fun _ e => A e) s es := by
  induction es generalizing s with
  | nil => trivial
  | cons e es ih =>
    exact ⟨h e (by simp), fun t _ => ih t (fun a ha => h a (by simp [ha]))⟩

/-- A property of states that every admitted step keeps holds at the end of
every admitted run. -/
theorem invariant_run (A : σ → ε → Prop) (P : σ → Prop)
    (hs : ∀ s e t, A s e → P s → step s e = some t → P t)
    (s t : σ) (es : List ε) (ha : Each step A s es) (hp : P s)
    (hr : run step s es = some t) : P t := by
  induction es generalizing s with
  | nil =>
    obtain rfl : s = t := Option.some.inj hr
    exact hp
  | cons e es ih =>
    obtain ⟨m, hm, hr⟩ := (run_cons step s t e es).mp hr
    exact ih m (ha.2 m hm) (hs s e m ha.1 hp hm) hr

theorem history_run (A : σ → ε → Prop) (s : σ) (P : List ε → σ → Prop)
    (h0 : P [] s)
    (hs : ∀ es e m t, run step s es = some m → A m e → P es m → step m e = some t →
      P (es++[e]) t)
    (t : σ) (es : List ε) (ha : Each step A s es) (hr : run step s es = some t) : P es t := by
  induction es using List.reverseRecOn generalizing t with
  | nil =>
    obtain rfl : s = t := Option.some.inj hr
    exact h0
  | append_singleton es e ih =>
    obtain ⟨m, hm, ht⟩ := (run_snoc step s t es e).mp hr
    obtain ⟨has, hae⟩ := (each_snoc step A s m es e hm).mp ha
    exact hs es e m t hm hae (ih m has hm) ht

/-- What such a property and the admission of an event imply about the event
holds of every event of the run. -/
theorem each_history (A B : σ → ε → Prop) (s : σ) (P : List ε → σ → Prop)
    (h0 : P [] s)
    (hs : ∀ es e m t, run step s es = some m → A m e → P es m → step m e = some t →
      P (es++[e]) t)
    (hb : ∀ es e m, A m e → P es m → B m e)
    (t : σ) (es : List ε) (ha : Each step A s es) (hr : run step s es = some t) :
    Each step B s es := by
  induction es using List.reverseRecOn generalizing t with
  | nil => trivial
  | append_singleton es e ih =>
    obtain ⟨m, hm, -⟩ := (run_snoc step s t es e).mp hr
    obtain ⟨has, hae⟩ := (each_snoc step A s m es e hm).mp ha
    have hp : P es m := history_run step A s P h0 hs m es has hm
    exact (each_snoc step B s m es e hm).mpr ⟨ih m has hm, hb es e m hae hp⟩

def collect (f : σ → ε → Option β) : σ → List ε → List β
  | _, [] => []
  | s, e::es => (f s e).toList ++ ((step s e).map (fun t => collect f t es)).getD []

theorem collect_append (f : σ → ε → Option β) (s m : σ) (es fs : List ε)
    (hr : run step s es = some m) :
    collect step f s (es++fs) = collect step f s es ++ collect step f m fs := by
  induction es generalizing s with
  | nil =>
    obtain rfl : s = m := Option.some.inj hr
    rfl
  | cons a es ih =>
    obtain ⟨n, hn, hr⟩ := (run_cons step s m a es).mp hr
    simp [collect, hn, ih n hr]

theorem collect_snoc (f : σ → ε → Option β) (s m : σ) (es : List ε) (e : ε)
    (hr : run step s es = some m) :
    collect step f s (es++[e]) = collect step f s es ++ (f m e).toList := by
  rw [collect_append step f s m es [e] hr]
  cases h : step m e <;> simp [collect, h]

def tally (p : σ → ε → Bool) (s : σ) (es : List ε) : ℕ :=
  (collect step (fun s e => if p s e then some () else none) s es).length

theorem tally_append (p : σ → ε → Bool) (s m : σ) (es fs : List ε)
    (hr : run step s es = some m) :
    tally step p s (es++fs) = tally step p s es + tally step p m fs := by
  unfold tally
  rw [collect_append step _ s m es fs hr, List.length_append]

theorem tally_snoc (p : σ → ε → Bool) (s m : σ) (es : List ε) (e : ε)
    (hr : run step s es = some m) :
    tally step p s (es++[e]) = tally step p s es + if p m e then 1 else 0 := by
  unfold tally
  rw [collect_snoc step _ s m es e hr, List.length_append]
  by_cases h : p m e <;> simp [h]

theorem tally_eq_zero (p : σ → ε → Bool) (s : σ) (es : List ε)
    (h : Each step (fun s e => p s e = false) s es) : tally step p s es = 0 := by
  induction es generalizing s with
  | nil => rfl
  | cons e es ih =>
    have he : (if p s e then some () else none : Option Unit) = none := by simp [h.1]
    unfold tally at *
    simp only [collect, he, Option.toList_none, List.nil_append]
    cases hs : step s e with
    | none => rfl
    | some t => exact ih t (h.2 t hs)

theorem tally_le_add (p q r : σ → ε → Bool)
    (h : ∀ s e, p s e = true → q s e = true ∨ r s e = true) (s : σ) (es : List ε) :
    tally step p s es ≤ tally step q s es + tally step r s es := by
  unfold tally
  induction es generalizing s with
  | nil => simp [collect]
  | cons e es ih =>
    have hone : (if p s e then some () else none : Option Unit).toList.length ≤
        (if q s e then some () else none : Option Unit).toList.length +
          (if r s e then some () else none : Option Unit).toList.length := by
      have he := h s e
      by_cases hp : p s e
      · rcases he hp with hq | hr
        · simp [hp, hq]
        · simp [hp, hr]
      · simp [hp]
    simp only [collect, List.length_append]
    cases hs : step s e with
    | none => simpa using hone
    | some t =>
      have htail := ih t
      simp only [Option.map_some, Option.getD_some]
      omega

/-- Where every event that counts is paid for, out of a stock or out of what
later states are allowed on top, the events that count are bounded. -/
theorem tally_paid (A : σ → ε → Prop) (P : σ → Prop) (p : σ → ε → Bool) (stock allowed : σ → ℕ)
    (hs : ∀ s e t, A s e → P s → step s e = some t → P t ∧
      (if p s e then 1 else 0) + stock t + allowed s ≤ stock s + allowed t)
    (s t : σ) (es : List ε) (ha : Each step A s es) (hp : P s) (hr : run step s es = some t) :
    tally step p s es + stock t + allowed s ≤ stock s + allowed t := by
  have hboth := history_run step A s
    (fun es t => P t ∧ tally step p s es + stock t + allowed s ≤ stock s + allowed t)
    ⟨hp, by simp [tally, collect]⟩
    (fun es e m n hm hA hpaid hn => by
      obtain ⟨hstep, hcost⟩ := hs m e n hA hpaid.1 hn
      rw [tally_snoc step p s m es e hm]
      exact ⟨hstep, by omega⟩)
    t es ha hr
  exact hboth.2

/-- A run of one machine read as a run of another: each step is matched by the
steps of its image. -/
theorem simulated_run {σ' ε' : Type*} (step' : σ' → ε' → Option σ')
    (f : σ → σ') (g : σ → ε → Option ε')
    (hs : ∀ s e t, step s e = some t → run step' (f s) (g s e).toList = some (f t))
    (s t : σ) (es : List ε) (hr : run step s es = some t) :
    run step' (f s) (collect step g s es) = some (f t) := by
  induction es generalizing s with
  | nil =>
    obtain rfl : s = t := Option.some.inj hr
    rfl
  | cons e es ih =>
    obtain ⟨m, hm, hr⟩ := (run_cons step s t e es).mp hr
    simp only [collect, hm, Option.map_some, Option.getD_some]
    exact (run_append step' _ _ _ _).mpr ⟨f m, hs s e m hm, ih m hr⟩

theorem tally_simulated {σ' ε' : Type*} (step' : σ' → ε' → Option σ')
    (f : σ → σ') (g : σ → ε → Option ε') (p : σ' → ε' → Bool)
    (hs : ∀ s e t, step s e = some t → run step' (f s) (g s e).toList = some (f t))
    (s t : σ) (es : List ε) (hr : run step s es = some t) :
    tally step' p (f s) (collect step g s es) =
      tally step (fun s e => (g s e).any (p (f s))) s es := by
  induction es generalizing s with
  | nil => rfl
  | cons e es ih =>
    obtain ⟨m, hm, hr⟩ := (run_cons step s t e es).mp hr
    have hfirst := hs s e m hm
    have htail := ih m hr
    have hhead : tally step (fun s e => (g s e).any (p (f s))) s (e::es) =
        (if (g s e).any (p (f s)) then 1 else 0) +
          tally step (fun s e => (g s e).any (p (f s))) m es := by
      unfold tally
      simp only [collect, hm, Option.map_some, Option.getD_some, List.length_append]
      by_cases h : (g s e).any (p (f s)) <;> simp [h]
    rw [hhead, ← htail]
    simp only [collect, hm, Option.map_some, Option.getD_some]
    rw [tally_append step' p (f s) (f m) _ _ hfirst]
    cases hg : g s e with
    | none => simp [tally, collect]
    | some e' =>
      congr 1
      unfold tally
      simp only [Option.toList_some, collect, Option.any_some]
      cases step' (f s) e' <;> by_cases h : p (f s) e' <;> simp [h]

end LabelledRun
