import LlRouter.TransitionMachine

/-!
# The calls and the holder of the lock

What an event does to the calls is one of five things, whatever it does to the
units: a call arrives, gets the lock, gives up waiting, leaves the lock with
its outcome, or none of these.
-/

set_option autoImplicit false

namespace LlRouter.TransitionCalls
open ControlExit
open LlRouter.BackendConfig LlRouter.EnsureActive LlRouter.TransitionMachine

def lockTarget (s : State) : Event → Option Backend
  | .locked i => (s.calls[i]?).map Call.target
  | _ => none

theorem lockTarget_taken (c : Config) (s s' : State) (e : Event) (t : Backend)
    (hl : lockTarget s e = some t) (hs : step c s e = some s') :
    s.holder = none ∧ ∃ i, s' = enter s i t := by
  cases step_cases c s s' e hs with
  | locked i b hf hw =>
    obtain rfl : b = t := by simpa [lockTarget, hw] using hl
    exact ⟨hf, i, rfl⟩
  | _ => simp [lockTarget] at hl

theorem lockTarget_none (c : Config) (s s' : State) (e : Event) (hs : step c s e = some s')
    (hf : s.holder ≠ none ∨ s'.holder = none) : lockTarget s e = none := by
  cases hl : lockTarget s e with
  | none => rfl
  | some t =>
    obtain ⟨hnone, i, rfl⟩ := lockTarget_taken c s s' e t hl hs
    rcases hf with hheld | hfree
    · exact absurd hnone hheld
    · simp [enter] at hfree

inductive Turned (c : Config) (s : State) (e : Event) (s' : State) : Prop
  | arrived (b : Backend) (hb : b ∈ c.backends) (he : e = .called b) (hs : s' = arrive s b)
  | entered (i : ℕ) (b : Backend) (hf : s.holder = none)
      (hw : s.calls[i]? = some ⟨b, .waiting⟩) (hs : s' = enter s i b)
  | abandoned (i : ℕ) (b : Backend) (hw : s.calls[i]? = some ⟨b, .waiting⟩)
      (hs : s' = abandon s i b)
  | ended (h : Holder) (out : Exit Unit) (hh : s.holder = some h) (hf : s'.holder = none)
      (hc : s'.calls = s.calls.set h.index ⟨h.target, .ended out⟩)
  | kept (hc : s'.calls = s.calls)
      (hh : s'.holder = s.holder ∨ ∃ h pc, s.holder = some h ∧ s'.holder = some { h with pc := pc })

def Owned (s : State) : Prop :=
  ∀ h, s.holder = some h → s.calls[h.index]? = some ⟨h.target, .inside⟩

/-- Calls are for configured backends, and only those with a service wait. -/
def Declared (c : Config) (s : State) : Prop :=
  ∀ (i : ℕ) b st, s.calls[i]? = some ⟨b, st⟩ → b ∈ c.backends ∧ (st = .waiting → b.unit ≠ "")

section Calls
variable (c : Config) (s s' : State) (e : Event)

theorem turned_proceed (s₁ : State) (h : Holder) (n : Next) (hh : s.holder = some h)
    (hc : s₁.calls = s.calls) : Turned c s e (proceed s₁ h n) := by
  cases n with
  | await pc => exact .kept hc (Or.inr ⟨h, pc, hh, rfl⟩)
  | done out => exact .ended h out hh rfl (by simp only [proceed, hc])

theorem step_turned (hs : step c s e = some s') : Turned c s e s' := by
  cases step_cases c s s' e hs with
  | called b hb => exact .arrived b hb rfl rfl
  | locked i b hf hw => exact .entered i b hf hw rfl
  | gaveUp i b hw => exact .abandoned i b hw rfl
  | checked p h service n hh hc he hn => exact turned_proceed c s _ s h n hh rfl
  | commanded p after left h j n hh hj he hn =>
    exact turned_proceed c s _ (afterCommand s j after left) h n hh rfl
  | probed x h deadline n hh hp hn =>
    exact turned_proceed c s _ _ h n hh (recordProbe_calls s h x)
  | woke h deadline wake lastError n hh hp hw hn => exact turned_proceed c s _ s h n hh rfl
  | interrupted h hh hp => exact turned_proceed c s _ s h _ hh rfl
  | moved service after j hj hjs hm => exact .kept rfl (Or.inl rfl)
  | jobEnded k j hk => exact .kept rfl (Or.inl rfl)
  | ticked now hn => exact .kept rfl (Or.inl rfl)

theorem owned_step (ho : Owned s) (hs : step c s e = some s') : Owned s' := by
  intro h hh
  cases step_turned c s s' e hs with
  | arrived b hb he hs' =>
    subst hs'
    have hin := ho h hh
    simp only [arrive, List.getElem?_append_left (TaskPool.index_lt hin)]
    exact hin
  | entered i b hf hw hs' =>
    subst hs'
    cases hh
    simp [enter, TaskPool.index_lt hw]
  | abandoned i b hw hs' =>
    subst hs'
    have hin := ho h hh
    have hne : h.index ≠ i := by
      intro he
      rw [he, hw] at hin
      simp at hin
    simp only [abandon, TaskPool.getElem?_set_of_some hw, if_neg hne]
    exact hin
  | ended k out _ hf hc => simp [hf] at hh
  | kept hc hk =>
    rw [hc]
    rcases hk with hsame | ⟨k, pc, hold, hnew⟩
    · exact ho h (hsame ▸ hh)
    · obtain rfl : { k with pc := pc } = h := Option.some.inj (hnew.symm.trans hh)
      exact ho k hold

theorem owned_ended (h : Holder) (out : Exit Unit) (ho : Owned s) (hh : s.holder = some h) :
    (s.calls.set h.index ⟨h.target, .ended out⟩)[h.index]? = some ⟨h.target, .ended out⟩ := by
  rw [TaskPool.getElem?_set_of_some (ho h hh), if_pos rfl]

/-- A position is rewritten only to end a call or to let it in. -/
theorem set_cases (k i : ℕ) (t b : Backend) (st₀ st₁ st : Status)
    (hk : s.calls[k]? = some ⟨t, st₀⟩) (hi : (s.calls.set k ⟨t, st₁⟩)[i]? = some ⟨b, st⟩) :
    i = k ∧ b = t ∧ st = st₁ ∨ i ≠ k ∧ s.calls[i]? = some ⟨b, st⟩ := by
  rw [TaskPool.getElem?_set_of_some hk] at hi
  by_cases he : i = k
  · rw [if_pos he, Option.some.injEq, Call.mk.injEq] at hi
    exact Or.inl ⟨he, hi.1.symm, hi.2.symm⟩
  · rw [if_neg he] at hi
    exact Or.inr ⟨he, hi⟩

theorem call_origin (i : ℕ) (b : Backend) (st : Status) (ho : Owned s)
    (hs : step c s e = some s') (hc : s'.calls[i]? = some ⟨b, st⟩) :
    s.calls[i]? = some ⟨b, st⟩ ∨
    (e = .called b ∧ b ∈ c.backends ∧
      st = if b.unit = "" then .ended (.returned ()) else .waiting) ∨
    (s.calls[i]? = some ⟨b, .waiting⟩ ∧ (st = .inside ∨ st = .ended .cancelled)) ∨
    ∃ pc out, s.holder = some ⟨i, b, pc⟩ ∧ s'.holder = none ∧ st = .ended out := by
  cases step_turned c s s' e hs with
  | arrived t ht he hs' =>
    subst hs'
    simp only [arrive, TaskPool.getElem?_concat] at hc
    split at hc
    · rw [Option.some.injEq, Call.mk.injEq] at hc
      obtain ⟨rfl, rfl⟩ := hc
      exact Or.inr (Or.inl ⟨he, ht, rfl⟩)
    · exact Or.inl hc
  | entered k t hf hw hs' =>
    subst hs'
    rcases set_cases s k i t b .waiting .inside st hw hc with ⟨rfl, rfl, rfl⟩ | ⟨-, hold⟩
    · exact Or.inr (Or.inr (Or.inl ⟨hw, Or.inl rfl⟩))
    · exact Or.inl hold
  | abandoned k t hw hs' =>
    subst hs'
    rcases set_cases s k i t b .waiting _ st hw hc with ⟨rfl, rfl, rfl⟩ | ⟨-, hold⟩
    · exact Or.inr (Or.inr (Or.inl ⟨hw, Or.inr rfl⟩))
    · exact Or.inl hold
  | ended h out hh hf hcalls =>
    rw [hcalls] at hc
    rcases set_cases s h.index i h.target b .inside _ st (ho h hh) hc with
      ⟨rfl, rfl, rfl⟩ | ⟨-, hold⟩
    · exact Or.inr (Or.inr (Or.inr ⟨h.pc, out, hh, hf, rfl⟩))
    · exact Or.inl hold
  | kept hcalls hk => exact Or.inl (hcalls ▸ hc)

theorem declared_step (ho : Owned s) (hd : Declared c s) (hs : step c s e = some s') :
    Declared c s' := by
  intro i b st hc
  rcases call_origin c s s' e i b st ho hs hc with
    hold | ⟨-, hb, hst⟩ | ⟨hold, hst⟩ | ⟨pc, out, hh, -, hst⟩
  · exact hd i b st hold
  · constructor
    · exact hb
    · intro hw hu
      rw [hst, if_pos hu] at hw
      cases hw
  · constructor
    · exact (hd i b .waiting hold).1
    · intro hw
      rcases hst with hst | hst <;> simp [hst] at hw
  · exact ⟨(hd i b .inside (ho _ hh)).1, fun hw => by simp [hst] at hw⟩

/-- A call comes back by leaving the lock, or has no service. -/
theorem returned_step (i : ℕ) (t : Backend) (ho : Owned s) (hs : step c s e = some s')
    (hr : s'.calls[i]? = some ⟨t, .ended (.returned ())⟩) :
    s.calls[i]? = some ⟨t, .ended (.returned ())⟩ ∨ e = .called t ∧ t.unit = "" ∨
      ∃ pc, s.holder = some ⟨i, t, pc⟩ ∧ s'.holder = none := by
  rcases call_origin c s s' e i t _ ho hs hr with
    hold | ⟨he, -, hst⟩ | ⟨-, hst⟩ | ⟨pc, out, hh, hf, -⟩
  · exact Or.inl hold
  · by_cases hu : t.unit = ""
    · exact Or.inr (Or.inl ⟨he, hu⟩)
    · simp [hu] at hst
  · simp at hst
  · exact Or.inr (Or.inr ⟨pc, hh, hf⟩)

theorem raised_step (i : ℕ) (t : Backend) (x : PyException) (ho : Owned s)
    (hs : step c s e = some s') (hr : s'.calls[i]? = some ⟨t, .ended (.raised x)⟩) :
    s.calls[i]? = some ⟨t, .ended (.raised x)⟩ ∨
      ∃ pc, s.holder = some ⟨i, t, pc⟩ ∧ s'.holder = none := by
  rcases call_origin c s s' e i t _ ho hs hr with
    hold | ⟨-, -, hst⟩ | ⟨-, hst⟩ | ⟨pc, out, hh, hf, -⟩
  · exact Or.inl hold
  · split at hst <;> simp at hst
  · simp at hst
  · exact Or.inr ⟨pc, hh, hf⟩

theorem ended_stays (i : ℕ) (t : Backend) (out : Exit Unit) (ho : Owned s)
    (hc : s.calls[i]? = some ⟨t, .ended out⟩) (hs : step c s e = some s') :
    s'.calls[i]? = some ⟨t, .ended out⟩ := by
  have hset : ∀ (k : ℕ) b st x, s.calls[k]? = some ⟨b, st⟩ → (∀ o, st ≠ .ended o) →
      (s.calls.set k x)[i]? = some ⟨t, .ended out⟩ := by
    intro k b st x hk hst
    have hne : i ≠ k := by
      rintro rfl
      rw [hc, Option.some.injEq, Call.mk.injEq] at hk
      exact hst out hk.2.symm
    rw [TaskPool.getElem?_set_of_some hk, if_neg hne, hc]
  cases step_turned c s s' e hs with
  | arrived b hb he hs' =>
    subst hs'
    simpa only [arrive, List.getElem?_append_left (TaskPool.index_lt hc)] using hc
  | entered k b hf hw hs' =>
    subst hs'
    exact hset k b .waiting _ hw (by simp)
  | abandoned k b hw hs' =>
    subst hs'
    exact hset k b .waiting _ hw (by simp)
  | ended h o hh hf hcalls =>
    rw [hcalls]
    exact hset h.index h.target .inside _ (ho h hh) (by simp)
  | kept hcalls hk => rw [hcalls, hc]

def Alone (s : State) : Prop :=
  ∀ (i : ℕ) b, s.calls[i]? = some ⟨b, .inside⟩ → ∃ pc, s.holder = some ⟨i, b, pc⟩

theorem alone_step (ho : Owned s) (ha : Alone s) (hs : step c s e = some s') : Alone s' := by
  intro i b hi
  cases step_turned c s s' e hs with
  | arrived t ht he hs' =>
    subst hs'
    simp only [arrive, TaskPool.getElem?_concat] at hi
    split at hi
    · rw [Option.some.injEq, Call.mk.injEq] at hi
      split at hi <;> simp at hi
    · exact ha i b hi
  | entered k t hf hw hs' =>
    subst hs'
    rcases set_cases s k i t b .waiting .inside _ hw hi with ⟨rfl, rfl, -⟩ | ⟨-, hold⟩
    · exact ⟨_, rfl⟩
    · obtain ⟨pc, hpc⟩ := ha i b hold
      simp [hf] at hpc
  | abandoned k t hw hs' =>
    subst hs'
    rcases set_cases s k i t b .waiting _ _ hw hi with ⟨-, -, hst⟩ | ⟨-, hold⟩
    · cases hst
    · exact ha i b hold
  | ended h out hh hf hcalls =>
    rw [hcalls] at hi
    rcases set_cases s h.index i h.target b .inside _ _ (ho h hh) hi with
      ⟨-, -, hst⟩ | ⟨hne, hold⟩
    · cases hst
    · obtain ⟨pc, hpc⟩ := ha i b hold
      obtain rfl : h = ⟨i, b, pc⟩ := Option.some.inj (hh.symm.trans hpc)
      exact absurd rfl hne
  | kept hcalls hk =>
    rw [hcalls] at hi
    obtain ⟨pc, hpc⟩ := ha i b hi
    rcases hk with hsame | ⟨h, pc', hh, hnew⟩
    · exact ⟨pc, hsame ▸ hpc⟩
    · obtain rfl : h = ⟨i, b, pc⟩ := Option.some.inj (hh.symm.trans hpc)
      exact ⟨pc', hnew⟩

theorem calls_length (he : ∀ b, e ≠ .called b) (hs : step c s e = some s') :
    s'.calls.length = s.calls.length := by
  cases step_turned c s s' e hs with
  | arrived b hb hcall hs' => exact absurd hcall (he b)
  | entered i b hf hw hs' => rw [hs', enter, List.length_set]
  | abandoned i b hw hs' => rw [hs', abandon, List.length_set]
  | ended h out hh hf hc => rw [hc, List.length_set]
  | kept hc hk => rw [hc]

end Calls

end LlRouter.TransitionCalls
