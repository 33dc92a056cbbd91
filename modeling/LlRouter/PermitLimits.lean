import LlRouter.PermitLedger

/-!
# The concurrency limit and the return of permits

Both are consequences of the ledger. The limit of a name is in force exactly
as long as no more non-streaming exchanges raised than responses were dropped
unadvanced; all permits are back in a quiet state exactly in the opposite
case. A router in which neither event happens has both.
-/

set_option autoImplicit false

namespace LlRouter.PermitLimits
open AssocDict ControlExit LabelledRun
open LlRouter.BackendConfig LlRouter.JsonValue LlRouter.PermitMachine LlRouter.PermitLedger

theorem creator_limit (n : String) (es : List Event) (b : Backend) (hc : creator n es = some b) :
    b.name = n ∧ (limit (creator n es) : ℤ) = b.maxConcurrent := by
  obtain ⟨e, -, he⟩ := List.exists_of_findSome?_eq_some hc
  cases e with
  | task i e => simp [opens] at he
  | arrive a path body overrides =>
    simp only [opens] at he
    split at he
    · next h =>
      obtain rfl : a = b := Option.some.inj he
      have hm := Int.toNat_of_nonneg h.2
      exact ⟨h.1, by simp [hc, limit, hm]⟩
    · simp at he

theorem created_books (n : String) (es : List Event) (s : State) (b : Backend)
    (hr : run step init es = some s) (hc : creator n es = some b) :
    ∃ free, s.semaphores.get? n = some free ∧
      (free:ℤ)+holders n s+droppedUnstarted n es = b.maxConcurrent+syncRaised n es := by
  have hb := run_balanced n es s hr
  have hl := (creator_limit n es b hc).2
  have hs : (s.semaphores.get? n).isSome := by simp [hb.opened, hc]
  obtain ⟨free, hf⟩ := Option.isSome_iff_exists.mp hs
  have hv : freePermits n s = free := by simp [freePermits, hf]
  have hbooks := hb.books
  exact ⟨free, hf, by omega⟩

/-- The exact ledger of a name, in every reachable state. The limit is the one
the name's semaphore was created with. -/
theorem permit_ledger (n : String) (es : List Event) (s : State) (b : Backend)
    (hr : run step init es = some s) (hc : creator n es = some b) :
    ∃ free, s.semaphores.get? n = some free ∧
      (free:ℤ)+holders n s-b.maxConcurrent = (syncRaised n es:ℤ)-droppedUnstarted n es := by
  obtain ⟨free, hf, hbooks⟩ := created_books n es s b hr hc
  exact ⟨free, hf, by omega⟩

theorem quiet_holders (n : String) (s : State) (h : Quiet n s) : holders n s = 0 := by
  rw [holders, List.countP_eq_zero]
  intro t ht hh
  simp only [Task.holdsFor, Bool.decide_and, Bool.and_eq_true, decide_eq_true_eq] at hh
  have hf := h t ht hh.1
  cases hp : t.phase <;> simp_all [Phase.isFinished, Phase.holds]

def streamBody : Fields := [("stream", .bool true)]

def oneSlot : Backend :=
  { name := "gemma-26b", url := "http://localhost:8001", type := "gpu", maxConcurrent := 1 }

def completion : Event := .arrive oneSlot "/v1/completions" [("prompt", .str "hi")] none

def refused : Exchange := .failed ⟨"ConnectError", "All connection attempts failed"⟩

def refusedThenTwo : List Event :=
  [completion, .task 0 .acquired, .task 0 (.upstream refused), completion, completion,
    .task 1 .acquired, .task 2 .acquired]

theorem ledger_after_refusal : ∃ s, run step init refusedThenTwo = some s ∧
    ∃ free, s.semaphores.get? "gemma-26b" = some free ∧
      (free:ℤ)+holders "gemma-26b" s-1 =
        (syncRaised "gemma-26b" refusedThenTwo:ℤ)-droppedUnstarted "gemma-26b" refusedThenTwo :=
  ⟨_, rfl, permit_ledger "gemma-26b" refusedThenTwo _ oneSlot rfl rfl⟩

/-- With nothing pending, no permit is missing exactly when at most as many
responses were dropped unadvanced as exchanges released twice. -/
theorem permits_back_iff (n : String) (es : List Event) (s : State) (b : Backend)
    (hr : run step init es = some s) (hc : creator n es = some b) (hq : Quiet n s) :
    (∃ free : ℕ, s.semaphores.get? n = some free ∧ b.maxConcurrent ≤ free) ↔
      droppedUnstarted n es ≤ syncRaised n es := by
  obtain ⟨free, hf, hl⟩ := created_books n es s b hr hc
  have hh := quiet_holders n s hq
  constructor
  · rintro ⟨free', hf', hle⟩
    obtain rfl : free = free' := Option.some.inj (hf.symm.trans hf')
    omega
  · intro hle
    exact ⟨free, hf, by omega⟩

def droppedStream : List Event :=
  [.arrive oneSlot "/v1/completions" streamBody none, .task 0 .acquired, .task 0 .dropped]

theorem permits_back_after_drop : ∃ s, run step init droppedStream = some s ∧
    ((∃ free : ℕ, s.semaphores.get? "gemma-26b" = some free ∧ oneSlot.maxConcurrent ≤ free) ↔
      droppedUnstarted "gemma-26b" droppedStream ≤ syncRaised "gemma-26b" droppedStream) :=
  ⟨_, rfl, permits_back_iff "gemma-26b" droppedStream _ oneSlot rfl rfl (by decide)⟩

theorem permit_lost : ∃ s, run step init droppedStream = some s ∧
    creator "gemma-26b" droppedStream = some oneSlot ∧ Quiet "gemma-26b" s ∧
    ¬ ∃ free : ℕ, s.semaphores.get? "gemma-26b" = some free ∧ oneSlot.maxConcurrent ≤ free := by
  refine ⟨_, rfl, rfl, by decide, ?_⟩
  rintro ⟨free, hf, hle⟩
  obtain rfl : 0 = free := Option.some.inj hf
  exact absurd hle (by decide)

def oneMore (b : Backend) (s : State) : List Event :=
  [.arrive b "/v1/chat/completions" streamBody none, .task s.tasks.length .acquired]

theorem oneMore_run (b : Backend) (s : State) (free : ℕ)
    (hf : s.semaphores.get? b.name = some (free+1)) :
    ∃ t, run step s (oneMore b s) = some t ∧ t.semaphores.get? b.name = some free ∧
      holders b.name t = holders b.name s + 1 ∧
      Each step (fun s e => raisesNow b.name s e = false) s (oneMore b s) := by
  have ha : step s (.arrive b "/v1/chat/completions" streamBody none) =
      some ⟨s.semaphores, s.tasks++[⟨b, upstreamUrl b "/v1/chat/completions", streamBody,
        .acquiring⟩]⟩ := by
    simp [step, proxyRequest, getSemaphore, hf, RequestBody.completeBody, entryBody, entryPhase]
  have hw : wantsStream streamBody = true := rfl
  refine ⟨⟨s.semaphores.set b.name free, s.tasks++[⟨b, upstreamUrl b "/v1/chat/completions",
    streamBody, .handed⟩]⟩, ?_, by simp, ?_, ?_⟩
  · rw [oneMore, run_cons]
    refine ⟨_, ha, ?_⟩
    simp [run, step, taskMove, hf, taskStep, hw]
  · simp [holders, Task.holdsFor, Phase.holds]
  · refine ⟨rfl, fun t ht => ⟨?_, fun _ _ => trivial⟩⟩
    obtain rfl := Option.some.inj (ha.symm.trans ht)
    simp [raisesNow, callEvent, releasesTwice]

/-- Later load can take every free permit, without any further exception. -/
theorem all_permits_taken (b : Backend) (free : ℕ) (s : State)
    (hf : s.semaphores.get? b.name = some free) :
    ∃ fs t, run step s fs = some t ∧ holders b.name t = holders b.name s + free ∧
      Each step (fun s e => raisesNow b.name s e = false) s fs := by
  induction free generalizing s with
  | zero => exact ⟨[], s, rfl, rfl, trivial⟩
  | succ free ih =>
    obtain ⟨m, hm, hmf, hmh, hme⟩ := oneMore_run b s free hf
    obtain ⟨fs, t, ht, hth, hte⟩ := ih m hmf
    have hrun := (run_append step s t (oneMore b s) fs).mpr ⟨m, hm, ht⟩
    have heach := each_append step _ s m (oneMore b s) fs hm hme hte
    exact ⟨oneMore b s++fs, t, hrun, by omega, heach⟩

/-- The limit of a name holds, now and under any later load without exceptions
of this kind, exactly when at most as many exchanges released twice as
responses were dropped unadvanced. -/
theorem limit_in_force_iff (n : String) (es : List Event) (s : State) (b : Backend)
    (hr : run step init es = some s) (hc : creator n es = some b) :
    (∀ fs t, run step s fs = some t → Each step (fun s e => raisesNow n s e = false) s fs →
      (holders n t:ℤ) ≤ b.maxConcurrent) ↔ syncRaised n es ≤ droppedUnstarted n es := by
  obtain ⟨rfl, -⟩ := creator_limit n es b hc
  constructor
  · intro h
    obtain ⟨free, hf, hl⟩ := created_books b.name es s b hr hc
    obtain ⟨fs, t, ht, hth, hte⟩ := all_permits_taken b free s hf
    have hle := h fs t ht hte
    omega
  · intro hle fs t ht he
    have hrt : run step init (es++fs) = some t := (run_append step init t es fs).mpr ⟨s, hr, ht⟩
    have hct : creator b.name (es++fs) = some b := by
      have hsome : es.findSome? (opens b.name) = some b := hc
      simp [creator, List.findSome?_append, hsome]
    obtain ⟨free, -, hl⟩ := created_books b.name (es++fs) t b hrt hct
    have hy := tally_append step (raisesNow b.name) init s es fs hr
    have hz := tally_eq_zero step (raisesNow b.name) s fs he
    have hd := tally_append step (dropsNow b.name) init s es fs hr
    simp only [syncRaised, droppedUnstarted] at *
    omega

theorem limit_in_force_after_refusal : ∃ s, run step init refusedThenTwo = some s ∧
    ((∀ fs t, run step s fs = some t →
        Each step (fun s e => raisesNow "gemma-26b" s e = false) s fs →
        (holders "gemma-26b" t:ℤ) ≤ oneSlot.maxConcurrent) ↔
      syncRaised "gemma-26b" refusedThenTwo ≤ droppedUnstarted "gemma-26b" refusedThenTwo) :=
  ⟨_, rfl, limit_in_force_iff "gemma-26b" refusedThenTwo _ oneSlot rfl rfl⟩

theorem limit_exceeded : ∃ s, run step init refusedThenTwo = some s ∧
    creator "gemma-26b" refusedThenTwo = some oneSlot ∧ oneSlot.maxConcurrent = 1 ∧
    holders "gemma-26b" s = 2 :=
  ⟨_, rfl, rfl, rfl, by decide⟩

end LlRouter.PermitLimits
