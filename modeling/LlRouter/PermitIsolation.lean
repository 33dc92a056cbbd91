import LlRouter.LabelledRun
import LlRouter.PermitMachine
import LlRouter.PermitLimits

/-!
# Backends of different names share no permits

What the requests for one name go through is a run of its own: leaving out all
other requests leaves its semaphore and its tasks exactly as they are.
-/

set_option autoImplicit false

namespace LlRouter.PermitIsolation
open AssocDict ControlExit LabelledRun
open LlRouter.JsonValue LlRouter.BackendConfig LlRouter.RequestBody LlRouter.PermitMachine

def named (n : String) (t : Task) : Bool := t.backend.name = n

def alone (n : String) : Option ℕ → Dict String ℕ
  | some value => Dict.empty.set n value
  | none => Dict.empty

def only (n : String) (s : State) : State :=
  ⟨alone n (s.semaphores.get? n), s.tasks.filter (named n)⟩

/-- An event of the name, with its task's position among the name's. -/
def ownEvent (n : String) (s : State) : Event → Option Event
  | .arrive b path body overrides =>
    if b.name = n then some (.arrive b path body overrides) else none
  | .task i e => (s.tasks[i]?).bind (fun t =>
      if t.backend.name = n then some (.task (TaskPool.rank (named n) s.tasks i) e) else none)

section Alone
variable (n : String)

@[simp] theorem alone_get? (value : Option ℕ) : (alone n value).get? n = value := by
  cases value <;> simp [alone]

@[simp] theorem alone_set (value : Option ℕ) (w : ℕ) :
    (alone n value).set n w = alone n (some w) := by
  cases value <;> simp [alone, Dict.set, Dict.empty, assign]

theorem getSemaphore_alone (sems : Dict String ℕ) (b : Backend) :
    getSemaphore (alone b.name (sems.get? b.name)) b =
      (getSemaphore sems b).bind (fun sems' => .returned (alone b.name (sems'.get? b.name))) := by
  unfold getSemaphore
  rw [alone_get?]
  split
  · rfl
  · split
    · rfl
    · simp

end Alone

section Steps
variable (n : String) (s s' : State)

theorem only_arrive_own (b : Backend) (path : String) (body : Fields) (overrides : Option Json)
    (hn : b.name = n) : proxyRequest (only n s) b path body overrides =
      only n (proxyRequest s b path body overrides) := by
  subst hn
  unfold proxyRequest
  simp only [only, getSemaphore_alone]
  cases getSemaphore s.semaphores b with
  | returned sems => simp [named]
  | raised e => simp [named]
  | cancelled => rfl

theorem only_arrive_other (b : Backend) (path : String) (body : Fields)
    (overrides : Option Json) (hn : b.name ≠ n) :
    only n (proxyRequest s b path body overrides) = only n s := by
  obtain ⟨sems, t, hp, hb, -, hsems⟩ := proxyRequest_cases s b path body overrides
  have hname : named n t = false := by simp [named, hb, hn]
  have hget : sems.get? n = s.semaphores.get? n := by
    rcases hsems with ⟨rfl, -⟩ | ⟨-, -, rfl⟩
    · rfl
    · simp [Ne.symm hn]
  rw [hp]
  simp [only, hget, List.filter_append, hname]

theorem only_step (e : Event) (hs : step s e = some s') :
    run step (only n s) (ownEvent n s e).toList = some (only n s') := by
  cases e with
  | arrive b path body overrides =>
    obtain rfl : proxyRequest s b path body overrides = s' := Option.some.inj hs
    by_cases hn : b.name = n
    · simp only [ownEvent, if_pos hn, Option.toList_some, run_one, step]
      rw [only_arrive_own n s b path body overrides hn]
    · simp only [ownEvent, if_neg hn, Option.toList_none, run_nil]
      rw [only_arrive_other n s b path body overrides hn]
  | task i e =>
    obtain ⟨t, value, p, value', ht, hv, hstep, rfl⟩ := (step_task s s' i e).mp hs
    by_cases hn : t.backend.name = n
    · have hname : named n t = true := by simp [named, hn]
      have hname' : named n { t with phase := p } = true := by simp [named, hn]
      simp only [ownEvent, ht, Option.bind_some, if_pos hn, Option.toList_some, run_one]
      apply (step_task _ _ _ _).mpr
      refine ⟨t, value, p, value', TaskPool.filter_rank (named n) ht hname, ?_, hstep, ?_⟩
      · rw [hn] at hv ⊢
        simp [only, hv]
      · have htasks := TaskPool.filter_set_rank (named n) ht { t with phase := p } hname hname'
        simp only [only, hn, htasks, Dict.get?_set, if_true, alone_set]
    · have hname : named n t = false := by simp [named, hn]
      have hname' : named n { t with phase := p } = false := by simp [named, hn]
      have htasks := TaskPool.filter_set_of_not (named n) ht { t with phase := p } hname hname'
      simp only [ownEvent, ht, Option.bind_some, if_neg hn, Option.toList_none, run_nil, only,
        htasks, Dict.get?_set, if_neg (Ne.symm hn)]

end Steps

def embedder : Backend :=
  { name := "bge-m3", url := "http://localhost:8004", type := "cpu", maxConcurrent := 4 }

def twoNames : List Event :=
  [PermitLimits.completion, .arrive embedder "/v1/embeddings" [("input", .str "hi")] none,
    .task 1 .acquired, .task 0 .acquired, .task 1 (.upstream (.response 200 (.ok (.obj [])))),
    .task 0 (.upstream PermitLimits.refused)]

end LlRouter.PermitIsolation
