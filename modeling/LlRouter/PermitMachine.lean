import LlRouter.RequestBody
import LlRouter.TaskPool

/-!
# Proxied requests and their permits

One task per call of `proxy_request`. A task runs from one await to the next
in a single event, so events interleave exactly where the event loop can
switch. What the upstream, the client and the server layer do is chosen by
the events; the permits taken and given back are the code's.
-/

set_option autoImplicit false

namespace LlRouter.PermitMachine
open AssocDict ControlExit
open LlRouter.JsonValue LlRouter.BackendConfig LlRouter.RequestBody

inductive Exchange where
  | response (status : ℕ) (json : Except PyException Json)
  | failed (e : PyException)
  | cancelled

structure JsonResponse where
  status : ℕ
  content : Json

mutual

/-- `JSONResponse` renders with `allow_nan=False`. -/
def renderable : Json → Bool
  | .float r => r ≠ "nan" ∧ r ≠ "inf" ∧ r ≠ "-inf"
  | .arr items => renderableItems items
  | .obj fields => renderableFields fields
  | _ => true

def renderableItems : List Json → Bool
  | [] => true
  | j::rest => renderable j && renderableItems rest

def renderableFields : List (String × Json) → Bool
  | [] => true
  | (_, j)::rest => renderable j && renderableFields rest

end

def jsonResponse : Exchange → Exit JsonResponse
  | .response status (.ok content) =>
    if renderable content then .returned ⟨status, content⟩
    else .raised ⟨"ValueError", "Out of range float values are not JSON compliant"⟩
  | .response _ (.error e) => .raised e
  | .failed e => .raised e
  | .cancelled => .cancelled

def release (value : ℕ) : ℕ := value + 1

def proxySync (x : Exchange) : ℕ → Exit JsonResponse × ℕ :=
  tryFinally (fun value => (jsonResponse x, value)) release

def proxyRequestSync (x : Exchange) : ℕ → Exit JsonResponse × ℕ :=
  tryReraise (proxySync x) release

inductive StreamEnd where
  | exhausted
  | failed (e : PyException)
  | cancelled
  | closed

def StreamEnd.exit : StreamEnd → Exit Unit
  | .exhausted => .returned ()
  | .failed e => .raised e
  -- closing raises `GeneratorExit` inside, which like cancellation is no `Exception`
  | _ => .cancelled

def generateEnd (x : StreamEnd) : ℕ → Exit Unit × ℕ :=
  tryFinally (fun value => (x.exit, value)) release

inductive Outcome where
  | answered (out : Exit JsonResponse)
  | streamed (out : Exit Unit)
  | dropped
  | refused (e : PyException)

inductive Phase where
  | acquiring
  | posting
  | handed
  | streaming
  | finished (out : Outcome)

inductive TaskEvent where
  | acquired
  | acquireCancelled
  | upstream (x : Exchange)
  | advanced
  | chunk
  | ended (x : StreamEnd)
  | dropped

def wantsStream (body : Fields) : Bool := ((body.lookup "stream").getD .null).truthy

def taskStep (body : Fields) : Phase → ℕ → TaskEvent → Option (Phase × ℕ)
  | .acquiring, value+1, .acquired =>
    some (if wantsStream body then .handed else .posting, value)
  | .acquiring, value, .acquireCancelled => some (.finished (.answered .cancelled), value)
  | .posting, value, .upstream x =>
    some (.finished (.answered (proxyRequestSync x value).1), (proxyRequestSync x value).2)
  | .handed, value, .advanced => some (.streaming, value)
  -- a generator that was never advanced runs none of its code, `finally` included
  | .handed, value, .dropped => some (.finished .dropped, value)
  | .streaming, value, .chunk => some (.streaming, value)
  | .streaming, value, .ended x =>
    some (.finished (.streamed (generateEnd x value).1), (generateEnd x value).2)
  | _, _, _ => none

structure Task where
  backend : Backend
  url : String
  body : Fields
  phase : Phase

structure State where
  semaphores : Dict String ℕ
  tasks : List Task

def init : State := ⟨Dict.empty, []⟩

/-- `_get_semaphore`: keyed by the backend's name, sized by whichever backend of
that name is asked for first. -/
def getSemaphore (sems : Dict String ℕ) (b : Backend) : Exit (Dict String ℕ) :=
  if (sems.get? b.name).isSome then .returned sems
  else if b.maxConcurrent < 0 then
    .raised ⟨"ValueError", "Semaphore initial value must be >= 0"⟩
  else .returned (sems.set b.name b.maxConcurrent.toNat)

def rstripSlash (s : String) : String :=
  String.ofList ((s.toList.reverse.dropWhile (fun ch => ch == '/')).reverse)

def lstripSlash (s : String) : String :=
  String.ofList (s.toList.dropWhile (fun ch => ch == '/'))

def upstreamUrl (b : Backend) (path : String) : String :=
  rstripSlash b.url ++ "/" ++ lstripSlash path

def entryPhase : Exit Fields → Phase
  | .returned _ => .acquiring
  | .raised e => .finished (.refused e)
  | .cancelled => .finished (.answered .cancelled)

def entryBody (body : Fields) : Exit Fields → Fields
  | .returned merged => merged
  | _ => body

def proxyRequest (s : State) (b : Backend) (path : String) (body : Fields)
    (overrides : Option Json) : State :=
  let merged := completeBody body overrides
  match getSemaphore s.semaphores b with
  | .returned sems =>
    ⟨sems, s.tasks++[⟨b, upstreamUrl b path, entryBody body merged, entryPhase merged⟩]⟩
  | .raised e => ⟨s.semaphores, s.tasks++[⟨b, "", body, .finished (.refused e)⟩]⟩
  | .cancelled => s

inductive Event where
  | arrive (b : Backend) (path : String) (body : Fields) (overrides : Option Json)
  | task (i : ℕ) (e : TaskEvent)

def taskMove (s : State) (i : ℕ) (t : Task) (e : TaskEvent) : Option State :=
  (s.semaphores.get? t.backend.name).bind (fun value =>
    (taskStep t.body t.phase value e).map (fun r =>
      ⟨s.semaphores.set t.backend.name r.2, s.tasks.set i { t with phase := r.1 }⟩))

def step (s : State) : Event → Option State
  | .arrive b path body overrides => some (proxyRequest s b path body overrides)
  | .task i e => (s.tasks[i]?).bind (fun t => taskMove s i t e)

def Phase.holds : Phase → Bool
  | .posting => true
  | .handed => true
  | .streaming => true
  | _ => false

def Phase.isFinished : Phase → Bool
  | .finished _ => true
  | _ => false

def Task.holdsFor (n : String) (t : Task) : Bool := t.backend.name = n ∧ t.phase.holds

def holders (n : String) (s : State) : ℕ := s.tasks.countP (Task.holdsFor n)

def Quiet (n : String) (s : State) : Prop :=
  ∀ t ∈ s.tasks, t.backend.name = n → t.phase.isFinished

instance (n : String) (s : State) : Decidable (Quiet n s) :=
  inferInstanceAs (Decidable (∀ t ∈ s.tasks, t.backend.name = n → t.phase.isFinished))

theorem step_task (s s' : State) (i : ℕ) (e : TaskEvent) :
    step s (.task i e) = some s' ↔ ∃ t value p value', s.tasks[i]? = some t ∧
      s.semaphores.get? t.backend.name = some value ∧
      taskStep t.body t.phase value e = some (p, value') ∧
      s' = ⟨s.semaphores.set t.backend.name value', s.tasks.set i { t with phase := p }⟩ := by
  simp only [step, taskMove, Option.bind_eq_some_iff, Option.map_eq_some_iff, Prod.exists]
  constructor
  · rintro ⟨t, ht, value, hv, p, value', hs, rfl⟩
    exact ⟨t, value, p, value', ht, hv, hs, rfl⟩
  · rintro ⟨t, value, p, value', ht, hv, hs, rfl⟩
    exact ⟨t, ht, value, hv, p, value', hs, rfl⟩

/-- A new call touches its own name's semaphore only, and holds nothing. -/
theorem proxyRequest_cases (s : State) (b : Backend) (path : String) (body : Fields)
    (overrides : Option Json) : ∃ sems t, proxyRequest s b path body overrides =
        ⟨sems, s.tasks++[t]⟩ ∧ t.backend = b ∧ t.phase.holds = false ∧
      (sems = s.semaphores ∧ ((s.semaphores.get? b.name).isSome ∨ b.maxConcurrent < 0) ∨
        s.semaphores.get? b.name = none ∧ 0 ≤ b.maxConcurrent ∧
          sems = s.semaphores.set b.name b.maxConcurrent.toNat) := by
  have he : (entryPhase (completeBody body overrides)).holds = false := by
    cases completeBody body overrides <;> rfl
  unfold proxyRequest getSemaphore
  by_cases hs : (s.semaphores.get? b.name).isSome
  · rw [if_pos hs]
    exact ⟨_, _, rfl, rfl, he, Or.inl ⟨rfl, Or.inl hs⟩⟩
  · by_cases hm : b.maxConcurrent < 0
    · rw [if_neg hs, if_pos hm]
      exact ⟨_, _, rfl, rfl, rfl, Or.inl ⟨rfl, Or.inr hm⟩⟩
    · rw [if_neg hs, if_neg hm]
      exact ⟨_, _, rfl, rfl, he, Or.inr ⟨by simpa using hs, by omega, rfl⟩⟩

end LlRouter.PermitMachine
