import LlRouter.LabelledRun
import LlRouter.PermitMachine

/-!
# The status the client gets

A plain request is answered with the decoded and re-encoded upstream body, a
streamed one with a response whose head is fixed before the upstream is asked.
The status of an upstream response that arrives completely is followed through
both paths.
-/

set_option autoImplicit false

namespace LlRouter.UpstreamVerdict
open ControlExit LabelledRun
open LlRouter.JsonValue LlRouter.RequestBody LlRouter.PermitMachine

inductive UpstreamBody where
  | json (content : Json)
  | undecodable (e : PyException)
  | unencodable (e : PyException)

structure Response where
  status : ℕ
  body : UpstreamBody

/-- The awaited POST, with an unpaired surrogate among the reasons why a
decoded body cannot be encoded again. -/
def Response.exchange (r : Response) : Exchange :=
  match r.body with
  | .json content => .response r.status (.ok content)
  | .undecodable e => .response r.status (.error e)
  | .unencodable e => .failed e

/-- The web framework's own choices: the status of a streaming response that is
given none, and the answer to an exception no handler catches. -/
structure Server where
  streamed : ℕ
  failed : ℕ

def documented : Server := ⟨200, 500⟩

def answeredStatus (server : Server) : Exit JsonResponse → Option ℕ
  | .returned r => some r.status
  | .raised _ => some server.failed
  | .cancelled => none

def clientStatus (server : Server) : Phase → Option ℕ
  | .handed => some server.streamed
  | .streaming => some server.streamed
  | .finished (.streamed _) => some server.streamed
  | .finished (.answered out) => answeredStatus server out
  | .finished (.refused _) => some server.failed
  | _ => none

def callStep (body : Fields) (s : Phase × ℕ) (e : TaskEvent) : Option (Phase × ℕ) :=
  taskStep body s.1 s.2 e

def arrival (body : Fields) (r : Response) (chunks : ℕ) : List TaskEvent :=
  if wantsStream body then
    [.acquired, .advanced]++List.replicate chunks .chunk++[.ended .exhausted]
  else [.acquired, .upstream r.exchange]

def UpstreamBody.relayed : UpstreamBody → Bool
  | .json content => renderable content
  | _ => false

/-- The upstream's status happens to be the framework's choice, or a plain
request gets a body that can be passed on. -/
def VerdictKept (server : Server) (body : Fields) (r : Response) : Prop :=
  if wantsStream body then r.status = server.streamed
  else r.body.relayed = true ∨ r.status = server.failed

theorem jsonResponse_relayed (r : Response) (h : r.body.relayed = true) :
    ∃ content, jsonResponse r.exchange = .returned ⟨r.status, content⟩ := by
  obtain ⟨status, body⟩ := r
  cases body with
  | json content =>
    have hc : renderable content = true := h
    exact ⟨content, by simp [Response.exchange, jsonResponse, hc]⟩
  | undecodable e => simp [UpstreamBody.relayed] at h
  | unencodable e => simp [UpstreamBody.relayed] at h

theorem jsonResponse_refused (r : Response) (h : r.body.relayed = false) :
    ∃ e, jsonResponse r.exchange = .raised e := by
  obtain ⟨status, body⟩ := r
  cases body with
  | json content =>
    have hc : renderable content = false := h
    exact ⟨⟨"ValueError", "Out of range float values are not JSON compliant"⟩,
      by simp [Response.exchange, jsonResponse, hc]⟩
  | undecodable e => exact ⟨e, rfl⟩
  | unencodable e => exact ⟨e, rfl⟩

theorem plain_run (body : Fields) (r : Response) (value : ℕ) (h : wantsStream body = false) :
    ∃ value', run (callStep body) (.acquiring, value+1) [.acquired, .upstream r.exchange] =
      some (.finished (.answered (jsonResponse r.exchange)), value') := by
  exact ⟨_, by simp only [run, callStep, taskStep, h, Bool.false_eq_true, if_false,
    Option.bind_some]; rfl⟩

theorem chunks_run (body : Fields) (chunks value : ℕ) :
    run (callStep body) (.streaming, value) (List.replicate chunks .chunk) =
      some (.streaming, value) := by
  induction chunks with
  | zero => rfl
  | succ chunks ih =>
    rw [List.replicate_succ]
    exact (run_cons _ _ _ _ _).mpr ⟨(.streaming, value), rfl, ih⟩

/-- Nothing of the upstream's response reaches the head of a stream. -/
theorem streamed_run (body : Fields) (chunks value : ℕ) (h : wantsStream body = true) :
    ∃ value', run (callStep body) (.acquiring, value+1)
        ([.acquired, .advanced]++List.replicate chunks .chunk++[.ended .exhausted]) =
      some (.finished (.streamed (.returned ())), value') := by
  have hhead : run (callStep body) (.acquiring, value+1) [.acquired, .advanced] =
      some (.streaming, value) := by
    simp [run, callStep, taskStep, h]
  have hchunks := (run_append _ _ _ _ _).mpr ⟨_, hhead, chunks_run body chunks value⟩
  exact ⟨_, (run_snoc _ _ _ _ _).mpr ⟨_, hchunks, rfl⟩⟩

/-- Which upstream verdicts reach the client. -/
theorem verdict_kept_iff (server : Server) (body : Fields) (r : Response) (chunks value : ℕ) :
    ∃ phase value', run (callStep body) (.acquiring, value+1) (arrival body r chunks) =
        some (phase, value') ∧
      (clientStatus server phase = some r.status ↔ VerdictKept server body r) := by
  unfold arrival VerdictKept
  cases hw : wantsStream body with
  | true =>
    obtain ⟨value', hr⟩ := streamed_run body chunks value hw
    refine ⟨_, value', hr, ?_⟩
    simp [clientStatus, eq_comm]
  | false =>
    obtain ⟨value', hr⟩ := plain_run body r value hw
    refine ⟨_, value', hr, ?_⟩
    cases hb : r.body.relayed with
    | true =>
      obtain ⟨content, hj⟩ := jsonResponse_relayed r hb
      simp [clientStatus, hj, answeredStatus]
    | false =>
      obtain ⟨e, hj⟩ := jsonResponse_refused r hb
      simp [clientStatus, hj, answeredStatus, eq_comm]

def streamBody : Fields := [("model", .str "gemma-4-31B.gguf"), ("stream", .bool true)]

def unavailable : Response := ⟨503, .json (.obj [("error", .str "Loading model")])⟩

theorem unavailable_streamed_as_success :
    ¬ ∀ body r chunks value phase value', run (callStep body) (.acquiring, value+1)
        (arrival body r chunks) = some (phase, value') →
      clientStatus documented phase = some r.status := by
  intro h
  have hs := h streamBody unavailable 1 0 _ _ rfl
  simp [clientStatus, documented, unavailable] at hs

end LlRouter.UpstreamVerdict
