import Mathlib.Logic.Function.Basic

/-!
# How a block of statements ends

A block returns, raises an exception, or is cancelled. Cancellation is not an
exception: `except Exception` lets it pass, `finally` does not.
-/

set_option autoImplicit false

namespace ControlExit

structure PyException where
  cls : String
  text : String
  deriving DecidableEq, Repr

inductive Exit (α : Type*) where
  | returned (a : α)
  | raised (e : PyException)
  | cancelled
  deriving DecidableEq, Repr

namespace Exit
variable {α β : Type*}

def bind (x : Exit α) (f : α → Exit β) : Exit β :=
  match x with
  | .returned a => f a
  | .raised e => .raised e
  | .cancelled => .cancelled

def isRaised : Exit α → Bool
  | .raised _ => true
  | _ => false

@[simp] theorem bind_returned (a : α) (f : α → Exit β) : (returned a).bind f = f a := rfl

@[simp] theorem bind_raised (e : PyException) (f : α → Exit β) :
    (raised e : Exit α).bind f = raised e := rfl

@[simp] theorem bind_cancelled (f : α → Exit β) :
    (cancelled : Exit α).bind f = cancelled := rfl

end Exit

section Blocks
variable {σ α : Type*}

def tryFinally (body : σ → Exit α × σ) (cleanup : σ → σ) (s : σ) : Exit α × σ :=
  ((body s).1, cleanup (body s).2)

/-- `try: body except Exception: handler; raise`. -/
def tryReraise (body : σ → Exit α × σ) (handler : σ → σ) (s : σ) : Exit α × σ :=
  ((body s).1, if (body s).1.isRaised then handler (body s).2 else (body s).2)

@[simp] theorem tryFinally_exit (body : σ → Exit α × σ) (cleanup : σ → σ) (s : σ) :
    (tryFinally body cleanup s).1 = (body s).1 := rfl

@[simp] theorem tryFinally_state (body : σ → Exit α × σ) (cleanup : σ → σ) (s : σ) :
    (tryFinally body cleanup s).2 = cleanup (body s).2 := rfl

theorem tryReraise_state (body : σ → Exit α × σ) (handler : σ → σ) (s : σ) :
    (tryReraise body handler s).2 =
      if (body s).1.isRaised then handler (body s).2 else (body s).2 := rfl

end Blocks
end ControlExit
