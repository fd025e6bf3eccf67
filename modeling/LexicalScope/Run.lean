import LexicalScope.Parse.Request
import LexicalScope.Scope.Mode

/-! # Runs

A run is an outcome together with what happened on the way to it: the requests made to a parser and
the notes on finished stages, each in order. Whatever happened before a fault is kept.
-/

namespace LexicalScope

/-- What a finished stage of the analysis has to tell. -/
inductive Note where
  | resolved (mode : ScopeMode)
  | bound (scopes : Nat)
  | classified (free : Nat)
  | found (globals : Nat) (sourceName : String)

structure Run (α : Type) where
  requests : List ParseRequest
  notes : List Note
  outcome : Except Fault α

namespace Run

variable {α β : Type}

def ofExcept (outcome : Except Fault α) : Run α := ⟨[], [], outcome⟩

protected def pure (a : α) : Run α := ofExcept (.ok a)

def fail (e : Fault) : Run α := ofExcept (.error e)

def note (n : Note) : Run Unit := ⟨[], [n], .ok ()⟩

def ask (parser : Parser) (request : ParseRequest) : Run ParseAnswer :=
  ⟨[request], [], .ok (parser request)⟩

protected def bind (r : Run α) (f : α → Run β) : Run β :=
  match r.outcome with
  | .error e => ⟨r.requests, r.notes, .error e⟩
  | .ok a =>
    let s := f a
    ⟨r.requests ++ s.requests, r.notes ++ s.notes, s.outcome⟩

instance : Monad Run where
  pure := Run.pure
  bind := Run.bind

end Run

end LexicalScope
