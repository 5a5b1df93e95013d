import Sift.Compile.Event
import Sift.Parse.Error

/-!
# Runs

A run reports events and ends in a result or in the first error. Steps in sequence report one after
the other, and nothing follows an error.
-/

namespace Sift

/-- What no schema accepts. -/
inductive Unsupported where
  | wildcard
  | path
  | call
  /-- A parenthesized filter elsewhere than under `:` on a relational column, or another use of such
  a column on the left of a comparison. -/
  | relation
deriving DecidableEq

def Unsupported.describe : Unsupported → String
  | wildcard => "wildcard"
  | path => "nested field"
  | call => "callable"
  | relation => "nested filter"

inductive CompileError where
  /-- No column of the name may be used here. -/
  | unknownField (name : String)
  /-- No operation of the name takes these operands. -/
  | unknownOperation (name : String)
  | unsupported (what : Unsupported)
  | typeMismatch (operation : String) (typeName : String)
  /-- The callback of an operation, or of a relational column, failed for the given reason. -/
  | callback (name : String) (reason : String)
deriving DecidableEq

def CompileError.message : CompileError → String
  | unknownField name => .join ["unknown field '", name, "'"]
  | unknownOperation name => .join ["unknown operator '", name, "'"]
  | unsupported what => what.describe ++ " is not supported"
  | typeMismatch operation typeName =>
    .join ["no '", operation, "' signature accepts a ", typeName, " value"]
  | callback name reason => .join ["operator '", name, "' failed: ", reason]

/-- Why a text gives no output. -/
inductive QueryError where
  | parse (e : ParseError)
  | compile (e : CompileError)
deriving DecidableEq

def QueryError.message : QueryError → String
  | parse e => e.message
  | compile e => e.message

structure Run (ε α : Type) where
  events : List Event
  result : Except ε α

namespace Run

variable {ε α β : Type}

protected def pure (a : α) : Run ε α := ⟨[], .ok a⟩

protected def bind (x : Run ε α) (f : α → Run ε β) : Run ε β :=
  match x.result with
  | .ok a => ⟨x.events ++ (f a).events, (f a).result⟩
  | .error e => ⟨x.events, .error e⟩

instance : Monad (Run ε) where
  pure := Run.pure
  bind := Run.bind

def fail (e : ε) : Run ε α := ⟨[], .error e⟩

@[simp] theorem fail_bind (e : ε) (f : α → Run ε β) : (fail e >>= f) = fail e := rfl

theorem bind_eq (x : Run ε α) (f : α → Run ε β) : x >>= f =
    match x.result with
    | .ok a => ⟨x.events ++ (f a).events, (f a).result⟩
    | .error e => ⟨x.events, .error e⟩ := rfl

instance : LawfulMonad (Run ε) :=
  LawfulMonad.mk' (Run ε)
    (fun x => by
      show (x >>= fun a => pure (id a)) = x
      obtain ⟨events, result⟩ := x
      cases result <;> simp [bind_eq, pure, Run.pure])
    (fun a f => by simp [bind_eq, pure, Run.pure])
    (fun x f g => by
      obtain ⟨events, result⟩ := x
      cases result with
      | error e => rfl
      | ok a => simp only [bind_eq]; split <;> simp_all)

def report (e : Event) : Run ε Unit := ⟨[e], .ok ()⟩

def mapError {ε' : Type} (f : ε → ε') (x : Run ε α) : Run ε' α :=
  ⟨x.events, x.result.mapError f⟩

end Run

end Sift
