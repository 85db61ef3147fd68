import FlowTypes.Evaluation.Resolve

/-!
# Sessions

A session evaluates one expression after the other against a registry and remembers what it
found: the types of whole expressions evaluated without bindings, and the values of definitions.
Expressions with bindings in scope are never remembered, but use and add to the values of
definitions, which no binding can reach. A step that fails keeps what it found before it failed.
-/

namespace FlowTypes

/-- What an evaluation has found so far. -/
structure Session where
  registry : Registry
  exprs : List (Expr × Ty)
  memo : Memo

namespace Session

/-- A session that remembers results. -/
def remembering (r : Registry) : Session := ⟨r, [], .empty⟩

/-- A session that remembers nothing. -/
def forgetful (r : Registry) : Session := ⟨r, [], .off⟩

/-- How many results are remembered. -/
def size (s : Session) : Nat := s.exprs.length + s.memo.names.length

/-- The remembered type of an expression. -/
def find? (s : Session) (e : Expr) : Option Ty :=
  (s.exprs.find? fun entry => entry.1 = e).map (·.2)

/-- Computes the type of an expression. -/
def compute (s : Session) (e : Expr) (b : Bindings) : Except EvalError Ty × Session :=
  let (result, memo) := (e.meaning s.registry (s.registry.resolve []) b).run s.memo
  (result, { s with memo := memo })

/-- Is this an expression that is not worth remembering? -/
def isConcrete : Expr → Bool
  | .type _ => true
  | _ => false

/-- The type of an expression without bindings in scope. -/
def evaluate (s : Session) (e : Expr) : Except EvalError Ty × Session :=
  match s.find? e with
  | some t => (.ok t, s)
  | none =>
    match s.compute e [] with
    | (.ok t, s') =>
      if s.memo.keeping && !isConcrete e then (.ok t, { s' with exprs := (e, t) :: s'.exprs })
      else (.ok t, s')
    | (.error err, s') => (.error err, s')

/-- The type of an expression with some bindings in scope, of which the last is the innermost. -/
def evaluateWith (s : Session) (e : Expr) (bindings : List (String × Ty)) :
    Except EvalError Ty × Session :=
  s.compute e bindings.reverse

end Session

end FlowTypes
