import HindleyMilner.Expr
import HindleyMilner.Subst.Compose
import HindleyMilner.Supply

namespace HindleyMilner

inductive InferError where
  | unify (e : UnifyError)
  | undefinedVar (name : String)
  | unknownOperator
  | emptyExpr
  | unhandledExpr (kind : Option String)
  | unhandledPattern (kind : Option String)
  | unhandledStmt (kind : Option String)
deriving Inhabited, Repr

namespace InferError

def message : InferError → String
  | .unify e => e.message
  | .undefinedVar x => "Variable " ++ x ++ " not found"
  | .unknownOperator => "Unknown operator " ++ Op.renderOption none
  | .emptyExpr => "Empty expression"
  | .unhandledExpr kind => "Unhandled expression (" ++ kind.getD "nil" ++ ")"
  | .unhandledPattern kind => "Unhandled pattern (" ++ kind.getD "nil" ++ ")"
  | .unhandledStmt kind => "Unhandled statement (" ++ kind.getD "nil" ++ ")"

end InferError

structure Failure where
  error : InferError
  -- The innermost expression at fault, if there is one.
  culprit : Option Expr
deriving Inhabited, Repr

-- The supply is kept when a computation fails.
abbrev Infer (ε α : Type) := EStateM ε Supply α

namespace Infer

def mapError {ε ε' α : Type} (f : ε → ε') (m : Infer ε α) : Infer ε' α := fun n =>
  match m n with
  | .ok a n => .ok a n
  | .error e n => .error (f e) n

def constraint {α : Type} : Except UnifyError α → Infer InferError α
  | .ok a => pure a
  | .error e => throw (.unify e)

def blaming {α : Type} (e : Expr) (m : Infer InferError α) : Infer Failure α :=
  m.mapError fun err => ⟨err, some e⟩

def require {α : Type} (e : Expr) (r : Except UnifyError α) : Infer Failure α :=
  blaming e (constraint r)

def freshTy {ε : Type} : Infer ε Ty :=
  return .var (← Supply.fresh)

end Infer

end HindleyMilner
