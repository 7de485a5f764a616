import HindleyMilner.Op
import HindleyMilner.Pattern

namespace HindleyMilner

inductive Expr where
  | int (value : Int64)
  | bool (value : Bool)
  | var (name : String)
  | nil
  | lam (param : Pattern) (body : Expr)
  -- Without an operator, the operation means nothing.
  | binop (op : Option Op) (left right : Expr)
  | tuple (elems : List Expr)
  | cons (head tail : Expr)
  | cond (test yes no : Expr)
  | app (fn arg : Expr)
  | letIn (name : String) (value body : Expr)
  | letRec (name : String) (value body : Expr)
  | cases (value : Expr) (branches : List (Pattern × Expr))
  -- A place that holds no expression: nothing at all, or a term of some other kind.
  | hole (kind : Option String)
deriving Inhabited, Repr

namespace Expr

def lams (params : List String) (body : Expr) : Expr :=
  params.foldr (fun x e => .lam (.var x) e) body

def apps (fn : Expr) (args : List Expr) : Expr :=
  args.foldl .app fn

def list (elems : List Expr) : Expr :=
  elems.foldr .cons .nil

def kind? : Expr → Option String
  | .int _ => "IntLit"
  | .bool _ => "BoolLit"
  | .var _ => "Var"
  | .nil => "Nil"
  | .lam _ _ => "Func"
  | .binop _ _ _ => "BinOp"
  | .tuple _ => "Tuple"
  | .cons _ _ => "Cons"
  | .cond _ _ _ => "If"
  | .app _ _ => "Call"
  | .letIn _ _ _ => "Let"
  | .letRec _ _ _ => "LetRec"
  | .cases _ _ => "Match"
  | .hole kind => kind

def isApp : Expr → Bool
  | .app _ _ => true
  | _ => false

def isList : Expr → Bool
  | .nil => true
  | .cons _ t => t.isList
  | _ => false

end Expr

end HindleyMilner
