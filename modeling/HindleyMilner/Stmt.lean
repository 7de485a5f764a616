import HindleyMilner.Expr.Printer
import HindleyMilner.Expr.Walk

namespace HindleyMilner

inductive Stmt where
  | decl (name : String) (value : Expr)
  | declRec (name : String) (value : Expr)
  | expr (e : Expr)
  -- A place that holds no statement: nothing at all, or a term of some other kind.
  | hole (kind : Option String)
deriving Inhabited, Repr

namespace Stmt

def kind? : Stmt → Option String
  | .decl _ _ => "Decl"
  | .declRec _ _ => "DeclRec"
  | .expr _ => "ExprStmt"
  | .hole kind => kind

def render : Stmt → String
  | .decl x e => "let " ++ x ++ " = " ++ e.render
  | .declRec x e => "let rec " ++ x ++ " = " ++ e.render
  | .expr e => e.render
  | .hole _ => "<INVALID-STMT>"

def subexprs : Stmt → Except UnknownKind (List Expr)
  | .decl _ e | .declRec _ e | .expr e => e.subexprs
  | .hole _ => return []

end Stmt

abbrev Program := List Stmt

namespace Program

def exprCount : Program → Except UnknownKind Nat
  | [] => return 0
  | s :: p => return (← s.subexprs).length + (← exprCount p)

end Program

end HindleyMilner
