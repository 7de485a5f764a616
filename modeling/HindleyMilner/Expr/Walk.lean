import HindleyMilner.Expr

namespace HindleyMilner

structure UnknownKind where
  kind : String
deriving Inhabited, Repr

namespace UnknownKind

def message (u : UnknownKind) : String :=
  "unknown expression type: " ++ u.kind

end UnknownKind

namespace Expr

mutual
def subexprs : Expr → Except UnknownKind (List Expr)
  | .int n => return [.int n]
  | .bool b => return [.bool b]
  | .var x => return [.var x]
  | .nil => return [.nil]
  | .lam p e => return .lam p e :: (← e.subexprs)
  | .binop op l r => return .binop op l r :: (← l.subexprs) ++ (← r.subexprs)
  | .tuple es => return .tuple es :: (← subexprsAll es)
  | .cons h t => return .cons h t :: (← h.subexprs) ++ (← t.subexprs)
  | .cond c y n => return .cond c y n :: (← c.subexprs) ++ (← y.subexprs) ++ (← n.subexprs)
  | .app f a => return .app f a :: (← f.subexprs) ++ (← a.subexprs)
  | .letIn x v e => return .letIn x v e :: (← v.subexprs) ++ (← e.subexprs)
  | .letRec x v e => return .letRec x v e :: (← v.subexprs) ++ (← e.subexprs)
  | .cases v bs => return .cases v bs :: (← v.subexprs) ++ (← subexprsBranches bs)
  | .hole none => return []
  | .hole (some kind) => throw ⟨kind⟩
def subexprsAll : List Expr → Except UnknownKind (List Expr)
  | [] => return []
  | e :: es => return (← e.subexprs) ++ (← subexprsAll es)
def subexprsBranches : List (Pattern × Expr) → Except UnknownKind (List Expr)
  | [] => return []
  | (_, e) :: bs => return (← e.subexprs) ++ (← subexprsBranches bs)
end

end Expr

end HindleyMilner
