import HindleyMilner.Expr

namespace HindleyMilner.Expr

-- `simple` asks for a text that can stand as an operand or an argument.
mutual
def layout (simple : Bool) : Expr → String
  | .int n => parenthesizeIf (simple && n < 0) (toString n.toInt)
  | .bool b => toString b
  | .var x => x
  | .nil => "[]"
  | .lam p e => parenthesizeIf simple ("fun " ++ p.layout true ++ " -> " ++ e.layout false)
  | .binop op l r =>
    parenthesizeIf simple
      (l.layout (!l.isApp) ++ " " ++ Op.renderOption op ++ " " ++ r.layout (!r.isApp))
  | .tuple [] => "()"
  | .tuple (e :: es) => "(" ++ e.layout false ++ layoutElems es ++ ")"
  | .cons h t =>
    if t.isList then "[" ++ h.layout false ++ layoutItems t ++ "]"
    else parenthesizeIf simple (h.layout true ++ " :: " ++ t.layout false)
  | .cond c y n =>
    parenthesizeIf simple
      ("if " ++ c.layout false ++ " then " ++ y.layout false ++ " else " ++ n.layout false)
  | .app f a => parenthesizeIf simple (f.layout (!f.isApp) ++ " " ++ a.layout true)
  | .letIn x v e =>
    parenthesizeIf simple ("let " ++ x ++ " = " ++ v.layout false ++ " in " ++ e.layout false)
  | .letRec x v e =>
    parenthesizeIf simple ("let rec " ++ x ++ " = " ++ v.layout false ++ " in " ++ e.layout false)
  | .cases v [] => parenthesizeIf simple ("match " ++ v.layout false ++ " with")
  | .cases v ((p, e) :: bs) =>
    parenthesizeIf simple
      ("match " ++ v.layout false ++ " with " ++ p.layout false ++ " -> " ++ e.layout false
        ++ layoutBranches bs)
  | .hole _ => "<INVALID-EXPR>"
def layoutElems : List Expr → String
  | [] => ""
  | e :: es => ", " ++ e.layout false ++ layoutElems es
def layoutItems : Expr → String
  | .cons h t => "; " ++ h.layout false ++ layoutItems t
  | _ => ""
def layoutBranches : List (Pattern × Expr) → String
  | [] => ""
  | (p, e) :: bs => " | " ++ p.layout false ++ " -> " ++ e.layout false ++ layoutBranches bs
end

def render (e : Expr) : String :=
  e.layout false

end HindleyMilner.Expr
