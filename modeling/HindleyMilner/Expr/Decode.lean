import HindleyMilner.Expr
import HindleyMilner.Pattern.Decode

namespace HindleyMilner.Expr

open Document Document.Node

def opOfNode (n : Node) : Except DecodeError Op :=
  match Op.parse? n.text with
  | some op => .ok op
  | none => DecodeError.failAt n (.unknownOperator n.text)

def opField (n : Node) (fs : List (String × n.Part)) : Except DecodeError Op :=
  match fs.lookup "op" with
  | some ⟨op@(.scalar ..), _⟩ => opOfNode op
  | _ => DecodeError.failAt n (.missingPart "binary operation" "op")

def ofNode (n : Node) : Except DecodeError Expr := do
  let (key, ⟨val, _⟩) ← n.onlyField "expression"
  match key with
  | "int" => return .int (← val.literal "integer literal" val.toInt64?)
  | "bool" => return .bool (← val.literal "boolean literal" val.toBool?)
  | "var" => return .var (← val.identifier)
  | "nil" => return .nil
  | "fun" =>
    let fs ← val.fields "function"
    let param ← Pattern.ofNode (← val.field fs "param" (.missingPart "function" "param"))
    let ⟨body, _⟩ ← val.field fs "body" (.missingKey "body")
    return .lam param (← ofNode body)
  | "binop" =>
    let fs ← val.fields "binary operation"
    let op ← opField val fs
    let ⟨left, _⟩ ← val.field fs "left" (.missingKey "left")
    let left ← ofNode left
    let ⟨right, _⟩ ← val.field fs "right" (.missingKey "right")
    return .binop op left (← ofNode right)
  | "tuple" =>
    let es ← (← val.items "tuple").mapM fun ⟨e, _⟩ => ofNode e
    return .tuple es
  | "list" =>
    let es ← (← val.items "list").mapM fun ⟨e, _⟩ => ofNode e
    return list es
  | "cons" =>
    let fs ← val.fields "cons"
    let ⟨head, _⟩ ← val.field fs "head" (.missingKey "head")
    let head ← ofNode head
    let ⟨tail, _⟩ ← val.field fs "tail" (.missingKey "tail")
    return .cons head (← ofNode tail)
  | "if" =>
    let fs ← val.fields "conditional"
    let ⟨test, _⟩ ← val.field fs "cond" (.missingKey "cond")
    let test ← ofNode test
    let ⟨yes, _⟩ ← val.field fs "then" (.missingKey "then")
    let yes ← ofNode yes
    let ⟨no, _⟩ ← val.field fs "else" (.missingKey "else")
    return .cond test yes (← ofNode no)
  | "call" =>
    let es ← (← val.items "call").mapM fun ⟨e, _⟩ => ofNode e
    match es with
    | fn :: arg :: args => return fn.apps (arg :: args)
    | _ => DecodeError.failAt val .callTooShort
  | "let" | "letrec" =>
    let fs ← val.fields key
    let name ← (← val.field fs "var" (.missingPart key "var")).1.identifier
    let ⟨value, _⟩ ← val.field fs "value" (.missingKey "value")
    let value ← ofNode value
    let ⟨body, _⟩ ← val.field fs "body" (.missingKey "body")
    let body ← ofNode body
    return if key = "let" then .letIn name value body else .letRec name value body
  | "match" =>
    let fs ← val.fields "match"
    let ⟨value, _⟩ ← val.field fs "value" (.missingKey "value")
    let value ← ofNode value
    match fs.lookup "cases" with
    | none => return .cases value []
    | some ⟨branches, _⟩ =>
      let branches ← (← branches.items "match cases").mapM fun ⟨branch, _⟩ => do
        let fs ← branch.fields "match case"
        let pattern ← branch.field fs "pattern" (.missingPart "match case" "pattern")
        let pattern ← Pattern.ofNode pattern
        let ⟨body, _⟩ ← branch.field fs "body" (.missingKey "body")
        return (pattern, ← ofNode body)
      return .cases value branches
  | _ => DecodeError.failAt n (.unknownExpr key)
termination_by sizeOf n
decreasing_by all_goals omega

end HindleyMilner.Expr
