import HindleyMilner.Expr.Decode
import HindleyMilner.Stmt

namespace HindleyMilner

open Document Document.Node

namespace Stmt

def declared (n : Node) (fs : List (String × n.Part)) : Except DecodeError (Node × Bool) :=
  match fs.lookup "let", fs.lookup "letrec" with
  | some _, some _ => DecodeError.failAt n .letAndLetrec
  | some x, none => .ok (x, false)
  | none, some x => .ok (x, true)
  | none, none => DecodeError.failAt n .noStatementKey

def ofNode (n : Node) : Except DecodeError Stmt := do
  let fs ← n.fields "statement"
  match fs.lookup "expr" with
  | some e =>
    if fs.length = 1 then return .expr (← Expr.ofNode e)
    else DecodeError.failAt n .exprWithOtherKeys
  | none =>
    let (name, isRec) ← declared n fs
    let name ← name.identifier
    if fs.length = 2 then
      let value ← Expr.ofNode (← n.field fs "value" (.missingKey "value"))
      return if isRec then .declRec name value else .decl name value
    else DecodeError.failAt n (.declarationKeys name)

end Stmt

namespace Program

def ofNode : Node → Except DecodeError Program
  | .sequence _ stmts => stmts.mapM Stmt.ofNode
  | n => DecodeError.failAt n .programNotSequence

def ofDocument : Option Node → Except DecodeError Program
  | some n => ofNode n
  | none => .ok []

inductive ReadError where
  | malformed (e : SyntaxError)
  | decode (e : DecodeError)
deriving Inhabited

namespace ReadError

def message : ReadError → String
  | .malformed e => e.message
  | .decode e => e.message

end ReadError

def parse (s : String) : Except ReadError Program := do
  let doc ← (Node.parse s).mapError .malformed
  (ofDocument doc).mapError .decode

end Program

end HindleyMilner
