import HindleyMilner.Document.Node
import HindleyMilner.Text.Quoted

namespace HindleyMilner

inductive DecodeCause where
  | programNotSequence
  | notMapping (what : String)
  | notSequence (what : String)
  | notSingleKey (what : String)
  | duplicateKey (key what : String)
  | missingKey (key : String)
  | missingPart (what key : String)
  | exprWithOtherKeys
  | letAndLetrec
  | noStatementKey
  | declarationKeys (name : String)
  | invalidIdentifier
  | invalidLiteral (what text : String)
  | unknownOperator (text : String)
  | unknownExpr (key : String)
  | unknownPattern (key : String)
  | callTooShort
  | consPatternKeys
deriving Inhabited, Repr, DecidableEq

namespace DecodeCause

def article (noun : String) : String :=
  if noun.toList.head?.any (· ∈ "aeiou".toList) then "an" else "a"

def message : DecodeCause → String
  | .programNotSequence => "program must be a sequence of statements"
  | .notMapping what => what ++ " must be a mapping"
  | .notSequence what => what ++ " must be a sequence"
  | .notSingleKey what => what ++ " must be a mapping with a single key"
  | .duplicateKey key what => "duplicate key " ++ Text.quote key ++ " in " ++ what
  | .missingKey key => "missing " ++ key ++ " key"
  | .missingPart what key => what ++ " is missing " ++ article key ++ " " ++ key ++ " key"
  | .exprWithOtherKeys => "expression statement must only contain an expr key"
  | .letAndLetrec => "declaration cannot contain both let and letrec keys"
  | .noStatementKey => "statement must contain a let, letrec, or expr key"
  | .declarationKeys name => "declaration of " ++ name ++ " must contain exactly one value key"
  | .invalidIdentifier => "invalid identifier"
  | .invalidLiteral what text => "invalid " ++ what ++ " " ++ Text.quote text
  | .unknownOperator text => "unknown operator " ++ Text.quote text
  | .unknownExpr key => "unknown expression " ++ Text.quote key
  | .unknownPattern key => "unknown pattern " ++ Text.quote key
  | .callTooShort => "call must contain a function and at least one argument"
  | .consPatternKeys => "cons pattern must contain head and tail keys"

end DecodeCause

structure DecodeError where
  mark : Document.Mark
  cause : DecodeCause
deriving Inhabited, Repr, DecidableEq

namespace DecodeError

def failAt {α : Type} (n : Document.Node) (cause : DecodeCause) : Except DecodeError α :=
  .error ⟨n.mark, cause⟩

def message (e : DecodeError) : String :=
  "line " ++ toString e.mark.line ++ ", column " ++ toString e.mark.column ++ ": "
    ++ e.cause.message

end DecodeError

end HindleyMilner
