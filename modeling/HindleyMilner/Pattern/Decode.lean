import HindleyMilner.Document.Fields
import HindleyMilner.Document.Value
import HindleyMilner.Pattern

namespace HindleyMilner.Pattern

open Document Document.Node

def ofScalar (n : Node) : Except DecodeError Pattern :=
  if n.text = "_" then .ok .wildcard else return .var (← n.identifier)

def ofNode (n : Node) : Except DecodeError Pattern :=
  match n with
  | .scalar .. => ofScalar n
  | n => do
    let (key, ⟨val, _⟩) ← n.onlyField "pattern"
    match key with
    | "wildcard" => return .wildcard
    | "var" => return .var (← val.identifier)
    | "int" => return .int (← val.literal "integer pattern" val.toInt64?)
    | "bool" => return .bool (← val.literal "boolean pattern" val.toBool?)
    | "nil" => return .nil
    | "cons" =>
      let fs ← val.fields "cons pattern"
      let ⟨head, _⟩ ← val.field fs "head" .consPatternKeys
      let ⟨tail, _⟩ ← val.field fs "tail" .consPatternKeys
      return .cons (← ofNode head) (← ofNode tail)
    | "tuple" =>
      let ps ← (← val.items "tuple pattern").mapM fun ⟨p, _⟩ => ofNode p
      return .tuple ps
    | _ => DecodeError.failAt n (.unknownPattern key)
termination_by sizeOf n
decreasing_by all_goals omega

end HindleyMilner.Pattern
