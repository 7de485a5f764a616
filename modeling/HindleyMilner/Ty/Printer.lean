import HindleyMilner.Ty

namespace HindleyMilner

def parenthesizeIf (b : Bool) (s : String) : String :=
  if b then "(" ++ s ++ ")" else s

namespace TyVar

def render (x : TyVar) : String :=
  "'_" ++ toString x.toInt

-- The name of the `i`-th quantified variable: a letter, and after the first round of the alphabet
-- also the number of the round.
def quantifiedName (i : Nat) : String :=
  let letter := Char.ofNat ('a'.toNat + i % 26)
  if i < 26 then "'" ++ letter.toString else "'" ++ letter.toString ++ toString (i / 26)

end TyVar

namespace VarSet

def render (vs : VarSet) : String :=
  "\x7b" ++ ", ".intercalate (vs.members.map TyVar.render) ++ "\x7d"

end VarSet

namespace Ty

-- `simple` asks for a text in which an arrow has parentheses around it.
mutual
def layout (name : TyVar → String) (simple : Bool) : Ty → String
  | .const n => n
  | .var x => name x
  | .arrow a r => parenthesizeIf simple (a.layout name true ++ " -> " ++ r.layout name false)
  | .list e => parenthesizeIf e.isTuple (e.layout name !e.isTuple) ++ " list"
  | .tuple [] => "()"
  | .tuple (e :: es) => e.layout name true ++ layoutRest name es
  | .hole _ => "<INVALID-TYPE>"
def layoutRest (name : TyVar → String) : List Ty → String
  | [] => ""
  | e :: es => " * " ++ e.layout name true ++ layoutRest name es
end

def render (t : Ty) : String :=
  t.layout TyVar.render false

-- The text of a type in which the variables of `quantified` have names by order of appearance.
def renderQuantified (quantified : VarSet) (t : Ty) : String :=
  let appearing := (t.vars.filter (· ∈ quantified)).eraseDups
  let name (x : TyVar) :=
    if x ∈ quantified then TyVar.quantifiedName (appearing.idxOf x) else x.render
  t.layout name false

end Ty

end HindleyMilner
