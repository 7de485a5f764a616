import HindleyMilner.Ty.Printer

namespace HindleyMilner

inductive Pattern where
  | wildcard
  | int (value : Int64)
  | bool (value : Bool)
  | nil
  | var (name : String)
  | cons (head tail : Pattern)
  | tuple (elems : List Pattern)
  -- A place that holds no pattern: nothing at all, or a term of some other kind.
  | hole (kind : Option String)
deriving Inhabited, Repr

namespace Pattern

def kind? : Pattern → Option String
  | .wildcard => "PWildcard"
  | .int _ => "PInt"
  | .bool _ => "PBool"
  | .nil => "PNil"
  | .var _ => "PVar"
  | .cons _ _ => "PCons"
  | .tuple _ => "PTuple"
  | .hole kind => kind

mutual
def layout (simple : Bool) : Pattern → String
  | .wildcard => "_"
  | .int n => toString n.toInt
  | .bool b => toString b
  | .nil => "[]"
  | .var x => x
  | .cons h t => parenthesizeIf simple (h.layout true ++ " :: " ++ t.layout false)
  | .tuple [] => "()"
  | .tuple (p :: ps) => "(" ++ p.layout false ++ layoutRest ps ++ ")"
  | .hole _ => "<INVALID-PATTERN>"
def layoutRest : List Pattern → String
  | [] => ""
  | p :: ps => ", " ++ p.layout false ++ layoutRest ps
end

def render (p : Pattern) : String :=
  p.layout false

end Pattern

end HindleyMilner
