namespace HindleyMilner

inductive Op where
  | add | sub | mul | div
  | lt | gt | le | ge | eq | ne
  | and | or
deriving DecidableEq, Inhabited, Repr

namespace Op

def all : List Op :=
  [.add, .sub, .mul, .div, .lt, .gt, .le, .ge, .eq, .ne, .and, .or]

def code (op : Op) : Nat :=
  all.idxOf op

def ofCode? (n : Int) : Option Op :=
  if 0 ≤ n then all[n.toNat]? else none

def render : Op → String
  | .add => "+"
  | .sub => "-"
  | .mul => "*"
  | .div => "/"
  | .lt => "<"
  | .gt => ">"
  | .le => "<="
  | .ge => ">="
  | .eq => "="
  | .ne => "<>"
  | .and => "&&"
  | .or => "||"

def parse? (s : String) : Option Op :=
  all.find? (·.render = s)

theorem mem_all (op : Op) : op ∈ all := by
  cases op <;> decide

theorem ofCode?_code (op : Op) : ofCode? op.code = some op := by
  cases op <;> decide

theorem parse?_render (op : Op) : parse? op.render = some op := by
  cases op <;> decide

def isArithmetic : Op → Bool
  | .add | .sub | .mul | .div => true
  | _ => false

def isComparison : Op → Bool
  | .lt | .gt | .le | .ge | .eq | .ne => true
  | _ => false

def isBoolean : Op → Bool
  | .and | .or => true
  | _ => false

def renderOption : Option Op → String
  | some op => op.render
  | none => "<invalid-op>"

end Op

end HindleyMilner
