import HindleyMilner.Ty

namespace HindleyMilner

structure Supply where
  next : TyVar := 0
  -- How many variables have been taken.
  count : Nat := 0
deriving Inhabited, Repr, DecidableEq

namespace Supply

def nth (n : Supply) (i : Nat) : TyVar :=
  n.next + Int64.ofNat i

def drop (n : Supply) (k : Nat) : Supply where
  next := n.nth k
  count := n.count + k

def skipPast (n : Supply) (vs : VarSet) : Supply :=
  match vs.max? with
  | some x => if n.next ≤ x then { n with next := x + 1 } else n
  | none => n

def fresh {ε : Type} : EStateM ε Supply TyVar := do
  let n ← get
  set (n.drop 1)
  return n.nth 0

end Supply

end HindleyMilner
