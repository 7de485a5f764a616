import HindleyMilner.Unification

namespace HindleyMilner.Subst

def singleton (x : TyVar) (t : Ty) : Except UnifyError Subst :=
  if t.isVar x then .ok ∅
  else if t.occurs x then .error (.occurs x t)
  else .ok ((∅ : Subst).insert x t)

def recursion? (x : TyVar) (t : Ty) (k : TyVar) (u : Ty) : Option UnifyError :=
  if u.occurs x && (u.replace x t).occurs k then some (.occurs k (u.replace x t)) else none

def bind (s : Subst) (x : TyVar) (t : Ty) : Except UnifyError Subst :=
  let t := s.apply t
  if t.isVar x then .ok s
  else if t.occurs x then .error (.occurs x t)
  else
    match s.entries.findSome? fun (k, u) => recursion? x t k u with
    | some e => .error e
    | none => .ok (Subst.insert ⟨s.bindings.mapValues fun _ u => u.replace x t⟩ x t)

def bindAll (s : Subst) (bs : List (TyVar × Ty)) : Except UnifyError Subst :=
  bs.foldlM (fun s (x, t) => s.bind x t) s

-- Adds the equation between `x` and `t`. If `x` is bound already, the two types are unified, which
-- binds only variables that `s` leaves free, so that the result is solved again.
def extend (s : Subst) (x : TyVar) (t : Ty) : Except UnifyError Subst :=
  match s.get? x with
  | some bound => do s.bindAll (← unify (s.apply t) bound).entries
  | none => s.bind x t

def compose (s₁ s₂ : Subst) : Except UnifyError Subst :=
  s₁.entries.foldlM (fun s (x, t) => s.extend x t) s₂

def composeAll (ss : List Subst) : Except UnifyError Subst :=
  ss.foldlM compose ∅

def render (s : Subst) : String :=
  "\x7b" ++ ", ".intercalate (s.entries.map fun (x, t) => x.render ++ " := " ++ t.render) ++ "\x7d"

end HindleyMilner.Subst
