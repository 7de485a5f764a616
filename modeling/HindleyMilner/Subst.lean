import HindleyMilner.SortedMap
import HindleyMilner.Ty

namespace HindleyMilner

@[ext]
structure Subst where
  bindings : SortedMap TyVar Ty
deriving Inhabited

namespace Subst

instance : EmptyCollection Subst := ⟨⟨∅⟩⟩

def entries (s : Subst) : List (TyVar × Ty) :=
  s.bindings.entries

def size (s : Subst) : Nat :=
  s.bindings.size

def get? (s : Subst) (x : TyVar) : Option Ty :=
  s.bindings.get? x

def insert (s : Subst) (x : TyVar) (t : Ty) : Subst :=
  ⟨s.bindings.insert x t⟩

@[simp]
theorem get?_empty (x : TyVar) : (∅ : Subst).get? x = none :=
  rfl

@[simp]
theorem get?_insert (s : Subst) (x : TyVar) (t : Ty) (y : TyVar) :
    (s.insert x t).get? y = if y = x then some t else s.get? y :=
  SortedMap.get?_insert ..

def image (s : Subst) (x : TyVar) : Ty :=
  (s.get? x).getD (.var x)

def apply (s : Subst) (t : Ty) : Ty :=
  t.subst s.image

def without (s : Subst) (vs : VarSet) : Subst :=
  ⟨s.bindings.filterKeys (· ∉ vs)⟩

@[simp]
theorem get?_without (s : Subst) (vs : VarSet) (x : TyVar) :
    (s.without vs).get? x = if x ∈ vs then none else s.get? x := by
  simp [get?, without]

-- No bound type has a variable that is bound itself, so applying once is applying for good.
def Solved (s : Subst) : Prop :=
  ∀ x t, s.get? x = some t → ∀ y ∈ t.vars, s.get? y = none

theorem Solved.empty : Solved ∅ := by
  simp [Solved]

end Subst

end HindleyMilner
