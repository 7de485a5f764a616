import HindleyMilner.Subst
import HindleyMilner.Supply
import HindleyMilner.Ty.Printer

namespace HindleyMilner

structure Scheme where
  vars : VarSet
  body : Ty
deriving Inhabited

namespace Scheme

def mono (t : Ty) : Scheme where
  vars := ∅
  body := t

def isMono (σ : Scheme) : Bool :=
  σ.vars.isEmpty

def freeVars (σ : Scheme) : VarSet :=
  σ.body.freeVars.diff σ.vars

def apply (σ : Scheme) (s : Subst) : Scheme where
  vars := σ.vars
  body := (s.without σ.vars).apply σ.body

-- Puts fresh variables for the quantified ones, all at once. They are numbered in ascending order
-- of the variables that they stand for.
def instantiate (σ : Scheme) (n : Supply) : Ty × Supply :=
  (σ.body.subst fun x => if x ∈ σ.vars then .var (n.nth (σ.vars.members.idxOf x)) else .var x,
    n.drop σ.vars.size)

def render (σ : Scheme) : String :=
  σ.body.renderQuantified σ.vars

end Scheme

end HindleyMilner
