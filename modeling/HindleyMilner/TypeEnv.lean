import HindleyMilner.Scheme

namespace HindleyMilner

structure TypeEnv where
  bindings : SortedMap String Scheme
deriving Inhabited

namespace TypeEnv

instance : EmptyCollection TypeEnv := ⟨⟨∅⟩⟩

def entries (env : TypeEnv) : List (String × Scheme) :=
  env.bindings.entries

def size (env : TypeEnv) : Nat :=
  env.bindings.size

def names (env : TypeEnv) : List String :=
  env.bindings.keys

def get? (env : TypeEnv) (name : String) : Option Scheme :=
  env.bindings.get? name

def declare (env : TypeEnv) (name : String) (σ : Scheme) : TypeEnv :=
  ⟨env.bindings.insert name σ⟩

def declareMono (env : TypeEnv) (name : String) (t : Ty) : TypeEnv :=
  env.declare name (.mono t)

def remove (env : TypeEnv) (name : String) : TypeEnv :=
  ⟨env.bindings.erase name⟩

def apply (env : TypeEnv) (s : Subst) : TypeEnv :=
  ⟨env.bindings.mapValues fun _ σ => σ.apply s⟩

def freeVars (env : TypeEnv) : VarSet :=
  .ofList (env.entries.flatMap fun (_, σ) => σ.freeVars.members)

def generalize (env : TypeEnv) (t : Ty) : Scheme where
  vars := t.freeVars.diff env.freeVars
  body := t

-- Generalizes the type of a recursive binding, whose own placeholder does not count.
def generalizeRec (env : TypeEnv) (t : Ty) (name : String) : Scheme :=
  (env.remove name).generalize t

def render (env : TypeEnv) : String :=
  "\x7b" ++ ", ".intercalate (env.entries.map fun (x, σ) => x ++ " : " ++ σ.render) ++ "\x7d"

end TypeEnv

end HindleyMilner
