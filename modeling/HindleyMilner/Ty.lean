import HindleyMilner.SortedSet

namespace HindleyMilner

-- Type variables are numbered by machine words: after the greatest number comes the least.
abbrev TyVar := Int64

abbrev VarSet := SortedSet TyVar

inductive Ty where
  | const (name : String)
  | var (x : TyVar)
  | arrow (arg ret : Ty)
  | list (elem : Ty)
  | tuple (elems : List Ty)
  -- A place that holds no type: nothing at all, or a term of some other kind.
  | hole (kind : Option String)
deriving Inhabited, Repr

namespace Ty

def int : Ty := .const "int"

def bool : Ty := .const "bool"

def arrows : List Ty → Ty
  | [] => .hole none
  | [t] => t
  | t :: ts => .arrow t (arrows ts)

def kind? : Ty → Option String
  | .const _ => "Const"
  | .var _ => "Var"
  | .arrow _ _ => "Arrow"
  | .list _ => "List"
  | .tuple _ => "Tuple"
  | .hole kind => kind

def isVar (x : TyVar) : Ty → Bool
  | .var y => y = x
  | _ => false

@[simp]
theorem isVar_iff {x : TyVar} {t : Ty} : t.isVar x = true ↔ t = .var x := by
  cases t <;> simp [isVar]

def isTuple : Ty → Bool
  | .tuple _ => true
  | _ => false

-- A hole equals nothing, not even itself.
mutual
def equal : Ty → Ty → Bool
  | .const m, .const n => m = n
  | .var x, .var y => x = y
  | .arrow a r, .arrow a' r' => a.equal a' && r.equal r'
  | .list e, .list e' => e.equal e'
  | .tuple es, .tuple es' => equalAll es es'
  | _, _ => false
def equalAll : List Ty → List Ty → Bool
  | [], [] => true
  | t :: ts, t' :: ts' => t.equal t' && equalAll ts ts'
  | _, _ => false
end

mutual
def occurs (x : TyVar) : Ty → Bool
  | .const _ => false
  | .var y => y = x
  | .arrow a r => a.occurs x || r.occurs x
  | .list e => e.occurs x
  | .tuple es => occursAny x es
  | .hole _ => false
def occursAny (x : TyVar) : List Ty → Bool
  | [] => false
  | t :: ts => t.occurs x || occursAny x ts
end

mutual
def vars : Ty → List TyVar
  | .const _ => []
  | .var x => [x]
  | .arrow a r => a.vars ++ r.vars
  | .list e => e.vars
  | .tuple es => varsAll es
  | .hole _ => []
def varsAll : List Ty → List TyVar
  | [] => []
  | t :: ts => t.vars ++ varsAll ts
end

@[simp]
theorem varsAll_eq_flatMap (ts : List Ty) : varsAll ts = ts.flatMap vars := by
  induction ts <;> simp_all [varsAll]

mutual
theorem occurs_iff {x : TyVar} : {t : Ty} → (t.occurs x = true ↔ x ∈ t.vars)
  | .const _ | .hole _ => by simp [occurs, vars]
  | .var y => by simp [occurs, vars, eq_comm]
  | .arrow a r => by simp [occurs, vars, occurs_iff (t := a), occurs_iff (t := r)]
  | .list e => by simp [occurs, vars, occurs_iff (t := e)]
  | .tuple es => by simpa [occurs, vars] using occursAny_iff x es
theorem occursAny_iff (x : TyVar) : (ts : List Ty) → (occursAny x ts = true ↔ x ∈ varsAll ts)
  | [] => by simp [occursAny]
  | t :: ts => by
    have := occursAny_iff x ts
    simp_all [occursAny, occurs_iff (t := t)]
end

def freeVars (t : Ty) : VarSet :=
  .ofList t.vars

@[simp]
theorem mem_freeVars {x : TyVar} {t : Ty} : x ∈ t.freeVars ↔ x ∈ t.vars :=
  SortedSet.mem_ofList

mutual
def subst (f : TyVar → Ty) : Ty → Ty
  | .const n => .const n
  | .var x => f x
  | .arrow a r => .arrow (a.subst f) (r.subst f)
  | .list e => .list (e.subst f)
  | .tuple es => .tuple (substAll f es)
  | .hole k => .hole k
def substAll (f : TyVar → Ty) : List Ty → List Ty
  | [] => []
  | t :: ts => t.subst f :: substAll f ts
end

@[simp]
theorem substAll_eq_map (f : TyVar → Ty) (ts : List Ty) : substAll f ts = ts.map (·.subst f) := by
  induction ts <;> simp_all [substAll]

mutual
theorem mem_vars_subst {f : TyVar → Ty} {y : TyVar} :
    {t : Ty} → (y ∈ (t.subst f).vars ↔ ∃ x ∈ t.vars, y ∈ (f x).vars)
  | .const _ | .hole _ => by simp [subst, vars]
  | .var _ => by simp [subst, vars]
  | .arrow a r => by
    simp [subst, vars, mem_vars_subst (t := a), mem_vars_subst (t := r), or_and_right, exists_or]
  | .list e => by simp [subst, vars, mem_vars_subst (t := e)]
  | .tuple es => by simpa [subst, vars] using mem_varsAll_substAll f y es
theorem mem_varsAll_substAll (f : TyVar → Ty) (y : TyVar) :
    (ts : List Ty) → (y ∈ varsAll (substAll f ts) ↔ ∃ x ∈ varsAll ts, y ∈ (f x).vars)
  | [] => by simp
  | t :: ts => by
    have := mem_varsAll_substAll f y ts
    simp_all [mem_vars_subst (t := t), or_and_right, exists_or]
end

def replace (t : Ty) (x : TyVar) (u : Ty) : Ty :=
  t.subst fun y => if y = x then u else .var y

theorem mem_vars_replace {x y : TyVar} {u t : Ty} (h : y ∈ (t.replace x u).vars) :
    (y ∈ t.vars ∧ y ≠ x) ∨ y ∈ u.vars := by
  have ⟨z, hz, hy⟩ := mem_vars_subst.mp h
  split at hy
  case isTrue => exact .inr hy
  case isFalse hx => simp_all [vars]

mutual
def size : Ty → Nat
  | .const _ => 1
  | .var _ => 1
  | .arrow a r => a.size + r.size + 1
  | .list e => e.size + 1
  | .tuple es => sizeAll es + 1
  | .hole _ => 1
def sizeAll : List Ty → Nat
  | [] => 0
  | t :: ts => t.size + sizeAll ts
end

theorem size_pos (t : Ty) : 0 < t.size := by
  cases t <;> simp [size]

end Ty

end HindleyMilner
