import HindleyMilner.Pattern.Inference

namespace HindleyMilner

namespace Infer

def binding (env : TypeEnv) (x : String) (value : TypeEnv → Infer Failure (Subst × Ty)) :
    Infer Failure (Subst × TypeEnv) := do
  let (s, t) ← value env
  let env := env.apply s
  return (s, env.declare x (env.generalize t))

def recBinding (env : TypeEnv) (x : String) (v : Expr)
    (value : TypeEnv → Infer Failure (Subst × Ty)) : Infer Failure (Subst × TypeEnv) := do
  let self ← freshTy
  let env := env.declareMono x self
  let (s₁, t) ← value env
  let s₂ ← require v (unify (s₁.apply self) t)
  let s ← require v (s₁.compose s₂)
  let env := env.apply s
  return (s, env.declare x (env.generalizeRec (s.apply t) x))

end Infer

namespace Expr

open Infer

def inferOp (e : Expr) (op : Op) (lt rt : Ty) : Infer Failure (List Subst × Ty) :=
  if op.isArithmetic then do
    let s₁ ← require e (unify lt .int)
    let s₂ ← require e (unify rt .int)
    return ([s₁, s₂], .int)
  else do
    let s ← require e (unify lt rt)
    return ([s], .bool)

-- Operands, branches of a conditional and cases of a match are inferred in the environment as it
-- stands; other parts in the environment under the substitutions of the parts before them.
mutual
def infer (env : TypeEnv) : Expr → Infer Failure (Subst × Ty)
  | .int _ => return (∅, .int)
  | .bool _ => return (∅, .bool)
  | e@(.var x) =>
    match env.get? x with
    | some σ => return (∅, ← modifyGet σ.instantiate)
    | none => throw ⟨.undefinedVar x, e⟩
  | .nil => return (∅, .list (← freshTy))
  | e@(.lam p body) => do
    let (env, pt) ← blaming e (p.infer env)
    let (s, bt) ← body.infer env
    return (s, s.apply (.arrow pt bt))
  | e@(.binop op l r) => do
    let (s₁, lt) ← l.infer env
    let (s₂, rt) ← r.infer env
    match op with
    | some op =>
      let (ss, t) ← inferOp e op lt rt
      return (← require e (Subst.composeAll (s₁ :: s₂ :: ss)), t)
    | none => throw ⟨.unknownOperator, e⟩
  | e@(.tuple es) => do
    let (s, ts) ← inferElems e env ∅ es
    return (s, .tuple (ts.map s.apply))
  | e@(.cons h t) => do
    let (s₁, ht) ← h.infer env
    let (s₂, tt) ← t.infer (env.apply s₁)
    let s₃ ← require e (unify (.list ht) tt)
    let s ← require e (Subst.composeAll [s₁, s₂, s₃])
    return (s, s.apply tt)
  | e@(.cond c y n) => do
    let (s₁, ct) ← c.infer env
    let (s₂, yt) ← y.infer env
    let (s₃, nt) ← n.infer env
    let s₄ ← require e (unify ct .bool)
    let s₅ ← require e (unify yt nt)
    let s ← require e (Subst.composeAll [s₁, s₂, s₃, s₄, s₅])
    return (s, s.apply nt)
  | e@(.app f a) => do
    let (s₁, ft) ← f.infer env
    let (s₂, aty) ← a.infer (env.apply s₁)
    let ret ← freshTy
    let s₃ ← require e (unify (s₂.apply ft) (.arrow aty ret))
    let s ← require e (Subst.composeAll [s₁, s₂, s₃])
    return (s, s.apply ret)
  | e@(.letIn x v body) => do
    let (s₁, env) ← binding env x v.infer
    let (s₂, t) ← body.infer env
    return (← require e (s₁.compose s₂), t)
  | e@(.letRec x v body) => do
    let (s₁, env) ← recBinding env x v v.infer
    let (s₂, t) ← body.infer env
    return (← require e (s₁.compose s₂), t)
  | e@(.cases v bs) => do
    let (s, vt) ← v.infer env
    let ret ← freshTy
    let s ← inferBranches e env vt ret s bs
    return (s, s.apply ret)
  | .hole none => throw ⟨.unhandledExpr none, none⟩
  | e@(.hole (some kind)) => throw ⟨.unhandledExpr kind, e⟩
def inferElems (e : Expr) (env : TypeEnv) (s : Subst) : List Expr → Infer Failure (Subst × List Ty)
  | [] => return (s, [])
  | x :: xs => do
    let (s', t) ← x.infer (env.apply s)
    let s ← require e (s.compose s')
    let (s, ts) ← inferElems e env s xs
    return (s, t :: ts)
def inferBranches (e : Expr) (env : TypeEnv) (vt ret : Ty) (s : Subst) :
    List (Pattern × Expr) → Infer Failure Subst
  | [] => return s
  | (p, body) :: bs => do
    let (penv, pt) ← blaming e (p.infer env)
    let s₁ ← require e (unify pt (s.apply vt))
    let (s₂, bt) ← body.infer (penv.apply s₁)
    let s₃ ← require e (unify (s.apply ret) bt)
    let s ← require e (Subst.composeAll [s, s₁, s₂, s₃])
    inferBranches e env vt ret s bs
end

end Expr

end HindleyMilner
