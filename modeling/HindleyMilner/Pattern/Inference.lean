import HindleyMilner.Failure
import HindleyMilner.TypeEnv

namespace HindleyMilner.Pattern

open Infer

-- A variable that is in scope already keeps its type, as it stands in its scheme; it is neither
-- bound anew nor instantiated.
mutual
def infer (env : TypeEnv) : Pattern → Infer InferError (TypeEnv × Ty)
  | .wildcard => return (env, ← freshTy)
  | .int _ => return (env, .int)
  | .bool _ => return (env, .bool)
  | .nil => return (env, .list (← freshTy))
  | .var x =>
    match env.get? x with
    | some σ => return (env, σ.body)
    | none => do
      let t ← freshTy
      return (env.declareMono x t, t)
  | .cons h t => do
    let (env, ht) ← h.infer env
    let (env, tt) ← t.infer env
    let s ← constraint (unify (.list ht) tt)
    return (env.apply s, .list (s.apply ht))
  | .tuple ps => do
    let (env, ts) ← inferAll env ps
    return (env, .tuple ts)
  | .hole kind => throw (.unhandledPattern kind)
def inferAll (env : TypeEnv) : List Pattern → Infer InferError (TypeEnv × List Ty)
  | [] => return (env, [])
  | p :: ps => do
    let (env, t) ← p.infer env
    let (env, ts) ← inferAll env ps
    return (env, t :: ts)
end

end HindleyMilner.Pattern
