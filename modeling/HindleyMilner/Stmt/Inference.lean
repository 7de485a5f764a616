import HindleyMilner.Expr.Inference
import HindleyMilner.Stmt

namespace HindleyMilner

namespace Stmt

open Infer

def infer (env : TypeEnv) : Stmt → Infer Failure TypeEnv
  | .decl x v => return (← binding env x v.infer).2
  | .declRec x v => return (← recBinding env x v v.infer).2
  | .expr e => do
    let _ ← e.infer env
    return env
  | .hole kind => throw ⟨.unhandledStmt kind, none⟩

end Stmt

namespace Program

structure Failure extends HindleyMilner.Failure where
  index : Nat
deriving Inhabited

def infer (env : TypeEnv) (i : Nat) : Program → Infer Failure TypeEnv
  | [] => return env
  | stmt :: p => do
    let env ← (stmt.infer env).mapError fun f => ⟨f, i⟩
    infer env (i + 1) p

end Program

end HindleyMilner
