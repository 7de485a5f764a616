import HindleyMilner.Stmt.Inference

namespace HindleyMilner

structure Context where
  supply : Supply := {}
  error : Option InferError := none
  invalidExpr : Option Expr := none
  invalidStmt : Option Nat := none
  -- There has been a run since the context was new.
  used : Bool := false
deriving Inhabited

namespace Context

def clear (c : Context) : Context :=
  { c with supply := {}, error := none, invalidExpr := none, invalidStmt := none, used := false }

def reset (c : Context) : Context :=
  if c.used then c.clear else c

def start (c : Context) (env : TypeEnv) : Context :=
  let c := c.clear
  { c with supply := c.supply.skipPast env.freeVars, used := true }

def varCount (c : Context) : Nat :=
  c.supply.count

def infer (c : Context) (env : TypeEnv) (e : Expr) : Except InferError Ty × Context :=
  let c := c.start env
  match e with
  | .hole none => (.error .emptyExpr, { c with error := some .emptyExpr })
  | e =>
    match e.infer env c.supply with
    | .ok (s, t) n => (.ok (s.apply t), { c with supply := n })
    | .error f n =>
      (.error f.error, { c with supply := n, error := some f.error, invalidExpr := f.culprit })

def inferProgram (c : Context) (env : TypeEnv) (p : Program) :
    Except InferError TypeEnv × Context :=
  let c := c.start env
  match Program.infer env 0 p c.supply with
  | .ok env n => (.ok env, { c with supply := n })
  | .error f n =>
    (.error f.error,
      { c with
        supply := n, error := some f.error, invalidExpr := f.culprit, invalidStmt := some f.index })

end Context

def Program.check (p : Program) : Except InferError TypeEnv :=
  (Context.inferProgram {} ∅ p).1

end HindleyMilner
