import HindleyMilner.Context
import Mathlib

namespace HindleyMilner.Context

inductive Call where
  | infer (env : TypeEnv) (e : Expr)
  | inferProgram (env : TypeEnv) (p : Program)
  | reset

def call (c : Context) : Call → Context
  | .infer env e => (c.infer env e).2
  | .inferProgram env p => (c.inferProgram env p).2
  | .reset => c.reset

def after (calls : List Call) : Context :=
  calls.foldl call {}

theorem start_eq (c : Context) (env : TypeEnv) : c.start env = start {} env :=
  rfl

theorem infer_eq (c : Context) (env : TypeEnv) (e : Expr) : c.infer env e = infer {} env e := by
  simp only [infer, start_eq c]

theorem inferProgram_eq (c : Context) (env : TypeEnv) (p : Program) :
    c.inferProgram env p = inferProgram {} env p := by
  simp only [inferProgram, start_eq c]

-- A context can be told to be new by its mark alone.
def Marked (c : Context) : Prop :=
  c.used = false → c = {}

theorem used_infer (c : Context) (env : TypeEnv) (e : Expr) : (c.infer env e).2.used = true := by
  by_cases he : e = .hole none
  case pos =>
    subst he
    rfl
  case neg =>
    rw [infer]
    · cases e.infer env (c.start env).supply <;> rfl
    · exact he

theorem used_inferProgram (c : Context) (env : TypeEnv) (p : Program) :
    (c.inferProgram env p).2.used = true := by
  rw [inferProgram]
  cases Program.infer env 0 p (c.start env).supply <;> rfl

namespace Marked

variable {c : Context}

theorem reset_eq (h : c.Marked) : c.reset = {} := by
  rw [reset]
  split
  case isTrue => rfl
  case isFalse hu => exact h (Bool.eq_false_of_not_eq_true hu)

theorem call (h : c.Marked) (a : Call) : (c.call a).Marked := by
  intro hu
  cases a
  case infer env e => cases hu.symm.trans (c.used_infer env e)
  case inferProgram env p => cases hu.symm.trans (c.used_inferProgram env p)
  case reset => exact h.reset_eq

theorem foldl (h : c.Marked) (calls : List Call) : (calls.foldl Context.call c).Marked := by
  induction calls generalizing c
  case nil => exact h
  case cons a calls ih => exact ih (h.call a)

end Marked

-- Whatever has been done with a context, it answers as a new one does and is left in the same
-- state; and a reset makes it new.
theorem after_like_new (calls : List Call) :
    (∀ env e, (after calls).infer env e = infer {} env e) ∧
    (∀ env p, (after calls).inferProgram env p = inferProgram {} env p) ∧
    (after calls).reset = {} := by
  have new : Marked {} := fun _ => rfl
  exact ⟨infer_eq _, inferProgram_eq _, (new.foldl calls).reset_eq⟩

end HindleyMilner.Context
