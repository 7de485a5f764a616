import HindleyMilner.Proofs.Runs

namespace HindleyMilner

open Infer

namespace Expr

def children : Expr → List Expr
  | .int _ | .bool _ | .var _ | .nil | .hole _ => []
  | .lam _ body => [body]
  | .binop _ l r => [l, r]
  | .tuple es => es
  | .cons h t => [h, t]
  | .cond c y n => [c, y, n]
  | .app f a => [f, a]
  | .letIn _ v body | .letRec _ v body => [v, body]
  | .cases v bs => v :: bs.map (·.2)

theorem children_induction {P : Expr → Prop} (h : ∀ e, (∀ a ∈ e.children, P a) → P e) (e : Expr) :
    P e := by
  induction e <;> refine h _ ?_
  case int | bool | var | nil | hole => exact List.forall_mem_nil P
  case lam ih => exact List.forall_mem_singleton.mpr ih
  case tuple ih => exact ih
  case cond ihc ihy ihn => simpa [children] using ⟨ihc, ihy, ihn⟩
  case cases ihv ih => exact List.forall_mem_cons.mpr ⟨ihv, List.forall_mem_map.mpr ih⟩
  case binop ih₁ ih₂ | cons ih₁ ih₂ | app ih₁ ih₂ | letIn ih₁ ih₂ | letRec ih₁ ih₂ =>
    simpa [children] using ⟨ih₁, ih₂⟩

def Part : Expr → Expr → Prop :=
  Relation.ReflTransGen fun a e => a ∈ e.children

end Expr

namespace Pattern

inductive HasHole (kind : Option String) : Pattern → Prop
  | here : HasHole kind (.hole kind)
  | head {h t : Pattern} (hh : HasHole kind h) : HasHole kind (.cons h t)
  | tail {h t : Pattern} (ht : HasHole kind t) : HasHole kind (.cons h t)
  | elem {p : Pattern} {ps : List Pattern} (hp : p ∈ ps) (h : HasHole kind p) :
    HasHole kind (.tuple ps)

variable {P : InferError → Prop}

theorem failsOnly_inferAll {ps : List Pattern} (h : ∀ p ∈ ps, ∀ env, FailsOnly P (p.infer env))
    (env : TypeEnv) : FailsOnly P (inferAll env ps) := by
  induction ps generalizing env <;> rw [inferAll]
  case nil => exact .pure
  case cons p ps ih =>
    obtain ⟨hp, h⟩ := List.forall_mem_cons.mp h
    exact (hp env).bind fun _ => (ih h _).bind fun _ => .pure

theorem failsOnly_infer {p : Pattern} (cons : ∀ a b err, unify a b = .error err → P (.unify err))
    (hole : ∀ kind, p.HasHole kind → P (.unhandledPattern kind)) (env : TypeEnv) :
    FailsOnly P (p.infer env) := by
  induction p generalizing env <;> rw [infer]
  case wildcard => exact .bind .freshTy fun _ => .pure
  case int => exact .pure
  case bool => exact .pure
  case nil => exact .bind .freshTy fun _ => .pure
  case var x =>
    cases env.get? x
    case none => exact .bind .freshTy fun _ => .pure
    case some => exact .pure
  case cons ihh iht =>
    exact (ihh (fun kind h => hole kind (.head h)) env).bind fun _ =>
      (iht (fun kind h => hole kind (.tail h)) _).bind fun _ =>
        .bind (.constraint (cons _ _)) fun _ => .pure
  case tuple ih =>
    exact (failsOnly_inferAll (fun p hp => ih p hp fun kind h => hole kind (.elem hp h)) env).bind
      fun _ => .pure
  case hole kind => exact .throw (hole kind .here)

end Pattern

namespace Expr

def patterns : Expr → List Pattern
  | .lam p _ => [p]
  | .cases _ bs => bs.map (·.1)
  | _ => []

-- The failures that are not those of the expressions it is made of. Only a recursive value takes
-- the blame for what is required of its binding.
inductive Raises : Expr → Failure → Prop
  | unify {e a : Expr} {err : UnifyError} (ha : a = e ∨ a ∈ e.children) :
    Raises e ⟨.unify err, some a⟩
  | undefinedVar {x : String} : Raises (.var x) ⟨.undefinedVar x, some (.var x)⟩
  | unknownOperator {l r : Expr} :
    Raises (.binop none l r) ⟨.unknownOperator, some (.binop none l r)⟩
  | unhandledPattern {e : Expr} {p : Pattern} {kind : Option String} (hp : p ∈ e.patterns)
    (h : p.HasHole kind) : Raises e ⟨.unhandledPattern kind, some e⟩
  | unhandledExpr {kind : Option String} :
    Raises (.hole kind) ⟨.unhandledExpr kind, kind.map fun k => .hole (some k)⟩

variable {e v : Expr} {env : TypeEnv} {k : String} {value : TypeEnv → Infer Failure (Subst × Ty)}
  {P : Failure → Prop}

section Own

variable (own : ∀ f, e.Raises f → P f)
include own

theorem failsOnly_require {α : Type} {r : Except UnifyError α} : FailsOnly P (require e r) :=
  .require fun _ _ => own _ (.unify (.inl rfl))

theorem failsOnly_blaming {p : Pattern} (hp : p ∈ e.patterns) (env : TypeEnv) :
    FailsOnly P (blaming e (p.infer env)) :=
  .mapError (P := fun err => P ⟨err, some e⟩)
    (p.failsOnly_infer (fun _ _ _ _ => own _ (.unify (.inl rfl)))
      (fun _ h => own _ (.unhandledPattern hp h)) env)
    fun _ => id

theorem failsOnly_inferOp (op : Op) (lt rt : Ty) : FailsOnly P (inferOp e op lt rt) := by
  rw [inferOp]
  split
  case isTrue =>
    exact (failsOnly_require own).bind fun _ => (failsOnly_require own).bind fun _ => .pure
  case isFalse => exact (failsOnly_require own).bind fun _ => .pure

theorem failsOnly_inferElems {es : List Expr} (h : ∀ a ∈ es, ∀ env, FailsOnly P (a.infer env))
    (s : Subst) : FailsOnly P (inferElems e env s es) := by
  induction es generalizing s <;> rw [inferElems]
  case nil => exact .pure
  case cons a es ih =>
    obtain ⟨ha, h⟩ := List.forall_mem_cons.mp h
    exact (ha _).bind fun _ => (failsOnly_require own).bind fun _ => (ih h _).bind fun _ => .pure

theorem failsOnly_inferBranches {bs : List (Pattern × Expr)} (hp : ∀ b ∈ bs, b.1 ∈ e.patterns)
    (h : ∀ b ∈ bs, ∀ env, FailsOnly P (b.2.infer env)) (vt ret : Ty) (s : Subst) :
    FailsOnly P (inferBranches e env vt ret s bs) := by
  induction bs generalizing s <;> rw [inferBranches]
  case nil => exact .pure
  case cons b bs ih =>
    obtain ⟨hp₁, hp⟩ := List.forall_mem_cons.mp hp
    obtain ⟨hb, h⟩ := List.forall_mem_cons.mp h
    exact (failsOnly_blaming own hp₁ env).bind fun _ => (failsOnly_require own).bind fun _ =>
      (hb _).bind fun _ => (failsOnly_require own).bind fun _ =>
        (failsOnly_require own).bind fun _ => ih hp h _

end Own

theorem failsOnly_binding (hv : ∀ env, FailsOnly P (value env)) :
    FailsOnly P (binding env k value) :=
  (hv env).bind fun _ => .pure

theorem failsOnly_recBinding (hv : ∀ env, FailsOnly P (value env))
    (h : ∀ err, P ⟨.unify err, some v⟩) : FailsOnly P (recBinding env k v value) :=
  .bind .freshTy fun _ => (hv _).bind fun _ => .bind (.require fun _ _ => h _) fun _ =>
    .bind (.require fun _ _ => h _) fun _ => .pure

theorem failsOnly_of_children (own : ∀ f, e.Raises f → P f)
    (h : ∀ a ∈ e.children, ∀ env, FailsOnly P (a.infer env)) : FailsOnly P (e.infer env) := by
  cases e <;> (try rw [infer]) <;>
    simp only [children, List.forall_mem_cons, List.forall_mem_map] at h
  case int => exact .pure
  case bool => exact .pure
  case var x =>
    cases env.get? x
    case none => exact .throw (own _ .undefinedVar)
    case some σ => exact .bind .modifyGet fun _ => .pure
  case nil => exact .bind .freshTy fun _ => .pure
  case lam p body =>
    have hp : p ∈ (lam p body).patterns := List.mem_singleton_self p
    exact (failsOnly_blaming own hp env).bind fun _ => (h.left _).bind fun _ => .pure
  case binop op l r =>
    obtain ⟨hl, hr, -⟩ := h
    refine (hl env).bind fun _ => (hr env).bind fun _ => ?_
    cases op
    case none => exact .throw (own _ .unknownOperator)
    case some op =>
      exact (failsOnly_inferOp own op _ _).bind fun _ => (failsOnly_require own).bind fun _ => .pure
  case tuple => exact (failsOnly_inferElems own h ∅).bind fun _ => .pure
  case cons =>
    obtain ⟨hh, ht, -⟩ := h
    exact (hh env).bind fun _ => (ht _).bind fun _ => (failsOnly_require own).bind fun _ =>
      (failsOnly_require own).bind fun _ => .pure
  case cond =>
    obtain ⟨hc, hy, hn, -⟩ := h
    exact (hc env).bind fun _ => (hy env).bind fun _ => (hn env).bind fun _ =>
      (failsOnly_require own).bind fun _ => (failsOnly_require own).bind fun _ =>
        (failsOnly_require own).bind fun _ => .pure
  case app =>
    obtain ⟨hf, ha, -⟩ := h
    exact (hf env).bind fun _ => (ha _).bind fun _ => .bind .freshTy fun _ =>
      (failsOnly_require own).bind fun _ => (failsOnly_require own).bind fun _ => .pure
  case letIn =>
    obtain ⟨hv, hb, -⟩ := h
    exact (failsOnly_binding hv).bind fun _ => (hb _).bind fun _ =>
      (failsOnly_require own).bind fun _ => .pure
  case letRec =>
    obtain ⟨hv, hb, -⟩ := h
    refine (failsOnly_recBinding hv fun err => own _ (.unify (.inr ?_))).bind fun _ =>
      (hb _).bind fun _ => (failsOnly_require own).bind fun _ => .pure
    simp [children]
  case cases v bs =>
    obtain ⟨hv, hb⟩ := h
    have hp : ∀ b ∈ bs, b.1 ∈ (Expr.cases v bs).patterns := fun b hb => List.mem_map_of_mem hb
    exact (hv env).bind fun _ => .bind .freshTy fun _ =>
      (failsOnly_inferBranches own hp hb _ _ _).bind fun _ => .pure
  case hole kind => cases kind <;> exact .throw (own _ .unhandledExpr)

theorem failsOnly_infer (e : Expr) (env : TypeEnv) :
    FailsOnly (fun f => ∃ a : Expr, a.Part e ∧ a.Raises f) (e.infer env) := by
  induction e using children_induction generalizing env with | h e ih =>
  refine failsOnly_of_children (fun f hf => ⟨e, .refl, hf⟩) fun a ha env => (ih a ha env).mono ?_
  rintro f ⟨b, hb, hf⟩
  exact ⟨b, hb.tail ha, hf⟩

variable {a : Expr} {f : Failure}

theorem Raises.part (h : e.Raises f) (hf : f.culprit = some a) : a.Part e := by
  cases h
  case unify ha =>
    cases hf
    obtain rfl | ha := ha
    · exact .refl
    · exact .single ha
  case unhandledExpr kind =>
    cases kind <;> cases hf
    exact .refl
  case undefinedVar | unknownOperator | unhandledPattern =>
    cases hf
    exact .refl

theorem Raises.undefined {x : String} (h : e.Raises f) (hf : f.error = .undefinedVar x) :
    f.culprit = some (.var x) := by
  cases h <;> cases hf
  rfl

end Expr

namespace Stmt

def expr? : Stmt → Option Expr
  | .decl _ e | .declRec _ e | .expr e => some e
  | .hole _ => none

inductive Raises : Stmt → Failure → Prop
  | part {stmt : Stmt} {e a : Expr} {f : Failure} (he : stmt.expr? = some e) (ha : a.Part e)
    (hf : a.Raises f) : Raises stmt f
  | unhandledStmt {kind : Option String} : Raises (.hole kind) ⟨.unhandledStmt kind, none⟩

theorem failsOnly_infer (stmt : Stmt) (env : TypeEnv) :
    FailsOnly stmt.Raises (stmt.infer env) := by
  have part {stmt : Stmt} {e : Expr} (he : stmt.expr? = some e) (env : TypeEnv) :
      FailsOnly stmt.Raises (e.infer env) := by
    refine (e.failsOnly_infer env).mono ?_
    rintro f ⟨a, ha, hf⟩
    exact .part he ha hf
  cases stmt <;> rw [infer]
  case decl x v => exact (Expr.failsOnly_binding (part rfl)).bind fun _ => .pure
  case declRec x v =>
    exact (Expr.failsOnly_recBinding (part rfl) fun _ => .part rfl .refl (.unify (.inl rfl))).bind
      fun _ => .pure
  case expr e => exact (part rfl env).bind fun _ => .pure
  case hole => exact .throw .unhandledStmt

variable {stmt : Stmt} {f : Failure}

theorem Raises.exists_part {a : Expr} (h : stmt.Raises f) (hf : f.culprit = some a) :
    ∃ e, stmt.expr? = some e ∧ a.Part e := by
  cases h
  case part e b hb he hr => exact ⟨e, he, (hr.part hf).trans hb⟩
  case unhandledStmt => cases hf

theorem Raises.undefined {x : String} (h : stmt.Raises f) (hf : f.error = .undefinedVar x) :
    f.culprit = some (.var x) := by
  cases h
  case part hr => exact hr.undefined hf
  case unhandledStmt => cases hf

end Stmt

namespace Program

variable {p q : Program} {stmt : Stmt} {env env₁ : TypeEnv} {i : Nat} {n n₁ m : Supply}

theorem infer_append_of_error {f : HindleyMilner.Failure} (hq : infer env i q n = .ok env₁ n₁)
    (hs : stmt.infer env₁ n₁ = .error f m) (r : Program) :
    infer env i (q ++ stmt :: r) n = .error ⟨f, i + q.length⟩ m := by
  rw [infer_append, bind_of_ok hq, infer_cons_of_error hs]

theorem exists_of_infer_eq_error {f : Program.Failure} (h : infer env i p n = .error f m) :
    ∃ q stmt r env₁ n₁, p = q ++ stmt :: r ∧ infer env i q n = .ok env₁ n₁ ∧
      stmt.infer env₁ n₁ = .error f.toFailure m ∧ f.index = i + q.length := by
  induction p generalizing env i n
  case nil => cases h
  case cons stmt p ih =>
    cases hs : stmt.infer env n
    case error f₀ m₀ =>
      rw [infer_cons_of_error hs] at h
      cases h
      exact ⟨[], stmt, p, env, n, rfl, rfl, hs, rfl⟩
    case ok env₁ n₁ =>
      rw [infer_cons_of_ok hs] at h
      obtain ⟨q, last, r, env₂, n₂, rfl, hq, hl, hi⟩ := ih h
      have hsq := infer_cons_eq_ok_iff.mpr ⟨env₁, n₁, hs, hq⟩
      refine ⟨stmt :: q, last, r, env₂, n₂, rfl, hsq, hl, ?_⟩
      rw [hi, List.length_cons]
      omega

end Program

namespace Context

-- A failure is put down to the first statement that fails, and to an expression in it. Whatever
-- comes later has no part in what is reported. A success leaves no report.
theorem inferProgram_firstFailure (c : Context) (env : TypeEnv) (p : Program) :
    (∀ err, (c.inferProgram env p).1 = .error err →
      ∃ i stmt, p[i]? = some stmt ∧ (c.inferProgram env p).2.invalidStmt = some i ∧
        (∃ env', (c.inferProgram env (p.take i)).1 = .ok env') ∧
        (c.inferProgram env p).2.error = some err ∧
        (∀ q, c.inferProgram env (p.take (i + 1) ++ q) = c.inferProgram env p) ∧
        (∀ a, (c.inferProgram env p).2.invalidExpr = some a →
          ∃ e, stmt.expr? = some e ∧ a.Part e) ∧
        ∀ x, err = .undefinedVar x → (c.inferProgram env p).2.invalidExpr = some (.var x)) ∧
    ∀ env', (c.inferProgram env p).1 = .ok env' →
      (c.inferProgram env p).2.invalidStmt = none ∧ (c.inferProgram env p).2.error = none ∧
        (c.inferProgram env p).2.invalidExpr = none := by
  cases h : Program.infer env 0 p (c.start env).supply
  case ok env' m =>
    rw [inferProgram_of_ok h]
    exact ⟨by simp, fun _ _ => ⟨rfl, rfl, rfl⟩⟩
  case error f m =>
    obtain ⟨q, stmt, r, env₁, n₁, rfl, hq, hs, hi⟩ := Program.exists_of_infer_eq_error h
    have raised := stmt.failsOnly_infer env₁ n₁ f.toFailure m hs
    have same (r' : Program) :
        c.inferProgram env (q ++ stmt :: r') = c.inferProgram env (q ++ stmt :: r) := by
      rw [inferProgram_of_error h, inferProgram_of_error (Program.infer_append_of_error hq hs r'),
        ← hi]
    refine ⟨fun err herr => ?_, ?_⟩
    · rw [inferProgram_of_error h] at herr same ⊢
      cases herr
      rw [Nat.zero_add] at hi
      refine ⟨q.length, stmt, by simp, congrArg some hi, ⟨env₁, ?_⟩, rfl, fun r' => ?_,
        fun _ => raised.exists_part, fun _ => raised.undefined⟩
      · rw [List.take_left, inferProgram_of_ok hq]
      · rw [← same r', List.take_append, List.take_of_length_le (by omega)]
        simp
    · rw [inferProgram_of_error h]
      simp

-- `let id = fun x -> x`, `let f = fun y -> (id y, z)` and `id 1 2`
def outOfScope : Program :=
  [.decl "id" (.lam (.var "x") (.var "x")),
    .decl "f" (.lam (.var "y") (.tuple [.app (.var "id") (.var "y"), .var "z"])),
    .expr (.apps (.var "id") [.int 1, .int 2])]

theorem inferProgram_firstFailure_outOfScope :
    (inferProgram {} ∅ outOfScope).1 = .error (.undefinedVar "z") ∧
      (inferProgram {} ∅ outOfScope).2.invalidStmt = some 1 ∧
      (inferProgram {} ∅ outOfScope).2.invalidExpr = some (.var "z") ∧
      ∀ q, inferProgram {} ∅ (outOfScope.take 2 ++ q) = inferProgram {} ∅ outOfScope := by
  have failed : (inferProgram {} ∅ outOfScope).1 = .error (.undefinedVar "z") := by cbv
  have second : (inferProgram {} ∅ outOfScope).2.invalidStmt = some 1 := by cbv
  obtain ⟨i, stmt, _, hi, _, _, same, _, undefined⟩ :=
    (inferProgram_firstFailure {} ∅ outOfScope).left _ failed
  cases hi.symm.trans second
  exact ⟨failed, second, undefined "z" rfl, same⟩

end Context

end HindleyMilner
