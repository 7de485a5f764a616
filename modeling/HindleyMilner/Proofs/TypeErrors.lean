import HindleyMilner.Proofs.FirstFailure
import HindleyMilner.Proofs.LexicalScope
import HindleyMilner.Proofs.SolvedForm

namespace HindleyMilner

open Infer

-- Two types whose outermost constructors differ. A hole agrees with nothing.
inductive Ty.Clash : Ty → Ty → Prop
  | kind {l r : Ty} (h : l.kind? ≠ r.kind?) : Clash l r
  | name {m n : String} (h : m ≠ n) : Clash (.const m) (.const n)
  | arity {ts us : List Ty} (h : ts.length ≠ us.length) : Clash (.tuple ts) (.tuple us)
  | holeLeft {kind : Option String} {r : Ty} : Clash (.hole kind) r
  | holeRight {l : Ty} {kind : Option String} : Clash l (.hole kind)

def UnifyError.Genuine : UnifyError → Prop
  | .occurs x t => x ∈ t.vars ∧ t ≠ .var x
  | .mismatch l r => (∀ x, l ≠ .var x) ∧ (∀ x, r ≠ .var x) ∧ l.Clash r

namespace Equation

variable {e : Equation}

theorem genuine_of_reduce_clash (h : e.reduce = .clash) :
    (UnifyError.mismatch e.1 e.2).Genuine := by
  obtain ⟨a, b⟩ := e
  cases a
  case var =>
    simp only [reduce] at h
    split at h <;> cases h
  all_goals cases b
  case const.var | arrow.var | list.var | tuple.var | hole.var => cases h
  case arrow.arrow | list.list => cases h
  all_goals refine ⟨by simp, by simp, ?_⟩
  case const.const => exact .name (by simpa [reduce] using h)
  case tuple.tuple => exact .arity (by simpa [reduce] using h)
  case const.hole | arrow.hole | list.hole | tuple.hole | hole.hole => exact .holeRight
  case hole.const | hole.arrow | hole.list | hole.tuple => exact .holeLeft
  all_goals exact .kind (by simp [Ty.kind?])

end Equation

namespace Subst

variable {s : Subst}

inductive Checked : Except UnifyError Subst → Prop
  | ok {o : Subst} (h : o.Solved) : Checked (.ok o)
  | error {err : UnifyError} (h : err.Genuine) : Checked (.error err)

namespace Checked

theorem bind {r : Except UnifyError Subst} {f : Subst → Except UnifyError Subst} (hr : Checked r)
    (hf : ∀ s, s.Solved → Checked (f s)) : Checked (r >>= f) := by
  cases hr
  case ok o h => exact hf o h
  case error h => exact .error h

theorem foldlM {α : Type} {f : Subst → α → Except UnifyError Subst} {as : List α}
    (hf : ∀ s, s.Solved → ∀ a ∈ as, Checked (f s a)) (hs : s.Solved) :
    Checked (as.foldlM f s) := by
  induction as generalizing s
  case nil => exact .ok hs
  case cons a as ih =>
    rw [List.foldlM_cons]
    exact (hf s hs a List.mem_cons_self).bind fun o ho =>
      ih (fun s hs a ha => hf s hs a (List.mem_cons_of_mem _ ha)) ho

theorem solved {o : Subst} (h : Checked (.ok o)) : o.Solved := by
  cases h
  assumption

theorem genuine {err : UnifyError} (h : Checked (.error err)) : err.Genuine := by
  cases h
  assumption

end Checked

end Subst

theorem Equation.checked_solve (es : List Equation) : Subst.Checked (solve es) := by
  induction es using solve.induct
  case case1 =>
    rw [solve]
    exact .ok .empty
  case case2 e es parts hr ih => exact solve_of_split hr ▸ ih
  case case3 e es x t hr hx =>
    have hx := Ty.occurs_iff.mp hx
    exact solve_of_occurs hr hx ▸ .error ⟨hx, ne_var_of_reduce_bind hr⟩
  case case4 e es x t hr hx ih =>
    cases hs : solve (e :: es)
    case ok s => exact .ok (solved_of_solve hs)
    case error err =>
      rw [solve_of_bind hr (mt Ty.occurs_iff.mpr hx)] at hs
      cases ho : solve (replaceAll es x t) <;> rw [ho] at hs ih <;> cases hs
      exact .error ih.genuine
  case case5 e es hr => exact solve_of_clash hr ▸ .error (genuine_of_reduce_clash hr)

theorem checked_unify (a b : Ty) : Subst.Checked (unify a b) :=
  Equation.checked_solve [(a, b)]

namespace Subst

variable {s s₂ : Subst}

theorem checked_singleton (x : TyVar) (t : Ty) : Checked (singleton x t) := by
  cases h : singleton x t
  case ok s => exact .ok (solved_singleton h)
  case error err =>
    rw [singleton] at h
    split at h
    case isTrue => cases h
    case isFalse hv =>
      split at h <;> cases h
      case isTrue hx => exact .error ⟨Ty.occurs_iff.mp hx, mt Ty.isVar_iff.mpr hv⟩

theorem checked_bind (hs : s.Solved) (x : TyVar) (t : Ty) : Checked (s.bind x t) := by
  by_cases hv : s.apply t = .var x
  case pos => exact bind_of_var hv ▸ .ok hs
  case neg =>
    by_cases hx : x ∈ (s.apply t).vars
    case pos => exact bind_of_occurs hx hv ▸ .error ⟨hx, hv⟩
    case neg =>
      exact bind_of_not_occurs hs hx ▸ .ok (solved_put hs hx fun _ => hs.get?_of_mem_apply)

theorem checked_extend (hs : s.Solved) (x : TyVar) (t : Ty) : Checked (s.extend x t) := by
  cases hx : s.get? x
  case none => exact extend_of_unbound hx ▸ checked_bind hs x t
  case some bound =>
    simp only [extend, hx]
    exact (checked_unify (s.apply t) bound).bind fun u _ =>
      .foldlM (fun _ ho b _ => checked_bind ho b.1 b.2) hs

theorem checked_compose (s₁ : Subst) (h₂ : s₂.Solved) : Checked (compose s₁ s₂) :=
  .foldlM (fun _ ho b _ => checked_extend ho b.1 b.2) h₂

theorem checked_composeAll {ss : List Subst} (hss : ∀ s ∈ ss, s.Solved) : Checked (composeAll ss) :=
  .foldlM (fun s _ p hp => checked_compose s (hss p hp)) .empty

end Subst

def InferError.Genuine : InferError → Prop
  | .unify err => err.Genuine
  | _ => True

def Failure.Genuine (f : Failure) : Prop :=
  f.error.Genuine

namespace Expr

variable {e a v : Expr} {env : TypeEnv} {k : String}
  {value : TypeEnv → Infer Failure (Subst × Ty)} {α : Type}

theorem genuine_require_bind {r : Except UnifyError Subst} {f : Subst → Infer Failure α}
    (hr : Subst.Checked r) (hf : ∀ s, s.Solved → FailsOnly Failure.Genuine (f s)) :
    FailsOnly Failure.Genuine (require e r >>= f) :=
  .bind_of_ensures (.require fun _ h => (h ▸ hr).genuine) (.require e r)
    fun s h => hf s (h ▸ hr).solved

theorem genuine_infer_bind {f : Subst × Ty → Infer Failure α}
    (ha : ∀ env, FailsOnly Failure.Genuine (a.infer env))
    (hf : ∀ r, r.1.Solved → FailsOnly Failure.Genuine (f r)) :
    FailsOnly Failure.Genuine (a.infer env >>= f) :=
  (ha env).bind_of_ensures (a.ensures_built env) fun r h => hf r h.solved

theorem genuine_blaming (e : Expr) (p : Pattern) (env : TypeEnv) :
    FailsOnly Failure.Genuine (blaming e (p.infer env)) :=
  .mapError (p.failsOnly_infer (P := InferError.Genuine)
    (fun a b _ h => (h ▸ checked_unify a b).genuine) (fun _ _ => trivial) env) fun _ => id

theorem genuine_inferOp (e : Expr) (op : Op) (lt rt : Ty) :
    FailsOnly Failure.Genuine (inferOp e op lt rt) := by
  rw [inferOp]
  split
  case isTrue =>
    exact genuine_require_bind (checked_unify _ _) fun _ _ =>
      genuine_require_bind (checked_unify _ _) fun _ _ => .pure
  case isFalse => exact genuine_require_bind (checked_unify _ _) fun _ _ => .pure

theorem genuine_recBinding (hv : ∀ env, FailsOnly Failure.Genuine (value env)) :
    FailsOnly Failure.Genuine (recBinding env k v value) :=
  .bind .freshTy fun _ => (hv _).bind fun _ =>
    genuine_require_bind (checked_unify _ _) fun _ h₂ =>
      genuine_require_bind (Subst.checked_compose _ h₂) fun _ _ => .pure

theorem genuine_inferElems {es : List Expr}
    (ih : ∀ a ∈ es, ∀ env, FailsOnly Failure.Genuine (a.infer env)) (s : Subst) :
    FailsOnly Failure.Genuine (inferElems e env s es) := by
  induction es generalizing s <;> rw [inferElems]
  case nil => exact .pure
  case cons a es ihs =>
    obtain ⟨iha, ih⟩ := List.forall_mem_cons.mp ih
    exact genuine_infer_bind iha fun _ h =>
      genuine_require_bind (Subst.checked_compose _ h) fun _ _ => (ihs ih _).bind fun _ => .pure

theorem genuine_inferBranches {bs : List (Pattern × Expr)}
    (ih : ∀ b ∈ bs, ∀ env, FailsOnly Failure.Genuine (b.2.infer env)) {vt ret : Ty} {s : Subst}
    (hs : s.Solved) : FailsOnly Failure.Genuine (inferBranches e env vt ret s bs) := by
  induction bs generalizing s <;> rw [inferBranches]
  case nil => exact .pure
  case cons b bs ihs =>
    obtain ⟨ihb, ih⟩ := List.forall_mem_cons.mp ih
    refine (genuine_blaming e b.1 env).bind fun _ =>
      genuine_require_bind (checked_unify _ _) fun _ h₁ => genuine_infer_bind ihb fun _ h₂ =>
        genuine_require_bind (checked_unify _ _) fun _ h₃ =>
          genuine_require_bind (Subst.checked_composeAll ?_) fun _ h => ihs ih h
    simpa using ⟨hs, h₁, h₂, h₃⟩

theorem genuine_infer (e : Expr) (env : TypeEnv) : FailsOnly Failure.Genuine (e.infer env) := by
  induction e generalizing env <;> (try rw [infer])
  case int => exact .pure
  case bool => exact .pure
  case var x =>
    cases env.get? x
    case none => exact .throw trivial
    case some σ => exact .bind .modifyGet fun _ => .pure
  case nil => exact .bind .freshTy fun _ => .pure
  case lam p body ih => exact (genuine_blaming _ p env).bind fun _ => (ih _).bind fun _ => .pure
  case binop op l r ihl ihr =>
    refine genuine_infer_bind ihl fun _ h₁ => genuine_infer_bind ihr fun _ h₂ => ?_
    cases op
    case none => exact .throw trivial
    case some op =>
      refine (genuine_inferOp _ op _ _).bind_of_ensures (ensures_built_inferOp _ op _ _) fun _ h₃ =>
        genuine_require_bind (Subst.checked_composeAll ?_) fun _ _ => .pure
      simpa using ⟨h₁, h₂, fun s hs => (h₃ s hs).solved⟩
  case tuple ih => exact (genuine_inferElems ih ∅).bind fun _ => .pure
  case cons ihh iht =>
    refine genuine_infer_bind ihh fun _ h₁ => genuine_infer_bind iht fun _ h₂ =>
      genuine_require_bind (checked_unify _ _) fun _ h₃ =>
        genuine_require_bind (Subst.checked_composeAll ?_) fun _ _ => .pure
    simpa using ⟨h₁, h₂, h₃⟩
  case cond ihc ihy ihn =>
    refine genuine_infer_bind ihc fun _ h₁ => genuine_infer_bind ihy fun _ h₂ =>
      genuine_infer_bind ihn fun _ h₃ => genuine_require_bind (checked_unify _ _) fun _ h₄ =>
        genuine_require_bind (checked_unify _ _) fun _ h₅ =>
          genuine_require_bind (Subst.checked_composeAll ?_) fun _ _ => .pure
    simpa using ⟨h₁, h₂, h₃, h₄, h₅⟩
  case app ihf iha =>
    refine genuine_infer_bind ihf fun _ h₁ => genuine_infer_bind iha fun _ h₂ =>
      .bind .freshTy fun _ => genuine_require_bind (checked_unify _ _) fun _ h₃ =>
        genuine_require_bind (Subst.checked_composeAll ?_) fun _ _ => .pure
    simpa using ⟨h₁, h₂, h₃⟩
  case letIn ihv ihb =>
    exact (failsOnly_binding ihv).bind fun _ => genuine_infer_bind ihb fun _ h₂ =>
      genuine_require_bind (Subst.checked_compose _ h₂) fun _ _ => .pure
  case letRec ihv ihb =>
    exact (genuine_recBinding ihv).bind fun _ => genuine_infer_bind ihb fun _ h₂ =>
      genuine_require_bind (Subst.checked_compose _ h₂) fun _ _ => .pure
  case cases ihv ihb =>
    exact genuine_infer_bind ihv fun _ h₁ => .bind .freshTy fun _ =>
      (genuine_inferBranches ihb h₁).bind fun _ => .pure
  case hole k => cases k <;> exact .throw trivial

end Expr

theorem Stmt.genuine_infer (stmt : Stmt) (env : TypeEnv) :
    FailsOnly Failure.Genuine (stmt.infer env) := by
  cases stmt <;> rw [infer]
  case decl x v => exact (Expr.failsOnly_binding v.genuine_infer).bind fun _ => .pure
  case declRec x v => exact (Expr.genuine_recBinding v.genuine_infer).bind fun _ => .pure
  case expr e => exact (e.genuine_infer env).bind fun _ => .pure
  case hole => exact .throw trivial

theorem Program.genuine_infer (p : Program) (env : TypeEnv) (i : Nat) :
    FailsOnly (·.error.Genuine) (infer env i p) := by
  intro n f m h
  obtain ⟨_, stmt, _, env₁, n₁, _, _, hs, _⟩ := exists_of_infer_eq_error h
  exact stmt.genuine_infer env₁ n₁ f.toFailure m hs

namespace UnifyError

-- Whatever is unified, joined or inferred. What is joined has to be solved, as all that is built
-- is.
theorem errors_genuine :
    (∀ a b err, unify a b = .error err → err.Genuine) ∧
    (∀ x t err, Subst.singleton x t = .error err → err.Genuine) ∧
    (∀ s x t err, s.Solved → Subst.extend s x t = .error err → err.Genuine) ∧
    (∀ s₁ s₂ err, s₂.Solved → Subst.compose s₁ s₂ = .error err → err.Genuine) ∧
    (∀ ss err, (∀ s ∈ ss, s.Solved) → Subst.composeAll ss = .error err → err.Genuine) ∧
    (∀ (c : Context) env e err, (c.infer env e).1 = .error (.unify err) → err.Genuine) ∧
    ∀ (c : Context) env p err, (c.inferProgram env p).1 = .error (.unify err) → err.Genuine := by
  refine ⟨fun a b _ h => (h ▸ checked_unify a b).genuine,
    fun x t _ h => (h ▸ Subst.checked_singleton x t).genuine,
    fun s x t _ hs h => (h ▸ Subst.checked_extend hs x t).genuine,
    fun s₁ s₂ _ h₂ h => (h ▸ Subst.checked_compose s₁ h₂).genuine,
    fun ss _ hss h => (h ▸ Subst.checked_composeAll hss).genuine,
    fun c env e err h => ?_, fun c env p err h => ?_⟩
  · obtain ⟨f, m, he, hf⟩ := Context.exists_infer_of_error h nofun
    have genuine : f.error.Genuine := e.genuine_infer env _ f m he
    rwa [hf] at genuine
  · obtain ⟨f, m, hp, hf⟩ := Context.exists_inferProgram_of_error h
    have genuine : f.error.Genuine := p.genuine_infer env 0 _ f m hp
    rwa [hf] at genuine

-- `fun f -> f f`
def selfCall : Expr :=
  .lam (.var "f") (.app (.var "f") (.var "f"))

-- `let id = fun x -> x` and `id 1 2`
def tooManyArgs : Program :=
  [.decl "id" (.lam (.var "x") (.var "x")), .expr (.app (.app (.var "id") (.int 1)) (.int 2))]

theorem errors_genuine_bound :
    (∃ s : Subst, s.Solved ∧ s.get? 0 = some (.list (.var 1)) ∧
      s.extend 0 (.list (.list (.var 1))) = .error (.occurs 1 (.list (.var 1))) ∧
      (occurs 1 (.list (.var 1))).Genuine ∧
      s.extend 0 (.arrow .int (.var 0)) =
        .error (.mismatch (.arrow .int (.list (.var 1))) (.list (.var 1))) ∧
      (mismatch (.arrow .int (.list (.var 1))) (.list (.var 1))).Genuine) ∧
    ((Context.infer {} ∅ selfCall).1 = .error (.unify (.occurs 0 (.arrow (.var 0) (.var 1)))) ∧
      (occurs 0 (.arrow (.var 0) (.var 1))).Genuine) ∧
    (Context.inferProgram {} ∅ tooManyArgs).1 =
        .error (.unify (.mismatch .int (.arrow .int (.var 3)))) ∧
      (mismatch .int (.arrow .int (.var 3))).Genuine := by
  obtain ⟨-, -, extended, -, -, inferred, program⟩ := errors_genuine
  refine ⟨⟨(∅ : Subst).insert 0 (.list (.var 1)), ?_⟩, ?_, ?_⟩
  · have hs : ((∅ : Subst).insert 0 (.list (.var 1))).Solved :=
      Subst.solved_singleton (x := 0) (t := .list (.var 1)) rfl
    have cycle : ((∅ : Subst).insert 0 (.list (.var 1))).extend 0 (.list (.list (.var 1))) =
        .error (.occurs 1 (.list (.var 1))) := by cbv
    have clash : ((∅ : Subst).insert 0 (.list (.var 1))).extend 0 (.arrow .int (.var 0)) =
        .error (.mismatch (.arrow .int (.list (.var 1))) (.list (.var 1))) := by cbv
    exact ⟨hs, by cbv, cycle, extended _ _ _ _ hs cycle, clash, extended _ _ _ _ hs clash⟩
  · have cycle : (Context.infer {} ∅ selfCall).1 =
        .error (.unify (.occurs 0 (.arrow (.var 0) (.var 1)))) := by cbv
    exact ⟨cycle, inferred _ _ _ _ cycle⟩
  · have clash : (Context.inferProgram {} ∅ tooManyArgs).1 =
        .error (.unify (.mismatch .int (.arrow .int (.var 3)))) := by cbv
    exact ⟨clash, program _ _ _ _ clash⟩

end UnifyError

end HindleyMilner
