import HindleyMilner.Context
import HindleyMilner.Proofs.Scoping
import HindleyMilner.Proofs.SolvedForm

namespace HindleyMilner

open Infer

namespace Scheme

@[simp]
theorem instantiate_mono (t : Ty) (n : Supply) : ((mono t).instantiate n).1 = t := by
  simp [instantiate, mono]

theorem vars_of_isMono {σ : Scheme} (h : σ.isMono) : σ.vars = ∅ :=
  SortedSet.ext (List.isEmpty_iff.mp h)

end Scheme

namespace TypeEnv

variable {env : TypeEnv} {k j : String} {s : Subst} {t : Ty}

def quantified? (env : TypeEnv) (k : String) : Option VarSet :=
  (env.get? k).map (·.vars)

@[simp]
theorem quantified?_apply : (env.apply s).quantified? k = env.quantified? k := by
  cases h : env.get? k <;> simp [quantified?, h, Scheme.apply]

@[simp]
theorem quantified?_declareMono :
    (env.declareMono k t).quantified? j = if j = k then some ∅ else env.quantified? j := by
  rw [quantified?, get?_declareMono]
  split <;> rfl

theorem get?_of_quantified?_empty (h : env.quantified? k = some ∅) :
    ∃ t, env.get? k = some (.mono t) := by
  obtain ⟨σ, hσ, hq⟩ := Option.map_eq_some_iff.mp h
  refine ⟨σ.body, hσ.trans ?_⟩
  rw [Scheme.mono, ← hq]

end TypeEnv

namespace Pattern

variable {p : Pattern} {ps : List Pattern} {env : TypeEnv}

-- A pattern whose variables are `ks` leads from `env` to `env'`: new names quantify nothing, all
-- others what they did before.
def Quantifies (ks : List String) (env env' : TypeEnv) : Prop :=
  ∀ k, env'.quantified? k = if k ∈ ks then some ((env.quantified? k).getD ∅) else env.quantified? k

theorem Quantifies.refl (env : TypeEnv) : Quantifies [] env env :=
  fun _ => by simp

theorem Quantifies.append {ks ls : List String} {env₁ env₂ : TypeEnv}
    (h₁ : Quantifies ks env env₁) (h₂ : Quantifies ls env₁ env₂) :
    Quantifies (ks ++ ls) env env₂ := by
  intro k
  rw [h₂ k, h₁ k]
  by_cases hk : k ∈ ks <;> by_cases hl : k ∈ ls <;> simp [hk, hl]

theorem Quantifies.apply {ks : List String} {env₁ : TypeEnv} (h : Quantifies ks env env₁)
    (s : Subst) : Quantifies ks env (env₁.apply s) :=
  fun k => by rw [TypeEnv.quantified?_apply, h k]

theorem ensures_quantifies_all
    (ih : ∀ p ∈ ps, ∀ env, Ensures (Quantifies p.names env ·.1) (p.infer env)) (env : TypeEnv) :
    Ensures (Quantifies (namesAll ps) env ·.1) (inferAll env ps) := by
  induction ps generalizing env <;> rw [inferAll]
  case nil => exact .pure (.refl env)
  case cons p ps ihs =>
    obtain ⟨ihp, ih⟩ := List.forall_mem_cons.mp ih
    exact (ihp env).bind fun _ h₁ => (ihs ih _).bind fun _ h₂ => .pure (h₁.append h₂)

theorem ensures_quantifies (p : Pattern) (env : TypeEnv) :
    Ensures (Quantifies p.names env ·.1) (p.infer env) := by
  induction p generalizing env <;> rw [infer]
  case wildcard => exact .after _ fun _ => .pure (.refl env)
  case int => exact .pure (.refl env)
  case bool => exact .pure (.refl env)
  case nil => exact .after _ fun _ => .pure (.refl env)
  case var x =>
    cases hx : env.get? x
    case some σ =>
      refine .pure fun k => ?_
      by_cases hk : k = x <;> simp [names, hk, TypeEnv.quantified?, hx]
    case none =>
      refine .after _ fun _ => .pure fun k => ?_
      by_cases hk : k = x <;> simp [names, hk]
      simp [TypeEnv.quantified?, hx]
  case cons ihh iht =>
    refine (ihh env).bind fun _ h₁ => (iht _).bind fun _ h₂ => .after _ fun s => .pure ?_
    exact (h₁.append h₂).apply s
  case tuple ih => exact (ensures_quantifies_all ih env).bind fun _ h => .pure h
  case hole => exact .throw

end Pattern

namespace Subst

variable {s s₁ s₂ p q o : Subst} {ss : List Subst} {t u : Ty}

def Absorbs (s p : Subst) : Prop :=
  ∀ t, s.apply (p.apply t) = s.apply t

namespace Absorbs

theorem refl (h : s.Solved) : s.Absorbs s :=
  h.apply_apply

theorem trans (h₁ : s.Absorbs p) (h₂ : p.Absorbs q) : s.Absorbs q :=
  fun t => by rw [← h₁, h₂, h₁]

theorem of_solves (h : Solves s.image p) : s.Absorbs p :=
  h.subst_apply

theorem compose (h₂ : s₂.Solved) (h : s₁.compose s₂ = .ok o) : o.Absorbs s₁ ∧ o.Absorbs s₂ :=
  have join := compose_join s₁ h₂
  (join.solves_iff h |>.mp (join.solved h).solves_image).imp of_solves of_solves

theorem composeAll (hss : ∀ p ∈ ss, p.Solved) (h : composeAll ss = .ok o) :
    ∀ p ∈ ss, o.Absorbs p :=
  have join := composeAll_join hss
  fun p hp => of_solves (join.solves_iff h |>.mp (join.solved h).solves_image p hp)

theorem apply_eq (h : s.Absorbs p) (he : p.apply t = p.apply u) : s.apply t = s.apply u := by
  rw [← h t, he, h u]

theorem apply_eq_after (hp : s.Absorbs p) (hq : s.Absorbs q)
    (he : p.apply t = p.apply (q.apply u)) : s.apply t = s.apply u := by
  rw [hp.apply_eq he, hq]

end Absorbs

end Subst

namespace Expr

mutual
-- The run of an expression from `n` in `env` comes to the variable `k` and gives it the type `τ`.
-- Below another binding of the name `k`, there are no uses of it.
inductive Uses (k : String) : TypeEnv → Supply → Expr → Ty → Prop
  | var {env : TypeEnv} {n : Supply} {σ : Scheme} (h : env.get? k = some σ) :
    Uses k env n (.var k) (σ.instantiate n).1
  | lam {env env' : TypeEnv} {n n₁ : Supply} {p : Pattern} {body : Expr} {pt τ : Ty}
    (hp : p.infer env n = .ok (env', pt) n₁) (hk : k ∉ p.names) (h : Uses k env' n₁ body τ) :
    Uses k env n (.lam p body) τ
  | binopLeft {env : TypeEnv} {n : Supply} {op : Option Op} {l r : Expr} {τ : Ty}
    (h : Uses k env n l τ) : Uses k env n (.binop op l r) τ
  | binopRight {env : TypeEnv} {n n₁ : Supply} {op : Option Op} {l r : Expr} {s : Subst} {t τ : Ty}
    (hl : l.infer env n = .ok (s, t) n₁) (h : Uses k env n₁ r τ) : Uses k env n (.binop op l r) τ
  | tuple {env : TypeEnv} {n : Supply} {es : List Expr} {τ : Ty} (h : ElemUses k env ∅ n es τ) :
    Uses k env n (.tuple es) τ
  | consHead {env : TypeEnv} {n : Supply} {hd tl : Expr} {τ : Ty} (h : Uses k env n hd τ) :
    Uses k env n (.cons hd tl) τ
  | consTail {env : TypeEnv} {n n₁ : Supply} {hd tl : Expr} {s : Subst} {t τ : Ty}
    (hh : hd.infer env n = .ok (s, t) n₁) (h : Uses k (env.apply s) n₁ tl τ) :
    Uses k env n (.cons hd tl) τ
  | condTest {env : TypeEnv} {n : Supply} {c y f : Expr} {τ : Ty} (h : Uses k env n c τ) :
    Uses k env n (.cond c y f) τ
  | condYes {env : TypeEnv} {n n₁ : Supply} {c y f : Expr} {s : Subst} {t τ : Ty}
    (hc : c.infer env n = .ok (s, t) n₁) (h : Uses k env n₁ y τ) : Uses k env n (.cond c y f) τ
  | condNo {env : TypeEnv} {n n₁ n₂ : Supply} {c y f : Expr} {s s' : Subst} {t t' τ : Ty}
    (hc : c.infer env n = .ok (s, t) n₁) (hy : y.infer env n₁ = .ok (s', t') n₂)
    (h : Uses k env n₂ f τ) : Uses k env n (.cond c y f) τ
  | appFn {env : TypeEnv} {n : Supply} {f a : Expr} {τ : Ty} (h : Uses k env n f τ) :
    Uses k env n (.app f a) τ
  | appArg {env : TypeEnv} {n n₁ : Supply} {f a : Expr} {s : Subst} {t τ : Ty}
    (hf : f.infer env n = .ok (s, t) n₁) (h : Uses k (env.apply s) n₁ a τ) :
    Uses k env n (.app f a) τ
  | letValue {env : TypeEnv} {n : Supply} {j : String} {v body : Expr} {τ : Ty}
    (h : Uses k env n v τ) : Uses k env n (.letIn j v body) τ
  | letBody {env env' : TypeEnv} {n n₁ : Supply} {j : String} {v body : Expr} {s : Subst} {τ : Ty}
    (hj : k ≠ j) (hb : binding env j v.infer n = .ok (s, env') n₁) (h : Uses k env' n₁ body τ) :
    Uses k env n (.letIn j v body) τ
  | recValue {env : TypeEnv} {n : Supply} {j : String} {v body : Expr} {τ : Ty} (hj : k ≠ j)
    (h : Uses k (env.declareMono j (.var n.next)) (n.drop 1) v τ) :
    Uses k env n (.letRec j v body) τ
  | recBody {env env' : TypeEnv} {n n₁ : Supply} {j : String} {v body : Expr} {s : Subst} {τ : Ty}
    (hj : k ≠ j) (hb : recBinding env j v v.infer n = .ok (s, env') n₁)
    (h : Uses k env' n₁ body τ) : Uses k env n (.letRec j v body) τ
  | casesValue {env : TypeEnv} {n : Supply} {v : Expr} {bs : List (Pattern × Expr)} {τ : Ty}
    (h : Uses k env n v τ) : Uses k env n (.cases v bs) τ
  | casesBranch {env : TypeEnv} {n n₁ : Supply} {v : Expr} {bs : List (Pattern × Expr)} {s : Subst}
    {t τ : Ty} (hv : v.infer env n = .ok (s, t) n₁)
    (h : BranchUses k env t (.var n₁.next) s (n₁.drop 1) bs τ) : Uses k env n (.cases v bs) τ
inductive ElemUses (k : String) : TypeEnv → Subst → Supply → List Expr → Ty → Prop
  | head {env : TypeEnv} {s : Subst} {n : Supply} {a : Expr} {es : List Expr} {τ : Ty}
    (h : Uses k (env.apply s) n a τ) : ElemUses k env s n (a :: es) τ
  | tail {env : TypeEnv} {s s₁ s₂ : Subst} {n n₁ : Supply} {a : Expr} {es : List Expr} {t τ : Ty}
    (ha : a.infer (env.apply s) n = .ok (s₁, t) n₁) (hc : s.compose s₁ = .ok s₂)
    (h : ElemUses k env s₂ n₁ es τ) : ElemUses k env s n (a :: es) τ
inductive BranchUses (k : String) :
    TypeEnv → Ty → Ty → Subst → Supply → List (Pattern × Expr) → Ty → Prop
  | head {env penv : TypeEnv} {vt ret pt τ : Ty} {s s₁ : Subst} {n n₁ : Supply} {p : Pattern}
    {body : Expr} {bs : List (Pattern × Expr)} (hp : p.infer env n = .ok (penv, pt) n₁)
    (hk : k ∉ p.names) (hu : unify pt (s.apply vt) = .ok s₁)
    (h : Uses k (penv.apply s₁) n₁ body τ) : BranchUses k env vt ret s n ((p, body) :: bs) τ
  | tail {env penv : TypeEnv} {vt ret pt bt τ : Ty} {s s₁ s₂ s₃ s₄ : Subst} {n n₁ n₂ : Supply}
    {p : Pattern} {body : Expr} {bs : List (Pattern × Expr)}
    (hp : p.infer env n = .ok (penv, pt) n₁) (hu : unify pt (s.apply vt) = .ok s₁)
    (hb : body.infer (penv.apply s₁) n₁ = .ok (s₂, bt) n₂) (hv : unify (s.apply ret) bt = .ok s₃)
    (hc : Subst.composeAll [s, s₁, s₂, s₃] = .ok s₄) (h : BranchUses k env vt ret s₄ n₂ bs τ) :
    BranchUses k env vt ret s n ((p, body) :: bs) τ
end

section Steady

variable {env env' : TypeEnv} {scope : List String} {n n₀ n₁ m : Supply} {s s₀ s₁ s₂ : Subst}
  {ss : List Subst} {t u τ : Ty} {ts : List Ty} {k j : String} {e : Expr}

structure Steady (env : TypeEnv) (n m : Supply) (e : Expr) (s : Subst) (t : Ty) : Prop where
  solved : s.Solved
  within : s.Within (· < m.next)
  vars : ∀ x ∈ t.vars, x < m.next
  uses : ∀ k u τ, env.get? k = some (.mono u) → Uses k env n e τ → s.apply τ = s.apply u

theorem Steady.part (h : Steady env n n₁ e s t) (hm : n₁.Reaches m) :
    s.Solved ∧ s.Within (· < m.next) :=
  ⟨h.solved, h.within.mono fun _ => hm.lt_next⟩

theorem Steady.vars_lt (h : Steady env n n₁ e s t) (hm : n₁.Reaches m) : ∀ x ∈ t.vars, x < m.next :=
  fun x hx => hm.lt_next (h.vars x hx)

def RunsSteady (e : Expr) : Prop :=
  ∀ {scope env n s t m}, Runs (e.infer env) n (s, t) m → env.Prior scope n → e.PatternsNew scope →
    Steady env n m e s t

theorem part_composeAll (hss : ∀ p ∈ ss, p.Solved ∧ p.Within (· < m.next))
    (h : Subst.composeAll ss = .ok s) :
    (s.Solved ∧ s.Within (· < m.next)) ∧ ∀ p ∈ ss, s.Absorbs p :=
  have solved : ∀ p ∈ ss, p.Solved := fun p hp => (hss p hp).left
  ⟨⟨Subst.composeAll_join solved |>.solved h, .composeAll solved (fun p hp => (hss p hp).right) h⟩,
    .composeAll solved h⟩

theorem part_compose (h₁ : s₁.Within (· < m.next)) (h₂ : s₂.Solved ∧ s₂.Within (· < m.next))
    (h : s₁.compose s₂ = .ok s) :
    (s.Solved ∧ s.Within (· < m.next)) ∧ s.Absorbs s₁ ∧ s.Absorbs s₂ :=
  ⟨⟨Subst.compose_join s₁ h₂.left |>.solved h, .compose h₂.left h₁ h₂.right h⟩,
    Subst.Absorbs.compose h₂.left h⟩

theorem steady_lam {p : Pattern} {body : Expr} (ih : RunsSteady body) :
    RunsSteady (lam p body) := by
  intro scope env n s t m hr he hp
  obtain ⟨env', pt, n₁, bt, r₁, r₂, rfl⟩ := runs_lam hr
  obtain ⟨δ, hb, hpt⟩ := Pattern.exists_declares r₁ (he.get?_of_new hp.left) he.old
  obtain rfl := hb.env_eq
  have he' := he.declareAll r₁.reaches fun k hk x hx => (hb.taken k hk x hx).right
  have h := ih r₂ he' hp.right
  refine ⟨h.solved, h.within, h.within.apply fun x hx => ?_, fun k u τ hk hu => ?_⟩
  · simp only [Ty.vars_arrow, List.mem_append] at hx
    exact hx.elim (fun hx => r₂.reaches.lt_next (hpt x hx).right) (h.vars x)
  · cases hu with | lam hp hn hu =>
    cases r₁.eq.symm.trans hp
    exact h.uses k u τ (by simpa [hn] using hk) hu

theorem steady_binop {op : Option Op} {l r : Expr} (ihl : RunsSteady l) (ihr : RunsSteady r) :
    RunsSteady (binop op l r) := by
  intro scope env n s t m hr he hp
  obtain ⟨o, s₁, lt, n₁, s₂, rt, ss, rfl, r₁, r₂, ho, hc⟩ := runs_binop hr
  have h₁ := ihl r₁ he hp.left
  have h₂ := ihr r₂ (he.mono r₁.reaches) hp.right
  have left := h₁.vars_lt r₂.reaches
  have parts : ∀ p ∈ ss, p.Solved ∧ p.Within (· < m.next) := by
    cases ho <;> simp only [List.forall_mem_cons]
    case arithmetic u₁ u₂ =>
      exact ⟨part_unify u₁ left (by simp), part_unify u₂ h₂.vars (by simp), by simp⟩
    case relation u => exact ⟨part_unify u left h₂.vars, by simp⟩
  obtain ⟨⟨solved, within⟩, absorbs⟩ := part_composeAll (List.forall_mem_cons.mpr
    ⟨h₁.part r₂.reaches, List.forall_mem_cons.mpr ⟨h₂.part (.refl m), parts⟩⟩) hc
  simp only [List.forall_mem_cons] at absorbs
  refine ⟨solved, within, by cases ho <;> simp, fun k u τ hk hu => ?_⟩
  cases hu
  case binopLeft hu => exact absorbs.1.apply_eq (h₁.uses k u τ hk hu)
  case binopRight hl hu =>
    cases r₁.eq.symm.trans hl
    exact absorbs.2.1.apply_eq (h₂.uses k u τ hk hu)

theorem steady_cons {hd tl : Expr} (ihh : RunsSteady hd) (iht : RunsSteady tl) :
    RunsSteady (cons hd tl) := by
  intro scope env n s t m hr he hp
  obtain ⟨s₁, ht, n₁, s₂, tt, s₃, r₁, r₂, hu, hc, rfl⟩ := runs_cons hr
  have h₁ := ihh r₁ he hp.left
  have h₂ := iht r₂ (he.apply r₁.reaches h₁.within) hp.right
  have h₃ : s₃.Solved ∧ s₃.Within (· < m.next) :=
    part_unify hu (by simpa using h₁.vars_lt r₂.reaches) h₂.vars
  obtain ⟨⟨solved, within⟩, absorbs⟩ :=
    part_composeAll (by simpa using ⟨h₁.part r₂.reaches, h₂.part (.refl m), h₃⟩) hc
  simp only [List.forall_mem_cons] at absorbs
  refine ⟨solved, within, within.apply h₂.vars, fun k u τ hk hu => ?_⟩
  cases hu
  case consHead hu => exact absorbs.1.apply_eq (h₁.uses k u τ hk hu)
  case consTail hh hu =>
    cases r₁.eq.symm.trans hh
    exact absorbs.2.1.apply_eq_after absorbs.1 (h₂.uses k _ τ (by simp [hk]) hu)

theorem steady_cond {c y f : Expr} (ihc : RunsSteady c) (ihy : RunsSteady y) (ihf : RunsSteady f) :
    RunsSteady (cond c y f) := by
  intro scope env n s t m hr he hp
  obtain ⟨s₁, ct, n₁, s₂, yt, n₂, s₃, ft, s₄, s₅, r₁, r₂, r₃, hu, hv, hc, rfl⟩ := runs_cond hr
  obtain ⟨hp₁, hp₂, hp₃⟩ := hp
  have hm := r₂.reaches.trans r₃.reaches
  have h₁ := ihc r₁ he hp₁
  have h₂ := ihy r₂ (he.mono r₁.reaches) hp₂
  have h₃ := ihf r₃ (he.mono (r₁.reaches.trans r₂.reaches)) hp₃
  have h₄ : s₄.Solved ∧ s₄.Within (· < m.next) := part_unify hu (h₁.vars_lt hm) (by simp)
  have h₅ : s₅.Solved ∧ s₅.Within (· < m.next) := part_unify hv (h₂.vars_lt r₃.reaches) h₃.vars
  obtain ⟨⟨solved, within⟩, absorbs⟩ := part_composeAll
    (by simpa using ⟨h₁.part hm, h₂.part r₃.reaches, h₃.part (.refl m), h₄, h₅⟩) hc
  simp only [List.forall_mem_cons] at absorbs
  refine ⟨solved, within, within.apply h₃.vars, fun k u τ hk hu => ?_⟩
  cases hu
  case condTest hu => exact absorbs.1.apply_eq (h₁.uses k u τ hk hu)
  case condYes hc hu =>
    cases r₁.eq.symm.trans hc
    exact absorbs.2.1.apply_eq (h₂.uses k u τ hk hu)
  case condNo hc hy hu =>
    cases r₁.eq.symm.trans hc
    cases r₂.eq.symm.trans hy
    exact absorbs.2.2.1.apply_eq (h₃.uses k u τ hk hu)

theorem steady_app {f a : Expr} (ihf : RunsSteady f) (iha : RunsSteady a) :
    RunsSteady (app f a) := by
  intro scope env n s t m hr he hp
  obtain ⟨s₁, ft, n₁, s₂, aty, n₂, s₃, r₁, r₂, hn, rfl, hu, hc, rfl⟩ := runs_app hr
  have h₁ := ihf r₁ he hp.left
  have h₂ := iha r₂ (he.apply r₁.reaches h₁.within) hp.right
  have ret : n₂.next < (n₂.drop 1).next := (Supply.Taken.next hn).right
  have fn : ∀ x ∈ (s₂.apply ft).vars, x < n₂.next := h₂.within.apply (h₁.vars_lt r₂.reaches)
  have h₃ : s₃.Solved ∧ s₃.Within (· < (n₂.drop 1).next) := by
    refine part_unify hu (fun x hx => hn.lt_next (fn x hx)) fun x hx => ?_
    simp only [Ty.vars_arrow, Ty.vars_var, List.mem_append, List.mem_singleton] at hx
    exact hx.elim (h₂.vars_lt hn x) (· ▸ ret)
  obtain ⟨⟨solved, within⟩, absorbs⟩ :=
    part_composeAll (by simpa using ⟨h₁.part (r₂.reaches.trans hn), h₂.part hn, h₃⟩) hc
  simp only [List.forall_mem_cons] at absorbs
  refine ⟨solved, within, within.image ret, fun k u τ hk hu => ?_⟩
  cases hu
  case appFn hu => exact absorbs.1.apply_eq (h₁.uses k u τ hk hu)
  case appArg hf hu =>
    cases r₁.eq.symm.trans hf
    exact absorbs.2.1.apply_eq_after absorbs.1 (h₂.uses k _ τ (by simp [hk]) hu)

theorem Steady.body (env : TypeEnv) (j : String) {body : Expr} (h : Steady env' n₁ m body s₂ t)
    (h₁ : s₁.Within (· < n₁.next)) (hm : n₁.Reaches m) (hc : s₁.compose s₂ = .ok s)
    (hk : ∀ k ≠ j, env'.get? k = (env.get? k).map (·.apply s₁)) :
    (s.Solved ∧ s.Within (· < m.next)) ∧ s.Absorbs s₁ ∧ ∀ k u τ, k ≠ j →
      env.get? k = some (.mono u) → Uses k env' n₁ body τ → s.apply τ = s.apply u := by
  obtain ⟨part, absorbs₁, absorbs₂⟩ :=
    part_compose (h₁.mono fun _ => hm.lt_next) (h.part (.refl m)) hc
  refine ⟨part, absorbs₁, fun k u τ hj hu hb => ?_⟩
  exact absorbs₂.apply_eq_after absorbs₁ (h.uses k _ τ (by rw [hk k hj, hu]; simp) hb)

theorem steady_letIn {v body : Expr} (ihv : RunsSteady v) (ihb : RunsSteady body) :
    RunsSteady (letIn j v body) := by
  intro scope env n s t m hr he hp
  obtain ⟨s₁, env', n₁, s₂, r₁, r₂, hc⟩ := runs_letIn hr
  obtain ⟨tv, rv, rfl⟩ := runs_binding r₁
  have h₁ := ihv rv he hp.left
  have h₂ := ihb r₂ (he.apply rv.reaches h₁.within |>.declare_generalize) hp.right
  obtain ⟨⟨solved, within⟩, absorbs, body⟩ := h₂.body env j h₁.within r₂.reaches hc
    fun k hk => by simp [TypeEnv.get?_declare, hk]
  refine ⟨solved, within, h₂.vars, fun k u τ hk hu => ?_⟩
  cases hu
  case letValue hu => exact absorbs.apply_eq (h₁.uses k u τ hk hu)
  case letBody hj hb hu =>
    cases r₁.eq.symm.trans hb
    exact body k u τ hj hk hu

theorem steady_letRec {v body : Expr} (ihv : RunsSteady v) (ihb : RunsSteady body) :
    RunsSteady (letRec j v body) := by
  intro scope env n s t m hr he hp
  obtain ⟨s₁, env', n₁, s₂, r₁, r₂, hc⟩ := runs_letRec hr
  obtain ⟨sv, tv, su, hn, rv, hu, hcv, rfl⟩ := runs_recBinding v.grows_infer r₁
  have hv := ihv rv (he.declareMono hn) hp.left
  have self : n.next < n₁.next := rv.reaches.lt_next (Supply.Taken.next hn).right
  obtain ⟨⟨_, within₁⟩, absorbs₁, _⟩ :=
    part_compose hv.within (part_unify hu (hv.within.image self) hv.vars) hcv
  have h₂ := ihb r₂ (he.remove.apply r₁.reaches within₁ |>.declare_generalize) hp.right
  obtain ⟨⟨solved, within⟩, absorbs, body⟩ := h₂.body env j within₁ r₂.reaches hc
    fun k hk => by simp [TypeEnv.get?_declare, TypeEnv.get?_remove, hk]
  refine ⟨solved, within, h₂.vars, fun k u τ hk hu => ?_⟩
  cases hu
  case recValue hj hu =>
    exact (absorbs.trans absorbs₁).apply_eq <|
      hv.uses k u τ (by simp [TypeEnv.get?_declareMono, hj, hk]) hu
  case recBody hj hb hu =>
    cases r₁.eq.symm.trans hb
    exact body k u τ hj hk hu

structure Continues (Uses : String → Ty → Prop) (env : TypeEnv) (m : Supply) (s₀ s : Subst) :
    Prop where
  part : s.Solved ∧ s.Within (· < m.next)
  absorbs : s.Absorbs s₀
  uses : ∀ k u τ, env.get? k = some (.mono u) → Uses k τ → s.apply τ = s.apply u

theorem continues_inferElems {es : List Expr} (ih : ∀ a ∈ es, RunsSteady a)
    (hr : Runs (inferElems e env s₀ es) n (s, ts) m) (he : env.Prior scope n)
    (h₀ : s₀.Solved ∧ s₀.Within (· < n.next)) (hp : AllEachPattern Pattern.New scope es) :
    Continues (ElemUses · env s₀ n es) env m s₀ s ∧ ∀ t ∈ ts, ∀ x ∈ t.vars, x < m.next := by
  induction es generalizing s₀ n ts
  case nil =>
    obtain ⟨rfl, rfl, rfl⟩ := runs_inferElems_nil hr
    exact ⟨⟨h₀, .refl h₀.left, fun k u τ _ hu => by cases hu⟩, by simp⟩
  case cons a es ihs =>
    obtain ⟨s₁, t, n₁, s₂, ts', r₁, hc, r₂, rfl⟩ := runs_inferElems_cons hr
    obtain ⟨iha, ih⟩ := List.forall_mem_cons.mp ih
    have h₁ := iha r₁ (he.apply (.refl n) h₀.right) hp.left
    obtain ⟨part, absorbs₀, absorbs₁⟩ := part_compose
      (h₀.right.mono fun _ => r₁.reaches.lt_next) (h₁.part (.refl n₁)) hc
    obtain ⟨h₂, hts⟩ := ihs ih r₂ (he.mono r₁.reaches) part hp.right
    refine ⟨⟨h₂.part, h₂.absorbs.trans absorbs₀, fun k u τ hk hu => ?_⟩,
      List.forall_mem_cons.mpr ⟨h₁.vars_lt r₂.reaches, hts⟩⟩
    cases hu with
    | head hu =>
      exact h₂.absorbs.apply_eq <|
        absorbs₁.apply_eq_after absorbs₀ (h₁.uses k _ τ (by simp [hk]) hu)
    | tail ha hc' hu =>
      cases r₁.eq.symm.trans ha
      cases hc.symm.trans hc'
      exact h₂.uses k u τ hk hu

theorem continues_inferBranches {bs : List (Pattern × Expr)} {vt ret : Ty}
    (ih : ∀ b ∈ bs, RunsSteady b.2) (hr : Runs (inferBranches e env vt ret s₀ bs) n s m)
    (he : env.Prior scope n) (h₀ : s₀.Solved ∧ s₀.Within (· < n.next))
    (hvt : ∀ x ∈ vt.vars, x < n.next) (hret : ∀ x ∈ ret.vars, x < n.next)
    (hp : BranchEachPattern Pattern.New scope bs) :
    Continues (BranchUses · env vt ret s₀ n bs) env m s₀ s := by
  induction bs generalizing s₀ n
  case nil =>
    obtain ⟨rfl, rfl⟩ := runs_inferBranches_nil hr
    exact ⟨h₀, .refl h₀.left, fun k u τ _ hu => by cases hu⟩
  case cons b bs ihs =>
    obtain ⟨penv, pt, n₁, s₁, s₂, bt, n₂, s₃, s₄, rp, hu, rb, hv, hc, r⟩ :=
      runs_inferBranches_cons hr
    obtain ⟨⟨hf, hbf⟩, hp⟩ := hp
    obtain ⟨ihb, ih⟩ := List.forall_mem_cons.mp ih
    obtain ⟨δ, hb, hpt⟩ := Pattern.exists_declares rp (he.get?_of_new hf) he.old
    obtain rfl := hb.env_eq
    have declared : (env.declareAll b.1.names δ).Prior (b.1.names ++ scope) n₁ :=
      he.declareAll rp.reaches fun k hk x hx => (hb.taken k hk x hx).right
    have hn₂ := rp.reaches.trans rb.reaches
    have value : ∀ x ∈ (s₀.apply vt).vars, x < n₁.next :=
      fun x hx => rp.reaches.lt_next (h₀.right.apply hvt x hx)
    have h₁ : s₁.Solved ∧ s₁.Within (· < n₁.next) :=
      part_unify hu (fun x hx => (hpt x hx).right) value
    have h₂ := ihb rb (declared.apply (.refl n₁) h₁.right) hbf
    have h₃ : s₃.Solved ∧ s₃.Within (· < n₂.next) :=
      part_unify hv (fun x hx => hn₂.lt_next (h₀.right.apply hret x hx)) h₂.vars
    have later {p : Subst} {n : Supply} (hn : n.Reaches n₂) (h : p.Solved ∧ p.Within (· < n.next)) :
        p.Solved ∧ p.Within (· < n₂.next) := ⟨h.left, h.right.mono fun _ => hn.lt_next⟩
    obtain ⟨part, absorbs⟩ := part_composeAll
      (by simpa using ⟨later hn₂ h₀, later rb.reaches h₁, h₂.part (.refl n₂), h₃⟩) hc
    simp only [List.forall_mem_cons] at absorbs
    have rest := ihs ih r (he.mono hn₂) part (fun x hx => hn₂.lt_next (hvt x hx))
      (fun x hx => hn₂.lt_next (hret x hx)) hp
    refine ⟨rest.part, rest.absorbs.trans absorbs.1, fun k u τ hk hu' => ?_⟩
    cases hu' with
    | head hp' hn hu' h =>
      cases rp.eq.symm.trans hp'
      cases hu.symm.trans hu'
      exact rest.absorbs.apply_eq <|
        absorbs.2.2.1.apply_eq_after absorbs.2.1 (h₂.uses k _ τ (by simp [hn, hk]) h)
    | tail hp' hu' hb' hv' hc' h =>
      cases rp.eq.symm.trans hp'
      cases hu.symm.trans hu'
      cases rb.eq.symm.trans hb'
      cases hv.symm.trans hv'
      cases hc.symm.trans hc'
      exact rest.uses k u τ hk h

theorem steady_tuple {es : List Expr} (ih : ∀ a ∈ es, RunsSteady a) : RunsSteady (tuple es) := by
  intro scope env n s t m hr he hp
  obtain ⟨ts, r, rfl⟩ := runs_tuple hr
  obtain ⟨h, hts⟩ := continues_inferElems ih r he ⟨.empty, .empty⟩ hp
  rw [← Subst.apply_tuple]
  refine ⟨h.part.left, h.part.right, h.part.right.apply fun x hx => ?_, fun k u τ hk hu => ?_⟩
  · rw [Ty.vars_tuple] at hx
    obtain ⟨t, ht, hx⟩ := List.mem_flatMap.mp hx
    exact hts t ht x hx
  · cases hu with | tuple hu => exact h.uses k u τ hk hu

theorem steady_cases {v : Expr} {bs : List (Pattern × Expr)} (ihv : RunsSteady v)
    (ihb : ∀ b ∈ bs, RunsSteady b.2) : RunsSteady (cases v bs) := by
  intro scope env n s t m hr he hp
  obtain ⟨s₁, vt, n₁, r₁, hn, r₂, rfl⟩ := runs_cases hr
  have h₁ := ihv r₁ he hp.left
  have ret : n₁.next < (n₁.drop 1).next := (Supply.Taken.next hn).right
  have h := continues_inferBranches ihb r₂ (he.mono (r₁.reaches.trans hn)) (h₁.part hn)
    (h₁.vars_lt hn) (by simpa using ret) hp.right
  refine ⟨h.part.left, h.part.right, h.part.right.image (r₂.reaches.lt_next ret),
    fun k u τ hk hu => ?_⟩
  cases hu
  case casesValue hu => exact h.absorbs.apply_eq (h₁.uses k u τ hk hu)
  case casesBranch hv hu =>
    cases r₁.eq.symm.trans hv
    exact h.uses k u τ hk hu

theorem runs_steady (e : Expr) : RunsSteady e := by
  induction e
  case int =>
    intro scope env n s t m hr he hp
    cases hr.eq
    exact ⟨.empty, .empty, by simp, fun k u τ _ hu => by cases hu⟩
  case bool =>
    intro scope env n s t m hr he hp
    cases hr.eq
    exact ⟨.empty, .empty, by simp, fun k u τ _ hu => by cases hu⟩
  case var j =>
    intro scope env n s t m hr he hp
    obtain ⟨σ, hj, rfl, rfl, rfl⟩ := runs_var hr
    refine ⟨.empty, .empty, fun x hx => ?_, fun k u τ hk hu => ?_⟩
    · obtain hx | hx := Scheme.mem_vars_instantiate hr.reaches hx
      · exact hr.reaches.lt_next (he.old x (TypeEnv.mem_freeVars.mpr ⟨j, σ, hj, hx⟩))
      · exact hx.right
    · cases hu with | var h =>
      cases hk.symm.trans h
      rw [Scheme.instantiate_mono]
  case nil =>
    intro scope env n s t m hr he hp
    obtain ⟨rfl, rfl, rfl⟩ := runs_nil hr
    exact ⟨.empty, .empty, by simpa using (Supply.Taken.next hr.reaches).right,
      fun k u τ _ hu => by cases hu⟩
  case lam ih => exact steady_lam ih
  case binop ihl ihr => exact steady_binop ihl ihr
  case tuple ih => exact steady_tuple ih
  case cons ihh iht => exact steady_cons ihh iht
  case cond ihc ihy ihf => exact steady_cond ihc ihy ihf
  case app ihf iha => exact steady_app ihf iha
  case letIn ihv ihb => exact steady_letIn ihv ihb
  case letRec ihv ihb => exact steady_letRec ihv ihb
  case cases ihv ihb => exact steady_cases ihv ihb
  case hole k =>
    intro scope env n s t m hr
    cases k <;> cases hr.eq

end Steady

end Expr

namespace Pattern

-- A variable of a pattern quantifies what it did in scope before, which is nothing if it is new. If
-- it quantifies nothing, it has one type at all of its uses in a body whose patterns bind new
-- names. The body of a function is inferred in `env'`, that of a branch in `env'.apply r`.
theorem variables_monomorphic {p : Pattern} {env env' : TypeEnv} {n m : Supply} {t : Ty} {x : String}
    (h : p.infer env n = .ok (env', t) m) (hx : x ∈ p.names) :
    env'.quantified? x = some ((env.quantified? x).getD ∅) ∧
    ((∀ σ, env.get? x = some σ → σ.isMono) → ∃ u, env'.get? x = some (.mono u) ∧
      ∀ (r s : Subst) (body : Expr) (bt : Ty) (m' : Supply), body.PatternsNew env'.names →
        (∀ y ∈ (env'.apply r).freeVars, y < m.next) →
        Runs (body.infer (env'.apply r)) m (s, bt) m' →
        ∀ τ, body.Uses x (env'.apply r) m τ → s.apply τ = s.apply (r.apply u)) := by
  have quantified : env'.quantified? x = some ((env.quantified? x).getD ∅) := by
    simpa [hx] using p.ensures_quantifies env n (env', t) m h x
  refine ⟨quantified, fun hmono => ?_⟩
  have none : (env.quantified? x).getD ∅ = ∅ := by
    cases hσ : env.get? x <;> simp only [TypeEnv.quantified?, hσ, Option.map_none, Option.map_some]
    case none => rfl
    case some σ => exact Scheme.vars_of_isMono (hmono σ hσ)
  obtain ⟨u, hu⟩ := TypeEnv.get?_of_quantified?_empty (none ▸ quantified)
  refine ⟨u, hu, fun r s body bt m' hp old hr τ hτ => ?_⟩
  have steady := body.runs_steady hr ⟨TypeEnv.names_apply fun _ => id, old⟩ hp
  exact steady.uses x (r.apply u) τ (by simp [hu]) hτ

-- `(f 1, f)`
def applyThenPass : Expr :=
  .tuple [.app (.var "f") (.int 1), .var "f"]

def headEnv : TypeEnv :=
  (∅ : TypeEnv).declareMono "f" (.var 0)

def fromInt : Subst :=
  (∅ : Subst).insert 0 (.arrow .int (.var 2))

theorem variables_monomorphic_head :
    (cons (var "f") wildcard).infer ∅ {} = .ok (headEnv, .list (.var 0)) ⟨2, 2⟩ ∧
      (∃ t, applyThenPass.infer (headEnv.apply ∅) ⟨2, 2⟩ = .ok (fromInt, t) ⟨3, 3⟩) ∧
      applyThenPass.Uses "f" (headEnv.apply ∅) ⟨2, 2⟩ (.var 0) ∧
      applyThenPass.Uses "f" (headEnv.apply ∅) ⟨2, 2⟩ (.arrow .int (.var 2)) ∧
      fromInt.apply (.var 0) = fromInt.apply (.arrow .int (.var 2)) := by
  have h : (cons (var "f") wildcard).infer ∅ {} = .ok (headEnv, .list (.var 0)) ⟨2, 2⟩ := by cbv
  have body : applyThenPass.infer (headEnv.apply ∅) ⟨2, 2⟩ =
      .ok (fromInt, .tuple [.var 2, .arrow .int (.var 2)]) ⟨3, 3⟩ := by cbv
  have call : (Expr.app (.var "f") (.int 1)).infer ((headEnv.apply ∅).apply ∅) ⟨2, 2⟩ =
      .ok (fromInt, .var 2) ⟨3, 3⟩ := by cbv
  have first : applyThenPass.Uses "f" (headEnv.apply ∅) ⟨2, 2⟩ (.var 0) := by
    have hf : (headEnv.apply ∅).get? "f" = some (.mono (.var 0)) := by cbv
    exact .tuple (.head (.appFn (.var hf)))
  have second : applyThenPass.Uses "f" (headEnv.apply ∅) ⟨2, 2⟩ (.arrow .int (.var 2)) := by
    have hf : ((headEnv.apply ∅).apply fromInt).get? "f" =
        some (.mono (.arrow .int (.var 2))) := by cbv
    exact .tuple (.tail call (by cbv) (.head (.var hf)))
  have member : "f" ∈ (cons (var "f") wildcard).names := List.mem_singleton_self "f"
  obtain ⟨u, hu, uses⟩ := (variables_monomorphic h member).right fun σ hσ => by cases hσ
  have new : applyThenPass.PatternsNew headEnv.names := ⟨⟨trivial, trivial⟩, trivial, trivial⟩
  have old : ∀ y ∈ (headEnv.apply ∅).freeVars, y < (⟨2, 2⟩ : Supply).next := by
    have free : (headEnv.apply ∅).freeVars.members = [0] := by cbv
    intro y hy
    rw [SortedSet.mem_def, free, List.mem_singleton] at hy
    exact hy ▸ by decide
  have runs : Runs (applyThenPass.infer (headEnv.apply ∅)) ⟨2, 2⟩ _ ⟨3, 3⟩ :=
    ⟨body, 1, rfl, by decide⟩
  have one := uses ∅ fromInt applyThenPass _ _ new old runs
  exact ⟨h, ⟨_, body⟩, first, second, (one _ first).trans (one _ second).symm⟩

-- `let id = fun x -> x in fun id -> (id 1, id true)`
def shadowedId : Expr :=
  .letIn "id" (.lam (.var "x") (.var "x"))
    (.lam (.var "id")
      (.tuple [.app (.var "id") (.int 1), .app (.var "id") (.bool true)]))

-- `fun x -> fun y -> (x = y, fun (y :: []) -> x + 1, x && true)`
def rejoinedParam : Expr :=
  .lam (.var "x") (.lam (.var "y") (.tuple [.binop (some .eq) (.var "x") (.var "y"),
    .lam (.cons (.var "y") .nil) (.binop (some .add) (.var "x") (.int 1)),
    .binop (some .and) (.var "x") (.bool true)]))

def idEnv : TypeEnv :=
  (∅ : TypeEnv).declare "id" ⟨.ofList [0], .arrow (.var 0) (.var 0)⟩

-- A parameter may be polymorphic: one that has the name of a polymorphic variable in scope is that
-- variable. And a parameter of one type may be used at two, if a pattern in between speaks of a
-- name that is in scope.
theorem variables_not_monomorphic :
    (∃ t m, (var "id").infer idEnv ⟨1, 1⟩ = .ok (idEnv, t) m ∧
      (idEnv.quantified? "id").map (·.members) = some [0]) ∧
    (Context.infer {} ∅ shadowedId).1 =
      .ok (.arrow (.arrow (.var 0) (.var 0)) (.tuple [.int, .bool])) ∧
    (Context.infer {} ∅ rejoinedParam).1 =
      .ok (.arrow .bool (.arrow .bool (.tuple [.bool, .arrow (.list .int) .int, .bool]))) := by
  refine ⟨⟨.arrow (.var 0) (.var 0), ⟨1, 1⟩, by cbv, by cbv⟩, by cbv, by cbv⟩

end Pattern

end HindleyMilner
