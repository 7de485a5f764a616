import HindleyMilner.Proofs.Soundness

namespace HindleyMilner

open Infer

namespace Subst

variable {s s₁ s₂ : Subst} {R R' : TyVar → Ty}

structure SolvedBy (R : TyVar → Ty) (s : Subst) : Prop where
  solved : s.Solved
  holeFree : s.HoleFree
  solves : Solves R s

namespace SolvedBy

theorem empty : SolvedBy R ∅ :=
  ⟨.empty, .empty, .empty⟩

theorem congr (h : s.SolvedBy R) (hR : ∀ x, s.Mentions x → R' x = R x) : s.SolvedBy R' :=
  ⟨h.solved, h.holeFree, h.solves.congr fun x hx => (hR x hx).symm⟩

end SolvedBy

theorem Join.exists_solvedBy {C : (TyVar → Ty) → Prop} {V : TyVar → Prop} {F : Prop}
    {m : Except UnifyError Subst} (h : Join C V F m) (hf : F) (hR : C R) :
    ∃ s, m = .ok s ∧ s.SolvedBy R :=
  have ⟨s, hs⟩ := h.exists_ok hf hR
  ⟨s, hs, h.solved hs, h.holeFree hs hf, h.solves_iff hs |>.mpr hR⟩

namespace SolvedBy

theorem unify {a b : Ty} (ha : a.holeFree) (hb : b.holeFree) (h : a.subst R = b.subst R) :
    ∃ s, unify a b = .ok s ∧ s.SolvedBy R :=
  unify_join a b |>.exists_solvedBy ⟨ha, hb⟩ h

theorem compose (h₁ : s₁.SolvedBy R) (h₂ : s₂.SolvedBy R) :
    ∃ s, s₁.compose s₂ = .ok s ∧ s.SolvedBy R :=
  compose_join s₁ h₂.solved |>.exists_solvedBy ⟨h₁.holeFree, h₂.holeFree⟩ ⟨h₁.solves, h₂.solves⟩

theorem composeAll (ss : List Subst) (h : ∀ p ∈ ss, p.SolvedBy R) :
    ∃ s, composeAll ss = .ok s ∧ s.SolvedBy R :=
  composeAll_join (fun p hp => (h p hp).solved) |>.exists_solvedBy
    (fun p hp => (h p hp).holeFree) fun p hp => (h p hp).solves

end SolvedBy

end Subst

namespace Scheme

variable {R R' : TyVar → Ty} {σ σ' : Scheme} {s : Subst} {t τ : Ty} {x y : TyVar}

structure Covers (R : TyVar → Ty) (σ σ' : Scheme) : Prop where
  holeFree : σ.body.holeFree
  instances : ∀ τ, σ'.Instance τ → σ.InstanceAt R τ

namespace Covers

theorem mono (ht : t.holeFree) (h : t.subst R = τ) : Covers R (mono t) (mono τ) :=
  ⟨ht, by simp [h]⟩

theorem congr (h : Covers R σ σ') (hR : ∀ x ∈ σ.freeVars, R' x = R x) : Covers R' σ σ' :=
  ⟨h.holeFree, fun τ hτ => (h.instances τ hτ).congr fun x hx => (hR x hx).symm⟩

theorem apply (h : Covers R σ σ') (hs : s.SolvedBy R) (hc : NoCapture s σ) :
    Covers R (σ.apply s) σ' where
  holeFree := Ty.holeFree_subst h.holeFree fun x _ => by
    rw [Subst.image_without]
    split
    case isTrue => simp
    case isFalse => exact hs.holeFree.image x
  instances τ hτ := instanceAt_apply hs.solves hc |>.mpr (h.instances τ hτ)

theorem holeFree_instantiate (h : Covers R σ σ') (n : Supply) : (σ.instantiate n).1.holeFree :=
  Ty.holeFree_subst h.holeFree fun x _ => by split <;> simp

-- What comes in for a free variable of `σ` is free in `σ'`: it is there in all instances, also in
-- the one without quantified variables.
theorem mem_freeVars (h : Covers R σ σ') (hx : x ∈ σ.freeVars) (hy : y ∈ (R x).vars) :
    y ∈ σ'.freeVars := by
  let θ : TyVar → Ty := fun z => if z ∈ σ'.vars then .int else .var z
  have closed : σ'.Instance (σ'.body.subst θ) :=
    ⟨θ, fun z hz => if_neg (Scheme.mem_freeVars.mp hz).right, rfl⟩
  have ⟨φ, hφ, he⟩ := h.instances _ closed
  have hy' : y ∈ (σ'.body.subst θ).vars := by
    rw [← he]
    exact Ty.mem_vars_subst.mpr ⟨x, (Scheme.mem_freeVars.mp hx).left, hφ x hx ▸ hy⟩
  have ⟨z, hz, hyz⟩ := Ty.mem_vars_subst.mp hy'
  simp only [θ] at hyz
  split at hyz
  case isTrue => simp at hyz
  case isFalse hq =>
    obtain rfl : y = z := by simpa using hyz
    exact Scheme.mem_freeVars.mpr ⟨hz, hq⟩

end Covers

end Scheme

namespace TypeEnv

variable {R R' : TyVar → Ty} {env Γ : TypeEnv} {s : Subst} {t τ : Ty} {k : String} {ks : List String}
  {δ δ' : String → Ty} {x y : TyVar} {n : Supply} {P : TyVar → Prop}

abbrev Covers (R : TyVar → Ty) (env Γ : TypeEnv) : Prop :=
  Rel (Scheme.Covers R) env Γ

namespace Covers

theorem congr (h : Covers R env Γ) (hR : ∀ x ∈ env.freeVars, R' x = R x) : Covers R' env Γ :=
  h.imp fun k σ _ hk hσ => hσ.congr fun x hx => hR x (mem_freeVars.mpr ⟨k, σ, hk, hx⟩)

theorem apply (h : Covers R env Γ) (hs : s.SolvedBy R) (he : env.Safe P n) (hw : s.Within P) :
    Covers R (env.apply s) Γ :=
  Rel.apply h fun _ _ _ hk hσ => hσ.apply hs (he.noCapture hw hk)

theorem declareAll (h : Covers R env Γ) (hf : ∀ k ∈ ks, (δ k).holeFree)
    (hδ : ∀ k ∈ ks, (δ k).subst R = δ' k) :
    Covers R (env.declareAll ks δ) (Γ.declareAll ks δ') :=
  Rel.declareAll h fun k hk => .mono (hf k hk) (hδ k hk)

theorem declareMono (h : Covers R env Γ) (ht : t.holeFree) (hτ : t.subst R = τ) :
    Covers R (env.declareMono k t) (Γ.declareMono k τ) :=
  Rel.declare h (.mono ht hτ)

theorem mem_freeVars (h : Covers R env Γ) (hx : x ∈ env.freeVars) (hy : y ∈ (R x).vars) :
    y ∈ Γ.freeVars := by
  have ⟨k, σ, hk, hx⟩ := TypeEnv.mem_freeVars.mp hx
  have ⟨σ', hk', hσ⟩ := h.exists_right hk
  exact TypeEnv.mem_freeVars.mpr ⟨k, σ', hk', hσ.mem_freeVars hx hy⟩

theorem generalize (h : Covers R env Γ) (ht : t.holeFree) (hτ : t.subst R = τ) :
    Scheme.Covers R (env.generalize t) (Γ.generalize τ) := by
  refine ⟨ht, fun υ hυ => ?_⟩
  obtain ⟨φ, hφ, rfl⟩ := hυ
  subst hτ
  refine ⟨fun x => (R x).subst φ, fun x hx => ?_, (Ty.subst_subst _).symm⟩
  have ⟨hxt, hxe⟩ := mem_freeVars_generalize.mp hx
  refine Ty.subst_eq_self fun y hy => hφ y (mem_freeVars_generalize.mpr ⟨?_, h.mem_freeVars hxe hy⟩)
  exact Ty.mem_vars_subst.mpr ⟨x, hxt, hy⟩

end Covers

end TypeEnv

namespace Expr

variable {env Γ : TypeEnv} {scope : List String} {n n₁ m : Supply} {s s₁ s₂ : Subst} {t τ : Ty}
  {R R₁ R₂ : TyVar → Ty} {e : Expr}

-- A run that finds a type of which `τ` is an instance. The instance comes about by an assignment
-- that agrees with `R` on earlier variables.
structure Finds (e : Expr) (env : TypeEnv) (n : Supply) (R : TyVar → Ty) (τ : Ty) (s : Subst) (t : Ty)
    (m : Supply) (R' : TyVar → Ty) : Prop extends Scoped env n m s t where
  runs : Runs (e.infer env) n (s, t) m
  solvedBy : s.SolvedBy R'
  holeFree : t.holeFree
  agrees : AgreeBefore n R R'
  subst : t.subst R' = τ

namespace Finds

theorem later (h : Finds e env n R τ s t m R₁) (he : env.Ready scope n)
    (hR : AgreeBefore m R₁ R₂) : Finds e env n R τ s t m R₂ where
  toScoped := h.toScoped
  runs := h.runs
  solvedBy := h.solvedBy.congr fun x hx => hR x (he.lt_of_known h.runs.reaches (h.within x hx))
  holeFree := h.holeFree
  agrees := h.agrees.trans h.runs.reaches hR
  subst := (hR.subst fun x hx => he.lt_of_known h.runs.reaches (h.vars x hx)).trans h.subst

theorem covers (h : Finds e env n R τ s t m R₁) (hc : env.Covers R Γ) (he : env.Ready scope n) :
    env.Covers R₁ Γ :=
  hc.congr fun x hx => h.agrees x (he.old x hx)

theorem covers_apply (h : Finds e env n R τ s t m R₁) (hc : env.Covers R Γ) (he : env.Ready scope n) :
    (env.apply s).Covers R₁ Γ :=
  (h.covers hc he).apply h.solvedBy (he.safe h.runs.reaches) h.within

end Finds

def FindsTypes (e : Expr) : Prop :=
  ∀ {scope env Γ n R τ}, Typing Γ e τ → env.Covers R Γ → env.Ready scope n → e.PatternsFresh scope →
    Fits (e.infer env) n → ∃ s t m R', Finds e env n R τ s t m R'

theorem exists_assignment (R : TyVar → Ty) (n : Supply) (τ : Ty) :
    ∃ R', AgreeBefore n R R' ∧ R' n.next = τ :=
  ⟨Function.update R n.next τ, .update n R τ, by simp⟩

theorem finds_app {f a : Expr} (ihf : FindsTypes f) (iha : FindsTypes a) : FindsTypes (app f a) := by
  intro scope env Γ n R υ h hc he hp hw
  cases h
  case app τ ha hf =>
    have ⟨w₁, hw⟩ := fits_app hw
    have ⟨s₁, ft, n₁, R₁, f₁⟩ := ihf hf hc he hp.left w₁
    have ⟨w₂, hw⟩ := hw s₁ ft n₁ f₁.runs.eq
    have he₁ := he.apply f₁.within f₁.runs.reaches
    have ⟨s₂, aty, n₂, R₂, f₂⟩ := iha ha (f₁.covers_apply hc he) he₁ hp.right w₂
    have hn := hw s₂ aty n₂ f₂.runs.eq
    have ⟨R', agrees, ret⟩ := exists_assignment R₂ n₂ υ
    have f₂ := f₂.later he₁ agrees
    have f₁ := f₁.later he f₂.agrees
    have same : (s₂.apply ft).subst R' = (Ty.arrow aty (.var n₂.next)).subst R' := by
      rw [f₂.solvedBy.solves.subst_apply, f₁.subst, Ty.subst_arrow, f₂.subst, Ty.subst_var, ret]
    have ⟨s₃, hu, h₃⟩ := Subst.SolvedBy.unify (f₂.solvedBy.holeFree.apply f₁.holeFree)
      (by simpa using f₂.holeFree) same
    have ⟨s, hs, h⟩ := Subst.SolvedBy.composeAll [s₁, s₂, s₃] (R := R')
      (by simpa using ⟨f₁.solvedBy, f₂.solvedBy, h₃⟩)
    have runs : Runs ((app f a).infer env) n (s, s.image n₂.next) (n₂.drop 1) :=
      ⟨by simp [infer, f₁.runs.eq, f₂.runs.eq, hu, hs],
        f₁.runs.reaches.trans f₂.runs.reaches |>.trans hn⟩
    have result : (s.image n₂.next).subst R' = υ := (h.solves.subst_image _).trans ret
    exact ⟨s, _, _, R', runs_scoped _ runs he hp, runs, h, h.holeFree.image _, f₁.agrees, result⟩

theorem finds_lam {p : Pattern} {body : Expr} (ih : FindsTypes body) : FindsTypes (lam p body) := by
  intro scope env Γ n R υ h hc he hp hw
  cases h
  case lam ρ τ υ hpt hb =>
    have ⟨w₁, hw⟩ := fits_lam hw
    have ⟨env', pt, n₁, δ, R₁, hP⟩ := Pattern.exists_principal (R := R) hpt (he.newIn hp.left)
      he.old w₁
    obtain rfl := hP.bound.env_eq
    have hc₁ : (env.declareAll p.names δ).Covers R₁ (Γ.declareAll p.names ρ) :=
      .declareAll (hc.congr fun x hx => hP.agrees x (he.old x hx)) hP.bound.holeFree_names
        hP.subst_names
    have he₁ := he.declareAll hP.runs.reaches hP.bound.taken_names
    have ⟨s, bt, m, R₂, f⟩ := ih hb hc₁ he₁ hp.right (hw _ _ _ hP.runs.eq)
    have param : pt.subst R₂ = τ :=
      (f.agrees.subst fun x hx => (hP.bound.taken x hx).right).trans hP.subst
    have runs : Runs ((lam p body).infer env) n (s, s.apply (.arrow pt bt)) m :=
      ⟨by simp [infer, hP.runs.eq, f.runs.eq], hP.runs.reaches.trans f.runs.reaches⟩
    have agrees := hP.agrees.trans hP.runs.reaches f.agrees
    refine ⟨s, _, m, R₂, runs_scoped _ runs he hp, runs, f.solvedBy, ?_, agrees, ?_⟩
    · exact f.solvedBy.holeFree.apply (by simpa using ⟨hP.bound.holeFree, f.holeFree⟩)
    · rw [f.solvedBy.solves.subst_apply, Ty.subst_arrow, param, f.subst]

theorem not_isArithmetic {op : Op} (h : op.isComparison ∨ op.isBoolean) : ¬op.isArithmetic := by
  cases op <;> simp_all [Op.isArithmetic, Op.isComparison, Op.isBoolean]

theorem Typing.exists_opJoins {op : Option Op} {l r : Expr} {υ : Ty} (h : Typing Γ (binop op l r) υ) :
    ∃ o τ₁ τ₂, op = some o ∧ Typing Γ l τ₁ ∧ Typing Γ r τ₂ ∧
      ∀ (R : TyVar → Ty) (lt rt : Ty), lt.holeFree → rt.holeFree → lt.subst R = τ₁ → rt.subst R = τ₂ →
        ∃ ss, OpJoins o lt rt ss υ ∧ ∀ p ∈ ss, p.SolvedBy R := by
  cases h
  case arithmetic op ho hl hr =>
    refine ⟨op, .int, .int, rfl, hl, hr, fun R lt rt fl fr el er => ?_⟩
    have ⟨s₁, hu₁, h₁⟩ := Subst.SolvedBy.unify (R := R) (b := .int) fl (by simp) (by simpa using el)
    have ⟨s₂, hu₂, h₂⟩ := Subst.SolvedBy.unify (R := R) (b := .int) fr (by simp) (by simpa using er)
    exact ⟨[s₁, s₂], .arithmetic ho hu₁ hu₂, by simp [h₁, h₂]⟩
  case relation op τ ho hl hr =>
    refine ⟨op, τ, τ, rfl, hl, hr, fun R lt rt fl fr el er => ?_⟩
    have ⟨s, hu, h⟩ := Subst.SolvedBy.unify fl fr (el.trans er.symm)
    exact ⟨[s], .relation (not_isArithmetic ho) hu, by simp [h]⟩

theorem finds_binop {op : Option Op} {l r : Expr} (ihl : FindsTypes l) (ihr : FindsTypes r) :
    FindsTypes (binop op l r) := by
  intro scope env Γ n R υ h hc he hp hw
  obtain ⟨op, τ₁, τ₂, rfl, hl, hr, joins⟩ := h.exists_opJoins
  have ⟨w₁, hw⟩ := fits_binop hw
  have ⟨s₁, lt, n₁, R₁, f₁⟩ := ihl hl hc he hp.left w₁
  have he₁ := he.mono f₁.runs.reaches
  have ⟨s₂, rt, n₂, R₂, f₂⟩ := ihr hr (f₁.covers hc he) he₁ hp.right (hw _ _ _ f₁.runs.eq)
  have f₁ := f₁.later he f₂.agrees
  have ⟨ss, ho, hss⟩ := joins R₂ lt rt f₁.holeFree f₂.holeFree f₁.subst f₂.subst
  have ⟨s, hs, h⟩ := Subst.SolvedBy.composeAll (s₁ :: s₂ :: ss) (R := R₂)
    (by simpa using ⟨f₁.solvedBy, f₂.solvedBy, hss⟩)
  have runs : Runs ((binop (some op) l r).infer env) n (s, υ) n₂ :=
    ⟨by simp [infer, inferOp_eq_ok_iff.mpr ⟨ho, rfl⟩, f₁.runs.eq, f₂.runs.eq, hs],
      f₁.runs.reaches.trans f₂.runs.reaches⟩
  refine ⟨s, υ, n₂, R₂, runs_scoped _ runs he hp, runs, h, ?_, f₁.agrees, ?_⟩ <;> cases ho <;> simp

theorem finds_cons {hd tl : Expr} (ihh : FindsTypes hd) (iht : FindsTypes tl) :
    FindsTypes (cons hd tl) := by
  intro scope env Γ n R υ h hc he hp hw
  cases h
  case cons τ hh htl =>
    have ⟨w₁, hw⟩ := fits_cons hw
    have ⟨s₁, ht, n₁, R₁, f₁⟩ := ihh hh hc he hp.left w₁
    have he₁ := he.apply f₁.within f₁.runs.reaches
    have ⟨s₂, tt, n₂, R₂, f₂⟩ := iht htl (f₁.covers_apply hc he) he₁ hp.right (hw _ _ _ f₁.runs.eq)
    have f₁ := f₁.later he f₂.agrees
    have same : (Ty.list ht).subst R₂ = tt.subst R₂ := by rw [Ty.subst_list, f₁.subst, f₂.subst]
    have ⟨s₃, hu, h₃⟩ := Subst.SolvedBy.unify (by simpa using f₁.holeFree) f₂.holeFree same
    have ⟨s, hs, h⟩ := Subst.SolvedBy.composeAll [s₁, s₂, s₃] (R := R₂)
      (by simpa using ⟨f₁.solvedBy, f₂.solvedBy, h₃⟩)
    have runs : Runs ((cons hd tl).infer env) n (s, s.apply tt) n₂ :=
      ⟨by simp [infer, f₁.runs.eq, f₂.runs.eq, hu, hs], f₁.runs.reaches.trans f₂.runs.reaches⟩
    have result : (s.apply tt).subst R₂ = .list τ := (h.solves.subst_apply tt).trans f₂.subst
    exact ⟨s, _, n₂, R₂, runs_scoped _ runs he hp, runs, h, h.holeFree.apply f₂.holeFree, f₁.agrees,
      result⟩

theorem finds_cond {c y f : Expr} (ihc : FindsTypes c) (ihy : FindsTypes y) (ihf : FindsTypes f) :
    FindsTypes (cond c y f) := by
  intro scope env Γ n R υ h hc he hp hw
  obtain ⟨hp₁, hp₂, hp₃⟩ := id hp
  cases h
  case cond tc ty tf =>
    have ⟨w₁, hw⟩ := fits_cond hw
    have ⟨s₁, ct, n₁, R₁, f₁⟩ := ihc tc hc he hp₁ w₁
    have ⟨w₂, hw⟩ := hw s₁ ct n₁ f₁.runs.eq
    have he₁ := he.mono f₁.runs.reaches
    have hc₁ := f₁.covers hc he
    have ⟨s₂, yt, n₂, R₂, f₂⟩ := ihy ty hc₁ he₁ hp₂ w₂
    have he₂ := he₁.mono f₂.runs.reaches
    have ⟨s₃, ft, n₃, R₃, f₃⟩ := ihf tf (f₂.covers hc₁ he₁) he₂ hp₃ (hw _ _ _ f₂.runs.eq)
    have f₂ := f₂.later he₁ f₃.agrees
    have f₁ := f₁.later he f₂.agrees
    have ⟨s₄, hu, h₄⟩ := Subst.SolvedBy.unify (R := R₃) (b := .bool) f₁.holeFree (by simp)
      (by simpa using f₁.subst)
    have ⟨s₅, hv, h₅⟩ := Subst.SolvedBy.unify f₂.holeFree f₃.holeFree (f₂.subst.trans f₃.subst.symm)
    have ⟨s, hs, h⟩ := Subst.SolvedBy.composeAll [s₁, s₂, s₃, s₄, s₅] (R := R₃)
      (by simpa using ⟨f₁.solvedBy, f₂.solvedBy, f₃.solvedBy, h₄, h₅⟩)
    have runs : Runs ((cond c y f).infer env) n (s, s.apply ft) n₃ :=
      ⟨by simp [infer, f₁.runs.eq, f₂.runs.eq, f₃.runs.eq, hu, hv, hs],
        f₁.runs.reaches.trans f₂.runs.reaches |>.trans f₃.runs.reaches⟩
    have result : (s.apply ft).subst R₃ = υ := (h.solves.subst_apply ft).trans f₃.subst
    exact ⟨s, _, n₃, R₃, runs_scoped _ runs he hp, runs, h, h.holeFree.apply f₃.holeFree, f₁.agrees,
      result⟩

section Let

variable {env' : TypeEnv} {k : String} {v body : Expr} {υ : Ty}

theorem Finds.afterBinding (hb : Binds scope env k n n₁ s₁ env') (he : env.Ready scope n)
    (hn : n.Reaches n₁) (h₁ : s₁.SolvedBy R₁) (hR : AgreeBefore n R R₁)
    (f : Finds body env' n₁ R₁ υ s₂ t m R₂)
    (hr : ∀ s, s₁.compose s₂ = .ok s → e.infer env n = .ok (s, t) m) :
    ∃ s, Finds e env n R υ s t m R₂ := by
  have old : ∀ x, s₁.Mentions x → x < n₁.next := fun x hx => he.lt_of_known hn (hb.within x hx)
  have ⟨s, hs, h⟩ := (h₁.congr fun x hx => f.agrees x (old x hx)).compose f.solvedBy
  exact ⟨s, hb.body he.prior hn f.runs.reaches f.toScoped hs, ⟨hr s hs, hn.trans f.runs.reaches⟩, h,
    f.holeFree, hR.trans hn f.agrees, f.subst⟩

theorem finds_letIn (ihv : FindsTypes v) (ihb : FindsTypes body) : FindsTypes (letIn k v body) := by
  intro scope env Γ n R υ h hc he hp hw
  cases h
  case letIn τ hv hb =>
    have ⟨w₁, hw⟩ := fits_letIn hw
    have ⟨s₁, tv, n₁, R₁, f₁⟩ := ihv hv hc he hp.left w₁
    have binds := f₁.toScoped.binds (k := k) he.prior f₁.runs.reaches
    have hc₁ := f₁.covers_apply hc he
    have eq := binding_eq_ok_iff (x := k) v.infer |>.mpr ⟨tv, f₁.runs.eq, rfl⟩
    have ⟨s₂, t, m, R₂, f₂⟩ := ihb hb (hc₁.declare (hc₁.generalize f₁.holeFree f₁.subst)) (binds.ready he)
      hp.right (hw _ _ _ eq)
    have ⟨s, f⟩ := f₂.afterBinding binds he f₁.runs.reaches f₁.solvedBy f₁.agrees (e := letIn k v body)
      fun s hs => by simp [infer, eq, f₂.runs.eq, hs]
    exact ⟨s, t, m, R₂, f⟩

theorem finds_letRec (ihv : FindsTypes v) (ihb : FindsTypes body) : FindsTypes (letRec k v body) := by
  intro scope env Γ n R υ h hc he hp hw
  cases h
  case letRec τ hv hb =>
    have ⟨hn, w₁, hw⟩ := fits_letRec hw
    have ⟨R₀, agrees, self⟩ := exists_assignment R n τ
    have hc₀ : env.Covers R₀ Γ := hc.congr fun x hx => agrees x (he.old x hx)
    have ⟨s₁, tv, n₁, R₁, f₁⟩ := ihv hv (hc₀.declareMono (by simp) (by simpa using self))
      (he.declareMono hn) hp.left w₁
    have agrees := agrees.trans hn f₁.agrees
    have same : (s₁.image n.next).subst R₁ = tv.subst R₁ := by
      rw [f₁.solvedBy.solves.subst_image, f₁.subst, f₁.agrees _ (Supply.Taken.next hn).right, self]
    have ⟨s₂, hu, h₂⟩ := Subst.SolvedBy.unify (f₁.solvedBy.holeFree.image _) f₁.holeFree same
    have ⟨s, hs, h⟩ := f₁.solvedBy.compose h₂
    have value := f₁.toScoped.recursive hn f₁.runs.reaches hu hs
    have hr := hn.trans f₁.runs.reaches
    have binds := (value.binds (k := k) he.remove.prior hr).of_remove
    have hc₁ : ((env.remove k).apply s).Covers R₁ (Γ.remove k) :=
      .apply (.congr (.remove hc) fun x hx => agrees x (he.remove.old x hx)) h (he.remove.safe hr)
        value.within
    have gen := hc₁.generalize (h.holeFree.apply f₁.holeFree)
      ((h.solves.subst_apply tv).trans f₁.subst)
    have eq := recBinding_eq_ok_iff v v.infer |>.mpr
      ⟨s₁, tv, s₂, f₁.runs.eq, hu, hs, rfl⟩
    rw [← TypeEnv.declare_remove] at hb
    have ⟨s₃, t, m, R₂, f₂⟩ := ihb hb (hc₁.declare gen) (binds.ready he) hp.right (hw _ _ _ eq)
    have ⟨s', f⟩ := f₂.afterBinding binds he hr h agrees (e := letRec k v body)
      fun s hs => by simp [infer, eq, f₂.runs.eq, hs]
    exact ⟨s', t, m, R₂, f⟩

end Let

section Loops

variable {n₀ : Supply} {s₀ : Subst} {υ : Ty}

theorem finds_inferElems {es : List Expr} {τs : List Ty} (ih : ∀ a ∈ es, FindsTypes a)
    (h : TypingAll Γ es τs) (hc : env.Covers R Γ) (he : env.Ready scope n₀) (hn : n₀.Reaches n)
    (h₀ : s₀.SolvedBy R) (hk : s₀.Within (env.Known n₀ n))
    (hp : AllEachPattern Pattern.Fresh scope es) (hw : Fits (inferElems e env s₀ es) n) :
    ∃ s ts m R', Runs (inferElems e env s₀ es) n (s, ts) m ∧ s.SolvedBy R' ∧
      (∀ t ∈ ts, t.holeFree) ∧ AgreeBefore n R R' ∧ ts.map (·.subst R') = τs := by
  induction es generalizing s₀ n τs R <;> cases h
  case nil =>
    exact ⟨s₀, [], n, R, hw.runs (by simp [inferElems]), h₀, by simp, .refl n R, rfl⟩
  case cons a es ihs τ τs ha hes =>
    obtain ⟨iha, ih⟩ := List.forall_mem_cons.mp ih
    obtain ⟨w₁, hw⟩ := fits_inferElems_cons hw
    have he₁ := he.apply hk hn
    obtain ⟨s₁, t, n₁, R₁, f₁⟩ := iha ha (hc.apply h₀ (he.safe hn) hk) he₁ hp.left w₁
    have old : ∀ x ∈ env.freeVars, x < n.next :=
      fun x hx => Std.lt_of_lt_of_le (he.old x hx) hn.next_le
    obtain ⟨s₂, hs, h₂⟩ := (h₀.congr fun x hx => f₁.agrees x (he.lt_of_known hn (hk x hx))).compose
      f₁.solvedBy
    have within := f₁.within_compose hk hn f₁.runs.reaches hs
    obtain ⟨s, ts, m, R', r, h, hf, agrees, hts⟩ := ihs ih hes
      (hc.congr fun x hx => f₁.agrees x (old x hx)) (hn.trans f₁.runs.reaches) h₂ within hp.right
      (hw s₁ t n₁ s₂ f₁.runs.eq hs)
    have f₁ := f₁.later he₁ agrees
    refine ⟨s, t :: ts, m, R', ⟨?_, f₁.runs.reaches.trans r.reaches⟩, h,
      List.forall_mem_cons.mpr ⟨f₁.holeFree, hf⟩, f₁.agrees, ?_⟩
    · simp [inferElems, f₁.runs.eq, hs, r.eq]
    · rw [List.map_cons, f₁.subst, hts]

theorem finds_tuple {es : List Expr} (ih : ∀ a ∈ es, FindsTypes a) : FindsTypes (tuple es) := by
  intro scope env Γ n R υ h hc he hp hw
  cases h
  case tuple τs h =>
    have ⟨s, ts, m, R', r, h, hf, agrees, hts⟩ := finds_inferElems ih h hc he (.refl n) .empty .empty hp
      (fits_tuple hw)
    have runs : Runs ((tuple es).infer env) n (s, .tuple (ts.map s.apply)) m :=
      ⟨by simp [infer, r.eq], r.reaches⟩
    have scope := runs_scoped _ runs he hp
    rw [← Subst.apply_tuple] at runs scope
    refine ⟨s, _, m, R', scope, runs, h, h.holeFree.apply ?_, agrees, ?_⟩
    · simpa using hf
    · rw [h.solves.subst_apply, Ty.subst_tuple, hts]

structure Settled (env : TypeEnv) (n m : Supply) (R : TyVar → Ty) (t τ : Ty) : Prop where
  vars : ∀ x ∈ t.vars, env.Known n m x
  holeFree : t.holeFree
  subst : t.subst R = τ

theorem Settled.later (h : Settled env n n₁ R t τ) (he : env.Ready scope n) (hn : n.Reaches n₁)
    (hm : n₁.Reaches m) (hR : AgreeBefore n₁ R R₁) : Settled env n m R₁ t τ where
  vars x hx := (h.vars x hx).mono_right hm
  holeFree := h.holeFree
  subst := (hR.subst fun x hx => he.lt_of_known hn (h.vars x hx)).trans h.subst

theorem finds_inferBranches {bs : List (Pattern × Expr)} {vt ret : Ty}
    (ih : ∀ b ∈ bs, FindsTypes b.2) (h : BranchTyping Γ τ υ bs) (hc : env.Covers R Γ)
    (he : env.Ready scope n₀) (hn : n₀.Reaches n) (h₀ : s₀.SolvedBy R)
    (hk : s₀.Within (env.Known n₀ n)) (hvt : Settled env n₀ n R vt τ)
    (hret : Settled env n₀ n R ret υ) (hp : BranchEachPattern Pattern.Fresh scope bs)
    (hw : Fits (inferBranches e env vt ret s₀ bs) n) :
    ∃ s m R', Runs (inferBranches e env vt ret s₀ bs) n s m ∧ s.SolvedBy R' ∧
      AgreeBefore n R R' := by
  induction bs generalizing s₀ n R <;> cases h
  case nil => exact ⟨s₀, n, R, hw.runs (by simp [inferBranches]), h₀, .refl n R⟩
  case cons bs ihs p body ρ hpt hb hbs =>
    obtain ⟨⟨hf, hbf⟩, hp⟩ := hp
    obtain ⟨ihb, ih⟩ := List.forall_mem_cons.mp ih
    obtain ⟨w₁, hw⟩ := fits_inferBranches_cons hw
    have old : ∀ x ∈ env.freeVars, x < n.next := (he.mono hn).old
    -- The pattern.
    obtain ⟨penv, pt, n₁, δ, R₁, hP⟩ := Pattern.exists_principal (R := R) hpt
      ((he.mono hn).newIn hf) old w₁
    obtain rfl := hP.bound.env_eq
    have hn₁ := hn.trans hP.runs.reaches
    have h₀ := h₀.congr fun x hx => hP.agrees x (he.lt_of_known hn (hk x hx))
    have hvt₁ := hvt.later he hn hP.runs.reaches hP.agrees
    have hret₁ := hret.later he hn hP.runs.reaches hP.agrees
    have same : pt.subst R₁ = (s₀.apply vt).subst R₁ := by
      rw [hP.subst, h₀.solves.subst_apply, hvt₁.subst]
    obtain ⟨s₁, hu, h₁⟩ := Subst.SolvedBy.unify hP.bound.holeFree (h₀.holeFree.apply hvt.holeFree) same
    have join := scoped_pattern he.prior hn hk hvt.vars hP.bound.declares hP.bound.taken
      hP.runs.reaches hu
    have safe := safe_pattern he hn hP.bound.declares hP.runs.reaches
    have hc₁ : env.Covers R₁ Γ := hc.congr fun x hx => hP.agrees x (old x hx)
    have hcp : ((env.declareAll p.names δ).apply s₁).Covers R₁ (Γ.declareAll p.names ρ) :=
      .apply (hc₁.declareAll hP.bound.holeFree_names hP.subst_names) h₁ safe join.part.right
    -- The body, and its type as the result.
    obtain ⟨w₂, hw⟩ := hw _ pt n₁ s₁ hP.runs.eq hu
    obtain ⟨s₂, bt, n₂, R₂, f₂⟩ := ihb hb hcp (join.ready safe) hbf w₂
    have h₀ := h₀.congr fun x hx =>
      f₂.agrees x (he.lt_of_known hn₁ ((hk x hx).mono_right hP.runs.reaches))
    have h₁ := h₁.congr fun x hx => f₂.agrees x (he.lt_of_known hn₁ (join.part.right x hx))
    have hret₂ := hret₁.later he hn₁ f₂.runs.reaches f₂.agrees
    have same : (s₀.apply ret).subst R₂ = bt.subst R₂ := by
      rw [h₀.solves.subst_apply, hret₂.subst, f₂.subst]
    obtain ⟨s₃, hv, h₃⟩ := Subst.SolvedBy.unify (h₀.holeFree.apply hret.holeFree) f₂.holeFree same
    obtain ⟨s₄, hs, h₄⟩ := Subst.SolvedBy.composeAll [s₀, s₁, s₂, s₃] (R := R₂)
      (by simpa using ⟨h₀, h₁, f₂.solvedBy, h₃⟩)
    have branch := scoped_branch body.scoped_of_runs ⟨h₀.solved, hk⟩ hret.vars join
      (PatternsFresh.new hbf) hn hP.runs.reaches f₂.runs hv hs
    -- The other branches.
    have hn₂ := hP.runs.reaches.trans f₂.runs.reaches
    have agrees₂ := hP.agrees.trans hP.runs.reaches f₂.agrees
    obtain ⟨s, m, R', r, h, agrees⟩ := ihs ih hbs (hc.congr fun x hx => agrees₂ x (old x hx))
      (hn.trans hn₂) h₄ branch.right (hvt.later he hn hn₂ agrees₂) (hret.later he hn hn₂ agrees₂)
      hp (hw s₂ bt n₂ s₃ s₄ f₂.runs.eq hv hs)
    refine ⟨s, m, R', ⟨?_, hn₂.trans r.reaches⟩, h, agrees₂.trans hn₂ agrees⟩
    simp [inferBranches, hP.runs.eq, hu, f₂.runs.eq, hv, hs, r.eq]

theorem finds_cases {v : Expr} {bs : List (Pattern × Expr)} (ihv : FindsTypes v)
    (ihb : ∀ b ∈ bs, FindsTypes b.2) : FindsTypes (cases v bs) := by
  intro scope env Γ n R υ h hc he hp hw
  cases h
  case cases τ hv hb =>
    have ⟨w₁, hw⟩ := fits_cases hw
    have ⟨s₁, vt, n₁, R₁, f₁⟩ := ihv hv hc he hp.left w₁
    have ⟨hn, w₂⟩ := hw s₁ vt n₁ f₁.runs.eq
    have ⟨R₂, agrees, ret⟩ := exists_assignment R₁ n₁ υ
    have f₁ := f₁.later he agrees
    have known : env.Known n (n₁.drop 1) n₁.next :=
      .inr ((Supply.Taken.next hn).mono_left f₁.runs.reaches)
    have hvt : Settled env n (n₁.drop 1) R₂ vt τ :=
      ⟨fun x hx => (f₁.vars x hx).mono_right hn, f₁.holeFree, f₁.subst⟩
    have hret : Settled env n (n₁.drop 1) R₂ (.var n₁.next) υ :=
      ⟨by simpa using known, by simp, by simpa using ret⟩
    have ⟨s, m, R', r, h, agrees⟩ := finds_inferBranches ihb hb (f₁.covers hc he) he
      (f₁.runs.reaches.trans hn) f₁.solvedBy (f₁.part fun _ => .mono_right hn).right hvt hret hp.right
      w₂
    have runs : Runs ((cases v bs).infer env) n (s, s.image n₁.next) m :=
      ⟨by simp [infer, f₁.runs.eq, r.eq], f₁.runs.reaches.trans hn |>.trans r.reaches⟩
    have result : (s.image n₁.next).subst R' = υ := by
      rw [h.solves.subst_image, agrees _ (Supply.Taken.next hn).right, ret]
    exact ⟨s, _, m, R', runs_scoped _ runs he hp, runs, h, h.holeFree.image _,
      f₁.agrees.trans (f₁.runs.reaches.trans hn) agrees, result⟩

end Loops

theorem finds_types (e : Expr) : FindsTypes e := by
  induction e
  case int =>
    intro scope env Γ n R τ h hc he hp hw
    cases h
    have runs : Runs ((int _).infer env) n (∅, .int) n := hw.runs (by simp [infer])
    exact ⟨∅, .int, n, R, .empty (by simp), runs, .empty, by simp, .refl n R, by simp⟩
  case bool =>
    intro scope env Γ n R τ h hc he hp hw
    cases h
    have runs : Runs ((bool _).infer env) n (∅, .bool) n := hw.runs (by simp [infer])
    exact ⟨∅, .bool, n, R, .empty (by simp), runs, .empty, by simp, .refl n R, by simp⟩
  case var k =>
    intro scope env Γ n R τ h hc he hp hw
    cases h
    case var σ' hk' hτ =>
      obtain ⟨σ, hk, hσ⟩ := hc.exists_left hk'
      have old : ∀ x ∈ σ.freeVars, x < n.next := fun x hx =>
        he.old x (TypeEnv.mem_freeVars.mpr ⟨k, σ, hk, hx⟩)
      have runs : Runs ((var k).infer env) n (∅, (σ.instantiate n).1) (σ.instantiate n).2 :=
        hw.runs (by simp [infer, hk])
      obtain ⟨R', agrees, hR'⟩ := Scheme.exists_subst_instantiate old runs.reaches (hσ.instances τ hτ)
      exact ⟨∅, _, _, R', runs_scoped _ runs he hp, runs, .empty, hσ.holeFree_instantiate n,
        agrees, hR'⟩
  case nil =>
    intro scope env Γ n R τ h hc he hp hw
    cases h
    case nil τ =>
      obtain ⟨R', agrees, elem⟩ := exists_assignment R n τ
      have runs : Runs (nil.infer env) n (∅, .list (.var n.next)) (n.drop 1) :=
        hw.runs (by simp [infer])
      exact ⟨∅, _, _, R', runs_scoped _ runs he hp, runs, .empty, by simp, agrees, by simp [elem]⟩
  case lam ih => exact finds_lam ih
  case binop ihl ihr => exact finds_binop ihl ihr
  case tuple ih => exact finds_tuple ih
  case cons ihh iht => exact finds_cons ihh iht
  case cond ihc ihy ihf => exact finds_cond ihc ihy ihf
  case app ihf iha => exact finds_app ihf iha
  case letIn ihv ihb => exact finds_letIn ihv ihb
  case letRec ihv ihb => exact finds_letRec ihv ihb
  case cases ihv ihb => exact finds_cases ihv ihb
  case hole =>
    intro scope env Γ n R τ h
    cases h

structure PrincipalType (env : TypeEnv) (e : Expr) (t : Ty) : Prop where
  typing : Typing env e t
  instances : ∀ τ, Typing env e τ → ∃ r : Subst, r.apply t = τ

end Expr

namespace TypeEnv

def HoleFree (env : TypeEnv) : Prop :=
  ∀ k σ, env.get? k = some σ → σ.body.holeFree

theorem HoleFree.empty : HoleFree ∅ :=
  nofun

theorem Closed.covers {env : TypeEnv} {R : TyVar → Ty} (h : env.Closed) (hf : env.HoleFree) :
    env.Covers R env :=
  .self fun k σ hk => ⟨hf k σ hk, fun _ hτ => hτ.congr fun x hx => absurd hx (h.not_mem hk x)⟩

end TypeEnv

theorem Subst.exists_apply_eq (R : TyVar → Ty) (t : Ty) : ∃ r : Subst, r.apply t = t.subst R := by
  have image (xs : List TyVar) : ∃ r : Subst, ∀ x ∈ xs, r.image x = R x := by
    induction xs
    case nil => exact ⟨∅, by simp⟩
    case cons y xs ih =>
      have ⟨r, hr⟩ := ih
      refine ⟨r.insert y (R y), fun x hx => ?_⟩
      rw [image_insert]
      split
      case isTrue hxy => rw [hxy]
      case isFalse hxy => exact hr x ((List.mem_cons.mp hx).resolve_left hxy)
  have ⟨r, hr⟩ := image t.vars
  exact ⟨r, Ty.subst_congr hr⟩

theorem Expr.Typing.exists_principalType {env : TypeEnv} {e : Expr} {τ : Ty} {scope : List String}
    {n : Supply} (h : Typing env e τ) (hc : env.Closed) (hf : env.HoleFree)
    (hk : ∀ k ∈ env.names, k ∈ scope) (hp : e.PatternsFresh scope) (hw : Fits (e.infer env) n) :
    ∃ s t m, Runs (e.infer env) n (s, t) m ∧ s.apply t = t ∧ e.PrincipalType env t := by
  have finds {υ : Ty} (h : Typing env e υ) :=
    e.finds_types (R := .var) h (hc.covers hf) (hc.ready hk) hp hw
  have ⟨s, t, m, _, f⟩ := finds h
  refine ⟨s, t, m, f.runs, f.normal, ?_, fun υ hυ => ?_⟩
  · exact f.normal ▸ Expr.typing_of_runs f.runs hc hk hp
  · have ⟨_, _, _, R, g⟩ := finds hυ
    cases f.runs.eq.symm.trans g.runs.eq
    have ⟨r, hr⟩ := Subst.exists_apply_eq R t
    exact ⟨r, hr.trans g.subst⟩

namespace Context

-- Inference is complete: if an expression has a type, then a principal one is found. So inference
-- fails on expressions without a type only.
theorem inference_complete (c : Context) (env : TypeEnv) (e : Expr) (hc : env.Closed)
    (hf : env.HoleFree) (hp : e.PatternsFresh env.names)
    (hw : (c.infer env e).2.varCount < 2 ^ 63) :
    (∀ τ, e.Typing env τ → ∃ t, (c.infer env e).1 = .ok t ∧ e.PrincipalType env t) ∧
      ∀ err, (c.infer env e).1 = .error err → ∀ τ, ¬e.Typing env τ := by
  have found (τ : Ty) (h : e.Typing env τ) :
      ∃ t, (c.infer env e).1 = .ok t ∧ e.PrincipalType env t := by
    have ⟨s, t, m, hr, hs, ht⟩ := h.exists_principalType hc hf (fun _ => id) hp
      (fits_of_varCount hc hw)
    exact ⟨t, by rw [infer_of_ok hr.eq, hs], ht⟩
  refine ⟨found, fun err herr τ h => ?_⟩
  have ⟨t, ht, _⟩ := found τ h
  cases herr.symm.trans ht

-- `let id = fun x -> x in id id`
def idOfId : Expr :=
  .letIn "id" (.lam (.var "x") (.var "x")) (.app (.var "id") (.var "id"))

def oneOfOne : Expr :=
  .app (.int 1) (.int 1)

theorem inference_complete_idOfId :
    idOfId.Typing ∅ (.arrow .int .int) ∧
      (∃ t, (infer {} ∅ idOfId).1 = .ok t ∧ idOfId.PrincipalType ∅ t) ∧
      (∃ err, (infer {} ∅ oneOfOne).1 = .error err) ∧ ∀ τ, ¬oneOfOne.Typing ∅ τ := by
  let identity : Ty := .arrow (.var 0) (.var 0)
  have poly (τ : Ty) : (TypeEnv.generalize ∅ identity).Instance (.arrow τ τ) := by
    refine ⟨fun _ => τ, fun x hx => ?_, by simp [identity, TypeEnv.generalize]⟩
    exact absurd (TypeEnv.mem_freeVars_generalize.mp hx).right (SortedSet.not_mem_empty x)
  have value : Expr.Typing ∅ (.lam (.var "x") (.var "x")) identity :=
    .lam (δ := fun _ => .var 0) (.var rfl) (.var rfl (Scheme.instance_mono.mpr rfl))
  have typing : idOfId.Typing ∅ (.arrow .int .int) :=
    .letIn value (.app (.var rfl (poly (.arrow .int .int))) (.var rfl (poly .int)))
  have fresh : idOfId.PatternsFresh [] := ⟨⟨⟨by decide, by decide⟩, trivial⟩, trivial, trivial⟩
  have found := inference_complete {} ∅ idOfId SortedSet.not_mem_empty .empty fresh (by cbv) |>.left
  have failed : (infer {} ∅ oneOfOne).1.isOk = false := by cbv
  refine ⟨typing, found _ typing, ?_⟩
  cases h : (infer {} ∅ oneOfOne).1
  case ok => cases h ▸ failed
  case error err =>
    have none := inference_complete {} ∅ oneOfOne SortedSet.not_mem_empty .empty ⟨trivial, trivial⟩
      (by cbv)
    exact ⟨⟨err, rfl⟩, none.right err h⟩

def oddEnv : TypeEnv :=
  TypeEnv.declareMono ∅ "odd" (.hole (some "Opaque"))

def oddEqualsOdd : Expr :=
  .binop (some .eq) (.var "odd") (.var "odd")

-- The environment has to be without holes: a hole is not joined even with itself, so inference may
-- fail on an expression that has a type.
theorem inference_incomplete_at_hole :
    oddEnv.Closed ∧ oddEqualsOdd.PatternsFresh oddEnv.names ∧
      (infer {} oddEnv oddEqualsOdd).2.varCount < 2 ^ 63 ∧ oddEqualsOdd.Typing oddEnv .bool ∧
      ∀ t, (infer {} oddEnv oddEqualsOdd).1 ≠ .ok t := by
  have odd : Expr.Typing oddEnv (.var "odd") (.hole (some "Opaque")) :=
    .var rfl (Scheme.instance_mono.mpr rfl)
  have failed : (infer {} oddEnv oddEqualsOdd).1.isOk = false := by cbv
  refine ⟨SortedSet.not_mem_empty, ⟨trivial, trivial⟩, by cbv, .relation (.inl rfl) odd odd, ?_⟩
  intro t ht
  cases ht ▸ failed

end Context

end HindleyMilner
