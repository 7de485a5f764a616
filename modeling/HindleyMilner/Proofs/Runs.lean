import HindleyMilner.Context
import HindleyMilner.Proofs.Typing

namespace HindleyMilner

open Infer

theorem Infer.Grows.runs {ε α : Type} {x : Infer ε α} {n n₁ m : Supply} {a : α} (hx : Grows x)
    (h : x n = .ok a n₁) (hm : n₁.LeadsTo m) (hr : n.Reaches m) : Runs x n a n₁ ∧ n₁.Reaches m :=
  have ⟨hr₁, hr⟩ := hr.split (hx.leadsTo h) hm
  ⟨⟨h, hr₁⟩, hr⟩

namespace Pattern

@[grind ←]
theorem grows_inferAll {ps : List Pattern} (h : ∀ p ∈ ps, ∀ env, Grows (p.infer env))
    (env : TypeEnv) : Grows (inferAll env ps) := by
  induction ps generalizing env
  case nil => exact grows_pure
  case cons p ps ih =>
    have ⟨hp, h⟩ := List.forall_mem_cons.mp h
    exact (hp env).bind fun (env, _) => (ih h env).bind fun _ => grows_pure

@[grind .]
theorem grows_infer (p : Pattern) (env : TypeEnv) : Grows (p.infer env) := by
  induction p generalizing env <;> rw [infer]
  case wildcard => exact grows_freshTy.bind fun _ => grows_pure
  case int => exact grows_pure
  case bool => exact grows_pure
  case nil => exact grows_freshTy.bind fun _ => grows_pure
  case var x =>
    cases env.get? x
    case none => exact grows_freshTy.bind fun _ => grows_pure
    case some => exact grows_pure
  case cons ihh iht =>
    exact (ihh env).bind fun (env, _) => (iht env).bind fun _ => grows_constraint.bind fun _ =>
      grows_pure
  case tuple ih => exact (grows_inferAll ih env).bind fun _ => grows_pure
  case hole => exact grows_throw

section Runs

variable {env env' : TypeEnv} {n m : Supply} {t : Ty} {ts : List Ty} {x : String}

theorem runs_var (hx : env.get? x = none) (hr : Runs ((var x).infer env) n (env', t) m) :
    m = n.drop 1 ∧ env' = env.declareMono x (.var n.next) ∧ t = .var n.next := by
  have he := hr.eq
  simp only [infer, hx, bind_eq_ok_iff, freshTy_eq_ok_iff, pure_eq_ok_iff, Prod.mk.injEq] at he
  obtain ⟨_, _, ⟨rfl, rfl⟩, ⟨rfl, rfl⟩, rfl⟩ := he
  exact ⟨rfl, rfl, rfl⟩

theorem runs_cons {hd tl : Pattern} (hr : Runs ((cons hd tl).infer env) n (env', t) m) :
    ∃ env₁ ht n₁ env₂ tt s, Runs (hd.infer env) n (env₁, ht) n₁ ∧
      Runs (tl.infer env₁) n₁ (env₂, tt) m ∧ unify (.list ht) tt = .ok s ∧ env' = env₂.apply s ∧
      t = .list (s.apply ht) := by
  obtain ⟨he, hr⟩ := hr
  simp only [infer, bind_eq_ok_iff, Prod.exists, constraint_eq_ok_iff, pure_eq_ok_iff,
    Prod.mk.injEq] at he
  obtain ⟨env₁, ht, n₁, h₁, env₂, tt, n₂, h₂, s, _, ⟨hu, rfl⟩, ⟨rfl, rfl⟩, rfl⟩ := he
  obtain ⟨r₁, hr⟩ := (grows_infer hd env).runs h₁ ((grows_infer tl env₁).leadsTo h₂) hr
  exact ⟨env₁, ht, n₁, env₂, tt, s, r₁, ⟨h₂, hr⟩, hu, rfl, rfl⟩

theorem infer_tuple_eq_ok_iff {ps : List Pattern} :
    (tuple ps).infer env n = .ok (env', t) m ↔
      ∃ ts, inferAll env ps n = .ok (env', ts) m ∧ .tuple ts = t := by
  simp only [infer, bind_eq_ok_iff, Prod.exists, pure_eq_ok_iff, Prod.mk.injEq]
  constructor
  case mp =>
    rintro ⟨_, ts, _, h, ⟨rfl, rfl⟩, rfl⟩
    exact ⟨ts, h, rfl⟩
  case mpr =>
    rintro ⟨ts, h, rfl⟩
    exact ⟨env', ts, m, h, ⟨rfl, rfl⟩, rfl⟩

theorem runs_inferAll_cons {p : Pattern} {ps : List Pattern}
    (hr : Runs (inferAll env (p :: ps)) n (env', ts) m) :
    ∃ env₁ t n₁ ts', Runs (p.infer env) n (env₁, t) n₁ ∧ Runs (inferAll env₁ ps) n₁ (env', ts') m ∧
      ts = t :: ts' := by
  obtain ⟨he, hr⟩ := hr
  simp only [inferAll, bind_eq_ok_iff, Prod.exists, pure_eq_ok_iff, Prod.mk.injEq] at he
  obtain ⟨env₁, t, n₁, h₁, _, ts', n₂, h₂, ⟨rfl, rfl⟩, rfl⟩ := he
  have g := grows_inferAll (fun p _ => p.grows_infer) env₁ |>.leadsTo h₂
  obtain ⟨r₁, hr⟩ := (grows_infer p env).runs h₁ g hr
  exact ⟨env₁, t, n₁, ts', r₁, ⟨h₂, hr⟩, rfl⟩

end Runs

section Fits

variable {env : TypeEnv} {n : Supply} {p hd tl : Pattern} {ps : List Pattern}

theorem fits_cons (h : Fits ((cons hd tl).infer env) n) :
    Fits (hd.infer env) n ∧
      ∀ env₁ t n₁, hd.infer env n = .ok (env₁, t) n₁ → Fits (tl.infer env₁) n₁ := by
  rw [infer] at h
  have ⟨h₁, h⟩ := fits_bind₂ (hd.grows_infer env) (fun _ => tl.grows_infer _)
    (fun _ _ => grows_constraint.bind fun _ => grows_pure) h
  exact ⟨h₁, fun env₁ t n₁ he => (h _ _ he).left⟩

theorem fits_tuple_iff : Fits ((tuple ps).infer env) n ↔ Fits (inferAll env ps) n := by
  rw [infer, Fits, final_bind_pure, Fits]

theorem fits_tuple_cons (h : Fits ((tuple (p :: ps)).infer env) n) :
    Fits (p.infer env) n ∧
      ∀ env₁ t n₁, p.infer env n = .ok (env₁, t) n₁ → Fits ((tuple ps).infer env₁) n₁ := by
  rw [fits_tuple_iff, inferAll] at h
  have ⟨h₁, h⟩ := fits_bind₂ (p.grows_infer env) (fun _ => grows_inferAll (fun p _ => p.grows_infer) _)
    (fun _ _ => grows_pure) h
  exact ⟨h₁, fun env₁ t n₁ he => fits_tuple_iff.mpr (h _ _ he).left⟩

end Fits

end Pattern

namespace Expr

@[grind .]
theorem grows_inferOp (e : Expr) (op : Op) (lt rt : Ty) : Grows (inferOp e op lt rt) := by
  rw [inferOp]
  split
  case isTrue =>
    exact grows_require.bind fun _ => grows_require.bind fun _ => grows_pure
  case isFalse => exact grows_require.bind fun _ => grows_pure

@[grind ←]
theorem grows_inferElems {e : Expr} {es : List Expr} (h : ∀ x ∈ es, ∀ env, Grows (x.infer env))
    (env : TypeEnv) (s : Subst) : Grows (inferElems e env s es) := by
  induction es generalizing s <;> rw [inferElems]
  case nil => exact grows_pure
  case cons x es ih =>
    have ⟨hx, h⟩ := List.forall_mem_cons.mp h
    exact (hx _).bind fun _ => grows_require.bind fun s => (ih h s).bind fun _ => grows_pure

@[grind ←]
theorem grows_inferBranches {e : Expr} {bs : List (Pattern × Expr)}
    (h : ∀ b ∈ bs, ∀ env, Grows (b.2.infer env)) (env : TypeEnv) (vt ret : Ty) (s : Subst) :
    Grows (inferBranches e env vt ret s bs) := by
  induction bs generalizing s <;> rw [inferBranches]
  case nil => exact grows_pure
  case cons b bs ih =>
    have ⟨hb, h⟩ := List.forall_mem_cons.mp h
    exact (b.1.grows_infer env).mapError.bind fun _ => grows_require.bind fun _ =>
      (hb _).bind fun _ => grows_require.bind fun _ => grows_require.bind fun s => ih h s

@[grind ←]
theorem grows_binding {env : TypeEnv} {x : String} {value : TypeEnv → Infer Failure (Subst × Ty)}
    (h : ∀ env, Grows (value env)) : Grows (binding env x value) :=
  (h env).bind fun _ => grows_pure

@[grind ←]
theorem grows_recBinding {env : TypeEnv} {x : String} {v : Expr}
    {value : TypeEnv → Infer Failure (Subst × Ty)} (h : ∀ env, Grows (value env)) :
    Grows (recBinding env x v value) :=
  grows_freshTy.bind fun _ => (h _).bind fun _ => grows_require.bind fun _ => grows_require.bind
    fun _ => grows_pure

@[grind .]
theorem grows_infer (e : Expr) (env : TypeEnv) : Grows (e.infer env) := by
  induction e generalizing env <;> (try rw [infer])
  case int => exact grows_pure
  case bool => exact grows_pure
  case var x =>
    cases env.get? x
    case none => exact grows_throw
    case some σ => exact fun n => .drop n _
  case nil => exact grows_freshTy.bind fun _ => grows_pure
  case lam p body ih =>
    exact (p.grows_infer env).mapError.bind fun (env, _) => (ih env).bind fun _ => grows_pure
  case binop op l r ihl ihr =>
    refine (ihl env).bind fun _ => (ihr env).bind fun _ => ?_
    cases op
    case none => exact grows_throw
    case some op =>
      exact (grows_inferOp _ op _ _).bind fun _ => grows_require.bind fun _ => grows_pure
  case tuple ih => exact (grows_inferElems ih env ∅).bind fun _ => grows_pure
  case cons ihh iht =>
    exact (ihh env).bind fun _ => (iht _).bind fun _ => grows_require.bind fun _ =>
      grows_require.bind fun _ => grows_pure
  case cond ihc ihy ihn =>
    exact (ihc env).bind fun _ => (ihy env).bind fun _ => (ihn env).bind fun _ =>
      grows_require.bind fun _ => grows_require.bind fun _ => grows_require.bind fun _ => grows_pure
  case app ihf iha =>
    exact (ihf env).bind fun _ => (iha _).bind fun _ => grows_freshTy.bind fun _ =>
      grows_require.bind fun _ => grows_require.bind fun _ => grows_pure
  case letIn ihv ihb =>
    exact (grows_binding ihv).bind fun (_, env) => (ihb env).bind fun _ => grows_require.bind fun _ =>
      grows_pure
  case letRec ihv ihb =>
    exact (grows_recBinding ihv).bind fun (_, env) => (ihb env).bind fun _ =>
      grows_require.bind fun _ => grows_pure
  case cases ihv ihb =>
    exact (ihv env).bind fun _ => grows_freshTy.bind fun _ =>
      (grows_inferBranches ihb env _ _ _).bind fun _ => grows_pure
  case hole k => cases k <;> exact grows_throw

section Runs

variable {env env' : TypeEnv} {n m : Supply} {s : Subst} {t : Ty} {ts : List Ty} {x : String}

theorem binding_eq_ok_iff (value : TypeEnv → Infer Failure (Subst × Ty)) :
    binding env x value n = .ok (s, env') m ↔
      ∃ t, value env n = .ok (s, t) m ∧
        env' = (env.apply s).declare x ((env.apply s).generalize t) := by
  simp only [binding, bind_eq_ok_iff, Prod.exists, pure_eq_ok_iff, Prod.mk.injEq]
  constructor
  case mp =>
    rintro ⟨_, t, _, h, ⟨rfl, rfl⟩, rfl⟩
    exact ⟨t, h, rfl⟩
  case mpr =>
    rintro ⟨t, h, rfl⟩
    exact ⟨s, t, m, h, ⟨rfl, rfl⟩, rfl⟩

theorem runs_binding {value : TypeEnv → Infer Failure (Subst × Ty)}
    (hr : Runs (binding env x value) n (s, env') m) :
    ∃ t, Runs (value env) n (s, t) m ∧
      env' = (env.apply s).declare x ((env.apply s).generalize t) :=
  have ⟨t, h, he⟩ := binding_eq_ok_iff value |>.mp hr.eq
  ⟨t, ⟨h, hr.reaches⟩, he⟩

theorem recBinding_eq_ok_iff (v : Expr) (value : TypeEnv → Infer Failure (Subst × Ty)) :
    recBinding env x v value n = .ok (s, env') m ↔
      ∃ s₁ t s₂, value (env.declareMono x (.var n.next)) (n.drop 1) = .ok (s₁, t) m ∧
        unify (s₁.image n.next) t = .ok s₂ ∧ s₁.compose s₂ = .ok s ∧
        env' =
          ((env.remove x).apply s).declare x (((env.remove x).apply s).generalize (s.apply t)) := by
  simp only [recBinding, bind_eq_ok_iff, Prod.exists, pure_eq_ok_iff, freshTy_eq_ok_iff,
    require_eq_ok_iff, Prod.mk.injEq, TypeEnv.declare_apply_declareMono, TypeEnv.generalizeRec]
  constructor
  case mp =>
    rintro ⟨_, _, ⟨rfl, rfl⟩, s₁, t, _, h, s₂, _, ⟨hu, rfl⟩, _, _, ⟨hc, rfl⟩, ⟨rfl, rfl⟩, rfl⟩
    refine ⟨s₁, t, s₂, h, by simpa using hu, hc, ?_⟩
    rw [TypeEnv.remove_apply_declareMono]
  case mpr =>
    rintro ⟨s₁, t, s₂, h, hu, hc, rfl⟩
    refine ⟨_, _, ⟨rfl, rfl⟩, s₁, t, m, h, s₂, m, ⟨by simpa using hu, rfl⟩, s, m, ⟨hc, rfl⟩, ⟨rfl, ?_⟩,
      rfl⟩
    rw [TypeEnv.remove_apply_declareMono]

theorem runs_recBinding {v : Expr} {value : TypeEnv → Infer Failure (Subst × Ty)}
    (hv : ∀ env, Grows (value env)) (hr : Runs (recBinding env x v value) n (s, env') m) :
    ∃ s₁ t s₂, n.Reaches (n.drop 1) ∧
      Runs (value (env.declareMono x (.var n.next))) (n.drop 1) (s₁, t) m ∧
      unify (s₁.image n.next) t = .ok s₂ ∧ s₁.compose s₂ = .ok s ∧
      env' = ((env.remove x).apply s).declare x (((env.remove x).apply s).generalize (s.apply t)) :=
  have ⟨s₁, t, s₂, h, hu, hc, he⟩ := recBinding_eq_ok_iff v value |>.mp hr.eq
  have ⟨hr₁, hr⟩ := hr.reaches.split (.drop n 1) ((hv _).leadsTo h)
  ⟨s₁, t, s₂, hr₁, ⟨h, hr⟩, hu, hc, he⟩

theorem runs_var (hr : Runs ((var x).infer env) n (s, t) m) :
    ∃ σ, env.get? x = some σ ∧ s = ∅ ∧ t = (σ.instantiate n).1 ∧ m = (σ.instantiate n).2 := by
  have he := hr.eq
  rw [infer] at he
  cases hx : env.get? x <;> rw [hx] at he
  case none => cases he
  case some σ =>
    simp only [bind_eq_ok_iff, pure_eq_ok_iff, modifyGet_eq_ok_iff, Prod.mk.injEq] at he
    obtain ⟨_, _, ⟨rfl, rfl⟩, ⟨rfl, rfl⟩, rfl⟩ := he
    exact ⟨σ, rfl, rfl, rfl, rfl⟩

theorem runs_nil (hr : Runs (nil.infer env) n (s, t) m) :
    s = ∅ ∧ t = .list (.var n.next) ∧ m = n.drop 1 := by
  have he := hr.eq
  simp only [infer, bind_eq_ok_iff, freshTy_eq_ok_iff, pure_eq_ok_iff, Prod.mk.injEq] at he
  obtain ⟨_, _, ⟨rfl, rfl⟩, ⟨rfl, rfl⟩, rfl⟩ := he
  exact ⟨rfl, rfl, rfl⟩

theorem runs_lam {p : Pattern} {body : Expr} (hr : Runs ((lam p body).infer env) n (s, t) m) :
    ∃ env' pt n₁ bt, Runs (p.infer env) n (env', pt) n₁ ∧ Runs (body.infer env') n₁ (s, bt) m ∧
      t = s.apply (.arrow pt bt) := by
  obtain ⟨he, hr⟩ := hr
  simp only [infer, bind_eq_ok_iff, Prod.exists, blaming_eq_ok_iff, pure_eq_ok_iff,
    Prod.mk.injEq] at he
  obtain ⟨env', pt, n₁, h₁, s, bt, n₂, h₂, ⟨rfl, rfl⟩, rfl⟩ := he
  obtain ⟨r₁, hr⟩ := (p.grows_infer env).runs h₁ ((body.grows_infer env').leadsTo h₂) hr
  exact ⟨env', pt, n₁, bt, r₁, ⟨h₂, hr⟩, rfl⟩

inductive OpJoins (op : Op) (lt rt : Ty) : List Subst → Ty → Prop
  | arithmetic {s₁ s₂ : Subst} (ho : op.isArithmetic) (h₁ : unify lt .int = .ok s₁)
    (h₂ : unify rt .int = .ok s₂) : OpJoins op lt rt [s₁, s₂] .int
  | relation {s : Subst} (ho : ¬op.isArithmetic) (h : unify lt rt = .ok s) :
    OpJoins op lt rt [s] .bool

theorem inferOp_eq_ok_iff {e : Expr} {op : Op} {lt rt : Ty} {ss : List Subst} :
    inferOp e op lt rt n = .ok (ss, t) m ↔ OpJoins op lt rt ss t ∧ n = m := by
  rw [inferOp]
  constructor
  case mp =>
    intro he
    split at he
    case isTrue ho =>
      simp only [bind_eq_ok_iff, require_eq_ok_iff, pure_eq_ok_iff, Prod.mk.injEq] at he
      obtain ⟨s₁, _, ⟨h₁, rfl⟩, s₂, _, ⟨h₂, rfl⟩, ⟨rfl, rfl⟩, rfl⟩ := he
      exact ⟨.arithmetic ho h₁ h₂, rfl⟩
    case isFalse ho =>
      simp only [bind_eq_ok_iff, require_eq_ok_iff, pure_eq_ok_iff, Prod.mk.injEq] at he
      obtain ⟨s, _, ⟨h, rfl⟩, ⟨rfl, rfl⟩, rfl⟩ := he
      exact ⟨.relation ho h, rfl⟩
  case mpr =>
    rintro ⟨h | h, rfl⟩ <;> simp [*]

theorem runs_binop {op : Option Op} {l r : Expr} (hr : Runs ((binop op l r).infer env) n (s, t) m) :
    ∃ o s₁ lt n₁ s₂ rt ss, op = some o ∧ Runs (l.infer env) n (s₁, lt) n₁ ∧
      Runs (r.infer env) n₁ (s₂, rt) m ∧ OpJoins o lt rt ss t ∧
      Subst.composeAll (s₁ :: s₂ :: ss) = .ok s := by
  obtain ⟨he, hr⟩ := hr
  simp only [infer, bind_eq_ok_iff, Prod.exists] at he
  obtain ⟨s₁, lt, n₁, h₁, s₂, rt, n₂, h₂, he⟩ := he
  cases op
  case none => cases he
  case some o =>
    simp only [bind_eq_ok_iff, Prod.exists, inferOp_eq_ok_iff, require_eq_ok_iff, pure_eq_ok_iff,
      Prod.mk.injEq] at he
    obtain ⟨ss, t, _, ⟨ho, rfl⟩, s, _, ⟨hc, rfl⟩, ⟨rfl, rfl⟩, rfl⟩ := he
    obtain ⟨r₁, hr⟩ := (l.grows_infer env).runs h₁ ((r.grows_infer env).leadsTo h₂) hr
    exact ⟨o, s₁, lt, n₁, s₂, rt, ss, rfl, r₁, ⟨h₂, hr⟩, ho, hc⟩

theorem runs_tuple {es : List Expr} (hr : Runs ((tuple es).infer env) n (s, t) m) :
    ∃ ts, Runs (inferElems (tuple es) env ∅ es) n (s, ts) m ∧ t = .tuple (ts.map s.apply) := by
  obtain ⟨he, hr⟩ := hr
  simp only [infer, bind_eq_ok_iff, Prod.exists, pure_eq_ok_iff, Prod.mk.injEq] at he
  obtain ⟨s, ts, _, h, ⟨rfl, rfl⟩, rfl⟩ := he
  exact ⟨ts, ⟨h, hr⟩, rfl⟩

theorem runs_inferElems_nil {e : Expr} {s₀ : Subst}
    (hr : Runs (inferElems e env s₀ []) n (s, ts) m) : s = s₀ ∧ ts = [] ∧ m = n := by
  have he := hr.eq
  simp only [inferElems, pure_eq_ok_iff, Prod.mk.injEq] at he
  obtain ⟨⟨rfl, rfl⟩, rfl⟩ := he
  exact ⟨rfl, rfl, rfl⟩

theorem runs_inferElems_cons {e a : Expr} {es : List Expr} {s₀ : Subst}
    (hr : Runs (inferElems e env s₀ (a :: es)) n (s, ts) m) :
    ∃ s₁ t n₁ s₂ ts', Runs (a.infer (env.apply s₀)) n (s₁, t) n₁ ∧ s₀.compose s₁ = .ok s₂ ∧
      Runs (inferElems e env s₂ es) n₁ (s, ts') m ∧ ts = t :: ts' := by
  obtain ⟨he, hr⟩ := hr
  simp only [inferElems, bind_eq_ok_iff, Prod.exists, require_eq_ok_iff, pure_eq_ok_iff,
    Prod.mk.injEq] at he
  obtain ⟨s₁, t, n₁, h₁, s₂, _, ⟨hc, rfl⟩, s, ts', _, h₂, ⟨rfl, rfl⟩, rfl⟩ := he
  have g := grows_inferElems (fun a _ => a.grows_infer) env s₂ |>.leadsTo h₂
  obtain ⟨r₁, hr⟩ := (a.grows_infer _).runs h₁ g hr
  exact ⟨s₁, t, n₁, s₂, ts', r₁, hc, ⟨h₂, hr⟩, rfl⟩

theorem runs_cons {hd tl : Expr} (hr : Runs ((cons hd tl).infer env) n (s, t) m) :
    ∃ s₁ ht n₁ s₂ tt s₃, Runs (hd.infer env) n (s₁, ht) n₁ ∧
      Runs (tl.infer (env.apply s₁)) n₁ (s₂, tt) m ∧ unify (.list ht) tt = .ok s₃ ∧
      Subst.composeAll [s₁, s₂, s₃] = .ok s ∧ t = s.apply tt := by
  obtain ⟨he, hr⟩ := hr
  simp only [infer, bind_eq_ok_iff, Prod.exists, require_eq_ok_iff, pure_eq_ok_iff,
    Prod.mk.injEq] at he
  obtain ⟨s₁, ht, n₁, h₁, s₂, tt, n₂, h₂, s₃, _, ⟨hu, rfl⟩, s, _, ⟨hc, rfl⟩, ⟨rfl, rfl⟩, rfl⟩ := he
  obtain ⟨r₁, hr⟩ := (hd.grows_infer env).runs h₁ ((tl.grows_infer _).leadsTo h₂) hr
  exact ⟨s₁, ht, n₁, s₂, tt, s₃, r₁, ⟨h₂, hr⟩, hu, hc, rfl⟩

theorem runs_cond {c y f : Expr} (hr : Runs ((cond c y f).infer env) n (s, t) m) :
    ∃ s₁ ct n₁ s₂ yt n₂ s₃ ft s₄ s₅, Runs (c.infer env) n (s₁, ct) n₁ ∧
      Runs (y.infer env) n₁ (s₂, yt) n₂ ∧ Runs (f.infer env) n₂ (s₃, ft) m ∧
      unify ct .bool = .ok s₄ ∧ unify yt ft = .ok s₅ ∧
      Subst.composeAll [s₁, s₂, s₃, s₄, s₅] = .ok s ∧ t = s.apply ft := by
  obtain ⟨he, hr⟩ := hr
  simp only [infer, bind_eq_ok_iff, Prod.exists, require_eq_ok_iff, pure_eq_ok_iff,
    Prod.mk.injEq] at he
  obtain ⟨s₁, ct, n₁, h₁, s₂, yt, n₂, h₂, s₃, ft, n₃, h₃, s₄, _, ⟨hc, rfl⟩, s₅, _, ⟨hb, rfl⟩, s, _,
    ⟨hs, rfl⟩, ⟨rfl, rfl⟩, rfl⟩ := he
  have g₂ := (y.grows_infer env).leadsTo h₂
  have g₃ := (f.grows_infer env).leadsTo h₃
  obtain ⟨r₁, hr⟩ := (c.grows_infer env).runs h₁ (g₂.trans g₃) hr
  obtain ⟨r₂, hr⟩ := (y.grows_infer env).runs h₂ g₃ hr
  exact ⟨s₁, ct, n₁, s₂, yt, n₂, s₃, ft, s₄, s₅, r₁, r₂, ⟨h₃, hr⟩, hc, hb, hs, rfl⟩

theorem runs_app {f a : Expr} (hr : Runs ((app f a).infer env) n (s, t) m) :
    ∃ s₁ ft n₁ s₂ aty n₂ s₃, Runs (f.infer env) n (s₁, ft) n₁ ∧
      Runs (a.infer (env.apply s₁)) n₁ (s₂, aty) n₂ ∧ n₂.Reaches (n₂.drop 1) ∧ m = n₂.drop 1 ∧
      unify (s₂.apply ft) (.arrow aty (.var n₂.next)) = .ok s₃ ∧
      Subst.composeAll [s₁, s₂, s₃] = .ok s ∧ t = s.image n₂.next := by
  obtain ⟨he, hr⟩ := hr
  simp only [infer, bind_eq_ok_iff, Prod.exists, freshTy_eq_ok_iff, require_eq_ok_iff,
    pure_eq_ok_iff, Prod.mk.injEq] at he
  obtain ⟨s₁, ft, n₁, h₁, s₂, aty, n₂, h₂, _, _, ⟨rfl, rfl⟩, s₃, _, ⟨hu, rfl⟩, s, _, ⟨hc, rfl⟩,
    ⟨rfl, rfl⟩, rfl⟩ := he
  have g₂ := (a.grows_infer _).leadsTo h₂
  obtain ⟨r₁, hr⟩ := (f.grows_infer env).runs h₁ (g₂.trans (.drop n₂ 1)) hr
  obtain ⟨r₂, hr⟩ := (a.grows_infer _).runs h₂ (.drop n₂ 1) hr
  exact ⟨s₁, ft, n₁, s₂, aty, n₂, s₃, r₁, r₂, hr, rfl, hu, hc, by simp⟩

theorem runs_letIn {v body : Expr} (hr : Runs ((letIn x v body).infer env) n (s, t) m) :
    ∃ s₁ env' n₁ s₂, Runs (binding env x v.infer) n (s₁, env') n₁ ∧
      Runs (body.infer env') n₁ (s₂, t) m ∧ s₁.compose s₂ = .ok s := by
  obtain ⟨he, hr⟩ := hr
  simp only [infer, bind_eq_ok_iff, Prod.exists, require_eq_ok_iff, pure_eq_ok_iff,
    Prod.mk.injEq] at he
  obtain ⟨s₁, env', n₁, h₁, s₂, _, n₂, h₂, s, _, ⟨hc, rfl⟩, ⟨rfl, rfl⟩, rfl⟩ := he
  obtain ⟨r₁, hr⟩ := (grows_binding v.grows_infer).runs h₁ ((body.grows_infer _).leadsTo h₂) hr
  exact ⟨s₁, env', n₁, s₂, r₁, ⟨h₂, hr⟩, hc⟩

theorem runs_letRec {v body : Expr} (hr : Runs ((letRec x v body).infer env) n (s, t) m) :
    ∃ s₁ env' n₁ s₂, Runs (recBinding env x v v.infer) n (s₁, env') n₁ ∧
      Runs (body.infer env') n₁ (s₂, t) m ∧ s₁.compose s₂ = .ok s := by
  obtain ⟨he, hr⟩ := hr
  simp only [infer, bind_eq_ok_iff, Prod.exists, require_eq_ok_iff, pure_eq_ok_iff,
    Prod.mk.injEq] at he
  obtain ⟨s₁, env', n₁, h₁, s₂, _, n₂, h₂, s, _, ⟨hc, rfl⟩, ⟨rfl, rfl⟩, rfl⟩ := he
  obtain ⟨r₁, hr⟩ := (grows_recBinding v.grows_infer).runs h₁ ((body.grows_infer _).leadsTo h₂) hr
  exact ⟨s₁, env', n₁, s₂, r₁, ⟨h₂, hr⟩, hc⟩

theorem runs_cases {v : Expr} {bs : List (Pattern × Expr)}
    (hr : Runs ((cases v bs).infer env) n (s, t) m) :
    ∃ s₁ vt n₁, Runs (v.infer env) n (s₁, vt) n₁ ∧ n₁.Reaches (n₁.drop 1) ∧
      Runs (inferBranches (cases v bs) env vt (.var n₁.next) s₁ bs) (n₁.drop 1) s m ∧
      t = s.image n₁.next := by
  obtain ⟨he, hr⟩ := hr
  simp only [infer, bind_eq_ok_iff, Prod.exists, freshTy_eq_ok_iff, pure_eq_ok_iff,
    Prod.mk.injEq] at he
  obtain ⟨s₁, vt, n₁, h₁, _, _, ⟨rfl, rfl⟩, s, _, h₂, ⟨rfl, rfl⟩, rfl⟩ := he
  have g := grows_inferBranches (fun b _ => b.2.grows_infer) env vt (.var n₁.next) s₁ |>.leadsTo h₂
  obtain ⟨r₁, hr⟩ := (v.grows_infer env).runs h₁ (.trans (.drop n₁ 1) g) hr
  obtain ⟨hr₁, hr⟩ := hr.split (.drop n₁ 1) g
  exact ⟨s₁, vt, n₁, r₁, hr₁, ⟨h₂, hr⟩, by simp⟩

theorem runs_inferBranches_nil {e : Expr} {vt ret : Ty} {s₀ : Subst}
    (hr : Runs (inferBranches e env vt ret s₀ []) n s m) : s = s₀ ∧ m = n := by
  have he := hr.eq
  simp only [inferBranches, pure_eq_ok_iff] at he
  exact ⟨he.left.symm, he.right.symm⟩

theorem runs_inferBranches_cons {e body : Expr} {vt ret : Ty} {s₀ : Subst} {p : Pattern}
    {bs : List (Pattern × Expr)}
    (hr : Runs (inferBranches e env vt ret s₀ ((p, body) :: bs)) n s m) :
    ∃ penv pt n₁ s₁ s₂ bt n₂ s₃ s₄, Runs (p.infer env) n (penv, pt) n₁ ∧
      unify pt (s₀.apply vt) = .ok s₁ ∧ Runs (body.infer (penv.apply s₁)) n₁ (s₂, bt) n₂ ∧
      unify (s₀.apply ret) bt = .ok s₃ ∧ Subst.composeAll [s₀, s₁, s₂, s₃] = .ok s₄ ∧
      Runs (inferBranches e env vt ret s₄ bs) n₂ s m := by
  obtain ⟨he, hr⟩ := hr
  simp only [inferBranches, bind_eq_ok_iff, Prod.exists, blaming_eq_ok_iff, require_eq_ok_iff] at he
  obtain ⟨penv, pt, n₁, hp, s₁, _, ⟨hu, rfl⟩, s₂, bt, n₂, hb, s₃, _, ⟨hv, rfl⟩, s₄, _, ⟨hc, rfl⟩, h⟩ :=
    he
  have gb := (body.grows_infer (penv.apply s₁)).leadsTo hb
  have g := grows_inferBranches (fun b _ => b.2.grows_infer) env vt ret s₄ |>.leadsTo h
  obtain ⟨r₁, hr⟩ := (p.grows_infer env).runs hp (gb.trans g) hr
  obtain ⟨r₂, hr⟩ := (body.grows_infer _).runs hb g hr
  exact ⟨penv, pt, n₁, s₁, s₂, bt, n₂, s₃, s₄, r₁, hu, r₂, hv, hc, h, hr⟩

end Runs

section Fits

variable {env : TypeEnv} {n : Supply} {x : String} {p : Pattern} {f a l r c y v body : Expr}

theorem fits_lam (h : Fits ((lam p body).infer env) n) :
    Fits (p.infer env) n ∧
      ∀ env₁ pt n₁, p.infer env n = .ok (env₁, pt) n₁ → Fits (body.infer env₁) n₁ := by
  rw [infer] at h
  have ⟨h₁, h⟩ := fits_bind₂ (p.grows_infer env).mapError (fun _ => body.grows_infer _)
    (fun _ _ => grows_pure) h
  exact ⟨fits_mapError.mp h₁, fun env₁ pt n₁ he => (h _ _ (mapError_eq_ok_iff.mpr he)).left⟩

theorem fits_binop {op : Op} (h : Fits ((binop (some op) l r).infer env) n) :
    Fits (l.infer env) n ∧ ∀ s lt n₁, l.infer env n = .ok (s, lt) n₁ → Fits (r.infer env) n₁ := by
  rw [infer] at h
  have ⟨h₁, h⟩ := fits_bind₂ (l.grows_infer env) (fun _ => r.grows_infer env) (fun _ _ =>
    (grows_inferOp _ op _ _).bind fun _ => grows_require.bind fun _ => grows_pure) h
  exact ⟨h₁, fun s lt n₁ he => (h _ _ he).left⟩

theorem fits_tuple {es : List Expr} (h : Fits ((tuple es).infer env) n) :
    Fits (inferElems (tuple es) env ∅ es) n := by
  rwa [infer, Fits, final_bind_pure] at h

theorem fits_inferElems_cons {e : Expr} {es : List Expr} {s₀ : Subst}
    (h : Fits (inferElems e env s₀ (a :: es)) n) :
    Fits (a.infer (env.apply s₀)) n ∧
      ∀ s t n₁ s₁, a.infer (env.apply s₀) n = .ok (s, t) n₁ → s₀.compose s = .ok s₁ →
        Fits (inferElems e env s₁ es) n₁ := by
  rw [inferElems] at h
  have tail (s : Subst) : Grows (inferElems e env s es) :=
    grows_inferElems (fun a _ => a.grows_infer) env s
  have ⟨h₁, h⟩ := fits_bind₂ (a.grows_infer _) (fun _ => grows_require)
    (fun _ _ => (tail _).bind fun _ => grows_pure) h
  refine ⟨h₁, fun s t n₁ s₁ he hc => ?_⟩
  have h := (h _ _ he).right s₁ n₁ (require_eq_ok_iff.mpr ⟨hc, rfl⟩)
  exact fits_bind (tail s₁) (fun _ => grows_pure) h |>.left

theorem fits_cons {hd tl : Expr} (h : Fits ((cons hd tl).infer env) n) :
    Fits (hd.infer env) n ∧
      ∀ s ht n₁, hd.infer env n = .ok (s, ht) n₁ → Fits (tl.infer (env.apply s)) n₁ := by
  rw [infer] at h
  have ⟨h₁, h⟩ := fits_bind₂ (hd.grows_infer env) (fun _ => tl.grows_infer _) (fun _ _ =>
    grows_require.bind fun _ => grows_require.bind fun _ => grows_pure) h
  exact ⟨h₁, fun s ht n₁ he => (h _ _ he).left⟩

theorem fits_cond (h : Fits ((cond c y f).infer env) n) :
    Fits (c.infer env) n ∧ ∀ s₁ ct n₁, c.infer env n = .ok (s₁, ct) n₁ →
      Fits (y.infer env) n₁ ∧ ∀ s₂ yt n₂, y.infer env n₁ = .ok (s₂, yt) n₂ →
        Fits (f.infer env) n₂ := by
  rw [infer] at h
  have ⟨h₁, h⟩ := fits_bind₂ (c.grows_infer env) (fun _ => y.grows_infer env) (fun _ _ =>
    (f.grows_infer env).bind fun _ => grows_require.bind fun _ => grows_require.bind fun _ =>
      grows_require.bind fun _ => grows_pure) h
  refine ⟨h₁, fun s₁ ct n₁ he => ?_⟩
  have ⟨h₂, h⟩ := h _ _ he
  refine ⟨h₂, fun s₂ yt n₂ he => ?_⟩
  exact fits_bind (f.grows_infer env) (fun _ => grows_require.bind fun _ =>
    grows_require.bind fun _ => grows_require.bind fun _ => grows_pure) (h _ _ he) |>.left

theorem fits_app (h : Fits ((app f a).infer env) n) :
    Fits (f.infer env) n ∧ ∀ s₁ ft n₁, f.infer env n = .ok (s₁, ft) n₁ →
      Fits (a.infer (env.apply s₁)) n₁ ∧
        ∀ s₂ aty n₂, a.infer (env.apply s₁) n₁ = .ok (s₂, aty) n₂ → n₂.Reaches (n₂.drop 1) := by
  rw [infer] at h
  have ⟨h₁, h⟩ := fits_bind₂ (f.grows_infer env) (fun _ => a.grows_infer _) (fun _ _ =>
    grows_freshTy.bind fun _ => grows_require.bind fun _ => grows_require.bind fun _ => grows_pure) h
  refine ⟨h₁, fun s₁ ft n₁ he => ?_⟩
  have ⟨h₂, h⟩ := h _ _ he
  refine ⟨h₂, fun s₂ aty n₂ he => ?_⟩
  exact fits_bind grows_freshTy (fun _ => grows_require.bind fun _ => grows_require.bind fun _ =>
    grows_pure) (h _ _ he) |>.left

theorem fits_letIn (h : Fits ((letIn x v body).infer env) n) :
    Fits (v.infer env) n ∧ ∀ s env' n₁, binding env x v.infer n = .ok (s, env') n₁ →
      Fits (body.infer env') n₁ := by
  rw [infer] at h
  have ⟨h₁, h⟩ := fits_bind₂ (grows_binding v.grows_infer) (fun _ => body.grows_infer _)
    (fun _ _ => grows_require.bind fun _ => grows_pure) h
  refine ⟨fits_bind (v.grows_infer env) (fun _ => grows_pure) h₁ |>.left, fun s env' n₁ he => ?_⟩
  exact (h _ _ he).left

theorem fits_letRec (h : Fits ((letRec x v body).infer env) n) :
    n.Reaches (n.drop 1) ∧ Fits (v.infer (env.declareMono x (.var n.next))) (n.drop 1) ∧
      ∀ s env' n₁, recBinding env x v v.infer n = .ok (s, env') n₁ → Fits (body.infer env') n₁ := by
  rw [infer] at h
  have ⟨h₁, h⟩ := fits_bind₂ (grows_recBinding v.grows_infer) (fun _ => body.grows_infer _)
    (fun _ _ => grows_require.bind fun _ => grows_pure) h
  have ⟨hn, hv⟩ := fits_bind₂ grows_freshTy (fun _ => v.grows_infer _) (fun _ _ =>
    grows_require.bind fun _ => grows_require.bind fun _ => grows_pure) h₁
  refine ⟨hn, (hv _ _ (freshTy_eq_ok_iff.mpr ⟨rfl, rfl⟩)).left, fun s env' n₁ he => ?_⟩
  exact (h _ _ he).left

theorem fits_cases {bs : List (Pattern × Expr)} (h : Fits ((cases v bs).infer env) n) :
    Fits (v.infer env) n ∧ ∀ s vt n₁, v.infer env n = .ok (s, vt) n₁ →
      n₁.Reaches (n₁.drop 1) ∧
        Fits (inferBranches (cases v bs) env vt (.var n₁.next) s bs) (n₁.drop 1) := by
  rw [infer] at h
  have branches (vt ret : Ty) (s : Subst) : Grows (inferBranches (cases v bs) env vt ret s bs) :=
    grows_inferBranches (fun b _ => b.2.grows_infer) env vt ret s
  have ⟨h₁, h⟩ := fits_bind₂ (v.grows_infer env) (fun _ => grows_freshTy)
    (fun _ _ => (branches _ _ _).bind fun _ => grows_pure) h
  refine ⟨h₁, fun s vt n₁ he => ?_⟩
  have ⟨hn, h⟩ := h _ _ he
  have h := h _ _ (freshTy_eq_ok_iff.mpr ⟨rfl, rfl⟩)
  exact ⟨hn, fits_bind (branches _ _ _) (fun _ => grows_pure) h |>.left⟩

theorem fits_inferBranches_cons {e : Expr} {vt ret : Ty} {s₀ : Subst} {bs : List (Pattern × Expr)}
    (h : Fits (inferBranches e env vt ret s₀ ((p, body) :: bs)) n) :
    Fits (p.infer env) n ∧ ∀ penv pt n₁ s₁, p.infer env n = .ok (penv, pt) n₁ →
      unify pt (s₀.apply vt) = .ok s₁ → Fits (body.infer (penv.apply s₁)) n₁ ∧
        ∀ s₂ bt n₂ s₃ s₄, body.infer (penv.apply s₁) n₁ = .ok (s₂, bt) n₂ →
          unify (s₀.apply ret) bt = .ok s₃ → Subst.composeAll [s₀, s₁, s₂, s₃] = .ok s₄ →
          Fits (inferBranches e env vt ret s₄ bs) n₂ := by
  rw [inferBranches] at h
  have tail (s : Subst) : Grows (inferBranches e env vt ret s bs) :=
    grows_inferBranches (fun b _ => b.2.grows_infer) env vt ret s
  have ⟨h₁, h⟩ := fits_bind₂ (p.grows_infer env).mapError (fun _ => grows_require) (fun _ _ =>
    (body.grows_infer _).bind fun _ => grows_require.bind fun _ => grows_require.bind tail) h
  refine ⟨fits_mapError.mp h₁, fun penv pt n₁ s₁ he hu => ?_⟩
  have h := (h _ _ (mapError_eq_ok_iff.mpr he)).right s₁ n₁ (require_eq_ok_iff.mpr ⟨hu, rfl⟩)
  have ⟨h₂, h⟩ := fits_bind₂ (body.grows_infer _) (fun _ => grows_require)
    (fun _ _ => grows_require.bind tail) h
  refine ⟨h₂, fun s₂ bt n₂ s₃ s₄ he hv hc => ?_⟩
  have h := (h _ _ he).right s₃ n₂ (require_eq_ok_iff.mpr ⟨hv, rfl⟩)
  exact fits_bind grows_require tail h |>.right s₄ n₂ (require_eq_ok_iff.mpr ⟨hc, rfl⟩)

end Fits

end Expr

namespace Stmt

@[grind .]
theorem grows_infer (stmt : Stmt) (env : TypeEnv) : Grows (stmt.infer env) := by
  cases stmt <;> rw [infer]
  case decl x v => exact (Expr.grows_binding v.grows_infer).bind fun _ => grows_pure
  case declRec x v => exact (Expr.grows_recBinding v.grows_infer).bind fun _ => grows_pure
  case expr e => exact (e.grows_infer env).bind fun _ => grows_pure
  case hole => exact grows_throw

variable {env env' : TypeEnv} {n m : Supply} {x : String} {v e : Expr}

theorem infer_decl_eq_ok_iff :
    (decl x v).infer env n = .ok env' m ↔ ∃ s, binding env x v.infer n = .ok (s, env') m := by
  simp only [infer, bind_eq_ok_iff, Prod.exists, pure_eq_ok_iff]
  grind

theorem infer_declRec_eq_ok_iff :
    (declRec x v).infer env n = .ok env' m ↔
      ∃ s, recBinding env x v v.infer n = .ok (s, env') m := by
  simp only [infer, bind_eq_ok_iff, Prod.exists, pure_eq_ok_iff]
  grind

theorem infer_expr_eq_ok_iff :
    (expr e).infer env n = .ok env' m ↔ env' = env ∧ ∃ r, e.infer env n = .ok r m := by
  simp only [infer, bind_eq_ok_iff, pure_eq_ok_iff]
  grind

theorem runs_decl (hr : Runs ((decl x v).infer env) n env' m) :
    ∃ s, Runs (binding env x v.infer) n (s, env') m :=
  have ⟨s, h⟩ := infer_decl_eq_ok_iff.mp hr.eq
  ⟨s, h, hr.reaches⟩

theorem runs_declRec (hr : Runs ((declRec x v).infer env) n env' m) :
    ∃ s, Runs (recBinding env x v v.infer) n (s, env') m :=
  have ⟨s, h⟩ := infer_declRec_eq_ok_iff.mp hr.eq
  ⟨s, h, hr.reaches⟩

theorem runs_expr (hr : Runs ((expr e).infer env) n env' m) :
    env' = env ∧ ∃ s t, Runs (e.infer env) n (s, t) m :=
  have ⟨he, (s, t), h⟩ := infer_expr_eq_ok_iff.mp hr.eq
  ⟨he, s, t, h, hr.reaches⟩

end Stmt

namespace Program

@[grind .]
theorem grows_infer (p : Program) (env : TypeEnv) (i : Nat) : Grows (infer env i p) := by
  induction p generalizing env i
  case nil => exact grows_pure
  case cons stmt p ih => exact (stmt.grows_infer env).mapError.bind fun env => ih env (i + 1)

variable {stmt : Stmt} {p q : Program} {env env' : TypeEnv} {i : Nat} {n m : Supply}

theorem infer_cons_eq_ok_iff :
    infer env i (stmt :: p) n = .ok env' m ↔
      ∃ env₁ n₁, stmt.infer env n = .ok env₁ n₁ ∧ infer env₁ (i + 1) p n₁ = .ok env' m := by
  simp only [infer, bind_eq_ok_iff, mapError_eq_ok_iff]

theorem infer_cons_of_ok {env₁ : TypeEnv} {n₁ : Supply} (h : stmt.infer env n = .ok env₁ n₁) :
    infer env i (stmt :: p) n = infer env₁ (i + 1) p n₁ :=
  bind_of_ok (mapError_eq_ok_iff.mpr h)

theorem infer_cons_of_error {f : HindleyMilner.Failure} (h : stmt.infer env n = .error f m) :
    infer env i (stmt :: p) n = .error ⟨f, i⟩ m :=
  bind_of_error (mapError_of_error h)

theorem runs_cons (hr : Runs (infer env i (stmt :: p)) n env' m) :
    ∃ env₁ n₁, Runs (stmt.infer env) n env₁ n₁ ∧ Runs (infer env₁ (i + 1) p) n₁ env' m := by
  obtain ⟨he, hr⟩ := hr
  obtain ⟨env₁, n₁, h₁, h₂⟩ := infer_cons_eq_ok_iff.mp he
  obtain ⟨r₁, hr⟩ := (stmt.grows_infer env).runs h₁ ((grows_infer p env₁ (i + 1)).leadsTo h₂) hr
  exact ⟨env₁, n₁, r₁, h₂, hr⟩

theorem fits_cons (h : Fits (infer env i (stmt :: p)) n) :
    Fits (stmt.infer env) n ∧
      ∀ env₁ n₁, stmt.infer env n = .ok env₁ n₁ → Fits (infer env₁ (i + 1) p) n₁ := by
  have ⟨h₁, h₂⟩ := fits_bind (stmt.grows_infer env).mapError (fun _ => grows_infer _ _ _) h
  exact ⟨fits_mapError.mp h₁, fun env₁ n₁ hs => h₂ env₁ n₁ (mapError_eq_ok_iff.mpr hs)⟩

theorem infer_append (p q : Program) (env : TypeEnv) (i : Nat) :
    infer env i (p ++ q) = infer env i p >>= fun env => infer env (i + p.length) q := by
  induction p generalizing env i
  case nil => simp [infer]
  case cons stmt p ih => simp [infer, ih, Nat.add_assoc, Nat.add_comm 1]

theorem infer_append_eq_ok_iff :
    infer env i (p ++ q) n = .ok env' m ↔
      ∃ env₁ n₁, infer env i p n = .ok env₁ n₁ ∧ infer env₁ (i + p.length) q n₁ = .ok env' m := by
  rw [infer_append, bind_eq_ok_iff]

end Program

namespace Context

variable {c : Context} {env env' : TypeEnv} {p : Program} {m : Supply}

theorem inferProgram_of_ok (h : Program.infer env 0 p (c.start env).supply = .ok env' m) :
    c.inferProgram env p = (.ok env', { c.start env with supply := m }) := by
  rw [inferProgram, h]

theorem inferProgram_of_error {f : Program.Failure}
    (h : Program.infer env 0 p (c.start env).supply = .error f m) :
    c.inferProgram env p = (.error f.error,
      { c.start env with
        supply := m, error := some f.error, invalidExpr := f.culprit,
        invalidStmt := some f.index }) := by
  rw [inferProgram, h]

theorem inferProgram_eq_ok_iff :
    (c.inferProgram env p).1 = .ok env' ↔
      ∃ m, Program.infer env 0 p (c.start env).supply = .ok env' m := by
  rw [inferProgram]
  cases Program.infer env 0 p (c.start env).supply <;> simp

theorem supply_inferProgram :
    (c.inferProgram env p).2.supply = (Program.infer env 0 p).final (c.start env).supply := by
  rw [inferProgram, final]
  cases Program.infer env 0 p (c.start env).supply <;> rfl

end Context

end HindleyMilner
