import HindleyMilner.Proofs.Renaming
import HindleyMilner.Proofs.Runs

namespace HindleyMilner

open Infer

namespace Supply

variable {ρ : Renaming} {n n' l : Supply}

-- The variables that come next correspond one by one, as far as they are taken before `l`.
def Linked (ρ : Renaming) (n n' l : Supply) : Prop :=
  ∀ i, (n'.drop (i + 1)).LeadsTo l → ρ.rel (n.nth i) (n'.nth i)

theorem LeadsTo.drop_of_le {i k : Nat} (h : i ≤ k) : (n.drop i).LeadsTo (n.drop k) :=
  ⟨k - i, by rw [drop_drop, Nat.add_sub_cancel' h]⟩

theorem Linked.drop (h : Linked ρ n n' l) (k : Nat) : Linked ρ (n.drop k) (n'.drop k) l := by
  intro i hi
  rw [nth_drop, nth_drop]
  exact h (k + i) (by simpa [Nat.add_assoc] using hi)

end Supply

namespace Scheme

variable {ρ : Renaming} {σ σ' : Scheme} {s s' : Subst} {t t' : Ty} {n n' l : Supply}

structure Renamed (ρ : Renaming) (σ σ' : Scheme) : Prop where
  vars : VarSet.Renamed ρ σ.vars σ'.vars
  body : σ.body.Renamed ρ σ'.body

namespace Renamed

theorem mono (h : t.Renamed ρ t') : Renamed ρ (.mono t) (.mono t') :=
  ⟨.empty, h⟩

theorem freeVars (h : Renamed ρ σ σ') : VarSet.Renamed ρ σ.freeVars σ'.freeVars :=
  h.body.freeVars.diff h.vars

theorem apply (h : Renamed ρ σ σ') (hs : s.Renamed ρ s') : Renamed ρ (σ.apply s) (σ'.apply s') :=
  ⟨h.vars, (hs.without h.vars).apply h.body⟩

theorem instantiate (h : Renamed ρ σ σ') (hn : n.Linked ρ n' l)
    (hl : (σ'.instantiate n').2.LeadsTo l) :
    (σ.instantiate n).1.Renamed ρ (σ'.instantiate n').1 := by
  refine h.body.subst fun x x' hx => ?_
  simp only [h.vars.mem_iff hx]
  split
  case isTrue hm =>
    rw [h.vars.idxOf_eq hx]
    have hi : σ'.vars.members.idxOf x' < σ'.vars.size := List.idxOf_lt_length_of_mem hm
    exact .var (hn _ (.trans (.drop_of_le hi) hl))
  case isFalse => exact .var hx

end Renamed

end Scheme

namespace TypeEnv

variable {ρ : Renaming} {env env' : TypeEnv} {s s' : Subst} {t t' : Ty} {k : String}

def Renamed (ρ : Renaming) : TypeEnv → TypeEnv → Prop :=
  Rel (Scheme.Renamed ρ)

namespace Renamed

theorem declareMono (h : Renamed ρ env env') (ht : t.Renamed ρ t') :
    Renamed ρ (env.declareMono k t) (env'.declareMono k t') :=
  h.declare (.mono ht)

theorem apply (h : Renamed ρ env env') (hs : s.Renamed ρ s') :
    Renamed ρ (env.apply s) (env'.apply s') := by
  intro k
  rw [get?_apply, get?_apply]
  obtain ⟨he, he'⟩ | ⟨σ, σ', he, he', hσ⟩ := none_or_some_of_rel (h k) <;> rw [he, he']
  · exact .none
  · exact .some (hσ.apply hs)

theorem freeVars (h : Renamed ρ env env') : VarSet.Renamed ρ env.freeVars env'.freeVars := by
  constructor
  case left =>
    intro x hx
    obtain ⟨k, σ, hk, hx⟩ := mem_freeVars.mp hx
    obtain ⟨σ', hk', hσ⟩ := h.exists_right hk
    obtain ⟨x', hx', hr⟩ := hσ.freeVars.left x hx
    exact ⟨x', mem_freeVars.mpr ⟨k, σ', hk', hx'⟩, hr⟩
  case right =>
    intro x' hx'
    obtain ⟨k, σ', hk', hx'⟩ := mem_freeVars.mp hx'
    obtain ⟨σ, hk, hσ⟩ := h.exists_left hk'
    obtain ⟨x, hx, hr⟩ := hσ.freeVars.right x' hx'
    exact ⟨x, mem_freeVars.mpr ⟨k, σ, hk, hx⟩, hr⟩

theorem generalize (h : Renamed ρ env env') (ht : t.Renamed ρ t') :
    (env.generalize t).Renamed ρ (env'.generalize t') :=
  ⟨ht.freeVars.diff h.freeVars, ht⟩

end Renamed

end TypeEnv

namespace Infer

variable {ε ε' α α' β β' : Type} {ρ : Renaming} {l : Supply} {q : α → α' → Prop}
  {r : β → β' → Prop}

inductive Alike (ρ : Renaming) (l : Supply) (q : α → α' → Prop) :
    EStateM.Result ε Supply α → EStateM.Result ε' Supply α' → Prop
  | ok {a : α} {a' : α'} {m m' : Supply} (h : q a a') (hm : m.Linked ρ m' l) :
    Alike ρ l q (.ok a m) (.ok a' m')
  | error {e : ε} {e' : ε'} {m m' : Supply} : Alike ρ l q (.error e m) (.error e' m')

theorem Alike.exists_left {x : EStateM.Result ε Supply α} {y : EStateM.Result ε' Supply α'}
    {a' : α'} {m' : Supply} (h : Alike ρ l q x y) (hy : y = .ok a' m') :
    ∃ a m, x = .ok a m ∧ q a a' := by
  cases h <;> cases hy
  case ok ha _ => exact ⟨_, _, rfl, ha⟩

theorem Alike.exists_right {x : EStateM.Result ε Supply α} {y : EStateM.Result ε' Supply α'}
    {a : α} {m : Supply} (h : Alike ρ l q x y) (hx : x = .ok a m) :
    ∃ a' m', y = .ok a' m' ∧ q a a' := by
  cases h <;> cases hx
  case ok ha _ => exact ⟨_, _, rfl, ha⟩

-- From linked supplies, `y` does what `x` does, as long as it does not go beyond `l`.
def Mirrors (ρ : Renaming) (l : Supply) (q : α → α' → Prop) (x : Infer ε α) (y : Infer ε' α') :
    Prop :=
  ∀ n n', n.Linked ρ n' l → (y.final n').LeadsTo l → Alike ρ l q (x n) (y n')

namespace Mirrors

variable {x : Infer ε α} {y : Infer ε' α'}

theorem pure {a : α} {a' : α'} (h : q a a') :
    Mirrors ρ l q (pure a : Infer ε α) (pure a' : Infer ε' α') :=
  fun _ _ hn _ => .ok h hn

theorem throw {e : ε} {e' : ε'} :
    Mirrors ρ l q (throw e : Infer ε α) (throw e' : Infer ε' α') :=
  fun _ _ _ _ => .error

theorem bind {f : α → Infer ε β} {g : α' → Infer ε' β'} (hx : Mirrors ρ l q x y)
    (hf : ∀ a a', q a a' → Mirrors ρ l r (f a) (g a')) (hg : ∀ a', Grows (g a') := by grind) :
    Mirrors ρ l r (x >>= f) (y >>= g) := by
  intro n n' hn hl
  have h := hx n n' hn ((leadsTo_final_bind hg).trans hl)
  cases hxn : x n <;> cases hyn : y n' <;> rw [hxn, hyn] at h <;> cases h
  case ok.ok a m a' m' ha hm =>
    rw [final_bind_of_ok hyn] at hl
    simpa only [Bind.bind, EStateM.bind, hxn, hyn] using hf a a' ha m m' hm hl
  case error.error =>
    simp only [Bind.bind, EStateM.bind, hxn, hyn]
    exact .error

theorem mapError {δ δ' : Type} {f : ε → δ} {g : ε' → δ'} (h : Mirrors ρ l q x y) :
    Mirrors ρ l q (x.mapError f) (y.mapError g) := by
  intro n n' hn hl
  rw [final_mapError] at hl
  have h := h n n' hn hl
  rw [Infer.mapError, Infer.mapError]
  cases hxn : x n <;> cases hyn : y n' <;> rw [hxn, hyn] at h <;> cases h
  case ok.ok ha hm => exact .ok ha hm
  case error.error => exact .error

theorem freshTy :
    Mirrors ρ l (Ty.Renamed ρ) (freshTy : Infer ε Ty) (Infer.freshTy : Infer ε' Ty) := by
  intro n n' hn hl
  have eq {ε : Type} (n : Supply) : (Infer.freshTy : Infer ε Ty) n = .ok (.var n.next) (n.drop 1) :=
    freshTy_eq_ok_iff.mpr ⟨rfl, rfl⟩
  rw [final_of_ok (eq n')] at hl
  rw [eq, eq]
  exact .ok (.var (by simpa using hn 0 hl)) (hn.drop 1)

theorem constraint {a : Except UnifyError α} {a' : Except UnifyError α'} (h : Agree q a a') :
    Mirrors ρ l q (constraint a) (constraint a') := by
  cases h
  case ok h => exact .pure h
  case error => exact .throw

theorem require {a : Except UnifyError α} {a' : Except UnifyError α'} {e e' : Expr}
    (h : Agree q a a') : Mirrors ρ l q (require e a) (require e' a') :=
  (constraint h).mapError

theorem unify {t t' u u' : Ty} {e e' : Expr} (ht : t.Renamed ρ t') (hu : u.Renamed ρ u') :
    Mirrors ρ l (Subst.Renamed ρ) (Infer.require e (unify t u))
      (Infer.require e' (HindleyMilner.unify t' u')) :=
  require (agree_unify ht hu)

theorem compose {s₁ s₁' s₂ s₂' : Subst} {e e' : Expr} (h₁ : s₁.Renamed ρ s₁')
    (h₂ : s₂.Renamed ρ s₂') :
    Mirrors ρ l (Subst.Renamed ρ) (Infer.require e (s₁.compose s₂))
      (Infer.require e' (s₁'.compose s₂')) :=
  require (Subst.agree_compose h₁ h₂)

theorem composeAll {ss ss' : List Subst} {e e' : Expr} (h : List.Forall₂ (Subst.Renamed ρ) ss ss') :
    Mirrors ρ l (Subst.Renamed ρ) (Infer.require e (Subst.composeAll ss))
      (Infer.require e' (Subst.composeAll ss')) :=
  require (Subst.agree_composeAll h)

theorem instantiate {σ σ' : Scheme} (h : σ.Renamed ρ σ') :
    Mirrors ρ l (Ty.Renamed ρ) (modifyGet σ.instantiate : Infer ε Ty)
      (modifyGet σ'.instantiate : Infer ε' Ty) := by
  intro n n' hn hl
  have eq {ε : Type} (σ : Scheme) (n : Supply) :
      (modifyGet σ.instantiate : Infer ε Ty) n = .ok (σ.instantiate n).1 (σ.instantiate n).2 :=
    modifyGet_eq_ok_iff.mpr ⟨rfl, rfl⟩
  rw [final_of_ok (eq σ' n')] at hl
  rw [eq, eq]
  refine .ok (h.instantiate hn hl) ?_
  rw [Scheme.instantiate, Scheme.instantiate, h.vars.size_eq]
  exact hn.drop _

end Mirrors

end Infer

def Both {α α' β β' : Type} (q : α → α' → Prop) (r : β → β' → Prop) (a : α × β) (a' : α' × β') :
    Prop :=
  q a.1 a'.1 ∧ r a.2 a'.2

namespace Pattern

variable {ρ : Renaming} {l : Supply} {env env' : TypeEnv} {ps : List Pattern}

theorem mirrors_inferAll
    (ih : ∀ p ∈ ps, ∀ env env', TypeEnv.Renamed ρ env env' →
      Mirrors ρ l (Both (TypeEnv.Renamed ρ) (Ty.Renamed ρ)) (p.infer env) (p.infer env'))
    (h : env.Renamed ρ env') :
    Mirrors ρ l (Both (TypeEnv.Renamed ρ) (List.Forall₂ (Ty.Renamed ρ))) (inferAll env ps)
      (inferAll env' ps) := by
  induction ps generalizing env env' <;> rw [inferAll, inferAll]
  case nil => exact .pure ⟨h, .nil⟩
  case cons p ps ihs =>
    obtain ⟨ihp, ih⟩ := List.forall_mem_cons.mp ih
    refine (ihp env env' h).bind fun _ _ h₁ => ?_
    exact (ihs ih h₁.left).bind fun _ _ h₂ => .pure ⟨h₂.left, .cons h₁.right h₂.right⟩

theorem mirrors_infer (p : Pattern) (h : env.Renamed ρ env') :
    Mirrors ρ l (Both (TypeEnv.Renamed ρ) (Ty.Renamed ρ)) (p.infer env) (p.infer env') := by
  induction p generalizing env env' <;> rw [infer, infer]
  case wildcard => exact Mirrors.freshTy.bind fun _ _ ht => .pure ⟨h, ht⟩
  case int => exact .pure ⟨h, .const⟩
  case bool => exact .pure ⟨h, .const⟩
  case nil => exact Mirrors.freshTy.bind fun _ _ ht => .pure ⟨h, .list ht⟩
  case var x =>
    obtain ⟨he, he'⟩ | ⟨σ, σ', he, he', hσ⟩ := none_or_some_of_rel (h x) <;> rw [he, he']
    · exact Mirrors.freshTy.bind fun _ _ ht => .pure ⟨h.declareMono ht, ht⟩
    · exact .pure ⟨h, hσ.body⟩
  case cons ihh iht =>
    refine (ihh h).bind fun _ _ h₁ => ?_
    refine (iht h₁.left).bind fun _ _ h₂ => ?_
    refine (Mirrors.constraint (agree_unify (.list h₁.right) h₂.right)).bind fun _ _ hs => ?_
    exact .pure ⟨h₂.left.apply hs, .list (hs.apply h₁.right)⟩
  case tuple ih =>
    exact (mirrors_inferAll (fun p hp _ _ => ih p hp) h).bind fun _ _ h =>
      .pure ⟨h.left, .tuple h.right⟩
  case hole => exact .throw

end Pattern

namespace Expr

variable {ρ : Renaming} {l : Supply} {env env' : TypeEnv} {s s' : Subst} {t t' u u' : Ty}
  {k : String}

def Equivariant (ρ : Renaming) (l : Supply) (e : Expr) : Prop :=
  ∀ {env env'}, TypeEnv.Renamed ρ env env' →
    Mirrors ρ l (Both (Subst.Renamed ρ) (Ty.Renamed ρ)) (e.infer env) (e.infer env')

theorem mirrors_inferOp {e : Expr} {op : Op} (ht : t.Renamed ρ t') (hu : u.Renamed ρ u') :
    Mirrors ρ l (Both (List.Forall₂ (Subst.Renamed ρ)) (Ty.Renamed ρ)) (inferOp e op t u)
      (inferOp e op t' u') := by
  rw [inferOp, inferOp]
  split
  case isTrue =>
    refine (Mirrors.unify ht .const).bind fun _ _ h₁ => ?_
    refine (Mirrors.unify hu .const).bind fun _ _ h₂ => ?_
    exact .pure ⟨.cons h₁ (.cons h₂ .nil), .const⟩
  case isFalse =>
    exact (Mirrors.unify ht hu).bind fun _ _ h => .pure ⟨.cons h .nil, .const⟩

theorem mirrors_binding {v : Expr} (hv : v.Equivariant ρ l) (h : env.Renamed ρ env') :
    Mirrors ρ l (Both (Subst.Renamed ρ) (TypeEnv.Renamed ρ)) (binding env k v.infer)
      (binding env' k v.infer) := by
  refine (hv h).bind fun _ _ h₁ => .pure ⟨h₁.left, ?_⟩
  have henv := h.apply h₁.left
  exact henv.declare (henv.generalize h₁.right)

theorem mirrors_recBinding {v : Expr} (hv : v.Equivariant ρ l) (h : env.Renamed ρ env') :
    Mirrors ρ l (Both (Subst.Renamed ρ) (TypeEnv.Renamed ρ)) (recBinding env k v v.infer)
      (recBinding env' k v v.infer) := by
  refine Mirrors.freshTy.bind fun _ _ hself => ?_
  have henv := h.declareMono hself (k := k)
  refine (hv henv).bind fun _ _ h₁ => ?_
  refine (Mirrors.unify (h₁.left.apply hself) h₁.right).bind fun _ _ h₂ => ?_
  refine (Mirrors.compose h₁.left h₂).bind fun _ _ hs => .pure ⟨hs, ?_⟩
  have henv := henv.apply hs
  exact henv.declare (TypeEnv.Renamed.generalize henv.remove (hs.apply h₁.right))

theorem mirrors_inferElems {e : Expr} {es : List Expr} (ih : ∀ a ∈ es, a.Equivariant ρ l)
    (h : env.Renamed ρ env') (hs : s.Renamed ρ s') :
    Mirrors ρ l (Both (Subst.Renamed ρ) (List.Forall₂ (Ty.Renamed ρ))) (inferElems e env s es)
      (inferElems e env' s' es) := by
  induction es generalizing s s' <;> rw [inferElems, inferElems]
  case nil => exact .pure ⟨hs, .nil⟩
  case cons a es ihs =>
    obtain ⟨iha, ih⟩ := List.forall_mem_cons.mp ih
    refine (iha (h.apply hs)).bind fun _ _ h₁ => ?_
    refine (Mirrors.compose hs h₁.left).bind fun _ _ hs => ?_
    exact (ihs ih hs).bind fun _ _ h₂ => .pure ⟨h₂.left, .cons h₁.right h₂.right⟩

theorem mirrors_inferBranches {e : Expr} {bs : List (Pattern × Expr)}
    (ih : ∀ b ∈ bs, b.2.Equivariant ρ l) (h : env.Renamed ρ env') (ht : t.Renamed ρ t')
    (hu : u.Renamed ρ u') (hs : s.Renamed ρ s') :
    Mirrors ρ l (Subst.Renamed ρ) (inferBranches e env t u s bs)
      (inferBranches e env' t' u' s' bs) := by
  induction bs generalizing s s' <;> rw [inferBranches, inferBranches]
  case nil => exact .pure hs
  case cons b bs ihs =>
    obtain ⟨ihb, ih⟩ := List.forall_mem_cons.mp ih
    refine (b.1.mirrors_infer h).mapError.bind fun _ _ hp => ?_
    refine (Mirrors.unify hp.right (hs.apply ht)).bind fun _ _ h₁ => ?_
    refine (ihb (hp.left.apply h₁)).bind fun _ _ h₂ => ?_
    refine (Mirrors.unify (hs.apply hu) h₂.right).bind fun _ _ h₃ => ?_
    refine (Mirrors.composeAll (.cons hs (.cons h₁ (.cons h₂.left
      (.cons h₃ .nil))))).bind fun _ _ hs => ?_
    exact ihs ih hs

theorem mirrors_infer (e : Expr) : e.Equivariant ρ l := by
  induction e <;> intro env env' h <;> (try rw [infer, infer])
  case int => exact .pure ⟨.empty, .const⟩
  case bool => exact .pure ⟨.empty, .const⟩
  case var x =>
    obtain ⟨he, he'⟩ | ⟨σ, σ', he, he', hσ⟩ := none_or_some_of_rel (h x) <;> rw [he, he']
    · exact .throw
    · exact (Mirrors.instantiate hσ).bind fun _ _ ht => .pure ⟨.empty, ht⟩
  case nil => exact Mirrors.freshTy.bind fun _ _ ht => .pure ⟨.empty, .list ht⟩
  case lam p body ih =>
    refine (p.mirrors_infer h).mapError.bind fun _ _ h₁ => ?_
    refine (ih h₁.left).bind fun _ _ h₂ => .pure ⟨h₂.left, ?_⟩
    exact h₂.left.apply (.arrow h₁.right h₂.right)
  case binop op lhs rhs ihl ihr =>
    cases op
    case none =>
      exact (ihl h).bind fun _ _ _ => (ihr h).bind fun _ _ _ => .throw
    case some op =>
      refine (ihl h).bind fun _ _ h₁ => (ihr h).bind fun _ _ h₂ => ?_
      refine (mirrors_inferOp h₁.right h₂.right).bind fun _ _ h₃ => ?_
      refine (Mirrors.composeAll (.cons h₁.left (.cons h₂.left h₃.left))).bind
        fun _ _ hs => ?_
      exact .pure ⟨hs, h₃.right⟩
  case tuple ih =>
    refine (mirrors_inferElems ih h .empty).bind fun _ _ h₁ => .pure ⟨h₁.left, .tuple ?_⟩
    exact List.forall₂_map_left_iff.mpr <| List.forall₂_map_right_iff.mpr <|
      h₁.right.imp fun _ _ => h₁.left.apply
  case cons ihh iht =>
    refine (ihh h).bind fun _ _ h₁ => (iht (h.apply h₁.left)).bind fun _ _ h₂ => ?_
    refine (Mirrors.unify (.list h₁.right) h₂.right).bind fun _ _ h₃ => ?_
    refine (Mirrors.composeAll (.cons h₁.left (.cons h₂.left
      (.cons h₃ .nil)))).bind fun _ _ hs => ?_
    exact .pure ⟨hs, hs.apply h₂.right⟩
  case cond ihc ihy ihn =>
    refine (ihc h).bind fun _ _ h₁ => (ihy h).bind fun _ _ h₂ => (ihn h).bind fun _ _ h₃ => ?_
    refine (Mirrors.unify h₁.right .const).bind fun _ _ h₄ => ?_
    refine (Mirrors.unify h₂.right h₃.right).bind fun _ _ h₅ => ?_
    refine (Mirrors.composeAll (.cons h₁.left (.cons h₂.left (.cons h₃.left
      (.cons h₄ (.cons h₅ .nil)))))).bind fun _ _ hs => ?_
    exact .pure ⟨hs, hs.apply h₃.right⟩
  case app ihf iha =>
    refine (ihf h).bind fun _ _ h₁ => (iha (h.apply h₁.left)).bind fun _ _ h₂ => ?_
    refine Mirrors.freshTy.bind fun _ _ hret => ?_
    refine (Mirrors.unify (h₂.left.apply h₁.right) (.arrow h₂.right hret)).bind
      fun _ _ h₃ => ?_
    refine (Mirrors.composeAll (.cons h₁.left (.cons h₂.left
      (.cons h₃ .nil)))).bind fun _ _ hs => ?_
    exact .pure ⟨hs, hs.apply hret⟩
  case letIn ihv ihb =>
    refine (mirrors_binding ihv h).bind fun _ _ h₁ => (ihb h₁.right).bind fun _ _ h₂ => ?_
    exact (Mirrors.compose h₁.left h₂.left).bind fun _ _ hs =>
      .pure ⟨hs, h₂.right⟩
  case letRec ihv ihb =>
    refine (mirrors_recBinding ihv h).bind fun _ _ h₁ => (ihb h₁.right).bind fun _ _ h₂ => ?_
    exact (Mirrors.compose h₁.left h₂.left).bind fun _ _ hs =>
      .pure ⟨hs, h₂.right⟩
  case cases ihv ihb =>
    refine (ihv h).bind fun _ _ h₁ => Mirrors.freshTy.bind fun _ _ hret => ?_
    refine (mirrors_inferBranches ihb h h₁.right hret h₁.left).bind fun _ _ hs => ?_
    exact .pure ⟨hs, hs.apply hret⟩
  case hole k => cases k <;> exact .throw

end Expr

section Programs

variable {ρ : Renaming} {l : Supply} {env env' : TypeEnv}

theorem Stmt.mirrors_infer (stmt : Stmt) (h : env.Renamed ρ env') :
    Mirrors ρ l (TypeEnv.Renamed ρ) (stmt.infer env) (stmt.infer env') := by
  cases stmt <;> rw [infer, infer]
  case decl x v => exact (Expr.mirrors_binding v.mirrors_infer h).bind fun _ _ h => .pure h.right
  case declRec x v =>
    exact (Expr.mirrors_recBinding v.mirrors_infer h).bind fun _ _ h => .pure h.right
  case expr e => exact (e.mirrors_infer h).bind fun _ _ _ => .pure h
  case hole => exact .throw

theorem Program.mirrors_infer (p : Program) (i j : Nat) (h : env.Renamed ρ env') :
    Mirrors ρ l (TypeEnv.Renamed ρ) (infer env i p) (infer env' j p) := by
  induction p generalizing env env' i j <;> rw [infer, infer]
  case nil => exact .pure h
  case cons stmt p ih =>
    exact (stmt.mirrors_infer h).mapError.bind fun _ _ h => ih (i + 1) (j + 1) h

end Programs

end HindleyMilner
