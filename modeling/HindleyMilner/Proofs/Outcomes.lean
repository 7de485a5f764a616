import HindleyMilner.Proofs.Monomorphic
import HindleyMilner.Proofs.Soundness

namespace HindleyMilner

open Infer

namespace Supply

variable {P : TyVar → Prop} {n n₁ m : Supply}

def Grants (P : TyVar → Prop) (n m : Supply) : Prop :=
  ∀ x, n.Taken m x → P x

namespace Grants

theorem split (h : n.Grants P m) (hn : n.Reaches n₁) (hm : n₁.Reaches m) :
    n.Grants P n₁ ∧ n₁.Grants P m :=
  ⟨fun x hx => h x (hx.mono_right hm), fun x hx => h x (hx.mono_left hn)⟩

theorem next (h : n.Grants P (n.drop 1)) (hn : n.Reaches (n.drop 1)) : P n.next :=
  h n.next (.next hn)

end Grants

theorem Reaches.of_count (h : n.LeadsTo m)
    (hw : n.next.toInt + ((m.count : Int) - n.count) < 2 ^ 63) : n.Reaches m := by
  obtain ⟨k, rfl⟩ := h
  rw [count_drop] at hw
  exact ⟨k, rfl, by omega⟩

theorem Reaches.count (h : n.Reaches m) :
    n.next ≤ m.next ∧ (m.count : Int) - n.count = m.next.toInt - n.next.toInt := by
  refine ⟨h.next_le, ?_⟩
  obtain ⟨k, rfl, hk⟩ := h
  rw [count_drop, next_drop, toInt_nth hk]
  omega

end Supply

theorem Subst.Mentions.of_without {s : Subst} {vs : VarSet} {x : TyVar}
    (h : (s.without vs).Mentions x) : s.Mentions x := by
  have get? {y : TyVar} {t : Ty} (hy : (s.without vs).get? y = some t) : s.get? y = some t := by
    rw [Subst.get?_without] at hy
    split at hy
    case isTrue => cases hy
    case isFalse => exact hy
  cases h
  case key h => exact .key (get? h)
  case target h hx => exact .target (get? h) hx

namespace TypeEnv

variable {P : TyVar → Prop} {env : TypeEnv} {s : Subst} {σ : Scheme} {k : String} {x : TyVar}

def Mentions (env : TypeEnv) (x : TyVar) : Prop :=
  ∃ k σ, env.get? k = some σ ∧ x ∈ σ.body.vars

def Within (P : TyVar → Prop) (env : TypeEnv) : Prop :=
  ∀ x, env.Mentions x → P x

namespace Within

theorem body (h : env.Within P) (hk : env.get? k = some σ) : ∀ x ∈ σ.body.vars, P x :=
  fun x hx => h x ⟨k, σ, hk, hx⟩

theorem apply (h : env.Within P) (hs : s.Within P) : (env.apply s).Within P := by
  rintro x ⟨k, σ', hk, hx⟩
  rw [get?_apply] at hk
  obtain ⟨σ, hσ, rfl⟩ := Option.map_eq_some_iff.mp hk
  cases Subst.mem_vars_apply hx
  case inl hx => exact h.body hσ x hx
  case inr hx => exact hs x hx.of_without

theorem declare (h : env.Within P) (hσ : ∀ x ∈ σ.body.vars, P x) : (env.declare k σ).Within P := by
  rintro x ⟨j, σ', hj, hx⟩
  rw [get?_declare] at hj
  split at hj
  case isTrue =>
    cases hj
    exact hσ x hx
  case isFalse => exact h.body hj x hx

theorem remove (h : env.Within P) : (env.remove k).Within P := by
  rintro x ⟨j, σ, hj, hx⟩
  rw [get?_remove] at hj
  split at hj
  case isTrue => cases hj
  case isFalse => exact h.body hj x hx

end Within

end TypeEnv

namespace Pattern

variable {p : Pattern} {env env' : TypeEnv} {n m : Supply} {t : Ty} {P : TyVar → Prop}

theorem within_of_runs (hr : Runs (p.infer env) n (env', t) m) (he : env.Within P)
    (hP : n.Grants P m) : env'.Within P ∧ ∀ x ∈ t.vars, P x := by
  induction p generalizing env env' n t m
  case wildcard | nil =>
    cases hr.eq
    exact ⟨he, by simpa using hP.next hr.reaches⟩
  case int | bool =>
    cases hr.eq
    exact ⟨he, by simp⟩
  case var k =>
    cases hk : env.get? k
    case none =>
      obtain ⟨rfl, rfl, rfl⟩ := runs_var hk hr
      have fresh := hP.next hr.reaches
      exact ⟨he.declare (by simpa [Scheme.mono] using fresh), by simpa using fresh⟩
    case some σ =>
      -- The type is taken as it stands, with the variables that the scheme quantifies.
      have eq := hr.eq
      simp only [infer, hk, pure_eq_ok_iff, Prod.mk.injEq] at eq
      obtain ⟨⟨rfl, rfl⟩, rfl⟩ := eq
      exact ⟨he, he.body hk⟩
  case cons hd tl ihh iht =>
    obtain ⟨env₁, t₁, n₁, env₂, t₂, s, r₁, r₂, hu, rfl, rfl⟩ := runs_cons hr
    obtain ⟨hP₁, hP₂⟩ := hP.split r₁.reaches r₂.reaches
    obtain ⟨he₁, ht₁⟩ := ihh r₁ he hP₁
    obtain ⟨he₂, ht₂⟩ := iht r₂ he₁ hP₂
    have hs : s.Within P := .unify hu (by simpa using ht₁) ht₂
    exact ⟨he₂.apply hs, by simpa using hs.apply ht₁⟩
  case tuple ps ih =>
    obtain ⟨ts, hts, rfl⟩ := infer_tuple_eq_ok_iff.mp hr.eq
    replace hr : Runs (inferAll env ps) n (env', ts) m := ⟨hts, hr.reaches⟩
    clear hts
    induction ps generalizing env n ts
    case nil =>
      cases hr.eq
      exact ⟨he, by simp⟩
    case cons p ps ihs =>
      obtain ⟨ihp, ih⟩ := List.forall_mem_cons.mp ih
      obtain ⟨env₁, t, n₁, ts, r₁, r₂, rfl⟩ := runs_inferAll_cons hr
      obtain ⟨hP₁, hP₂⟩ := hP.split r₁.reaches r₂.reaches
      obtain ⟨he₁, ht⟩ := ihp r₁ he hP₁
      obtain ⟨he', hts⟩ := ihs ih he₁ hP₂ ts r₂
      refine ⟨he', fun x hx => ?_⟩
      simp only [Ty.vars_tuple, List.flatMap_cons, List.mem_append] at hx hts
      exact hx.elim (ht x) (hts x)
  case hole => cases hr.eq

theorem mem_vars_of_infer {k : String} {σ' : Scheme} {q : TyVar}
    (h : p.infer env n = .ok (env', t) m) (hk : env'.get? k = some σ') (hq : q ∈ σ'.vars) :
    ∃ σ, env.get? k = some σ ∧ q ∈ σ.vars := by
  have quantified := p.ensures_quantifies env n (env', t) m h k
  simp only [TypeEnv.quantified?, hk, Option.map_some] at quantified
  cases hσ : env.get? k
  case none =>
    rw [hσ] at quantified
    split at quantified
    case isTrue =>
      rw [Option.some.inj quantified] at hq
      exact absurd hq (SortedSet.not_mem_empty q)
    case isFalse => cases quantified
  case some σ =>
    rw [hσ] at quantified
    have eq : σ'.vars = σ.vars := by
      split at quantified <;> exact Option.some.inj quantified
    exact ⟨σ, rfl, eq ▸ hq⟩

end Pattern

namespace Expr

variable {env env' : TypeEnv} {n n₁ m : Supply} {s s₀ s₁ s₂ : Subst} {ss : List Subst} {t : Ty}
  {ts : List Ty} {k : String} {e : Expr} {P : TyVar → Prop}

structure Contained (P : TyVar → Prop) (s : Subst) (t : Ty) : Prop where
  solved : s.Solved
  within : s.Within P
  vars : ∀ x ∈ t.vars, P x

namespace Contained

theorem empty (ht : ∀ x ∈ t.vars, P x) : Contained P ∅ t :=
  ⟨.empty, .empty, ht⟩

theorem part (h : Contained P s t) : s.Solved ∧ s.Within P :=
  ⟨h.solved, h.within⟩

theorem composeAll (hss : ∀ p ∈ ss, p.Solved ∧ p.Within P) (h : Subst.composeAll ss = .ok s)
    (ht : ∀ x ∈ t.vars, P x) : Contained P s (s.apply t) := by
  have solved : ∀ p ∈ ss, p.Solved := fun p hp => (hss p hp).left
  have within : s.Within P := .composeAll solved (fun p hp => (hss p hp).right) h
  exact ⟨Subst.composeAll_join solved |>.solved h, within, within.apply ht⟩

theorem compose (h₁ : s₁.Within P) (h₂ : Contained P s₂ t) (h : s₁.compose s₂ = .ok s) :
    Contained P s t :=
  ⟨Subst.compose_join s₁ h₂.solved |>.solved h, .compose h₂.solved h₁ h₂.within h, h₂.vars⟩

end Contained

def RunsContained (e : Expr) : Prop :=
  ∀ {P env n s t m}, Runs (e.infer env) n (s, t) m → env.Within P → n.Grants P m → Contained P s t

theorem contained_lam {p : Pattern} {body : Expr} (ih : RunsContained body) :
    RunsContained (lam p body) := by
  intro P env n s t m hr he hP
  obtain ⟨env', pt, n₁, bt, r₁, r₂, rfl⟩ := runs_lam hr
  obtain ⟨hP₁, hP₂⟩ := hP.split r₁.reaches r₂.reaches
  obtain ⟨he', hpt⟩ := Pattern.within_of_runs r₁ he hP₁
  have h := ih r₂ he' hP₂
  refine ⟨h.solved, h.within, h.within.apply fun x hx => ?_⟩
  simp only [Ty.vars_arrow, List.mem_append] at hx
  exact hx.elim (hpt x) (h.vars x)

theorem contained_binop {op : Option Op} {l r : Expr} (ihl : RunsContained l)
    (ihr : RunsContained r) : RunsContained (binop op l r) := by
  intro P env n s t m hr he hP
  obtain ⟨o, s₁, lt, n₁, s₂, rt, ss, rfl, r₁, r₂, ho, hc⟩ := runs_binop hr
  obtain ⟨hP₁, hP₂⟩ := hP.split r₁.reaches r₂.reaches
  have h₁ := ihl r₁ he hP₁
  have h₂ := ihr r₂ he hP₂
  have parts : ∀ p ∈ ss, p.Solved ∧ p.Within P := by
    cases ho <;> simp only [List.forall_mem_cons]
    case arithmetic u₁ u₂ =>
      exact ⟨part_unify u₁ h₁.vars (by simp), part_unify u₂ h₂.vars (by simp), by simp⟩
    case relation u => exact ⟨part_unify u h₁.vars h₂.vars, by simp⟩
  have h := Contained.composeAll (t := t) (List.forall_mem_cons.mpr ⟨h₁.part,
    List.forall_mem_cons.mpr ⟨h₂.part, parts⟩⟩) hc (by cases ho <;> simp)
  cases ho <;> simpa using h

theorem contained_cons {hd tl : Expr} (ihh : RunsContained hd) (iht : RunsContained tl) :
    RunsContained (cons hd tl) := by
  intro P env n s t m hr he hP
  obtain ⟨s₁, ht, n₁, s₂, tt, s₃, r₁, r₂, hu, hc, rfl⟩ := runs_cons hr
  obtain ⟨hP₁, hP₂⟩ := hP.split r₁.reaches r₂.reaches
  have h₁ := ihh r₁ he hP₁
  have h₂ := iht r₂ (he.apply h₁.within) hP₂
  have h₃ : s₃.Solved ∧ s₃.Within P := part_unify hu (by simpa using h₁.vars) h₂.vars
  refine .composeAll ?_ hc h₂.vars
  simp only [List.forall_mem_cons]
  exact ⟨h₁.part, h₂.part, h₃, by simp⟩

theorem contained_cond {c y f : Expr} (ihc : RunsContained c) (ihy : RunsContained y)
    (ihf : RunsContained f) : RunsContained (cond c y f) := by
  intro P env n s t m hr he hP
  obtain ⟨s₁, ct, n₁, s₂, yt, n₂, s₃, ft, s₄, s₅, r₁, r₂, r₃, hu, hv, hc, rfl⟩ := runs_cond hr
  obtain ⟨hP₁, hP₂⟩ := hP.split r₁.reaches (r₂.reaches.trans r₃.reaches)
  obtain ⟨hP₂, hP₃⟩ := hP₂.split r₂.reaches r₃.reaches
  have h₁ := ihc r₁ he hP₁
  have h₂ := ihy r₂ he hP₂
  have h₃ := ihf r₃ he hP₃
  have h₄ : s₄.Solved ∧ s₄.Within P := part_unify hu h₁.vars (by simp)
  have h₅ : s₅.Solved ∧ s₅.Within P := part_unify hv h₂.vars h₃.vars
  refine .composeAll ?_ hc h₃.vars
  simp only [List.forall_mem_cons]
  exact ⟨h₁.part, h₂.part, h₃.part, h₄, h₅, by simp⟩

theorem contained_app {f a : Expr} (ihf : RunsContained f) (iha : RunsContained a) :
    RunsContained (app f a) := by
  intro P env n s t m hr he hP
  obtain ⟨s₁, ft, n₁, s₂, aty, n₂, s₃, r₁, r₂, hn, rfl, hu, hc, rfl⟩ := runs_app hr
  obtain ⟨hP₁, hP₂⟩ := hP.split r₁.reaches (r₂.reaches.trans hn)
  obtain ⟨hP₂, hP₃⟩ := hP₂.split r₂.reaches hn
  have h₁ := ihf r₁ he hP₁
  have h₂ := iha r₂ (he.apply h₁.within) hP₂
  have ret : P n₂.next := hP₃.next hn
  have h₃ : s₃.Solved ∧ s₃.Within P := by
    refine part_unify hu (h₂.within.apply h₁.vars) fun x hx => ?_
    simp only [Ty.vars_arrow, Ty.vars_var, List.mem_append, List.mem_singleton] at hx
    exact hx.elim (h₂.vars x) (· ▸ ret)
  rw [← Subst.apply_var]
  refine .composeAll ?_ hc (by simpa)
  simp only [List.forall_mem_cons]
  exact ⟨h₁.part, h₂.part, h₃, by simp⟩

theorem contained_binding {v : Expr} (ih : RunsContained v)
    (hr : Runs (binding env k v.infer) n (s, env') m) (he : env.Within P) (hP : n.Grants P m) :
    s.Within P ∧ env'.Within P := by
  obtain ⟨t, rv, rfl⟩ := runs_binding hr
  have h := ih rv he hP
  exact ⟨h.within, (he.apply h.within).declare h.vars⟩

theorem contained_recBinding {v : Expr} (ih : RunsContained v)
    (hr : Runs (recBinding env k v v.infer) n (s, env') m) (he : env.Within P)
    (hP : n.Grants P m) : s.Within P ∧ env'.Within P := by
  obtain ⟨s₁, t, s₂, hn, rv, hu, hc, rfl⟩ := runs_recBinding v.grows_infer hr
  obtain ⟨hP₁, hP₂⟩ := hP.split hn rv.reaches
  have self : P n.next := hP₁.next hn
  have h := ih rv (he.declare (by simpa [Scheme.mono] using self)) hP₂
  have h₂ : s₂.Solved ∧ s₂.Within P := part_unify hu (h.within.image self) h.vars
  have hs : s.Within P := .compose h₂.left h.within h₂.right hc
  exact ⟨hs, (he.remove.apply hs).declare (hs.apply h.vars)⟩

theorem contained_letIn {v body : Expr} (ihv : RunsContained v) (ihb : RunsContained body) :
    RunsContained (letIn k v body) := by
  intro P env n s t m hr he hP
  obtain ⟨s₁, env', n₁, s₂, r₁, r₂, hc⟩ := runs_letIn hr
  obtain ⟨hP₁, hP₂⟩ := hP.split r₁.reaches r₂.reaches
  obtain ⟨hs₁, he'⟩ := contained_binding ihv r₁ he hP₁
  exact .compose hs₁ (ihb r₂ he' hP₂) hc

theorem contained_letRec {v body : Expr} (ihv : RunsContained v) (ihb : RunsContained body) :
    RunsContained (letRec k v body) := by
  intro P env n s t m hr he hP
  obtain ⟨s₁, env', n₁, s₂, r₁, r₂, hc⟩ := runs_letRec hr
  obtain ⟨hP₁, hP₂⟩ := hP.split r₁.reaches r₂.reaches
  obtain ⟨hs₁, he'⟩ := contained_recBinding ihv r₁ he hP₁
  exact .compose hs₁ (ihb r₂ he' hP₂) hc

section Loops

theorem contained_inferElems {es : List Expr} (ih : ∀ a ∈ es, RunsContained a)
    (hr : Runs (inferElems e env s₀ es) n (s, ts) m) (he : env.Within P) (hP : n.Grants P m)
    (h₀ : s₀.Solved ∧ s₀.Within P) : (s.Solved ∧ s.Within P) ∧ ∀ t ∈ ts, ∀ x ∈ t.vars, P x := by
  induction es generalizing s₀ n ts
  case nil =>
    obtain ⟨rfl, rfl, rfl⟩ := runs_inferElems_nil hr
    exact ⟨h₀, by simp⟩
  case cons a es ihs =>
    obtain ⟨s₁, t, n₁, s₂, ts', r₁, hc, r₂, rfl⟩ := runs_inferElems_cons hr
    obtain ⟨iha, ih⟩ := List.forall_mem_cons.mp ih
    obtain ⟨hP₁, hP₂⟩ := hP.split r₁.reaches r₂.reaches
    have h₁ := iha r₁ (he.apply h₀.right) hP₁
    obtain ⟨hs, hts⟩ := ihs ih r₂ hP₂ (h₁.compose h₀.right hc).part
    exact ⟨hs, List.forall_mem_cons.mpr ⟨h₁.vars, hts⟩⟩

theorem contained_inferBranches {bs : List (Pattern × Expr)} {vt ret : Ty}
    (ih : ∀ b ∈ bs, RunsContained b.2) (hr : Runs (inferBranches e env vt ret s₀ bs) n s m)
    (he : env.Within P) (hP : n.Grants P m) (h₀ : s₀.Solved ∧ s₀.Within P)
    (hvt : ∀ x ∈ vt.vars, P x) (hret : ∀ x ∈ ret.vars, P x) : s.Solved ∧ s.Within P := by
  induction bs generalizing s₀ n
  case nil =>
    obtain ⟨rfl, rfl⟩ := runs_inferBranches_nil hr
    exact h₀
  case cons b bs ihs =>
    obtain ⟨penv, pt, n₁, s₁, s₂, bt, n₂, s₃, s₄, rp, hu, rb, hv, hc, r⟩ :=
      runs_inferBranches_cons hr
    obtain ⟨ihb, ih⟩ := List.forall_mem_cons.mp ih
    obtain ⟨hP₁, hP₂⟩ := hP.split rp.reaches (rb.reaches.trans r.reaches)
    obtain ⟨hP₂, hP₃⟩ := hP₂.split rb.reaches r.reaches
    obtain ⟨hpe, hpt⟩ := Pattern.within_of_runs rp he hP₁
    have h₁ : s₁.Solved ∧ s₁.Within P := part_unify hu hpt (h₀.right.apply hvt)
    have h₂ := ihb rb (hpe.apply h₁.right) hP₂
    have h₃ : s₃.Solved ∧ s₃.Within P := part_unify hv (h₀.right.apply hret) h₂.vars
    have parts : ∀ p ∈ [s₀, s₁, s₂, s₃], p.Solved ∧ p.Within P := by
      simp only [List.forall_mem_cons]
      exact ⟨h₀, h₁, h₂.part, h₃, by simp⟩
    exact ihs ih r hP₃ (Contained.composeAll (t := .int) parts hc (by simp)).part

theorem contained_tuple {es : List Expr} (ih : ∀ a ∈ es, RunsContained a) :
    RunsContained (tuple es) := by
  intro P env n s t m hr he hP
  obtain ⟨ts, r, rfl⟩ := runs_tuple hr
  obtain ⟨⟨hs, hw⟩, hts⟩ := contained_inferElems ih r he hP ⟨.empty, .empty⟩
  rw [← Subst.apply_tuple]
  refine ⟨hs, hw, hw.apply fun x hx => ?_⟩
  rw [Ty.vars_tuple] at hx
  obtain ⟨t, ht, hx⟩ := List.mem_flatMap.mp hx
  exact hts t ht x hx

theorem contained_cases {v : Expr} {bs : List (Pattern × Expr)} (ihv : RunsContained v)
    (ihb : ∀ b ∈ bs, RunsContained b.2) : RunsContained (cases v bs) := by
  intro P env n s t m hr he hP
  obtain ⟨s₁, vt, n₁, r₁, hn, r₂, rfl⟩ := runs_cases hr
  obtain ⟨hP₁, hP₂⟩ := hP.split r₁.reaches (hn.trans r₂.reaches)
  obtain ⟨hP₂, hP₃⟩ := hP₂.split hn r₂.reaches
  have h₁ := ihv r₁ he hP₁
  have ret : P n₁.next := hP₂.next hn
  obtain ⟨hs, hw⟩ := contained_inferBranches ihb r₂ he hP₃ h₁.part h₁.vars (by simpa using ret)
  exact ⟨hs, hw, hw.image ret⟩

end Loops

theorem contained_of_runs (e : Expr) : RunsContained e := by
  induction e
  case int | bool =>
    intro P env n s t m hr he hP
    cases hr.eq
    exact .empty (by simp)
  case var k =>
    intro P env n s t m hr he hP
    obtain ⟨σ, hk, rfl, rfl, rfl⟩ := runs_var hr
    refine .empty fun x hx => ?_
    -- For the quantified variables of the scheme, others have been taken.
    cases Scheme.mem_vars_instantiate hr.reaches hx
    case inl hx => exact he.body hk x (Scheme.mem_freeVars.mp hx).left
    case inr hx => exact hP x hx
  case nil =>
    intro P env n s t m hr he hP
    obtain ⟨rfl, rfl, rfl⟩ := runs_nil hr
    exact .empty (by simpa using hP.next hr.reaches)
  case lam ih => exact contained_lam ih
  case binop ihl ihr => exact contained_binop ihl ihr
  case tuple ih => exact contained_tuple ih
  case cons ihh iht => exact contained_cons ihh iht
  case cond ihc ihy ihf => exact contained_cond ihc ihy ihf
  case app ihf iha => exact contained_app ihf iha
  case letIn ihv ihb => exact contained_letIn ihv ihb
  case letRec ihv ihb => exact contained_letRec ihv ihb
  case cases ihv ihb => exact contained_cases ihv ihb
  case hole k =>
    intro P env n s t m hr
    cases k <;> cases hr.eq

end Expr

-- A run counts the variables that it takes, and it speaks of no others than those and the ones in
-- the types of the environment. Nor does a pattern, and it quantifies only what was quantified
-- before.
theorem mentions_known_or_taken (env : TypeEnv) (n m : Supply)
    (hw : n.next.toInt + ((m.count : Int) - n.count) < 2 ^ 63) :
    (∀ e s t, Expr.infer env e n = .ok (s, t) m →
      (n.next ≤ m.next ∧ (m.count : Int) - n.count = m.next.toInt - n.next.toInt) ∧
      ∀ x, s.Mentions x ∨ x ∈ t.vars → env.Mentions x ∨ n.Taken m x) ∧
    (∀ p env' t, Pattern.infer env p n = .ok (env', t) m →
      (n.next ≤ m.next ∧ (m.count : Int) - n.count = m.next.toInt - n.next.toInt) ∧
      (∀ x, env'.Mentions x ∨ x ∈ t.vars → env.Mentions x ∨ n.Taken m x) ∧
      ∀ k σ', env'.get? k = some σ' → ∀ q ∈ σ'.vars, ∃ σ, env.get? k = some σ ∧ q ∈ σ.vars) := by
  -- The variables that are allowed stay the same throughout the run, while the environment and the
  -- supply change.
  have known : env.Within fun x => env.Mentions x ∨ n.Taken m x := fun _ => .inl
  have taken : n.Grants (fun x => env.Mentions x ∨ n.Taken m x) m := fun _ => .inr
  constructor
  case left =>
    intro e s t h
    have hn : n.Reaches m := .of_count ((e.grows_infer env).leadsTo h) hw
    have contained := e.contained_of_runs ⟨h, hn⟩ known taken
    exact ⟨hn.count, fun x hx => hx.elim (contained.within x) (contained.vars x)⟩
  case right =>
    intro p env' t h
    have hn : n.Reaches m := .of_count ((p.grows_infer env).leadsTo h) hw
    obtain ⟨within, vars⟩ := Pattern.within_of_runs ⟨h, hn⟩ known taken
    exact ⟨hn.count, fun x hx => hx.elim (within x) (vars x),
      fun k σ' hk q hq => Pattern.mem_vars_of_infer h hk hq⟩

def halfFree : TypeEnv :=
  (∅ : TypeEnv).declare "f" ⟨.ofList [0], .arrow (.var 0) (.var 1)⟩

theorem mentions_known_or_taken_halfFree :
    (∃ s t, (Expr.lam (.var "f") (.app (.var "f") (.int 1))).infer halfFree ⟨2, 0⟩ =
        .ok (s, t) ⟨4, 2⟩ ∧
      t = .arrow (.arrow (.var 0) (.var 3)) (.var 3) ∧
      ∀ x, s.Mentions x ∨ x ∈ t.vars → halfFree.Mentions x ∨ Supply.Taken ⟨2, 0⟩ ⟨4, 2⟩ x) ∧
    ∃ env' t, (Pattern.cons (.var "f") (.var "g")).infer halfFree ⟨2, 0⟩ = .ok (env', t) ⟨3, 1⟩ ∧
      t = .list (.arrow (.var 0) (.var 1)) ∧
      ∀ x, env'.Mentions x ∨ x ∈ t.vars → halfFree.Mentions x ∨ Supply.Taken ⟨2, 0⟩ ⟨3, 1⟩ x := by
  constructor
  case left =>
    have h : (Expr.lam (.var "f") (.app (.var "f") (.int 1))).infer halfFree ⟨2, 0⟩ = .ok
        (((∅ : Subst).insert 2 .int).insert 1 (.var 3), .arrow (.arrow (.var 0) (.var 3)) (.var 3))
        ⟨4, 2⟩ := by cbv
    exact ⟨_, _, h, rfl,
      ((mentions_known_or_taken halfFree ⟨2, 0⟩ ⟨4, 2⟩ (by decide)).left _ _ _ h).right⟩
  case right =>
    have h : (Pattern.cons (.var "f") (.var "g")).infer halfFree ⟨2, 0⟩ = .ok
        (halfFree.declareMono "g" (.list (.arrow (.var 0) (.var 1))),
          .list (.arrow (.var 0) (.var 1))) ⟨3, 1⟩ := by cbv
    exact ⟨_, _, h, rfl,
      ((mentions_known_or_taken halfFree ⟨2, 0⟩ ⟨3, 1⟩ (by decide)).right _ _ _ h).right.left⟩

-- The type of a run is what its substitution makes of it. So the type that a binding generalizes,
-- to which it does not apply the substitution, is the one that is answered for the value alone.
theorem type_normal_of_runs {env : TypeEnv} {e : Expr} {n m : Supply} {s : Subst} {t : Ty}
    (hr : Runs (e.infer env) n (s, t) m) (hp : e.PatternsNew env.names)
    (old : ∀ x ∈ env.freeVars, x < n.next) :
    s.apply t = t ∧
    (∀ k, binding env k e.infer n =
      .ok (s, (env.apply s).declare k ((env.apply s).generalize (s.apply t))) m) ∧
    ∀ c : Context, (c.start env).supply = n → (c.infer env e).1 = .ok t := by
  have normal : s.apply t = t := (e.scoped_of_runs hr ⟨fun _ => id, old⟩ hp).normal
  refine ⟨normal, fun k => ?_, fun c hc => ?_⟩
  case refine_1 =>
    rw [normal]
    exact (Expr.binding_eq_ok_iff e.infer).mpr ⟨t, hr.eq, rfl⟩
  case refine_2 =>
    rw [Context.infer_of_ok (hc ▸ hr.eq), normal]

-- `f : '1 -> '0`, where `'1` is quantified, and `y : '1`, where it is free.
def twiceUsed : TypeEnv :=
  ((∅ : TypeEnv).declare "f" ⟨.ofList [1], .arrow (.var 1) (.var 0)⟩).declareMono "y" (.var 1)

-- `let g = fun z -> f z in (g y, y 1)`
def wrappedCall : Expr :=
  .letIn "g" (.lam (.var "z") (.app (.var "f") (.var "z")))
    (.tuple [.app (.var "g") (.var "y"), .app (.var "y") (.int 1)])

def wrappedCallSubst : Subst :=
  ((((∅ : Subst).insert 5 (.arrow .int (.var 7))).insert 4 (.var 6)).insert 3 (.var 2)).insert 1
    (.arrow .int (.var 7)) |>.insert 0 (.var 6)

theorem type_normal_of_runs_wrappedCall :
    wrappedCall.infer twiceUsed ⟨2, 0⟩ = .ok (wrappedCallSubst, .tuple [.var 6, .var 7]) ⟨8, 6⟩ ∧
      wrappedCallSubst.apply (.tuple [.var 6, .var 7]) = .tuple [.var 6, .var 7] ∧
      (Context.infer {} twiceUsed wrappedCall).1 = .ok (.tuple [.var 6, .var 7]) := by
  have h : wrappedCall.infer twiceUsed ⟨2, 0⟩ =
      .ok (wrappedCallSubst, .tuple [.var 6, .var 7]) ⟨8, 6⟩ := by cbv
  have new : wrappedCall.PatternsNew twiceUsed.names :=
    ⟨⟨by decide, trivial, trivial⟩, ⟨trivial, trivial⟩, ⟨trivial, trivial⟩, trivial⟩
  have free : twiceUsed.freeVars.members = [0, 1] := by cbv
  have old : ∀ x ∈ twiceUsed.freeVars, x < (⟨2, 0⟩ : Supply).next := by
    simp only [SortedSet.mem_def, free, List.forall_mem_cons]
    exact ⟨by decide, by decide, by simp⟩
  obtain ⟨normal, _, answer⟩ := type_normal_of_runs ⟨h, 6, by decide, by decide⟩ new old
  exact ⟨h, normal, answer {} (by cbv)⟩

end HindleyMilner
