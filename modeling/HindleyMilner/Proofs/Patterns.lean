import HindleyMilner.Proofs.Compose
import HindleyMilner.Proofs.Runs

namespace HindleyMilner

open Infer

theorem apply_unify {a b : Ty} {s : Subst} (h : unify a b = .ok s) : s.apply a = s.apply b :=
  solves_unify_iff h |>.mp (solved_of_unify h).solves_image

namespace Pattern

variable {p q : Pattern} {ps : List Pattern} {env env₁ env₂ env' : TypeEnv} {n n₁ m : Supply}
  {t t₁ t₂ τ : Ty} {ts : List Ty} {s : Subst} {δ δ₁ δ₂ ρ : String → Ty} {k : String}
  {R : TyVar → Ty}

structure NewIn (env : TypeEnv) (p : Pattern) : Prop where
  nodup : p.names.Nodup
  new : ∀ k ∈ p.names, env.get? k = none

theorem Fresh.newIn {scope : List String} (h : p.Fresh scope) (hs : ∀ k ∈ env.names, k ∈ scope) :
    p.NewIn env where
  nodup := h.nodup
  new k hk := by
    by_contra hn
    have := TypeEnv.mem_names_iff.mpr (Option.isSome_iff_ne_none.mpr hn)
    exact h.new k hk (hs k this)

theorem NewIn.left (h : (cons p q).NewIn env) : p.NewIn env where
  nodup := (List.nodup_append.mp h.nodup).left
  new k hk := h.new k (by simp [names, hk])

theorem NewIn.right (h : (cons p q).NewIn env) : q.NewIn (env.declareAll p.names δ) where
  nodup := (List.nodup_append.mp h.nodup).right.left
  new k hk := by
    have hp : k ∉ p.names := fun hp => (List.nodup_append.mp h.nodup).right.right k hp k hk rfl
    simpa [hp] using h.new k (by simp [names, hk])

theorem NewIn.not_mem (h : (cons p q).NewIn env) (hk : k ∈ q.names) : k ∉ p.names :=
  fun hp => (List.nodup_append.mp h.nodup).right.right k hp k hk rfl

theorem NewIn.of_tuple (h : (tuple (p :: ps)).NewIn env) : (cons p (tuple ps)).NewIn env :=
  ⟨by simpa [names, namesAll] using h.nodup, by simpa [names, namesAll] using h.new⟩

-- `p` is bound with the types `δ` of its variables and has the type `t`.
structure Bound (p : Pattern) (env : TypeEnv) (n : Supply) (env' : TypeEnv) (t : Ty) (m : Supply)
    (δ : String → Ty) : Prop where
  env_eq : env' = env.declareAll p.names δ
  typing : p.Typing δ t
  taken : ∀ x ∈ t.vars, n.Taken m x
  taken_names : ∀ k ∈ p.names, ∀ x ∈ (δ k).vars, n.Taken m x
  holeFree : t.holeFree
  holeFree_names : ∀ k ∈ p.names, (δ k).holeFree

theorem Bound.of_names (hp : p.names = []) (hδ : ∀ δ, p.Typing δ t)
    (ht : ∀ x ∈ t.vars, n.Taken m x) (hf : t.holeFree) :
    Bound p env n env t m fun _ => .int :=
  ⟨by simp [hp, TypeEnv.declareAll], hδ _, ht, by simp [hp], hf, by simp [hp]⟩

theorem Bound.var {x : String} (hr : n.Reaches (n.drop 1)) :
    Bound (.var x) env n (env.declareMono x (.var n.next)) (.var n.next) (n.drop 1)
      fun _ => .var n.next :=
  have taken := Supply.Taken.next hr
  ⟨rfl, .var rfl, by simpa, by simpa using fun _ _ => taken, by simp, by simp⟩

theorem Bound.lt_next (h : Bound p env n env' t m δ) (ho : ∀ x ∈ env.freeVars, x < n.next)
    (hr : n.Reaches m) : ∀ x ∈ (env.declareAll p.names δ).freeVars, x < m.next := by
  intro x hx
  obtain hx | ⟨k, hk, hx⟩ := TypeEnv.mem_freeVars_of_declareAll hx
  · exact Std.lt_of_lt_of_le (ho x hx) hr.next_le
  · exact (h.taken_names k hk x hx).right

section Join

def joinAt (p : Pattern) (δ₁ δ₂ : String → Ty) (k : String) : Ty :=
  if k ∈ p.names then δ₁ k else δ₂ k

theorem joinAt_left (δ₁ δ₂ : String → Ty) (hk : k ∈ p.names) : joinAt p δ₁ δ₂ k = δ₁ k :=
  if_pos hk

theorem joinAt_right (δ₁ δ₂ : String → Ty) (hk : k ∉ p.names) : joinAt p δ₁ δ₂ k = δ₂ k :=
  if_neg hk

theorem declareAll_joinAt (hp : (cons p q).NewIn env) :
    (env.declareAll p.names δ₁).declareAll q.names δ₂ =
      env.declareAll (p.names ++ q.names) (joinAt p δ₁ δ₂) := by
  have left : env.declareAll p.names (joinAt p δ₁ δ₂) = env.declareAll p.names δ₁ :=
    TypeEnv.declareAll_congr fun _ => joinAt_left δ₁ δ₂
  rw [TypeEnv.declareAll_append, left]
  exact TypeEnv.declareAll_congr fun _ hk => (joinAt_right δ₁ δ₂ (hp.not_mem hk)).symm

theorem forall_joinAt {P : Ty → Prop} (hp : (cons p q).NewIn env) (h₁ : ∀ k ∈ p.names, P (δ₁ k))
    (h₂ : ∀ k ∈ q.names, P (δ₂ k)) : ∀ k ∈ p.names ++ q.names, P (joinAt p δ₁ δ₂ k) := by
  intro k hk
  cases List.mem_append.mp hk
  case inl hk => exact joinAt_left δ₁ δ₂ hk ▸ h₁ k hk
  case inr hk => exact joinAt_right δ₁ δ₂ (hp.not_mem hk) ▸ h₂ k hk

theorem Bound.cons (hp : (Pattern.cons p q).NewIn env) (ho : ∀ x ∈ env.freeVars, x < n.next)
    (h₁ : Bound p env n env₁ t₁ n₁ δ₁) (h₂ : Bound q env₁ n₁ env₂ t₂ m δ₂) (hr₁ : n.Reaches n₁)
    (hr₂ : n₁.Reaches m) (hu : unify (.list t₁) t₂ = .ok s) :
    Bound (.cons p q) env n (env₂.apply s) (.list (s.apply t₁)) m
      fun k => s.apply (joinAt p δ₁ δ₂ k) := by
  have taken₁ : ∀ x ∈ t₁.vars, n.Taken m x := fun x hx => (h₁.taken x hx).mono_right hr₂
  have taken₂ : ∀ x ∈ t₂.vars, n.Taken m x := fun x hx => (h₂.taken x hx).mono_left hr₁
  have within : ∀ x, s.Mentions x → n.Taken m x := fun x hx =>
    (mentions_unify hu hx).elim (fun h => taken₁ x (by simpa using h)) (taken₂ x)
  have hs : s.HoleFree := holeFree_unify hu (by simpa using h₁.holeFree) h₂.holeFree
  have henv : env.apply s = env := TypeEnv.apply_eq_self fun x hx =>
    Subst.get?_of_not_mentions fun h => (within x h).not_lt (ho x hx)
  constructor
  case env_eq =>
    rw [h₂.env_eq, h₁.env_eq, declareAll_joinAt hp, TypeEnv.declareAll_apply, henv]
    rfl
  case typing =>
    have typing₁ := h₁.typing.congr fun k hk => (joinAt_left δ₁ δ₂ hk).symm
    have typing₂ := h₂.typing.congr fun k hk => (joinAt_right δ₁ δ₂ (hp.not_mem hk)).symm
    refine .cons (typing₁.subst s.image) ?_
    rw [← Subst.apply_list, apply_unify hu]
    exact typing₂.subst s.image
  case taken =>
    intro x hx
    exact (Subst.mem_vars_apply (by simpa using hx)).elim (taken₁ x) (within x)
  case taken_names =>
    refine forall_joinAt (P := fun t => ∀ x ∈ (s.apply t).vars, n.Taken m x) hp ?_ ?_
    · exact fun k hk x hx => (Subst.mem_vars_apply hx).elim
        (fun h => (h₁.taken_names k hk x h).mono_right hr₂) (within x)
    · exact fun k hk x hx => (Subst.mem_vars_apply hx).elim
        (fun h => (h₂.taken_names k hk x h).mono_left hr₁) (within x)
  case holeFree => simpa using hs.apply h₁.holeFree
  case holeFree_names =>
    exact forall_joinAt (P := fun t => (s.apply t).holeFree) hp
      (fun k hk => hs.apply (h₁.holeFree_names k hk)) fun k hk => hs.apply (h₂.holeFree_names k hk)

theorem Bound.tuple_cons (hp : (Pattern.cons p (.tuple ps)).NewIn env)
    (h₁ : Bound p env n env₁ t₁ n₁ δ₁) (h₂ : Bound (.tuple ps) env₁ n₁ env₂ (.tuple ts) m δ₂)
    (hr₁ : n.Reaches n₁) (hr₂ : n₁.Reaches m) :
    Bound (.tuple (p :: ps)) env n env₂ (.tuple (t₁ :: ts)) m (joinAt p δ₁ δ₂) := by
  constructor
  case env_eq =>
    rw [h₂.env_eq, h₁.env_eq, declareAll_joinAt hp]
    simp [names, namesAll]
  case typing =>
    have typing₁ := h₁.typing.congr fun k hk => (joinAt_left δ₁ δ₂ hk).symm
    have typing₂ := h₂.typing.congr fun k hk => (joinAt_right δ₁ δ₂ (hp.not_mem hk)).symm
    cases typing₂
    case tuple h => exact .tuple (.cons typing₁ h)
  case taken =>
    intro x hx
    simp only [Ty.vars_tuple, List.flatMap_cons, List.mem_append] at hx
    cases hx
    case inl hx => exact (h₁.taken x hx).mono_right hr₂
    case inr hx => exact (h₂.taken x (by simpa using hx)).mono_left hr₁
  case taken_names =>
    exact forall_joinAt (P := fun t => ∀ x ∈ t.vars, n.Taken m x) hp
      (fun k hk x hx => (h₁.taken_names k hk x hx).mono_right hr₂)
      fun k hk x hx => (h₂.taken_names k hk x hx).mono_left hr₁
  case holeFree =>
    have := h₂.holeFree
    simp_all [h₁.holeFree]
  case holeFree_names =>
    exact forall_joinAt (P := fun t => t.holeFree) hp h₁.holeFree_names h₂.holeFree_names

end Join

section Runs

theorem exists_bound_all
    (ih : ∀ p ∈ ps, ∀ {env env' n m t}, Runs (p.infer env) n (env', t) m → p.NewIn env →
      (∀ x ∈ env.freeVars, x < n.next) → ∃ δ, Bound p env n env' t m δ)
    (hr : Runs (inferAll env ps) n (env', ts) m) (hp : (tuple ps).NewIn env)
    (ho : ∀ x ∈ env.freeVars, x < n.next) : ∃ δ, Bound (tuple ps) env n env' (.tuple ts) m δ := by
  induction ps generalizing env n ts
  case nil =>
    cases hr.eq
    exact ⟨_, .of_names rfl (fun _ => .tuple .nil) (by simp) (by simp)⟩
  case cons p ps ihs =>
    have ⟨ihp, ih⟩ := List.forall_mem_cons.mp ih
    obtain ⟨env₁, t, n₁, ts, r₁, r₂, rfl⟩ := runs_inferAll_cons hr
    have ⟨δ₁, h₁⟩ := ihp r₁ hp.of_tuple.left ho
    obtain rfl := h₁.env_eq
    have ⟨δ₂, h₂⟩ := ihs ih r₂ hp.of_tuple.right (h₁.lt_next ho r₁.reaches)
    exact ⟨_, .tuple_cons hp.of_tuple h₁ h₂ r₁.reaches r₂.reaches⟩

theorem exists_bound (hr : Runs (p.infer env) n (env', t) m) (hp : p.NewIn env)
    (ho : ∀ x ∈ env.freeVars, x < n.next) : ∃ δ, Bound p env n env' t m δ := by
  induction p generalizing env env' n t m
  case wildcard =>
    cases hr.eq
    exact ⟨_, .of_names rfl (fun _ => .wildcard) (by simpa using .next hr.reaches) (by simp)⟩
  case int =>
    cases hr.eq
    exact ⟨_, .of_names rfl (fun _ => .int) (by simp) (by simp)⟩
  case bool =>
    cases hr.eq
    exact ⟨_, .of_names rfl (fun _ => .bool) (by simp) (by simp)⟩
  case nil =>
    cases hr.eq
    exact ⟨_, .of_names rfl (fun _ => .nil) (by simpa using .next hr.reaches) (by simp)⟩
  case var x =>
    obtain ⟨rfl, rfl, rfl⟩ := runs_var (hp.new x (by simp [names])) hr
    exact ⟨_, .var hr.reaches⟩
  case cons hd tl ihh iht =>
    obtain ⟨env₁, t₁, n₁, env₂, t₂, s, r₁, r₂, hu, rfl, rfl⟩ := runs_cons hr
    obtain ⟨δ₁, h₁⟩ := ihh r₁ hp.left ho
    obtain rfl := h₁.env_eq
    obtain ⟨δ₂, h₂⟩ := iht r₂ hp.right (h₁.lt_next ho r₁.reaches)
    exact ⟨_, .cons hp ho h₁ h₂ r₁.reaches r₂.reaches hu⟩
  case tuple ps ih =>
    obtain ⟨ts, hts, ht⟩ := infer_tuple_eq_ok_iff.mp hr.eq
    exact ht ▸ exists_bound_all ih ⟨hts, hr.reaches⟩ hp ho
  case hole => cases hr.eq

end Runs

section Declares

variable {ks : List String} {n₀ : Supply}

structure Declares (ks : List String) (env : TypeEnv) (n : Supply) (env' : TypeEnv) (m : Supply)
    (δ : String → Ty) : Prop where
  env_eq : env' = env.declareAll ks δ
  taken : ∀ k ∈ ks, ∀ x ∈ (δ k).vars, n.Taken m x

theorem Bound.declares (h : Bound p env n env' t m δ) : Declares p.names env n env' m δ :=
  ⟨h.env_eq, h.taken_names⟩

namespace Declares

theorem mono (h : Declares ks env n env' n₁ δ) (hr : n₁.Reaches m) : Declares ks env n env' m δ :=
  ⟨h.env_eq, fun k hk x hx => (h.taken k hk x hx).mono_right hr⟩

theorem apply (h : Declares ks env n env' m δ) (ho : ∀ x ∈ env.freeVars, x < n.next)
    (hs : ∀ x, s.Mentions x → n.Taken m x) :
    Declares ks env n (env'.apply s) m fun k => s.apply (δ k) := by
  have henv : env.apply s = env := TypeEnv.apply_eq_self fun x hx =>
    Subst.get?_of_not_mentions fun h => (hs x h).not_lt (ho x hx)
  constructor
  case env_eq => rw [h.env_eq, TypeEnv.declareAll_apply, henv]
  case taken => exact fun k hk x hx => (Subst.mem_vars_apply hx).elim (h.taken k hk x) (hs x)

theorem again (h : Declares ks env n env' m δ) (hk : k ∈ ks) :
    Declares (ks ++ [k]) env n env' m δ := by
  have same : ∀ j, j ∈ ks ++ [k] ↔ j ∈ ks := fun j => by
    simpa using fun hj => hj ▸ hk
  constructor
  case env_eq =>
    refine TypeEnv.ext_get? fun j => ?_
    simp only [h.env_eq, TypeEnv.get?_declareAll, same]
  case taken => exact fun j hj => h.taken j (same j |>.mp hj)

theorem declareMono (h : Declares ks env n₀ env' n δ) (hr : n.Reaches (n.drop 1))
    (hn : n₀.Reaches n) :
    Declares (ks ++ [k]) env n₀ (env'.declareMono k (.var n.next)) (n.drop 1)
      (Function.update δ k (.var n.next)) := by
  constructor
  case env_eq =>
    refine TypeEnv.ext_get? fun j => ?_
    simp only [h.env_eq, TypeEnv.get?_declareMono, TypeEnv.get?_declareAll, List.mem_append,
      List.mem_singleton, Function.update_apply]
    split <;> simp [*]
  case taken =>
    intro j hj x hx
    rw [Function.update_apply] at hx
    split at hx
    case isTrue =>
      have : x = n.next := by simpa using hx
      exact this ▸ (Supply.Taken.next hr).mono_left hn
    case isFalse hjk =>
      have hj : j ∈ ks := by simpa [hjk] using hj
      exact (h.taken j hj x hx).mono_right hr

end Declares

theorem exists_declares_after (h₀ : Declares ks env n₀ env₁ n δ)
    (hr : Runs (p.infer env₁) n (env', t) m) (hn : n₀.Reaches n)
    (hp : ∀ k ∈ p.names, env.get? k = none) (ho : ∀ x ∈ env.freeVars, x < n₀.next) :
    ∃ δ', Declares (ks ++ p.names) env n₀ env' m δ' ∧ ∀ x ∈ t.vars, n₀.Taken m x := by
  induction p generalizing ks env₁ n env' t m δ
  case wildcard =>
    cases hr.eq
    refine ⟨δ, by simpa [names] using h₀.mono hr.reaches, ?_⟩
    simpa using (Supply.Taken.next hr.reaches).mono_left hn
  case int =>
    cases hr.eq
    exact ⟨δ, by simpa [names] using h₀, by simp⟩
  case bool =>
    cases hr.eq
    exact ⟨δ, by simpa [names] using h₀, by simp⟩
  case nil =>
    cases hr.eq
    refine ⟨δ, by simpa [names] using h₀.mono hr.reaches, ?_⟩
    simpa using (Supply.Taken.next hr.reaches).mono_left hn
  case var k =>
    by_cases hk : k ∈ ks
    case pos =>
      have hb : env₁.get? k = some (.mono (δ k)) := by simp [h₀.env_eq, hk]
      have he := hr.eq
      simp only [infer, hb, pure_eq_ok_iff, Prod.mk.injEq] at he
      obtain ⟨⟨rfl, rfl⟩, rfl⟩ := he
      exact ⟨δ, h₀.again hk, h₀.taken k hk⟩
    case neg =>
      have hb : env₁.get? k = none := by simp [h₀.env_eq, hk, hp k (by simp [names])]
      obtain ⟨rfl, rfl, rfl⟩ := runs_var hb hr
      refine ⟨_, h₀.declareMono hr.reaches hn, ?_⟩
      simpa using (Supply.Taken.next hr.reaches).mono_left hn
  case cons hd tl ihh iht =>
    obtain ⟨env₂, t₁, n₁, env₃, t₂, s, r₁, r₂, hu, rfl, rfl⟩ := runs_cons hr
    simp only [names, List.mem_append, or_imp, forall_and] at hp
    obtain ⟨δ₁, h₁, ht₁⟩ := ihh h₀ r₁ hn hp.left
    obtain ⟨δ₂, h₂, ht₂⟩ := iht h₁ r₂ (hn.trans r₁.reaches) hp.right
    have within : ∀ x, s.Mentions x → n₀.Taken m x := fun x hx =>
      (mentions_unify hu hx).elim (fun h => (ht₁ x (by simpa using h)).mono_right r₂.reaches) (ht₂ x)
    refine ⟨_, by simpa [names] using h₂.apply ho within, fun x hx => ?_⟩
    exact (Subst.mem_vars_apply (by simpa using hx)).elim
      (fun h => (ht₁ x h).mono_right r₂.reaches) (within x)
  case tuple ps ih =>
    obtain ⟨ts, hts, rfl⟩ := infer_tuple_eq_ok_iff.mp hr.eq
    replace hr : Runs (inferAll env₁ ps) n (env', ts) m := ⟨hts, hr.reaches⟩
    clear hts
    induction ps generalizing ks env₁ n ts δ
    case nil =>
      cases hr.eq
      exact ⟨δ, by simpa [names, namesAll] using h₀, by simp⟩
    case cons p ps ihs =>
      obtain ⟨ihp, ih⟩ := List.forall_mem_cons.mp ih
      obtain ⟨env₂, t, n₁, ts, r₁, r₂, rfl⟩ := runs_inferAll_cons hr
      simp only [names, namesAll, List.mem_append, or_imp, forall_and] at hp
      obtain ⟨δ₁, h₁, ht₁⟩ := ihp h₀ r₁ hn hp.left
      obtain ⟨δ₂, h₂, ht₂⟩ := ihs ih h₁ (hn.trans r₁.reaches) hp.right ts r₂
      refine ⟨δ₂, by simpa [names, namesAll] using h₂, fun x hx => ?_⟩
      simp only [Ty.vars_tuple, List.flatMap_cons, List.mem_append] at hx ht₂
      exact hx.elim (fun hx => (ht₁ x hx).mono_right r₂.reaches) (ht₂ x)
  case hole => cases hr.eq

-- The names of a pattern may be repeated, as long as none of them is bound outside of it.
theorem exists_declares (hr : Runs (p.infer env) n (env', t) m)
    (hp : ∀ k ∈ p.names, env.get? k = none) (ho : ∀ x ∈ env.freeVars, x < n.next) :
    ∃ δ, Declares p.names env n env' m δ ∧ ∀ x ∈ t.vars, n.Taken m x :=
  have none : Declares [] env n env n fun _ => .int := ⟨rfl, by simp⟩
  exists_declares_after none hr (.refl n) hp ho

end Declares

section Principal

-- A run that binds `p` with types of which `ρ` and `τ` are instances. The types come about by an
-- assignment that agrees with `R` on earlier variables.
structure Principal (p : Pattern) (env : TypeEnv) (n : Supply) (R : TyVar → Ty) (ρ : String → Ty)
    (τ : Ty) (env' : TypeEnv) (t : Ty) (m : Supply) (δ : String → Ty) (R' : TyVar → Ty) : Prop where
  runs : Runs (p.infer env) n (env', t) m
  bound : Bound p env n env' t m δ
  agrees : AgreeBefore n R R'
  subst : t.subst R' = τ
  subst_names : ∀ k ∈ p.names, (δ k).subst R' = ρ k

theorem Principal.of_fresh {u : Ty} (hr : Runs (p.infer env) n (env, t) (n.drop 1))
    (hp : p.names = []) (hδ : ∀ δ, p.Typing δ t) (ht : ∀ x ∈ t.vars, x = n.next) (hf : t.holeFree)
    (hτ : t.subst (Function.update R n.next u) = τ) :
    Principal p env n R ρ τ env t (n.drop 1) (fun _ => .int) (Function.update R n.next u) where
  runs := hr
  bound := .of_names hp hδ (fun x hx => ht x hx ▸ .next hr.reaches) hf
  agrees := .update n R _
  subst := hτ
  subst_names := by simp [hp]

theorem Principal.of_const (hr : Runs (p.infer env) n (env, τ) n) (hp : p.names = [])
    (hδ : ∀ δ, p.Typing δ τ) (ht : τ.vars = []) (hf : τ.holeFree) :
    Principal p env n R ρ τ env τ n (fun _ => .int) R where
  runs := hr
  bound := .of_names hp hδ (by simp [ht]) hf
  agrees := .refl n R
  subst := Ty.subst_eq_self (by simp [ht])
  subst_names := by simp [hp]

theorem Principal.var {x : String} (hx : env.get? x = none) (hr : n.Reaches (n.drop 1)) :
    Principal (.var x) env n R ρ (ρ x) (env.declareMono x (.var n.next)) (.var n.next) (n.drop 1)
      (fun _ => .var n.next) (Function.update R n.next (ρ x)) where
  runs := ⟨by simp [infer, hx], hr⟩
  bound := .var hr
  agrees := .update n R _
  subst := by simp
  subst_names := by simp [names]

section Join

variable {R₁ R₂ : TyVar → Ty} {τ₁ τ₂ : Ty} {τs : List Ty}

theorem Principal.later (h₁ : Principal p env n R ρ τ₁ env₁ t₁ n₁ δ₁ R₁)
    (h₂ : Principal q env₁ n₁ R₁ ρ τ₂ env₂ t₂ m δ₂ R₂) : Principal p env n R ρ τ₁ env₁ t₁ n₁ δ₁ R₂ where
  runs := h₁.runs
  bound := h₁.bound
  agrees := h₁.agrees.trans h₁.runs.reaches h₂.agrees
  subst := (h₂.agrees.subst fun x hx => (h₁.bound.taken x hx).right).trans h₁.subst
  subst_names k hk :=
    (h₂.agrees.subst fun x hx => (h₁.bound.taken_names k hk x hx).right).trans (h₁.subst_names k hk)

theorem Principal.cons (hp : (Pattern.cons p q).NewIn env) (ho : ∀ x ∈ env.freeVars, x < n.next)
    (h₁ : Principal p env n R ρ τ env₁ t₁ n₁ δ₁ R₁)
    (h₂ : Principal q env₁ n₁ R₁ ρ (.list τ) env₂ t₂ m δ₂ R₂) :
    ∃ env' t δ, Principal (.cons p q) env n R ρ (.list τ) env' t m δ R₂ := by
  have h₁ := h₁.later h₂
  have hlist : (Ty.list t₁).holeFree := by simpa using h₁.bound.holeFree
  have hs : (Ty.list t₁).subst R₂ = t₂.subst R₂ := by simp [h₁.subst, h₂.subst]
  have ⟨s, hu⟩ := Subst.unify_join (.list t₁) t₂ |>.exists_ok ⟨hlist, h₂.bound.holeFree⟩ hs
  have solves := solves_unify_iff hu |>.mpr hs
  refine ⟨env₂.apply s, .list (s.apply t₁), fun k => s.apply (joinAt p δ₁ δ₂ k), ?_⟩
  constructor
  case runs =>
    exact ⟨by simp [infer, h₁.runs.eq, h₂.runs.eq, hu], h₁.runs.reaches.trans h₂.runs.reaches⟩
  case bound => exact .cons hp ho h₁.bound h₂.bound h₁.runs.reaches h₂.runs.reaches hu
  case agrees => exact h₁.agrees
  case subst => simp [solves.subst_apply, h₁.subst]
  case subst_names =>
    intro k hk
    rw [solves.subst_apply]
    cases List.mem_append.mp hk
    case inl hk => exact joinAt_left δ₁ δ₂ hk ▸ h₁.subst_names k hk
    case inr hk => exact joinAt_right δ₁ δ₂ (hp.not_mem hk) ▸ h₂.subst_names k hk

theorem Principal.tuple_cons (hp : (Pattern.cons p (.tuple ps)).NewIn env)
    (h₁ : Principal p env n R ρ τ env₁ t₁ n₁ δ₁ R₁)
    (h₂ : Principal (.tuple ps) env₁ n₁ R₁ ρ (.tuple τs) env₂ t₂ m δ₂ R₂) :
    ∃ t δ, Principal (.tuple (p :: ps)) env n R ρ (.tuple (τ :: τs)) env₂ t m δ R₂ := by
  have h₁ := h₁.later h₂
  obtain ⟨ts, hts, rfl⟩ := infer_tuple_eq_ok_iff.mp h₂.runs.eq
  refine ⟨.tuple (t₁ :: ts), joinAt p δ₁ δ₂, ?_⟩
  constructor
  case runs =>
    refine ⟨infer_tuple_eq_ok_iff.mpr ⟨t₁ :: ts, ?_, rfl⟩, h₁.runs.reaches.trans h₂.runs.reaches⟩
    simp [inferAll, h₁.runs.eq, hts]
  case bound => exact .tuple_cons hp h₁.bound h₂.bound h₁.runs.reaches h₂.runs.reaches
  case agrees => exact h₁.agrees
  case subst =>
    have := h₂.subst
    simp_all [h₁.subst]
  case subst_names =>
    intro k hk
    cases List.mem_append.mp (by simpa [names, namesAll] using hk)
    case inl hk => exact joinAt_left δ₁ δ₂ hk ▸ h₁.subst_names k hk
    case inr hk => exact joinAt_right δ₁ δ₂ (hp.not_mem hk) ▸ h₂.subst_names k hk

end Join

theorem exists_principal (h : p.Typing ρ τ) (hp : p.NewIn env) (ho : ∀ x ∈ env.freeVars, x < n.next)
    (hw : Fits (p.infer env) n) :
    ∃ env' t m δ R', Principal p env n R ρ τ env' t m δ R' := by
  induction p generalizing env n τ R <;> cases h
  case wildcard =>
    have hr : Runs (wildcard.infer env) n (env, .var n.next) (n.drop 1) :=
      hw.runs (by simp [infer])
    exact ⟨_, _, _, _, Function.update R n.next τ,
      .of_fresh hr rfl (fun _ => .wildcard) (by simp) (by simp) (by simp)⟩
  case int =>
    exact ⟨_, _, _, _, _, .of_const (hw.runs (by simp [infer])) rfl (fun _ => .int) (by simp) (by simp)⟩
  case bool =>
    exact ⟨_, _, _, _, _, .of_const (hw.runs (by simp [infer])) rfl (fun _ => .bool) (by simp) (by simp)⟩
  case nil τ =>
    have hr : Runs (nil.infer env) n (env, .list (.var n.next)) (n.drop 1) :=
      hw.runs (by simp [infer])
    exact ⟨_, _, _, _, Function.update R n.next τ,
      .of_fresh hr rfl (fun _ => .nil) (by simp) (by simp) (by simp)⟩
  case var x hx =>
    obtain rfl := hx
    have hn := hp.new x (by simp [names])
    have he : (var x).infer env n = .ok (env.declareMono x (.var n.next), .var n.next) (n.drop 1) := by
      simp [infer, hn]
    exact ⟨_, _, _, _, _, .var hn (hw.runs he).reaches⟩
  case cons ihh iht τ hh ht =>
    obtain ⟨hw₁, hw₂⟩ := fits_cons hw
    obtain ⟨env₁, t₁, n₁, δ₁, R₁, h₁⟩ := ihh (R := R) hh hp.left ho hw₁
    have hq : NewIn env₁ _ := h₁.bound.env_eq ▸ hp.right
    have ho₁ := h₁.bound.env_eq ▸ h₁.bound.lt_next ho h₁.runs.reaches
    obtain ⟨env₂, t₂, m, δ₂, R₂, h₂⟩ := iht (R := R₁) ht hq ho₁ (hw₂ _ _ _ h₁.runs.eq)
    obtain ⟨env', t, δ, h⟩ := h₁.cons hp ho h₂
    exact ⟨env', t, m, δ, R₂, h⟩
  case tuple ps ih τs hs =>
    induction ps generalizing env n τs R
    case nil =>
      cases hs
      exact ⟨_, _, _, _, _, .of_const (hw.runs (by simp [infer, inferAll])) rfl (fun _ => .tuple .nil)
        (by simp) (by simp)⟩
    case cons p ps ihs =>
      cases hs
      case cons τ τs hτ hs =>
        obtain ⟨ihp, ih⟩ := List.forall_mem_cons.mp ih
        obtain ⟨hw₁, hw₂⟩ := fits_tuple_cons hw
        obtain ⟨env₁, t₁, n₁, δ₁, R₁, h₁⟩ := ihp (R := R) hτ hp.of_tuple.left ho hw₁
        have hq : NewIn env₁ _ := h₁.bound.env_eq ▸ hp.of_tuple.right
        have ho₁ := h₁.bound.env_eq ▸ h₁.bound.lt_next ho h₁.runs.reaches
        obtain ⟨env₂, t₂, m, δ₂, R₂, h₂⟩ := ihs (R := R₁) ih hq ho₁ (hw₂ _ _ _ h₁.runs.eq) hs
        obtain ⟨t, δ, h⟩ := h₁.tuple_cons hp.of_tuple h₂
        exact ⟨env₂, t, m, δ, R₂, h⟩

end Principal

end Pattern

end HindleyMilner
