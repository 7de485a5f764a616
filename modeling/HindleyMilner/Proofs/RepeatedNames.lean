import HindleyMilner.Proofs.Patterns
import HindleyMilner.Proofs.Unused

namespace HindleyMilner

open Infer

def TypeEnv.AgreeOn (K : String → Prop) (env env' : TypeEnv) : Prop :=
  ∀ k, K k → env'.get? k = env.get? k

theorem TypeEnv.AgreeOn.congruence (K : String → Prop) : Congruence K (AgreeOn K) where
  get? h hk := h _ hk
  declareMono t h hk j hj := by rw [get?_declareMono, get?_declareMono, h j hj]
  apply s h j hj := by rw [get?_apply, get?_apply, h j hj]

namespace Pattern

variable {p : Pattern} {env env₁ env' : TypeEnv} {n n₀ m : Supply} {t : Ty} {ks ls : List String}
  {δ₀ δ δ' : String → Ty} {k : String}

-- Names may be repeated, but not across a cons pattern: its names are new to those `seen` before
-- it, and its tail has none of the names of its head.
mutual
def Settled (seen : List String) : Pattern → Prop
  | .cons h t => (cons h t).New seen ∧ h.Settled [] ∧ t.New h.names ∧ t.Settled []
  | .tuple ps => AllSettled seen ps
  | _ => True
def AllSettled (seen : List String) : List Pattern → Prop
  | [] => True
  | p :: ps => p.Settled seen ∧ AllSettled (seen ++ p.names) ps
end

section Settled

def joinOn (ks : List String) (δ δ' : String → Ty) (k : String) : Ty :=
  if k ∈ ks then δ k else δ' k

namespace Declares

theorem none (env : TypeEnv) (n : Supply) : Declares [] env n env n fun _ => .int :=
  ⟨rfl, by simp⟩

theorem append (h : Declares ks env n₀ env₁ n δ) (h' : Declares ls env₁ n env' m δ')
    (hn : n₀.Reaches n) (hm : n.Reaches m) (hd : ∀ k ∈ ls, k ∉ ks) :
    Declares (ks ++ ls) env n₀ env' m (joinOn ks δ δ') := by
  constructor
  case env_eq =>
    refine TypeEnv.ext_get? fun j => ?_
    have := hd j
    simp only [h'.env_eq, h.env_eq, TypeEnv.get?_declareAll, List.mem_append, joinOn]
    grind
  case taken =>
    intro j hj x hx
    rw [joinOn] at hx
    split at hx
    case isTrue hk => exact (h.taken j hk x hx).mono_right hm
    case isFalse hk =>
      have hj : j ∈ ls := (List.mem_append.mp hj).resolve_left hk
      exact (h'.taken j hj x hx).mono_left hn

theorem lt_next (h : Declares ks env n₀ env' n δ) (hn : n₀.Reaches n)
    (ho : ∀ x ∈ env.freeVars, x < n₀.next) : ∀ x ∈ env'.freeVars, x < n.next := by
  intro x hx
  rw [h.env_eq] at hx
  obtain hx | ⟨k, hk, hx⟩ := TypeEnv.mem_freeVars_of_declareAll hx
  · exact hn.lt_next (ho x hx)
  · exact (h.taken k hk x hx).right

end Declares

structure Settles (p : Pattern) (ks : List String) (env : TypeEnv) (n₀ : Supply) (δ : String → Ty)
    (env' : TypeEnv) (t : Ty) (m : Supply) (δ' : String → Ty) : Prop where
  declares : Declares (ks ++ p.names) env n₀ env' m δ'
  kept : ∀ k ∈ ks, δ' k = δ k
  typing : p.Typing δ' t

theorem Settles.of_names (h₀ : Declares ks env n₀ env₁ n δ) (hm : n.Reaches m) (hp : p.names = [])
    (ht : p.Typing δ t) : Settles p ks env n₀ δ env₁ t m δ :=
  ⟨by simpa [hp] using h₀.mono hm, fun _ _ => rfl, ht⟩

theorem Settles.after (h₀ : Declares ks env n₀ env₁ n δ) (hn : n₀.Reaches n) (hm : n.Reaches m)
    (hp : p.New ks) (h : Settles p [] env₁ n δ₀ env' t m δ') :
    Settles p ks env n₀ δ env' t m (joinOn ks δ δ') where
  declares := h₀.append h.declares hn hm hp
  kept _ hk := if_pos hk
  typing := h.typing.congr fun k hk => (if_neg (hp k hk)).symm

theorem exists_settles_var (h₀ : Declares ks env n₀ env₁ n δ) (hn : n₀.Reaches n)
    (hr : Runs ((var k).infer env₁) n (env', t) m) (hp : env.get? k = none) :
    ∃ δ', Settles (var k) ks env n₀ δ env' t m δ' := by
  by_cases hk : k ∈ ks
  case pos =>
    have hb : env₁.get? k = some (.mono (δ k)) := by simp [h₀.env_eq, hk]
    have he := hr.eq
    simp only [infer, hb, pure_eq_ok_iff, Prod.mk.injEq] at he
    obtain ⟨⟨rfl, rfl⟩, rfl⟩ := he
    exact ⟨δ, h₀.again hk, fun _ _ => rfl, .var rfl⟩
  case neg =>
    have hb : env₁.get? k = none := by simp [h₀.env_eq, hk, hp]
    obtain ⟨rfl, rfl, rfl⟩ := runs_var hb hr
    refine ⟨_, h₀.declareMono hr.reaches hn, fun j hj => ?_, .var (by simp)⟩
    have hjk : j ≠ k := fun h => hk (h ▸ hj)
    exact Function.update_of_ne hjk _ _

-- No type that is found for the head mentions a variable of the tail, so that the unifier brings
-- all of them up to date.
theorem Settles.cons {hd tl : Pattern} {n₁ : Supply} {env₂ : TypeEnv} {δ₁ δ₂ : String → Ty}
    {t₁ t₂ : Ty} {s : Subst} (h₁ : Settles hd [] env n δ env₁ t₁ n₁ δ₁)
    (h₂ : Settles tl [] env₁ n₁ δ env₂ t₂ m δ₂) (hn : n.Reaches n₁) (hm : n₁.Reaches m)
    (ho : ∀ x ∈ env.freeVars, x < n.next) (ht₁ : ∀ x ∈ t₁.vars, n.Taken n₁ x)
    (ht₂ : ∀ x ∈ t₂.vars, n₁.Taken m x) (hp : tl.New hd.names)
    (hu : unify (.list t₁) t₂ = .ok s) :
    Settles (.cons hd tl) [] env n δ (env₂.apply s) (.list (s.apply t₁)) m
      fun k => s.apply (joinOn hd.names δ₁ δ₂ k) := by
  have within : ∀ x, s.Mentions x → n.Taken m x := fun x hx =>
    (mentions_unify hu hx).elim (fun h => (ht₁ x (by simpa using h)).mono_right hm) fun h =>
      (ht₂ x h).mono_left hn
  refine ⟨(h₁.declares.append h₂.declares hn hm hp).apply ho within, by simp, ?_⟩
  have head := h₁.typing.congr fun k hk => (if_pos hk : joinOn hd.names δ₁ δ₂ k = δ₁ k).symm
  have tail := h₂.typing.congr fun k hk => (if_neg (hp k hk) : joinOn hd.names δ₁ δ₂ k = δ₂ k).symm
  refine .cons (head.subst s.image) ?_
  rw [← Subst.apply_list, apply_unify hu]
  exact tail.subst s.image

theorem exists_settles (h₀ : Declares ks env n₀ env₁ n δ) (hn : n₀.Reaches n)
    (hr : Runs (p.infer env₁) n (env', t) m) (ho : ∀ x ∈ env.freeVars, x < n₀.next)
    (hp : ∀ k ∈ p.names, env.get? k = none) (hs : p.Settled ks) :
    ∃ δ', Settles p ks env n₀ δ env' t m δ' := by
  induction p generalizing ks env n₀ env₁ n env' t m δ
  case wildcard =>
    cases hr.eq
    exact ⟨δ, .of_names h₀ hr.reaches rfl .wildcard⟩
  case int =>
    cases hr.eq
    exact ⟨δ, .of_names h₀ hr.reaches rfl .int⟩
  case bool =>
    cases hr.eq
    exact ⟨δ, .of_names h₀ hr.reaches rfl .bool⟩
  case nil =>
    cases hr.eq
    exact ⟨δ, .of_names h₀ hr.reaches rfl .nil⟩
  case var k => exact exists_settles_var h₀ hn hr (hp k (by simp [names]))
  case cons hd tl ihh iht =>
    obtain ⟨new, hsh, disjoint, hst⟩ := hs
    obtain ⟨env₂, t₁, n₁, env₃, t₂, s, r₁, r₂, hu, rfl, rfl⟩ := runs_cons hr
    have unbound : ∀ k ∈ hd.names ++ tl.names, env₁.get? k = none := fun k hk => by
      simp [h₀.env_eq, new k hk, hp k hk]
    simp only [List.mem_append, or_imp, forall_and] at unbound
    have ho₁ := h₀.lt_next hn ho
    obtain ⟨δ₁, h₁⟩ := ihh (.none env₁ n) (.refl n) r₁ ho₁ unbound.left hsh
    have unbound₂ : ∀ k ∈ tl.names, env₂.get? k = none := fun k hk => by
      simp [h₁.declares.env_eq, disjoint k hk, unbound.right k hk]
    have ho₂ := h₁.declares.lt_next r₁.reaches ho₁
    obtain ⟨δ₂, h₂⟩ := iht (.none env₂ n₁) (.refl n₁) r₂ ho₂ unbound₂ hst
    obtain ⟨_, _, ht₁⟩ := exists_declares r₁ unbound.left ho₁
    obtain ⟨_, _, ht₂⟩ := exists_declares r₂ unbound₂ ho₂
    have h := h₁.cons h₂ r₁.reaches r₂.reaches ho₁ ht₁ ht₂ disjoint hu
    exact ⟨_, h.after h₀ hn hr.reaches new⟩
  case tuple ps ih =>
    obtain ⟨ts, hts, rfl⟩ := infer_tuple_eq_ok_iff.mp hr.eq
    replace hr : Runs (inferAll env₁ ps) n (env', ts) m := ⟨hts, hr.reaches⟩
    clear hts
    induction ps generalizing ks env₁ n ts δ
    case nil =>
      cases hr.eq
      exact ⟨δ, .of_names h₀ hr.reaches rfl (.tuple .nil)⟩
    case cons p ps ihs =>
      obtain ⟨ihp, ih⟩ := List.forall_mem_cons.mp ih
      obtain ⟨env₂, t, n₁, ts, r₁, r₂, rfl⟩ := runs_inferAll_cons hr
      simp only [names, namesAll, List.mem_append, or_imp, forall_and] at hp
      obtain ⟨δ₁, h₁⟩ := ihp h₀ hn r₁ ho hp.left hs.left
      obtain ⟨δ₂, h₂⟩ := ihs ih h₁.declares (hn.trans r₁.reaches) hp.right hs.right ts r₂
      refine ⟨δ₂, by simpa [names, namesAll] using h₂.declares, fun k hk => ?_, ?_⟩
      · exact (h₂.kept k (List.mem_append_left _ hk)).trans (h₁.kept k hk)
      · have head := h₁.typing.congr fun k hk => (h₂.kept k (List.mem_append_right ks hk)).symm
        cases h₂.typing
        case tuple tail => exact .tuple (.cons head tail)
  case hole => cases hr.eq

-- A pattern that repeats no name across a cons pattern has the type that is found for it, with the
-- types that its names are bound to.
theorem typing_of_settled (hr : Runs (p.infer env) n (env', t) m)
    (hp : ∀ k ∈ p.names, env.get? k = none) (hs : p.Settled []) :
    ∃ δ, (∀ k ∈ p.names, env'.get? k = some (.mono (δ k))) ∧ p.Typing δ t := by
  -- Other names of `env` may have any types, so that they are left out first.
  have alone : env.AgreeOn (· ∈ p.names) ∅ := fun k hk => (hp k hk).symm
  obtain ⟨⟨env₁, _⟩, h, ha, rfl⟩ :=
    (p.follows_infer (TypeEnv.AgreeOn.congruence _) (fun _ => id) alone).exists_ok hr.eq
  have closed : ∀ x ∈ (∅ : TypeEnv).freeVars, x < n.next := fun x hx =>
    absurd hx (SortedSet.not_mem_empty x)
  obtain ⟨δ, h⟩ := exists_settles (.none ∅ n) (.refl n) ⟨h, hr.reaches⟩ closed (fun _ _ => rfl) hs
  refine ⟨δ, fun k hk => ?_, h.typing⟩
  rw [← ha k hk, h.declares.env_eq, TypeEnv.get?_declareAll]
  exact if_pos hk

-- `((x, x) :: xs, x)`
def pairsAndFirst : Pattern :=
  .tuple [.cons (.tuple [.var "x", .var "x"]) (.var "xs"), .var "x"]

def usedEnv : TypeEnv :=
  (∅ : TypeEnv).declareMono "w" (.list (.var 0))

def pairsEnv : TypeEnv :=
  (usedEnv.declareMono "x" (.var 0)).declareMono "xs" (.list (.tuple [.var 0, .var 0]))

theorem typing_of_settled_pairs :
    pairsAndFirst.infer usedEnv {} =
        .ok (pairsEnv, .tuple [.list (.tuple [.var 0, .var 0]), .var 0]) ⟨2, 2⟩ ∧
      ∃ δ, (∀ k ∈ pairsAndFirst.names, pairsEnv.get? k = some (.mono (δ k))) ∧
        pairsAndFirst.Typing δ (.tuple [.list (.tuple [.var 0, .var 0]), .var 0]) := by
  have h : pairsAndFirst.infer usedEnv {} =
      .ok (pairsEnv, .tuple [.list (.tuple [.var 0, .var 0]), .var 0]) ⟨2, 2⟩ := by cbv
  have unbound : ∀ k ∈ pairsAndFirst.names, usedEnv.get? k = none := by decide
  have settled : pairsAndFirst.Settled [] :=
    ⟨⟨by decide, ⟨trivial, trivial, trivial⟩, by decide, trivial⟩, trivial, trivial⟩
  exact ⟨h, typing_of_settled ⟨h, 2, rfl, by decide⟩ unbound settled⟩

-- `(x, x :: [])`
def staleComponent : Pattern :=
  .tuple [.var "x", .cons (.var "x") .nil]

-- `x :: (x :: []) :: []`
def staleHead : Pattern :=
  .cons (.var "x") (.cons (.cons (.var "x") .nil) .nil)

def lastEnv : TypeEnv :=
  (∅ : TypeEnv).declareMono "x" (.var 1)

-- The cons pattern narrows the type of `x`, and the first occurrence keeps the one it had. So a
-- component of a tuple gets a type that `x` does not have, and a head passes although its type
-- would have to be infinite.
theorem mistyped_across_cons :
    (staleComponent.infer ∅ {} = .ok (lastEnv, .tuple [.var 0, .list (.var 1)]) ⟨2, 2⟩ ∧
      ¬∃ δ, (∀ k ∈ staleComponent.names, lastEnv.get? k = some (.mono (δ k))) ∧
        staleComponent.Typing δ (.tuple [.var 0, .list (.var 1)])) ∧
    (staleHead.infer ∅ {} = .ok (lastEnv, .list (.list (.var 1))) ⟨3, 3⟩ ∧
      ∀ δ τ, ¬staleHead.Typing δ τ) := by
  refine ⟨⟨by cbv, ?component⟩, by cbv, ?head⟩
  case component =>
    rintro ⟨δ, bound, typing⟩
    have one : δ "x" = .var 1 := by
      have h : some (Scheme.mono (.var 1)) = some (.mono (δ "x")) := bound "x" (by decide)
      simpa [Scheme.mono] using h.symm
    cases typing with | tuple h =>
    cases h with | cons hx _ =>
    cases hx with | var zero =>
    simp [one] at zero
  case head =>
    intro δ τ typing
    cases typing with | cons outer rest =>
    cases outer with | var hx =>
    cases rest with | cons nested _ =>
    cases nested with | cons inner _ =>
    cases inner with | var hx' =>
    -- The element of the inner list is the list itself.
    have infinite := hx.symm.trans hx'
    exact absurd (congrArg Ty.size infinite) (by simp [Ty.size])

end Settled

end Pattern

end HindleyMilner
