import HindleyMilner.Proofs.Declarations
import HindleyMilner.Proofs.Equivariance
import HindleyMilner.Proofs.Rendering

namespace HindleyMilner

open Infer

namespace Renaming

variable {n₁ n₂ l : Supply}

theorem toInt_nth_of_leadsTo {i : Nat} (h : n₁.Reaches n₂) (hl : n₂.Reaches l)
    (hi : (n₂.drop (i + 1)).LeadsTo l) :
    (n₁.nth i).toInt = n₁.next.toInt + i ∧ (n₂.nth i).toInt = n₂.next.toInt + i := by
  obtain ⟨k, hk, hlt⟩ := (hl.split (.drop n₂ (i + 1)) hi).left
  have hc := congrArg Supply.count hk
  have hle := Int64.le_iff_toInt_le.mp h.next_le
  simp only [Supply.count_drop] at hc
  exact ⟨Supply.toInt_nth (by omega), Supply.toInt_nth (by omega)⟩

-- Variables before `n₁` stay as they are, those taken from `n₁` become those taken from `n₂`.
def shift (h : n₁.Reaches n₂) (hl : n₂.Reaches l) : Renaming where
  rel x x' := x < n₁.next ∧ x = x' ∨
    ∃ i, (n₂.drop (i + 1)).LeadsTo l ∧ x = n₁.nth i ∧ x' = n₂.nth i
  lt_iff := by
    have hle := Int64.le_iff_toInt_le.mp h.next_le
    rintro x x' y y' (⟨hx, rfl⟩ | ⟨i, hi, rfl, rfl⟩) (⟨hy, rfl⟩ | ⟨j, hj, rfl, rfl⟩)
    case inl.inl => rfl
    case inl.inr =>
      obtain ⟨h₁, h₂⟩ := toInt_nth_of_leadsTo h hl hj
      simp only [Int64.lt_iff_toInt_lt, h₁, h₂] at hx ⊢
      omega
    case inr.inl =>
      obtain ⟨h₁, h₂⟩ := toInt_nth_of_leadsTo h hl hi
      simp only [Int64.lt_iff_toInt_lt, h₁, h₂] at hy ⊢
      omega
    case inr.inr =>
      obtain ⟨h₁, h₂⟩ := toInt_nth_of_leadsTo h hl hi
      obtain ⟨h₃, h₄⟩ := toInt_nth_of_leadsTo h hl hj
      simp only [Int64.lt_iff_toInt_lt, h₁, h₂, h₃, h₄]
      omega

theorem linked_shift (h : n₁.Reaches n₂) (hl : n₂.Reaches l) : n₁.Linked (shift h hl) n₂ l :=
  fun i hi => .inr ⟨i, hi, rfl, rfl⟩

theorem linked_before {n : Supply} (h : n₁.Reaches n₂) (hl : n₂.Reaches l) (hn : n.Reaches n₁) :
    n.Linked (shift h hl) n n₁ := by
  rintro i ⟨k, rfl⟩
  rw [Supply.drop_drop] at hn
  refine .inl ⟨?_, rfl⟩
  rw [Supply.drop_drop]
  exact (Supply.Taken.nth hn (by omega)).right

end Renaming

section Equivalent

variable {ρ : Renaming} {t t' : Ty} {σ σ' : Scheme} {env env' : TypeEnv}

theorem Ty.Renamed.eq_subst {f : TyVar → Ty} (h : t.Renamed ρ t')
    (hf : ∀ x ∈ t.vars, ∀ x', ρ.rel x x' → f x = .var x') : t' = t.subst f := by
  induction h
  case const | hole => simp
  case var hx => simpa using (hf _ (by simp) _ hx).symm
  case arrow iha ihr =>
    simp only [Ty.vars_arrow, List.mem_append, or_imp, forall_and] at hf
    rw [Ty.subst_arrow, ← iha hf.left, ← ihr hf.right]
  case list ih => rw [Ty.subst_list, ← ih (by simpa using hf)]
  case tuple h ih =>
    rw [Ty.subst_tuple, Ty.tuple.injEq]
    rw [Ty.vars_tuple] at hf
    clear h
    induction ih
    case nil => rfl
    case cons ht _ ihs =>
      simp only [List.flatMap_cons, List.mem_append, or_imp, forall_and] at hf
      rw [List.map_cons, ← ht.snd hf.left, ← ihs hf.right]

noncomputable def Renaming.image (ρ : Renaming) (x : TyVar) : TyVar :=
  open Classical in if h : ∃ x', ρ.rel x x' then h.choose else x

theorem Renaming.image_eq {x x' : TyVar} (h : ρ.rel x x') : ρ.image x = x' := by
  have hex : ∃ x', ρ.rel x x' := ⟨x', h⟩
  rw [image, dif_pos hex]
  exact (ρ.eq_iff hex.choose_spec h).mp rfl

theorem Scheme.Renamed.equivalent (h : σ.Renamed ρ σ') (hc : ∀ x, x ∉ σ.freeVars) :
    σ.Equivalent σ' := by
  have quantified : ∀ x ∈ σ.body.vars, x ∈ σ.vars := fun x hx =>
    not_not.mp fun hq => hc x (Scheme.mem_freeVars.mpr ⟨hx, hq⟩)
  refine ⟨ρ.image, ?injOn, fun x _ => hc _, fun x' => ?vars, ?body⟩
  case injOn =>
    intro x hx y hy he
    obtain ⟨x', _, hxx⟩ := h.vars.left x hx
    obtain ⟨y', _, hyy⟩ := h.vars.left y hy
    rw [ρ.image_eq hxx, ρ.image_eq hyy] at he
    exact (ρ.eq_iff hxx hyy).mpr he
  case vars =>
    constructor
    case mp =>
      intro hx
      obtain ⟨x, hx, hxx⟩ := h.vars.right x' hx
      exact ⟨x, hx, ρ.image_eq hxx⟩
    case mpr =>
      rintro ⟨x, hx, rfl⟩
      obtain ⟨x', hx', hxx⟩ := h.vars.left x hx
      rwa [ρ.image_eq hxx]
  case body =>
    refine h.body.eq_subst fun x hx x' hxx => ?_
    rw [Scheme.renameIn, if_pos (quantified x hx), ρ.image_eq hxx]

theorem TypeEnv.Renamed.equivalent (h : env.Renamed ρ env') (hc : env.Closed) :
    env.Rel Scheme.Equivalent env' :=
  h.imp fun _ _ _ hk hσ => hσ.equivalent (hc.not_mem hk)

end Equivalent

namespace Program

variable {p q : Program} {env env' env₁ : TypeEnv} {i : Nat} {n n₁ n₂ m : Supply} {e : Expr}
  {r : Subst × Ty}

theorem infer_expr_cons_eq_ok_iff :
    infer env i (.expr e :: q) n = .ok env' m ↔
      ∃ r n₁, e.infer env n = .ok r n₁ ∧ infer env (i + 1) q n₁ = .ok env' m := by
  simp only [infer_cons_eq_ok_iff, Stmt.infer_expr_eq_ok_iff]
  constructor
  case mp =>
    rintro ⟨_, n₁, ⟨rfl, r, he⟩, h⟩
    exact ⟨r, n₁, he, h⟩
  case mpr =>
    rintro ⟨r, n₁, he, h⟩
    exact ⟨env, n₁, ⟨rfl, r, he⟩, h⟩

theorem alike_without_expr (hp : infer ∅ i p n = .ok env₁ n₁) (he : e.infer env₁ n₁ = .ok r n₂)
    (hf : Fits (infer ∅ i (p ++ .expr e :: q)) n) :
    ∃ ρ l, Alike ρ l (TypeEnv.Renamed ρ) (infer env₁ (i + p.length) q n₁)
      (infer env₁ (i + p.length + 1) q n₂) := by
  rw [infer_append] at hf
  obtain ⟨fits, hf⟩ := fits_bind (p.grows_infer ∅ i) (fun _ => grows_infer _ _ _) hf
  have hr := (fits.runs hp).reaches
  have stmt : (Stmt.expr e).infer env₁ n₁ = .ok env₁ n₂ :=
    Stmt.infer_expr_eq_ok_iff.mpr ⟨rfl, r, he⟩
  obtain ⟨fits, hf⟩ := fits_cons (hf env₁ n₁ hp)
  have hn : n₁.Reaches n₂ := (fits.runs stmt).reaches
  have hl : n₂.Reaches _ := hf env₁ n₂ stmt
  have none : TypeEnv.Renamed (.shift hn hl) ∅ ∅ := fun _ => .none
  have before := p.mirrors_infer (l := n₁) i i none n n (Renaming.linked_before hn hl hr)
    (final_of_ok hp ▸ .refl n₁)
  rw [hp] at before
  cases before with | ok henv _ =>
  exact ⟨_, _, q.mirrors_infer _ _ henv n₁ n₂ (Renaming.linked_shift hn hl) (.refl _)⟩

end Program

namespace Context

-- An expression statement is only checked, in the environment and with the supply it finds. If it
-- passes, the program comes to the environment it has without it, up to the names of quantified
-- variables, and so to the same text.
theorem exprStmt_inert (c : Context) (p q : Program) (e : Expr)
    (hw : (c.inferProgram ∅ (p ++ .expr e :: q)).2.varCount < 2 ^ 63) :
    ((∃ env, (c.inferProgram ∅ (p ++ .expr e :: q)).1 = .ok env) ↔
      (∃ env, (c.inferProgram ∅ (p ++ q)).1 = .ok env) ∧
      ∃ env, (c.inferProgram ∅ p).1 = .ok env ∧
        ∃ r m, e.infer env (c.inferProgram ∅ p).2.supply = .ok r m) ∧
    ∀ env env', (c.inferProgram ∅ (p ++ q)).1 = .ok env →
      (c.inferProgram ∅ (p ++ .expr e :: q)).1 = .ok env' →
      env.Rel Scheme.Equivalent env' ∧ env.render = env'.render := by
  have closed : TypeEnv.Closed ∅ := fun x => SortedSet.not_mem_empty x
  have fits : Fits (Program.infer ∅ 0 (p ++ .expr e :: q)) (c.start ∅).supply := by
    refine reaches_of_varCount closed ?_ (Program.grows_infer _ _ _ _)
    rwa [← supply_inferProgram]
  simp only [inferProgram_eq_ok_iff, supply_inferProgram, Program.infer_append_eq_ok_iff,
    Program.infer_expr_cons_eq_ok_iff]
  refine ⟨⟨?_, ?_⟩, ?_⟩
  · rintro ⟨env', m', env₁, n₁, hp, r, n₂, he, hq'⟩
    obtain ⟨ρ, l, alike⟩ := Program.alike_without_expr hp he fits
    obtain ⟨env, m, hq, _⟩ := alike.exists_left hq'
    refine ⟨⟨env, m, env₁, n₁, hp, hq⟩, env₁, ⟨n₁, hp⟩, r, n₂, ?_⟩
    rwa [final_of_ok hp]
  · rintro ⟨⟨env, m, env₁, n₁, hp, hq⟩, env₂, ⟨n₂, hp'⟩, r, n₃, he⟩
    cases hp.symm.trans hp'
    rw [final_of_ok hp] at he
    obtain ⟨ρ, l, alike⟩ := Program.alike_without_expr hp he fits
    obtain ⟨env', m', hq', _⟩ := alike.exists_right hq
    exact ⟨env', m', env₁, n₁, hp, r, n₃, he, hq'⟩
  · rintro env env' ⟨m, env₁, n₁, hp, hq⟩ ⟨m', env₂, n₂, hp', r, n₃, he, hq'⟩
    cases hp.symm.trans hp'
    obtain ⟨ρ, l, alike⟩ := Program.alike_without_expr hp he fits
    obtain ⟨env₃, m₃, hq₃, renamed⟩ := alike.exists_left hq'
    cases hq.symm.trans hq₃
    have closed₁ := p.ensures_closed 0 closed _ _ _ hp
    have equivalent := renamed.equivalent (q.ensures_closed _ closed₁ _ _ _ hq)
    exact ⟨equivalent, TypeEnv.render_eq equivalent⟩

def identity : Stmt :=
  .decl "id" (.lam (.var "x") (.var "x"))

-- `fun y -> id (id y)`
def identityTwice : Expr :=
  .lam (.var "y") (.app (.var "id") (.app (.var "id") (.var "y")))

-- `let const = fun z -> fun w -> id z`
def constant : Stmt :=
  .decl "const" (.lam (.var "z") (.lam (.var "w") (.app (.var "id") (.var "z"))))

theorem exprStmt_inert_later :
    ∃ env env', (inferProgram {} ∅ [identity, constant]).1 = .ok env ∧
      (inferProgram {} ∅ [identity, .expr identityTwice, constant]).1 = .ok env' ∧
      (env.get? "const").map (·.body) = some (.arrow (.var 4) (.arrow (.var 2) (.var 4))) ∧
      (env'.get? "const").map (·.body) = some (.arrow (.var 9) (.arrow (.var 7) (.var 9))) ∧
      env.Rel Scheme.Equivalent env' ∧ env.render = env'.render := by
  have without : (inferProgram {} ∅ [identity, constant]).1.map
      (fun env => (env.get? "const").map (·.body)) =
        .ok (some (.arrow (.var 4) (.arrow (.var 2) (.var 4)))) := by cbv
  have whole : (inferProgram {} ∅ [identity, .expr identityTwice, constant]).1.map
      (fun env => (env.get? "const").map (·.body)) =
        .ok (some (.arrow (.var 9) (.arrow (.var 7) (.var 9)))) := by cbv
  have inert := exprStmt_inert {} [identity] [constant] identityTwice (by cbv)
  cases h : (inferProgram {} ∅ [identity, constant]).1 <;> rw [h] at without
  case error => cases without
  case ok env =>
    cases h' : (inferProgram {} ∅ [identity, .expr identityTwice, constant]).1 <;> rw [h'] at whole
    case error => cases whole
    case ok env' =>
      exact ⟨env, env', rfl, rfl, Except.ok.inj without, Except.ok.inj whole,
        inert.right env env' h h'⟩

end Context

end HindleyMilner
