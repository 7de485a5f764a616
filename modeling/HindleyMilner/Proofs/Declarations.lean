import HindleyMilner.Proofs.Soundness

namespace HindleyMilner

open Infer

def Ty.closure (t : Ty) : Scheme where
  vars := t.freeVars
  body := t

namespace TypeEnv.Closed

variable {env : TypeEnv} {k : String} {t : Ty}

theorem generalize_eq (h : env.Closed) : env.generalize t = t.closure := by
  rw [generalize, Ty.closure, Scheme.mk.injEq]
  refine ⟨SortedSet.ext_mem fun x => ?_, rfl⟩
  simp [h x]

theorem declare_closure (h : env.Closed) : (env.declare k t.closure).Closed :=
  h.generalize_eq ▸ h.declare_generalize

end TypeEnv.Closed

namespace Stmt

def name? : Stmt → Option String
  | .decl x _ | .declRec x _ => some x
  | .expr _ | .hole _ => none

variable {stmt : Stmt} {env env' : TypeEnv} {n m : Supply}

-- The substitution that is found for the value finds nothing to replace.
theorem eq_declare_of_infer (hc : env.Closed) (h : stmt.infer env n = .ok env' m) :
    (stmt.name? = none ∧ env' = env) ∨
      ∃ x, ∃ t : Ty, stmt.name? = some x ∧ env' = env.declare x t.closure := by
  cases stmt
  case decl x v =>
    obtain ⟨s, hb⟩ := infer_decl_eq_ok_iff.mp h
    obtain ⟨t, _, rfl⟩ := Expr.binding_eq_ok_iff v.infer |>.mp hb
    refine .inr ⟨x, t, rfl, ?_⟩
    rw [hc.apply, hc.generalize_eq]
  case declRec x v =>
    obtain ⟨s, hb⟩ := infer_declRec_eq_ok_iff.mp h
    obtain ⟨s₁, t, s₂, _, _, _, rfl⟩ := Expr.recBinding_eq_ok_iff v v.infer |>.mp hb
    refine .inr ⟨x, s.apply t, rfl, ?_⟩
    rw [hc.remove.apply, hc.remove.generalize_eq, TypeEnv.declare_remove]
  case expr e => exact .inl ⟨rfl, (infer_expr_eq_ok_iff.mp h).left⟩
  case hole => exact absurd h throw_ne_ok

theorem ensures_closed (stmt : Stmt) (hc : env.Closed) :
    Ensures TypeEnv.Closed (stmt.infer env) := by
  intro n env' m h
  obtain ⟨_, rfl⟩ | ⟨x, t, _, rfl⟩ := eq_declare_of_infer hc h
  · exact hc
  · exact hc.declare_closure

theorem get?_of_infer {k : String} (hc : env.Closed) (h : stmt.infer env n = .ok env' m)
    (hk : stmt.name? ≠ some k) : env'.get? k = env.get? k := by
  obtain ⟨_, rfl⟩ | ⟨x, t, hx, rfl⟩ := eq_declare_of_infer hc h
  · rfl
  · have : k ≠ x := fun he => hk (he ▸ hx)
    simp [this]

theorem exists_get?_of_infer {k : String} (hc : env.Closed) (h : stmt.infer env n = .ok env' m)
    (hk : stmt.name? = some k) : ∃ t : Ty, env'.get? k = some t.closure := by
  obtain ⟨hn, _⟩ | ⟨x, t, hx, rfl⟩ := eq_declare_of_infer hc h
  · cases hn.symm.trans hk
  · cases hx.symm.trans hk
    exact ⟨t, by simp⟩

end Stmt

namespace Program

def declared (p : Program) : List String :=
  p.filterMap Stmt.name?

variable {p : Program} {env env' : TypeEnv} {i : Nat} {n m : Supply} {k : String}

theorem exists_last_declaration (hk : k ∈ declared p) :
    ∃ q stmt r, p = q ++ stmt :: r ∧ stmt.name? = some k ∧ k ∉ declared r := by
  induction p
  case nil => simp [declared] at hk
  case cons stmt p ih =>
    by_cases hp : k ∈ declared p
    case pos =>
      obtain ⟨q, last, r, rfl, hl, hr⟩ := ih hp
      exact ⟨stmt :: q, last, r, rfl, hl, hr⟩
    case neg =>
      obtain ⟨a, ha, hak⟩ := List.mem_filterMap.mp hk
      obtain rfl | ha := List.mem_cons.mp ha
      · exact ⟨[], a, p, rfl, hak, hp⟩
      · exact absurd (List.mem_filterMap.mpr ⟨a, ha, hak⟩) hp

theorem ensures_closed (p : Program) (i : Nat) (hc : env.Closed) :
    Ensures TypeEnv.Closed (infer env i p) := by
  induction p generalizing env i
  case nil => exact .pure hc
  case cons stmt p ih =>
    intro n env' m h
    obtain ⟨env₁, n₁, hs, hp⟩ := infer_cons_eq_ok_iff.mp h
    exact ih (i + 1) (stmt.ensures_closed hc n env₁ n₁ hs) n₁ env' m hp

theorem get?_of_infer (hc : env.Closed) (h : infer env i p n = .ok env' m)
    (hk : k ∉ declared p) : env'.get? k = env.get? k := by
  induction p generalizing env i n
  case nil =>
    obtain ⟨rfl, rfl⟩ := pure_eq_ok_iff.mp h
    rfl
  case cons stmt p ih =>
    obtain ⟨env₁, n₁, hs, hp⟩ := infer_cons_eq_ok_iff.mp h
    have here : stmt.name? ≠ some k :=
      fun he => hk (List.mem_filterMap.mpr ⟨stmt, List.mem_cons_self, he⟩)
    have later : k ∉ declared p := fun hp =>
      hk ((List.sublist_cons_self stmt p).filterMap Stmt.name? |>.mem hp)
    rw [ih (stmt.ensures_closed hc n env₁ n₁ hs) hp later, stmt.get?_of_infer hc hs here]

theorem get?_of_last_declaration {q r : Program} {stmt : Stmt} (hc : env.Closed)
    (h : infer env i (q ++ stmt :: r) n = .ok env' m) (hs : stmt.name? = some k)
    (hr : k ∉ declared r) :
    ∃ env₁ n₁ env₂ n₂, ∃ t : Ty, infer env i q n = .ok env₁ n₁ ∧
      stmt.infer env₁ n₁ = .ok env₂ n₂ ∧ env₂.get? k = some t.closure ∧
      env'.get? k = some t.closure := by
  obtain ⟨env₁, n₁, h₁, h⟩ := infer_append_eq_ok_iff.mp h
  obtain ⟨env₂, n₂, h₂, h⟩ := infer_cons_eq_ok_iff.mp h
  have hc₁ := q.ensures_closed i hc n env₁ n₁ h₁
  have hc₂ := stmt.ensures_closed hc₁ n₁ env₂ n₂ h₂
  obtain ⟨t, ht⟩ := stmt.exists_get?_of_infer hc₁ h₂ hs
  exact ⟨env₁, n₁, env₂, n₂, t, h₁, h₂, ht, (get?_of_infer hc₂ h hr).trans ht⟩

end Program

namespace Context

theorem exists_last_declaration {c : Context} {env env' : TypeEnv} {p : Program} {k : String}
    (hc : env.Closed) (h : (c.inferProgram env p).1 = .ok env') (hk : k ∈ p.declared) :
    ∃ q stmt r, p = q ++ stmt :: r ∧ stmt.name? = some k ∧ k ∉ Program.declared r ∧
      ∃ env₁ env₂ m σ, (c.inferProgram env q).1 = .ok env₁ ∧
        stmt.infer env₁ (c.inferProgram env q).2.supply = .ok env₂ m ∧
        env₂.get? k = some σ ∧ env'.get? k = some σ ∧ σ.vars = σ.body.freeVars := by
  obtain ⟨m, h⟩ := inferProgram_eq_ok_iff.mp h
  obtain ⟨q, stmt, r, rfl, hs, hr⟩ := Program.exists_last_declaration hk
  obtain ⟨env₁, n₁, env₂, n₂, t, h₁, h₂, ht, ht'⟩ := Program.get?_of_last_declaration hc h hs hr
  refine ⟨q, stmt, r, rfl, hs, hr, env₁, env₂, n₂, t.closure, ?_, ?_, ht, ht', rfl⟩
  · exact inferProgram_eq_ok_iff.mpr ⟨n₁, h₁⟩
  · rwa [supply_inferProgram, final_of_ok h₁]

-- A closed environment stays closed. It keeps the schemes of the names that are not declared; the
-- others have the scheme that their last declaration has led to, which quantifies all there is.
theorem inferProgram_declares (c : Context) (env env' : TypeEnv) (p : Program) (hc : env.Closed)
    (h : (c.inferProgram env p).1 = .ok env') :
    env'.Closed ∧
    (∀ k, k ∈ env'.names ↔ k ∈ env.names ∨ k ∈ p.declared) ∧
    (∀ k, k ∉ p.declared → env'.get? k = env.get? k) ∧
    ∀ k ∈ p.declared, ∃ q stmt r,
      p = q ++ stmt :: r ∧ stmt.name? = some k ∧ k ∉ Program.declared r ∧
      ∃ env₁ env₂ m σ, (c.inferProgram env q).1 = .ok env₁ ∧
        stmt.infer env₁ (c.inferProgram env q).2.supply = .ok env₂ m ∧
        env₂.get? k = some σ ∧ env'.get? k = some σ ∧ σ.vars = σ.body.freeVars := by
  obtain ⟨m, hp⟩ := inferProgram_eq_ok_iff.mp h
  have same : ∀ k, k ∉ p.declared → env'.get? k = env.get? k :=
    fun k hk => Program.get?_of_infer hc hp hk
  refine ⟨p.ensures_closed 0 hc _ _ _ hp, fun k => ?_, same, fun k => exists_last_declaration hc h⟩
  simp only [TypeEnv.mem_names_iff]
  by_cases hk : k ∈ p.declared
  case pos =>
    obtain ⟨_, _, _, _, _, _, _, _, _, σ, _, _, _, hσ, _⟩ := exists_last_declaration hc h hk
    simp [hσ, hk]
  case neg => simp [same k hk, hk]

def identityEnv : TypeEnv :=
  TypeEnv.declare ∅ "id" (Ty.arrow (.var 0) (.var 0)).closure

-- `let pair = fun x -> (x, id x)`, `let rec loop = fun y -> loop y`, the expression `pair 1` and,
-- once more, `let pair = fun z -> (z, pair z)`
def pairTwice : Program :=
  [.decl "pair" (.lam (.var "x") (.tuple [.var "x", .app (.var "id") (.var "x")])),
    .declRec "loop" (.lam (.var "y") (.app (.var "loop") (.var "y"))),
    .expr (.app (.var "pair") (.int 1)),
    .decl "pair" (.lam (.var "z") (.tuple [.var "z", .app (.var "pair") (.var "z")]))]

theorem inferProgram_declares_pairTwice :
    ∃ env', (inferProgram {} identityEnv pairTwice).1 = .ok env' ∧ env'.Closed ∧
      (∀ k, k ∈ env'.names ↔ k ∈ identityEnv.names ∨ k ∈ pairTwice.declared) ∧
      env'.get? "id" = identityEnv.get? "id" ∧
      (env'.get? "pair").map (·.body) =
        some (.arrow (.var 8) (.tuple [.var 8, .tuple [.var 8, .var 8]])) := by
  have closed : identityEnv.Closed := fun x => SortedSet.not_mem_empty x
  have pair : (inferProgram {} identityEnv pairTwice).1.map
      (fun env => (env.get? "pair").map (·.body)) =
        .ok (some (.arrow (.var 8) (.tuple [.var 8, .tuple [.var 8, .var 8]]))) := by cbv
  cases h : (inferProgram {} identityEnv pairTwice).1 <;> rw [h] at pair
  case error => cases pair
  case ok env' =>
    obtain ⟨hc, names, same, _⟩ := inferProgram_declares {} identityEnv env' pairTwice closed h
    exact ⟨env', rfl, hc, names, same "id" (by decide), Except.ok.inj pair⟩

end Context

end HindleyMilner
