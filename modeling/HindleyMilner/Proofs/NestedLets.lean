import HindleyMilner.Proofs.Soundness

namespace HindleyMilner

open Infer

inductive Decl where
  | plain (name : String) (value : Expr)
  | recursive (name : String) (value : Expr)

namespace Decl

def name : Decl → String
  | .plain x _ | .recursive x _ => x

def stmt : Decl → Stmt
  | .plain x v => .decl x v
  | .recursive x v => .declRec x v

def letIn (body : Expr) : Decl → Expr
  | .plain x v => .letIn x v body
  | .recursive x v => .letRec x v body

def bind (env : TypeEnv) : Decl → Infer Failure (Subst × TypeEnv)
  | .plain x v => binding env x v.infer
  | .recursive x v => recBinding env x v v.infer

variable {d : Decl} {body : Expr} {env env₁ : TypeEnv} {n n₁ m : Supply} {s s₁ s₂ : Subst} {t : Ty}
  {f : Failure} {scope : List String}

theorem infer_stmt (d : Decl) (env : TypeEnv) :
    d.stmt.infer env = (do return (← d.bind env).2) := by
  cases d <;> rfl

theorem infer_letIn (d : Decl) (body : Expr) (env : TypeEnv) :
    (d.letIn body).infer env = (do
      let (s₁, env) ← d.bind env
      let (s₂, t) ← body.infer env
      return (← require (d.letIn body) (s₁.compose s₂), t)) := by
  cases d <;> rw [letIn, Expr.infer] <;> rfl

theorem infer_stmt_of_ok (h : d.bind env n = .ok (s₁, env₁) n₁) :
    d.stmt.infer env n = .ok env₁ n₁ := by
  rw [infer_stmt, bind_of_ok h]
  rfl

theorem infer_stmt_of_error (h : d.bind env n = .error f m) : d.stmt.infer env n = .error f m := by
  rw [infer_stmt, bind_of_error h]

theorem infer_letIn_of_error (h : d.bind env n = .error f m) :
    (d.letIn body).infer env n = .error f m := by
  rw [infer_letIn, bind_of_error h]

theorem infer_letIn_of_body_error (h : d.bind env n = .ok (s₁, env₁) n₁)
    (hb : body.infer env₁ n₁ = .error f m) : (d.letIn body).infer env n = .error f m := by
  rw [infer_letIn, bind_of_ok h]
  exact bind_of_error hb

theorem infer_letIn_of_ok (h : d.bind env n = .ok (s₁, env₁) n₁)
    (hb : body.infer env₁ n₁ = .ok (s₂, t) m) (hc : s₁.compose s₂ = .ok s) :
    (d.letIn body).infer env n = .ok (s, t) m := by
  have joined : require (d.letIn body) (s₁.compose s₂) m = .ok s m :=
    require_eq_ok_iff.mpr ⟨hc, rfl⟩
  rw [infer_letIn, bind_of_ok h]
  exact (bind_of_ok hb).trans (bind_of_ok joined)

theorem patternsNew_body (h : (d.letIn body).PatternsNew scope) :
    body.PatternsNew (d.name :: scope) := by
  cases d <;> exact h.right

theorem binds (h : (d.letIn body).PatternsNew scope) (he : env.Ready scope n)
    (hr : Runs (d.bind env) n (s₁, env₁) n₁) : Expr.Binds scope env d.name n n₁ s₁ env₁ := by
  cases d
  case plain x v => exact Expr.binds_binding v.scoped_of_runs hr he.prior h.left
  case recursive x v => exact Expr.binds_recBinding v.scoped_of_runs hr he.prior h.left

end Decl

def nest (ds : List Decl) (e : Expr) : Expr :=
  ds.foldr (fun d body => d.letIn body) e

def flatten (ds : List Decl) (r : String) (e : Expr) : Program :=
  ds.map Decl.stmt ++ [.decl r e]

theorem nest_cons (d : Decl) (ds : List Decl) (e : Expr) : nest (d :: ds) e = d.letIn (nest ds e) :=
  rfl

theorem flatten_cons (d : Decl) (ds : List Decl) (r : String) (e : Expr) :
    flatten (d :: ds) r e = d.stmt :: flatten ds r e :=
  rfl

theorem nest_ne_hole {ds : List Decl} {e : Expr} (he : e ≠ .hole none) :
    nest ds e ≠ .hole none := by
  cases ds
  case nil => exact he
  case cons d ds => cases d <;> simp [nest, Decl.letIn]

inductive Agrees (r : String) (env : TypeEnv) (n : Supply) :
    EStateM.Result Failure Supply (Subst × Ty) → EStateM.Result Program.Failure Supply TypeEnv →
      Prop
  | error {f : Failure} {i : Nat} {m : Supply} : Agrees r env n (.error f m) (.error ⟨f, i⟩ m)
  | ok {s : Subst} {t : Ty} {env' : TypeEnv} {σ : Scheme} {m : Supply}
    (hs : Expr.Scoped env n m s t) (hσ : env'.get? r = some σ) (ht : σ.body = t) :
    Agrees r env n (.ok (s, t) m) (.ok env' m)

section Agrees

variable {d : Decl} {ds : List Decl} {e body : Expr} {r : String} {env env₁ : TypeEnv} {i : Nat}
  {n n₁ : Supply} {s₁ : Subst} {scope : List String} {p : Program}

theorem agrees_decl (he : env.Ready scope n) (hp : e.PatternsNew scope)
    (hf : Fits (Program.infer env i [.decl r e]) n) :
    Agrees r env n (e.infer env n) (Program.infer env i [.decl r e] n) := by
  cases h : e.infer env n
  case error f m =>
    have hs : (Stmt.decl r e).infer env n = .error f m := bind_of_error (bind_of_error h)
    rw [Program.infer_cons_of_error hs]
    exact .error
  case ok a m =>
    obtain ⟨s, t⟩ := a
    have hs := Stmt.infer_decl_eq_ok_iff.mpr
      ⟨s, (Expr.binding_eq_ok_iff (x := r) e.infer).mpr ⟨t, h, rfl⟩⟩
    have hr : Runs (e.infer env) n (s, t) m := ⟨h, ((Program.fits_cons hf).left.runs hs).reaches⟩
    rw [Program.infer_cons_of_ok hs]
    exact .ok (e.scoped_of_runs hr he.prior hp) (TypeEnv.get?_declare.trans (if_pos rfl)) rfl

-- The substitution of a declaration binds none of the variables that are met after it, so that it
-- can be joined with whatever the body asks for.
theorem agrees_letIn (he : env.Ready scope n) (hp : (d.letIn body).PatternsNew scope)
    (hr : Runs (d.bind env) n (s₁, env₁) n₁) (hf : Fits (Program.infer env₁ i p) n₁)
    (h : Agrees r env₁ n₁ (body.infer env₁ n₁) (Program.infer env₁ i p n₁)) :
    Agrees r env n ((d.letIn body).infer env n) (Program.infer env₁ i p n₁) := by
  have hb := Decl.binds hp he hr
  generalize hx : body.infer env₁ n₁ = x at h
  generalize hy : Program.infer env₁ i p n₁ = y at h ⊢
  cases h
  case error =>
    rw [Decl.infer_letIn_of_body_error hr.eq hx]
    exact .error
  case ok s₂ t env' σ m hs hσ ht =>
    obtain ⟨s, hc, _⟩ := Subst.compose_of_not_mentions hb.solved hs.solved fun x hx =>
      hb.get?_of_known he.prior hr.reaches (hs.within x hx)
    rw [Decl.infer_letIn_of_ok hr.eq hx hc]
    exact .ok (hb.body he.prior hr.reaches (hf.runs hy).reaches hs hc) hσ ht

theorem agrees_nest (he : env.Ready scope n) (hp : (nest ds e).PatternsNew scope)
    (hf : Fits (Program.infer env i (flatten ds r e)) n) :
    Agrees r env n ((nest ds e).infer env n) (Program.infer env i (flatten ds r e) n) := by
  induction ds generalizing scope env i n
  case nil => exact agrees_decl he hp hf
  case cons d ds ih =>
    rw [flatten_cons] at hf ⊢
    rw [nest_cons] at hp ⊢
    obtain ⟨fits, hf⟩ := Program.fits_cons hf
    cases h : d.bind env n
    case error f m =>
      rw [Decl.infer_letIn_of_error h, Program.infer_cons_of_error (Decl.infer_stmt_of_error h)]
      exact .error
    case ok a n₁ =>
      obtain ⟨s₁, env₁⟩ := a
      have hs : d.stmt.infer env n = .ok env₁ n₁ := Decl.infer_stmt_of_ok h
      have hr : Runs (d.bind env) n (s₁, env₁) n₁ := ⟨h, (fits.runs hs).reaches⟩
      rw [Program.infer_cons_of_ok hs]
      exact agrees_letIn he hp hr (hf env₁ n₁ hs)
        (ih ((Decl.binds hp he hr).ready he) (Decl.patternsNew_body hp) (hf env₁ n₁ hs))

end Agrees

namespace Context

-- Whether declared one by one or nested, the same bindings lead to the same error or to the very
-- same type.
theorem inferProgram_agrees_nest (c c' : Context) (env : TypeEnv) (ds : List Decl) (r : String)
    (e : Expr) (hc : env.Closed) (he : e ≠ .hole none) (hp : (nest ds e).PatternsNew env.names)
    (hw : (c.inferProgram env (flatten ds r e)).2.varCount < 2 ^ 63) :
    (∃ err, (c.inferProgram env (flatten ds r e)).1 = .error err ∧
      (c'.infer env (nest ds e)).1 = .error err) ∨
    ∃ env' σ, (c.inferProgram env (flatten ds r e)).1 = .ok env' ∧ env'.get? r = some σ ∧
      (c'.infer env (nest ds e)).1 = .ok σ.body := by
  have fits : Fits (Program.infer env 0 (flatten ds r e)) (c.start env).supply := by
    refine reaches_of_varCount hc ?_ (Program.grows_infer _ _ _ _)
    rwa [← supply_inferProgram]
  have h := agrees_nest (hc.ready fun _ => id) hp fits
  have start : (c'.start env).supply = (c.start env).supply := by
    rw [supply_start hc, supply_start hc]
  generalize hx : (nest ds e).infer env (c.start env).supply = x at h
  generalize hy : Program.infer env 0 (flatten ds r e) (c.start env).supply = y at h
  rw [← start] at hx
  cases h
  case error =>
    rw [inferProgram_of_error hy, infer_of_error_of_ne (nest_ne_hole he) hx]
    exact .inl ⟨_, rfl, rfl⟩
  case ok s t env' σ m hs hσ ht =>
    rw [inferProgram_of_ok hy, infer_of_ok hx, hs.normal]
    exact .inr ⟨env', σ, rfl, hσ, congrArg _ ht.symm⟩

-- `let id = fun x -> x` and `let rec f = fun (a, a) -> f (id a, a)`
def identityAndLoop : List Decl :=
  [.plain "id" (.lam (.var "x") (.var "x")),
    .recursive "f" (.lam (.tuple [.var "a", .var "a"])
      (.app (.var "f") (.tuple [.app (.var "id") (.var "a"), .var "a"])))]

-- `fun y -> (id y, f (y, y))`
def useBoth : Expr :=
  .lam (.var "y") (.tuple [.app (.var "id") (.var "y"),
    .app (.var "f") (.tuple [.var "y", .var "y"])])

theorem inferProgram_agrees_nest_useBoth :
    ∃ env' σ, (inferProgram {} ∅ (flatten identityAndLoop "both" useBoth)).1 = .ok env' ∧
      env'.get? "both" = some σ ∧ (infer {} ∅ (nest identityAndLoop useBoth)).1 = .ok σ.body ∧
      σ.body = .arrow (.var 8) (.tuple [.var 8, .var 11]) := by
  have closed : TypeEnv.Closed ∅ := fun x => SortedSet.not_mem_empty x
  have new : (nest identityAndLoop useBoth).PatternsNew (TypeEnv.names ∅) :=
    ⟨⟨by decide, trivial⟩, ⟨by decide, trivial, ⟨trivial, trivial⟩, trivial, trivial⟩, by decide,
      ⟨trivial, trivial⟩, ⟨trivial, trivial, trivial, trivial⟩, trivial⟩
  have whole : (infer {} ∅ (nest identityAndLoop useBoth)).1 =
      .ok (.arrow (.var 8) (.tuple [.var 8, .var 11])) := by cbv
  obtain ⟨err, _, herr⟩ | ⟨env', σ, hp, hσ, he⟩ := inferProgram_agrees_nest {} {} ∅ identityAndLoop
    "both" useBoth closed (by simp [useBoth]) new (by cbv)
  · cases whole.symm.trans herr
  · exact ⟨env', σ, hp, hσ, he, Except.ok.inj (he.symm.trans whole)⟩

end Context

end HindleyMilner
