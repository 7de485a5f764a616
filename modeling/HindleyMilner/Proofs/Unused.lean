import HindleyMilner.Context
import HindleyMilner.Proofs.Typing

namespace HindleyMilner

open Infer

namespace Expr

mutual
def names : Expr → List String
  | .int _ | .bool _ | .nil | .hole _ => []
  | .var k => [k]
  | .lam p body => p.names ++ body.names
  | .binop _ l r => l.names ++ r.names
  | .tuple es => namesAll es
  | .cons h t => h.names ++ t.names
  | .cond c y n => c.names ++ y.names ++ n.names
  | .app f a => f.names ++ a.names
  | .letIn k v body | .letRec k v body => k :: v.names ++ body.names
  | .cases v bs => v.names ++ branchNames bs
def namesAll : List Expr → List String
  | [] => []
  | e :: es => e.names ++ namesAll es
def branchNames : List (Pattern × Expr) → List String
  | [] => []
  | (p, body) :: bs => p.names ++ body.names ++ branchNames bs
end

end Expr

def Stmt.names : Stmt → List String
  | .decl k v | .declRec k v => k :: v.names
  | .expr e => e.names
  | .hole _ => []

-- Environments in the relation `r` bind the names in `K` alike, and they stay in it when such a
-- name is declared and when a substitution is applied.
structure TypeEnv.Congruence (K : String → Prop) (r : TypeEnv → TypeEnv → Prop) : Prop where
  get? {env env' : TypeEnv} {k : String} : r env env' → K k → env'.get? k = env.get? k
  declareMono {env env' : TypeEnv} {k : String} (t : Ty) :
    r env env' → K k → r (env.declareMono k t) (env'.declareMono k t)
  apply {env env' : TypeEnv} (s : Subst) : r env env' → r (env.apply s) (env'.apply s)

theorem Pattern.follows_infer {K : String → Prop} {r : TypeEnv → TypeEnv → Prop} {p : Pattern}
    {env env' : TypeEnv} (hr : TypeEnv.Congruence K r) (hK : ∀ k ∈ p.names, K k)
    (he : r env env') :
    Follows (fun a a' => r a.1 a'.1 ∧ a.2 = a'.2) (p.infer env) (p.infer env') := by
  induction p generalizing env env'
  case wildcard | nil =>
    rw [infer, infer]
    exact .after freshTy fun t => .pure ⟨he, rfl⟩
  case int | bool =>
    rw [infer, infer]
    exact .pure ⟨he, rfl⟩
  case var k =>
    have hk : K k := hK k (List.mem_singleton_self k)
    rw [infer, infer, hr.get? he hk]
    cases env.get? k
    case none => exact .after freshTy fun t => .pure ⟨hr.declareMono t he hk, rfl⟩
    case some => exact .pure ⟨he, rfl⟩
  case cons hd tl ihh iht =>
    simp only [names, List.mem_append, or_imp, forall_and] at hK
    rw [infer, infer]
    refine (ihh hK.left he).bind ?_
    rintro ⟨env₁, t₁⟩ ⟨env₁', _⟩ ⟨he₁, rfl⟩
    refine (iht hK.right he₁).bind ?_
    rintro ⟨env₂, t₂⟩ ⟨env₂', _⟩ ⟨he₂, rfl⟩
    exact .after _ fun s => .pure ⟨hr.apply s he₂, rfl⟩
  case tuple ps ih =>
    have all : Follows (fun a a' => r a.1 a'.1 ∧ a.2 = a'.2) (inferAll env ps)
        (inferAll env' ps) := by
      rw [names] at hK
      induction ps generalizing env env'
      case nil => exact .pure ⟨he, rfl⟩
      case cons p ps ihs =>
        obtain ⟨ihp, ih⟩ := List.forall_mem_cons.mp ih
        simp only [namesAll, List.mem_append, or_imp, forall_and] at hK
        rw [inferAll, inferAll]
        refine (ihp hK.left he).bind ?_
        rintro ⟨env₁, t⟩ ⟨env₁', _⟩ ⟨he₁, rfl⟩
        refine (ihs ih hK.right he₁).bind ?_
        rintro ⟨env₂, ts⟩ ⟨env₂', _⟩ ⟨he₂, rfl⟩
        exact .pure ⟨he₂, rfl⟩
    rw [infer, infer]
    refine all.bind ?_
    rintro ⟨env₁, ts⟩ ⟨env₁', _⟩ ⟨he₁, rfl⟩
    exact .pure ⟨he₁, rfl⟩
  case hole =>
    rw [infer, infer]
    exact fun _ => .error

structure TypeEnv.Extends (x : String) (σ : Scheme) (env env' : TypeEnv) : Prop where
  unbound : env.get? x = none
  closed : ∀ y, y ∉ σ.freeVars
  eq : env' = env.declare x σ

namespace TypeEnv.Extends

variable {x k : String} {σ τ : Scheme} {env env' : TypeEnv} {s : Subst} {t : Ty}

theorem get? (h : Extends x σ env env') (hk : k ≠ x) : env'.get? k = env.get? k := by
  rw [h.eq, get?_declare, if_neg hk]

theorem declare (h : Extends x σ env env') (hk : k ≠ x) :
    Extends x σ (env.declare k τ) (env'.declare k τ) := by
  refine ⟨by rw [get?_declare, if_neg hk.symm, h.unbound], h.closed, ext_get? fun j => ?_⟩
  by_cases hj : j = k <;> simp [h.eq, hj, hk]

theorem remove (h : Extends x σ env env') (hk : k ≠ x) :
    Extends x σ (env.remove k) (env'.remove k) := by
  refine ⟨by rw [get?_remove, if_neg hk.symm, h.unbound], h.closed, ext_get? fun j => ?_⟩
  by_cases hj : j = k <;> simp [h.eq, hj, hk]

theorem apply (h : Extends x σ env env') (s : Subst) :
    Extends x σ (env.apply s) (env'.apply s) := by
  refine ⟨by rw [get?_apply, h.unbound, Option.map_none], h.closed, ext_get? fun j => ?_⟩
  have same : σ.apply s = σ := Scheme.apply_eq_self fun y hy => absurd hy (h.closed y)
  by_cases hj : j = x <;> simp [h.eq, hj, same]

theorem congruence (x : String) (σ : Scheme) : Congruence (· ≠ x) (Extends x σ) where
  get? := get?
  declareMono _ := declare
  apply s h := h.apply s

theorem freeVars (h : Extends x σ env env') : env'.freeVars = env.freeVars := by
  refine SortedSet.ext_mem fun y => ⟨fun hy => ?_, fun hy => ?_⟩
  · rw [h.eq] at hy
    exact (mem_freeVars_of_declare hy).resolve_right (h.closed y)
  · obtain ⟨k, τ, hk, hy⟩ := mem_freeVars.mp hy
    have hkx : k ≠ x := by
      rintro rfl
      cases h.unbound.symm.trans hk
    exact mem_freeVars.mpr ⟨k, τ, (h.get? hkx).trans hk, hy⟩

theorem generalize (h : Extends x σ env env') : env'.generalize t = env.generalize t := by
  rw [TypeEnv.generalize, TypeEnv.generalize, h.freeVars]

theorem generalizeRec (h : Extends x σ env env') (hk : k ≠ x) :
    env'.generalizeRec t k = env.generalizeRec t k :=
  (h.remove hk).generalize

theorem pattern {p : Pattern} (h : Extends x σ env env') (hp : x ∉ p.names) :
    Follows (fun a a' => a.1.Extends x σ a'.1 ∧ a.2 = a'.2) (p.infer env) (p.infer env') :=
  p.follows_infer (congruence x σ) (fun _ hk => ne_of_mem_of_not_mem hk hp) h

end TypeEnv.Extends

section Follows

variable {x k : String} {σ : Scheme} {env env' : TypeEnv}

namespace Expr

theorem follows_binding {v : Expr} (hk : k ≠ x) (he : env.Extends x σ env')
    (hv : v.infer env = v.infer env') :
    Follows (fun a a' => a.1 = a'.1 ∧ a.2.Extends x σ a'.2) (binding env k v.infer)
      (binding env' k v.infer) := by
  rw [binding, binding, hv]
  refine .after _ fun (s, t) => .pure ⟨rfl, ?_⟩
  have he := he.apply s
  rw [he.generalize]
  exact he.declare hk

theorem follows_recBinding {v : Expr} (hk : k ≠ x) (he : env.Extends x σ env')
    (hv : ∀ t, v.infer (env.declareMono k t) = v.infer (env'.declareMono k t)) :
    Follows (fun a a' => a.1 = a'.1 ∧ a.2.Extends x σ a'.2) (recBinding env k v v.infer)
      (recBinding env' k v v.infer) := by
  simp only [recBinding, hv]
  refine .after _ fun self => .after _ fun (s₁, t) => .after _ fun s₂ => .after _ fun s =>
    .pure ⟨rfl, ?_⟩
  have he : ((env.declareMono k self).apply s).Extends x σ ((env'.declareMono k self).apply s) :=
    (he.declare hk).apply s
  rw [he.generalizeRec hk]
  exact he.declare hk

def Unaffected (x : String) (σ : Scheme) (e : Expr) : Prop :=
  x ∉ e.names → ∀ {env env'}, env.Extends x σ env' → e.infer env = e.infer env'

theorem inferElems_unaffected {e : Expr} {es : List Expr} (ih : ∀ a ∈ es, a.Unaffected x σ)
    (hx : x ∉ namesAll es) (he : env.Extends x σ env') (s : Subst) :
    inferElems e env s es = inferElems e env' s es := by
  induction es generalizing s
  case nil => rw [inferElems, inferElems]
  case cons a es ihs =>
    obtain ⟨iha, ih⟩ := List.forall_mem_cons.mp ih
    simp only [namesAll, List.mem_append, not_or] at hx
    simp only [inferElems, iha hx.left (he.apply s), ihs ih hx.right]

theorem inferBranches_unaffected {e : Expr} {bs : List (Pattern × Expr)} {vt ret : Ty}
    (ih : ∀ b ∈ bs, b.2.Unaffected x σ) (hx : x ∉ branchNames bs) (he : env.Extends x σ env')
    (s : Subst) :
    inferBranches e env vt ret s bs = inferBranches e env' vt ret s bs := by
  induction bs generalizing s
  case nil => rw [inferBranches, inferBranches]
  case cons b bs ihs =>
    obtain ⟨ihb, ih⟩ := List.forall_mem_cons.mp ih
    simp only [branchNames, List.mem_append, not_or] at hx
    rw [inferBranches, inferBranches]
    refine ((he.pattern hx.left.left).mapError _).bind_eq ?_
    rintro ⟨penv, pt⟩ ⟨penv', _⟩ ⟨hpe, rfl⟩
    have body (s₁ : Subst) := ihb hx.left.right (hpe.apply s₁)
    simp only [body, ihs ih hx.right]

theorem unaffected (e : Expr) : e.Unaffected x σ := by
  induction e <;> intro hx env env' he <;>
    simp only [names, List.mem_cons, List.mem_append, List.not_mem_nil, not_or] at hx
  case int | bool | nil => rw [infer, infer]
  case var k => rw [infer, infer, he.get? (Ne.symm hx.left)]
  case lam p body ih =>
    rw [infer, infer]
    refine ((he.pattern hx.left).mapError _).bind_eq ?_
    rintro ⟨env₁, pt⟩ ⟨env₁', _⟩ ⟨he₁, rfl⟩
    simp only [ih hx.right he₁]
  case binop ihl ihr => rw [infer, infer, ihl hx.left he, ihr hx.right he]
  case tuple ih => rw [infer, infer, inferElems_unaffected ih hx he]
  case cons ihh iht =>
    have tail (s : Subst) := iht hx.right (he.apply s)
    simp only [infer, ihh hx.left he, tail]
  case cond ihc ihy ihf =>
    rw [infer, infer, ihc hx.left.left he, ihy hx.left.right he, ihf hx.right he]
  case app ihf iha =>
    have arg (s : Subst) := iha hx.right (he.apply s)
    simp only [infer, ihf hx.left he, arg]
  case letIn k v body ihv ihb =>
    obtain ⟨⟨hk, hv⟩, hb⟩ := hx
    rw [infer, infer]
    refine (follows_binding (Ne.symm hk) he (ihv hv he)).bind_eq ?_
    rintro ⟨s₁, env₁⟩ ⟨_, env₁'⟩ ⟨rfl, he₁⟩
    simp only [ihb hb he₁]
  case letRec k v body ihv ihb =>
    obtain ⟨⟨hk, hv⟩, hb⟩ := hx
    have value (t : Ty) := ihv hv (he.declare (τ := .mono t) (Ne.symm hk))
    rw [infer, infer]
    refine (follows_recBinding (Ne.symm hk) he value).bind_eq ?_
    rintro ⟨s₁, env₁⟩ ⟨_, env₁'⟩ ⟨rfl, he₁⟩
    simp only [ihb hb he₁]
  case cases ihv ihb =>
    simp only [infer, ihv hx.left he, inferBranches_unaffected ihb hx.right he]
  case hole k => cases k <;> rw [infer, infer]

end Expr

theorem Stmt.follows_infer {stmt : Stmt} (hx : x ∉ stmt.names) (he : env.Extends x σ env') :
    Follows (TypeEnv.Extends x σ) (stmt.infer env) (stmt.infer env') := by
  cases stmt <;> simp only [names, List.mem_cons, not_or] at hx <;> rw [infer, infer]
  case decl k v =>
    have follows := Expr.follows_binding (Ne.symm hx.left) he (v.unaffected hx.right he)
    exact follows.bind fun _ _ h => .pure h.right
  case declRec k v =>
    have value (t : Ty) := v.unaffected hx.right (he.declare (τ := .mono t) (Ne.symm hx.left))
    have follows := Expr.follows_recBinding (Ne.symm hx.left) he value
    exact follows.bind fun _ _ h => .pure h.right
  case expr e =>
    rw [e.unaffected hx he]
    exact .after _ fun _ => .pure he
  case hole => exact fun _ => .error

theorem Program.follows_infer {p : Program} {i : Nat} (hx : ∀ stmt ∈ p, x ∉ stmt.names)
    (he : env.Extends x σ env') :
    Follows (TypeEnv.Extends x σ) (infer env i p) (infer env' i p) := by
  induction p generalizing env env' i
  case nil => exact .pure he
  case cons stmt p ih =>
    obtain ⟨hs, hp⟩ := List.forall_mem_cons.mp hx
    rw [infer, infer]
    exact ((Stmt.follows_infer hs he).mapError _).bind fun _ _ he₁ => ih hp he₁

end Follows

namespace Context

-- A closed scheme of a name that is not mentioned changes neither the type of an expression nor the
-- error, nor what is known of the run; it is still there after a program.
theorem unused_irrelevant (c : Context) (env : TypeEnv) (x : String) (σ : Scheme)
    (hx : env.get? x = none) (hσ : ∀ y, y ∉ σ.freeVars) :
    (∀ e, x ∉ Expr.names e → c.infer (env.declare x σ) e = c.infer env e) ∧
    ∀ p : Program, (∀ stmt ∈ p, x ∉ stmt.names) →
      c.inferProgram (env.declare x σ) p =
        ((c.inferProgram env p).1.map (·.declare x σ), (c.inferProgram env p).2) := by
  have he : env.Extends x σ (env.declare x σ) := ⟨hx, hσ, rfl⟩
  have start : c.start (env.declare x σ) = c.start env := by
    rw [Context.start, Context.start, he.freeVars]
  constructor
  case left =>
    intro e hn
    by_cases hole : e = .hole none
    case pos => rw [hole, infer, infer, start]
    case neg => rw [infer, infer, start, e.unaffected hn he] <;> exact hole
  case right =>
    intro p hn
    have follows := Program.follows_infer (i := 0) hn he (c.start env).supply
    simp only [inferProgram, start]
    generalize Program.infer env 0 p _ = r, Program.infer (env.declare x σ) 0 p _ = r' at follows
    cases follows
    case ok h =>
      rw [h.eq]
      rfl
    case error => rfl

def paramEnv : TypeEnv :=
  (∅ : TypeEnv).declareMono "f" (.arrow (.var 0) (.var 0))

def idScheme : Scheme :=
  ⟨.ofList [0], .arrow (.var 0) (.var 0)⟩

-- `let g = fun y -> f y in fun z -> (g z, z)`
def callAndKeep : Expr :=
  .letIn "g" (.lam (.var "y") (.app (.var "f") (.var "y")))
    (.lam (.var "z") (.tuple [.app (.var "g") (.var "z"), .var "z"]))

-- `f : '4 -> '4` and `k : '4 -> '4 * '4`, where `'4` is free.
def keptEnv : TypeEnv :=
  ((∅ : TypeEnv).declareMono "f" (.arrow (.var 4) (.var 4))).declareMono "k"
    (.arrow (.var 4) (.tuple [.var 4, .var 4]))

theorem unused_irrelevant_idScheme :
    infer {} (paramEnv.declare "id" idScheme) callAndKeep = infer {} paramEnv callAndKeep ∧
      (infer {} paramEnv callAndKeep).1 = .ok (.arrow (.var 4) (.tuple [.var 4, .var 4])) ∧
      inferProgram {} (paramEnv.declare "id" idScheme) [.decl "k" callAndKeep] =
        (.ok (keptEnv.declare "id" idScheme),
          (inferProgram {} paramEnv [.decl "k" callAndKeep]).2) := by
  have unbound : paramEnv.get? "id" = none := by cbv
  have closed : ∀ y, y ∉ idScheme.freeVars := by
    have free : idScheme.freeVars.members = [] := by cbv
    simp [SortedSet.mem_def, free]
  obtain ⟨expr, program⟩ := unused_irrelevant {} paramEnv "id" idScheme unbound closed
  have answer : (inferProgram {} paramEnv [.decl "k" callAndKeep]).1 = .ok keptEnv := by cbv
  refine ⟨expr callAndKeep (by decide), by cbv, ?_⟩
  rw [program [.decl "k" callAndKeep] (by decide), answer]
  rfl

end Context

end HindleyMilner
