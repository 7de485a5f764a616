import HindleyMilner.Proofs.Declarations
import HindleyMilner.Proofs.FirstFailure

namespace HindleyMilner

open Infer

namespace Expr

mutual
def freeNames : Expr → List String
  | .int _ | .bool _ | .nil | .hole _ => []
  | .var k => [k]
  | .lam p body => body.freeNames.removeAll p.names
  | .binop _ l r => l.freeNames ++ r.freeNames
  | .tuple es => freeNamesAll es
  | .cons h t => h.freeNames ++ t.freeNames
  | .cond c y n => c.freeNames ++ (y.freeNames ++ n.freeNames)
  | .app f a => f.freeNames ++ a.freeNames
  | .letIn k v body => v.freeNames ++ body.freeNames.removeAll [k]
  | .letRec k v body => v.freeNames.removeAll [k] ++ body.freeNames.removeAll [k]
  | .cases v bs => v.freeNames ++ branchFreeNames bs
def freeNamesAll : List Expr → List String
  | [] => []
  | e :: es => e.freeNames ++ freeNamesAll es
def branchFreeNames : List (Pattern × Expr) → List String
  | [] => []
  | (p, body) :: bs => body.freeNames.removeAll p.names ++ branchFreeNames bs
end

end Expr

def Stmt.freeNames : Stmt → List String
  | .decl _ v | .expr v => v.freeNames
  | .declRec k v => v.freeNames.removeAll [k]
  | .hole _ => []

def Program.freeNames : Program → List String
  | [] => []
  | stmt :: p => stmt.freeNames ++ (freeNames p).removeAll stmt.name?.toList

namespace Infer

variable {ε ε' α β : Type} {cause : ε → InferError} {scope inner ks ls bound : List String}
  {x : Infer ε α} {f : α → Infer ε β}

-- If `x` succeeds, all names of `ks` are in scope; if it fails because a variable is undefined,
-- that is one of them which is not.
structure Resolves (cause : ε → InferError) (scope ks : List String) (x : Infer ε α) : Prop where
  ok : Ensures (fun _ => ∀ k ∈ ks, k ∈ scope) x
  error : FailsOnly (fun e => ∀ k, cause e = .undefinedVar k → k ∈ ks ∧ k ∉ scope) x

theorem mem_removeAll {k : String} : k ∈ ks.removeAll bound ↔ k ∈ ks ∧ k ∉ bound := by
  simp [List.removeAll]

namespace Resolves

theorem of_failsOnly (h : FailsOnly (fun e => ∀ k, cause e ≠ .undefinedVar k) x) :
    Resolves cause scope [] x where
  ok _ _ _ _ _ hk := absurd hk List.not_mem_nil
  error := h.mono fun _ he k hk => absurd hk (he k)

theorem throw {e : ε} (h : ∀ k, cause e ≠ .undefinedVar k) :
    Resolves cause scope [] (throw e : Infer ε α) :=
  of_failsOnly (.throw h)

theorem pure {a : α} : Resolves cause scope [] (pure a : Infer ε α) :=
  of_failsOnly .pure

theorem freshTy : Resolves cause scope [] (freshTy : Infer ε Ty) :=
  of_failsOnly .freshTy

theorem require {e : Expr} {r : Except UnifyError α} :
    Resolves Failure.error scope [] (require e r) :=
  of_failsOnly <| .require nofun

theorem bind {P : α → Prop} (hx : Resolves cause scope ks x) (hP : Ensures P x)
    (hf : ∀ a, P a → Resolves cause scope ls (f a)) : Resolves cause scope (ks ++ ls) (x >>= f) where
  ok := by
    intro n b m h k hk
    obtain ⟨a, n₁, ha, hb⟩ := bind_eq_ok_iff.mp h
    cases List.mem_append.mp hk
    case inl hk => exact hx.ok n a n₁ ha k hk
    case inr hk => exact (hf a (hP n a n₁ ha)).ok n₁ b m hb k hk
  error := by
    intro n e m h k hk
    cases hn : x n
    case ok a n₁ =>
      rw [bind_of_ok hn] at h
      exact ((hf a (hP n a n₁ hn)).error n₁ e m h k hk).imp_left (List.mem_append_right ks)
    case error =>
      rw [bind_of_error hn] at h
      cases h
      exact (hx.error n e m hn k hk).imp_left (List.mem_append_left ls)

theorem andThen (hx : Resolves cause scope ks x) (hf : ∀ a, Resolves cause scope ls (f a)) :
    Resolves cause scope (ks ++ ls) (x >>= f) :=
  hx.bind (P := fun _ => True) (fun _ _ _ _ => trivial) fun a _ => hf a

theorem finish (hx : Resolves cause scope ks x) (hf : ∀ a, Resolves cause scope [] (f a)) :
    Resolves cause scope ks (x >>= f) :=
  List.append_nil ks ▸ hx.andThen hf

theorem mapError {cause' : ε' → InferError} {g : ε → ε'} (hx : Resolves cause scope ks x)
    (hg : ∀ e, cause' (g e) = cause e) : Resolves cause' scope ks (x.mapError g) where
  ok n a m h := hx.ok n a m (mapError_eq_ok_iff.mp h)
  error := hx.error.mapError fun e he k hk => he k (hg e ▸ hk)

-- Names that are bound inside do not count outside.
theorem leave (hx : Resolves cause inner ks x) (h : ∀ k, k ∈ inner ↔ k ∈ bound ∨ k ∈ scope) :
    Resolves cause scope (ks.removeAll bound) x where
  ok := by
    intro n a m ha k hk
    obtain ⟨hk, hb⟩ := mem_removeAll.mp hk
    exact (h k |>.mp (hx.ok n a m ha k hk)).resolve_left hb
  error := by
    refine hx.error.mono fun e he k hk => ?_
    obtain ⟨hk, hn⟩ := he k hk
    rw [h k, not_or] at hn
    exact ⟨mem_removeAll.mpr ⟨hk, hn.left⟩, hn.right⟩

end Resolves

end Infer

namespace TypeEnv

variable {env : TypeEnv} {k j : String} {σ : Scheme} {s : Subst} {t : Ty}

theorem mem_names_declare : j ∈ (env.declare k σ).names ↔ j ∈ [k] ∨ j ∈ env.names := by
  rw [mem_names_iff, mem_names_iff, get?_declare, List.mem_singleton]
  split <;> simp_all

theorem names_apply_eq : (env.apply s).names = env.names := by
  simp [names, SortedMap.keys, apply, SortedMap.mapValues]

end TypeEnv

namespace Pattern

variable {env : TypeEnv}

theorem ensures_names_all {ps : List Pattern}
    (ih : ∀ p ∈ ps, ∀ env, Ensures (fun r => ∀ k, k ∈ r.1.names ↔ k ∈ p.names ∨ k ∈ env.names)
      (p.infer env)) (env : TypeEnv) :
    Ensures (fun r => ∀ k, k ∈ r.1.names ↔ k ∈ namesAll ps ∨ k ∈ env.names) (inferAll env ps) := by
  induction ps generalizing env <;> rw [inferAll]
  case nil => exact .pure fun k => by simp [namesAll]
  case cons p ps ihs =>
    obtain ⟨ihp, ih⟩ := List.forall_mem_cons.mp ih
    refine (ihp env).bind fun r hr => (ihs ih r.1).bind fun r' hr' => .pure fun k => ?_
    rw [hr' k, hr k, namesAll, List.mem_append, or_left_comm, or_assoc]

theorem ensures_names (p : Pattern) (env : TypeEnv) :
    Ensures (fun r => ∀ k, k ∈ r.1.names ↔ k ∈ p.names ∨ k ∈ env.names) (p.infer env) := by
  induction p generalizing env <;> rw [infer]
  case wildcard | nil => exact .after freshTy fun _ => .pure fun k => by simp [names]
  case int | bool => exact .pure fun k => by simp [names]
  case var x =>
    cases hx : env.get? x
    case none => exact .after freshTy fun t => .pure fun k => TypeEnv.mem_names_declare
    case some σ =>
      have mem : x ∈ env.names := TypeEnv.mem_names_iff.mpr (by rw [hx]; rfl)
      refine .pure fun k => ⟨.inr, fun hk => ?_⟩
      cases hk
      case inl hk => exact List.mem_singleton.mp hk ▸ mem
      case inr hk => exact hk
  case cons ihh iht =>
    refine (ihh env).bind fun r hr => (iht r.1).bind fun r' hr' => .after _ fun s =>
      .pure fun k => ?_
    rw [TypeEnv.names_apply_eq, hr' k, hr k, names, List.mem_append, or_left_comm, or_assoc]
  case tuple ih => exact (ensures_names_all ih env).bind fun r hr => .pure hr
  case hole => exact .throw

theorem resolves_infer (p : Pattern) (env : TypeEnv) {scope : List String} :
    Resolves id scope [] (p.infer env) :=
  .of_failsOnly <| p.failsOnly_infer (fun _ _ _ _ _ => nofun) (fun _ _ _ => nofun) env

end Pattern

namespace Expr

variable {env : TypeEnv} {k : String} {value : TypeEnv → Infer Failure (Subst × Ty)}
  {scope ks : List String} {e : Expr}

theorem resolves_pattern {p : Pattern} :
    Resolves Failure.error scope [] (blaming e (p.infer env)) :=
  (p.resolves_infer env).mapError fun _ => rfl

theorem ensures_names_blaming (p : Pattern) (env : TypeEnv) :
    Ensures (fun r => ∀ k, k ∈ r.1.names ↔ k ∈ p.names ∨ k ∈ env.names) (blaming e (p.infer env)) :=
  fun n r m h => p.ensures_names env n r m (blaming_eq_ok_iff.mp h)

theorem resolves_inferOp (op : Op) (lt rt : Ty) :
    Resolves Failure.error scope [] (inferOp e op lt rt) := by
  rw [inferOp]
  split
  case isTrue => exact Resolves.require.andThen fun _ => Resolves.require.andThen fun _ => .pure
  case isFalse => exact Resolves.require.andThen fun _ => .pure

def ResolvesNames (e : Expr) : Prop :=
  ∀ env, Resolves Failure.error env.names e.freeNames (e.infer env)

theorem ResolvesNames.apply {s : Subst} (h : e.ResolvesNames) (env : TypeEnv) :
    Resolves Failure.error env.names e.freeNames (e.infer (env.apply s)) :=
  TypeEnv.names_apply_eq (s := s) ▸ h (env.apply s)

theorem ResolvesNames.leave {inner : TypeEnv} {bound : List String} (h : e.ResolvesNames)
    (hi : ∀ k, k ∈ inner.names ↔ k ∈ bound ∨ k ∈ env.names) :
    Resolves Failure.error env.names (e.freeNames.removeAll bound) (e.infer inner) :=
  (h inner).leave hi

theorem resolves_binding {v : Expr} (ih : v.ResolvesNames) (env : TypeEnv) (k : String) :
    Resolves Failure.error env.names v.freeNames (binding env k v.infer) :=
  (ih env).finish fun _ => .pure

theorem ensures_names_binding (env : TypeEnv) (k : String) :
    Ensures (fun r => ∀ j, j ∈ r.2.names ↔ j ∈ [k] ∨ j ∈ env.names) (binding env k value) := by
  rw [binding]
  refine .after _ fun r => .pure fun j => ?_
  rw [TypeEnv.mem_names_declare, TypeEnv.names_apply_eq]

theorem resolves_recBinding {v : Expr} (ih : v.ResolvesNames) (env : TypeEnv) (k : String) :
    Resolves Failure.error env.names (v.freeNames.removeAll [k]) (recBinding env k v v.infer) := by
  have inner (self : Ty) : Resolves Failure.error env.names (v.freeNames.removeAll [k])
      (v.infer (env.declareMono k self)) := ih.leave fun j => TypeEnv.mem_names_declare
  exact Resolves.freshTy.andThen fun self => (inner self).finish fun _ =>
    Resolves.require.andThen fun _ => Resolves.require.andThen fun _ => .pure

theorem ensures_names_recBinding {v : Expr} (env : TypeEnv) (k : String) :
    Ensures (fun r => ∀ j, j ∈ r.2.names ↔ j ∈ [k] ∨ j ∈ env.names) (recBinding env k v value) := by
  rw [recBinding]
  refine .after _ fun self => .after _ fun r => .after _ fun _ => .after _ fun s => .pure fun j => ?_
  rw [TypeEnv.mem_names_declare, TypeEnv.names_apply_eq, TypeEnv.declareMono,
    TypeEnv.mem_names_declare, or_self_left]

theorem resolves_inferElems {es : List Expr} (ih : ∀ a ∈ es, a.ResolvesNames) (s : Subst) :
    Resolves Failure.error env.names (freeNamesAll es) (inferElems e env s es) := by
  induction es generalizing s <;> rw [inferElems]
  case nil => exact .pure
  case cons a es ihs =>
    obtain ⟨iha, ih⟩ := List.forall_mem_cons.mp ih
    exact (iha.apply env).andThen fun _ => Resolves.require.andThen fun _ =>
      (ihs ih _).finish fun _ => .pure

theorem resolves_inferBranches {bs : List (Pattern × Expr)} (ih : ∀ b ∈ bs, b.2.ResolvesNames)
    (vt ret : Ty) (s : Subst) :
    Resolves Failure.error env.names (branchFreeNames bs) (inferBranches e env vt ret s bs) := by
  induction bs generalizing s <;> rw [inferBranches]
  case nil => exact .pure
  case cons b bs ihs =>
    obtain ⟨ihb, ih⟩ := List.forall_mem_cons.mp ih
    refine resolves_pattern.bind (ensures_names_blaming b.1 env) fun r hr =>
      Resolves.require.andThen fun s₁ => ?_
    have inner : ∀ k, k ∈ (r.1.apply s₁).names ↔ k ∈ b.1.names ∨ k ∈ env.names :=
      fun k => by rw [TypeEnv.names_apply_eq, hr k]
    exact (ihb.leave inner).andThen fun _ => Resolves.require.andThen fun _ =>
      Resolves.require.andThen fun _ => ihs ih _

theorem resolves_infer (e : Expr) : e.ResolvesNames := by
  induction e <;> intro env <;> (try rw [infer])
  case int | bool => exact .pure
  case var x =>
    cases hx : env.get? x
    case none =>
      have unbound : x ∉ env.names := by simp [TypeEnv.mem_names_iff, hx]
      refine ⟨.throw, .throw fun k hk => ?_⟩
      cases hk
      exact ⟨List.mem_singleton_self x, unbound⟩
    case some σ =>
      have bound : x ∈ env.names := by simp [TypeEnv.mem_names_iff, hx]
      exact ⟨fun _ _ _ _ => by simpa [freeNames] using bound, .bind .modifyGet fun _ => .pure⟩
  case nil => exact Resolves.freshTy.andThen fun _ => .pure
  case lam p body ih =>
    exact resolves_pattern.bind (ensures_names_blaming p env) fun r hr =>
      (ih.leave hr).finish fun _ => .pure
  case binop op l r ihl ihr =>
    refine (ihl env).andThen fun _ => (ihr env).finish fun _ => ?_
    cases op
    case none => exact .throw (by simp)
    case some op =>
      exact (resolves_inferOp op _ _).andThen fun _ => Resolves.require.andThen fun _ => .pure
  case tuple ih => exact (resolves_inferElems ih ∅).finish fun _ => .pure
  case cons ihh iht =>
    exact (ihh env).andThen fun _ => (iht.apply env).finish fun _ =>
      Resolves.require.andThen fun _ => Resolves.require.andThen fun _ => .pure
  case cond ihc ihy ihn =>
    exact (ihc env).andThen fun _ => (ihy env).andThen fun _ => (ihn env).finish fun _ =>
      Resolves.require.andThen fun _ => Resolves.require.andThen fun _ =>
        Resolves.require.andThen fun _ => .pure
  case app ihf iha =>
    exact (ihf env).andThen fun _ => (iha.apply env).finish fun _ =>
      Resolves.freshTy.andThen fun _ => Resolves.require.andThen fun _ =>
        Resolves.require.andThen fun _ => .pure
  case letIn k v body ihv ihb =>
    exact (resolves_binding ihv env k).bind (ensures_names_binding env k) fun r hr =>
      (ihb.leave hr).finish fun _ => Resolves.require.andThen fun _ => .pure
  case letRec k v body ihv ihb =>
    exact (resolves_recBinding ihv env k).bind (ensures_names_recBinding env k) fun r hr =>
      (ihb.leave hr).finish fun _ => Resolves.require.andThen fun _ => .pure
  case cases ihv ihb =>
    exact (ihv env).andThen fun _ => Resolves.freshTy.andThen fun _ =>
      (resolves_inferBranches ihb _ _ _).finish fun _ => .pure
  case hole kind => cases kind <;> exact .throw (by simp)

end Expr

namespace Stmt

theorem ensures_names (stmt : Stmt) (env : TypeEnv) :
    Ensures (fun r => ∀ k, k ∈ r.names ↔ k ∈ stmt.name?.toList ∨ k ∈ env.names)
      (stmt.infer env) := by
  cases stmt <;> rw [infer]
  case decl x v => exact (Expr.ensures_names_binding env x).bind fun _ hr => .pure hr
  case declRec x v => exact (Expr.ensures_names_recBinding env x).bind fun _ hr => .pure hr
  case expr e => exact .after _ fun _ => .pure fun k => by simp [name?]
  case hole => exact .throw

theorem resolves_infer (stmt : Stmt) (env : TypeEnv) :
    Resolves Failure.error env.names stmt.freeNames (stmt.infer env) := by
  cases stmt <;> rw [infer]
  case decl x v => exact (Expr.resolves_binding v.resolves_infer env x).finish fun _ => .pure
  case declRec x v => exact (Expr.resolves_recBinding v.resolves_infer env x).finish fun _ => .pure
  case expr e => exact (e.resolves_infer env).finish fun _ => .pure
  case hole => exact .throw (by simp)

end Stmt

theorem Program.resolves_infer (p : Program) (env : TypeEnv) (i : Nat) :
    Resolves (·.error) env.names (freeNames p) (infer env i p) := by
  induction p generalizing env i <;> rw [infer]
  case nil => exact .pure
  case cons stmt p ih =>
    have first : Resolves (fun f : Program.Failure => f.error) env.names stmt.freeNames
        ((stmt.infer env).mapError fun f => ⟨f, i⟩) :=
      (stmt.resolves_infer env).mapError fun _ => rfl
    have scope : Ensures (fun r => ∀ k, k ∈ r.names ↔ k ∈ stmt.name?.toList ∨ k ∈ env.names)
        ((stmt.infer env).mapError fun f => (⟨f, i⟩ : Program.Failure)) :=
      fun n r m h => stmt.ensures_names env n r m (mapError_eq_ok_iff.mp h)
    exact first.bind scope fun env₁ h₁ => (ih env₁ (i + 1)).leave h₁

namespace Context

variable {c : Context} {env : TypeEnv} {e : Expr} {p : Program}

theorem exists_infer_of_ok {t : Ty} (h : (c.infer env e).1 = .ok t) :
    ∃ s u m, e.infer env (c.start env).supply = .ok (s, u) m := by
  cases he : e.infer env (c.start env).supply
  case ok r m => exact ⟨r.1, r.2, m, rfl⟩
  case error f m =>
    obtain ⟨err, herr, _⟩ := infer_of_error he
    cases herr.symm.trans h

theorem exists_infer_of_error {err : InferError} (h : (c.infer env e).1 = .error err)
    (hne : err ≠ .emptyExpr) :
    ∃ f m, e.infer env (c.start env).supply = .error f m ∧ f.error = err := by
  cases he : e.infer env (c.start env).supply
  case ok r m => cases (infer_of_ok he) ▸ h
  case error f m =>
    have hole : e ≠ .hole none := by
      rintro rfl
      cases h
      exact hne rfl
    rw [infer_of_error_of_ne hole he] at h
    exact ⟨f, m, rfl, Except.error.inj h⟩

theorem exists_infer_of_undefinedVar {x : String}
    (h : (c.infer env e).1 = .error (.undefinedVar x)) :
    ∃ f m, e.infer env (c.start env).supply = .error f m ∧ f.error = .undefinedVar x :=
  exists_infer_of_error h nofun

theorem exists_inferProgram_of_error {err : InferError} (h : (c.inferProgram env p).1 = .error err) :
    ∃ f m, Program.infer env 0 p (c.start env).supply = .error f m ∧ f.error = err := by
  cases hp : Program.infer env 0 p (c.start env).supply
  case ok env' m => cases (inferProgram_of_ok hp) ▸ h
  case error f m =>
    rw [inferProgram_of_error hp] at h
    exact ⟨f, m, rfl, Except.error.inj h⟩

-- What succeeds refers to names in scope only; a variable that is reported to be undefined is free
-- in what is inferred and not bound in the environment.
theorem scope_lexical (c : Context) (env : TypeEnv) :
    (∀ e t, (c.infer env e).1 = .ok t → ∀ x ∈ e.freeNames, x ∈ env.names) ∧
    (∀ e x, (c.infer env e).1 = .error (.undefinedVar x) → x ∈ e.freeNames ∧ x ∉ env.names) ∧
    (∀ p env', (c.inferProgram env p).1 = .ok env' →
      ∀ x ∈ Program.freeNames p, x ∈ env.names) ∧
    ∀ p x, (c.inferProgram env p).1 = .error (.undefinedVar x) →
      x ∈ Program.freeNames p ∧ x ∉ env.names := by
  refine ⟨fun e t h => ?_, fun e x h => ?_, fun p env' h => ?_, fun p x h => ?_⟩
  · obtain ⟨s, u, m, he⟩ := exists_infer_of_ok h
    exact (e.resolves_infer env).ok _ _ m he
  · obtain ⟨f, m, he, hf⟩ := exists_infer_of_undefinedVar h
    exact (e.resolves_infer env).error _ f m he x hf
  · obtain ⟨m, hp⟩ := inferProgram_eq_ok_iff.mp h
    exact (p.resolves_infer env 0).ok _ env' m hp
  · obtain ⟨f, m, hp, hf⟩ := exists_inferProgram_of_error h
    exact (p.resolves_infer env 0).error _ f m hp x hf

def itemsEnv : TypeEnv :=
  (∅ : TypeEnv).declareMono "xs" (.list .int)

-- `let f = fun x -> x :: xs in f 1`
def consItem : Expr :=
  .letIn "f" (.lam (.var "x") (.cons (.var "x") (.var "xs"))) (.app (.var "f") (.int 1))

-- `match xs with h :: t -> h | _ -> h`
def headInBoth : Expr :=
  .cases (.var "xs") [(.cons (.var "h") (.var "t"), .var "h"), (.wildcard, .var "h")]

-- `let rec loop = fun x -> loop x` and `let g = loop xs`
def loopItems : Program :=
  [.declRec "loop" (.lam (.var "x") (.app (.var "loop") (.var "x"))),
    .decl "g" (.app (.var "loop") (.var "xs"))]

-- `let rec loop = fun x -> loop x` and `let g = loop g`
def loopSelf : Program :=
  [.declRec "loop" (.lam (.var "x") (.app (.var "loop") (.var "x"))),
    .decl "g" (.app (.var "loop") (.var "g"))]

-- A name bound in one case is not in scope in the next, and a declaration that is not recursive
-- does not see itself.
theorem scope_lexical_itemsEnv :
    (∀ x ∈ ["xs"], x ∈ itemsEnv.names) ∧
      (infer {} itemsEnv headInBoth).1 = .error (.undefinedVar "h") ∧
      "h" ∈ headInBoth.freeNames ∧ "h" ∉ itemsEnv.names ∧
      (∀ x ∈ Program.freeNames loopItems, x ∈ itemsEnv.names) ∧
      (inferProgram {} itemsEnv loopSelf).1 = .error (.undefinedVar "g") ∧
      "g" ∈ Program.freeNames loopSelf ∧ "g" ∉ itemsEnv.names := by
  obtain ⟨ok, undefined, okProgram, undefinedProgram⟩ := scope_lexical {} itemsEnv
  have typed : (infer {} itemsEnv consItem).1 = .ok (.list .int) := by cbv
  have failed : (infer {} itemsEnv headInBoth).1 = .error (.undefinedVar "h") := by cbv
  have failedProgram : (inferProgram {} itemsEnv loopSelf).1 = .error (.undefinedVar "g") := by cbv
  refine ⟨ok consItem _ typed, failed, (undefined _ _ failed).left, (undefined _ _ failed).right, ?_,
    failedProgram, (undefinedProgram _ _ failedProgram).left,
    (undefinedProgram _ _ failedProgram).right⟩
  have accepted : (inferProgram {} itemsEnv loopItems).1.isOk := by cbv
  cases hp : (inferProgram {} itemsEnv loopItems).1
  case ok env' => exact okProgram loopItems env' hp
  case error => cases hp ▸ accepted

end Context

end HindleyMilner
