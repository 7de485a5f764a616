import HindleyMilner.Proofs.Compose
import HindleyMilner.Proofs.Runs

namespace HindleyMilner

open Infer

namespace Subst

variable {s : Subst} {x : TyVar} {t : Ty}

inductive Built : Subst → Prop
  | empty : Built ∅
  | singleton {x : TyVar} {t : Ty} {s : Subst} (h : singleton x t = .ok s) : Built s
  | extend {s o : Subst} {x : TyVar} {t : Ty} (hs : Built s) (h : s.extend x t = .ok o) : Built o
  | compose {s₁ s₂ o : Subst} (h₁ : Built s₁) (h₂ : Built s₂) (h : compose s₁ s₂ = .ok o) : Built o
  | composeAll {ss : List Subst} {o : Subst} (hss : ∀ s ∈ ss, Built s) (h : composeAll ss = .ok o) :
    Built o
  | unify {a b : Ty} {s : Subst} (h : unify a b = .ok s) : Built s
  | without {s : Subst} (hs : Built s) (vs : VarSet) : Built (s.without vs)

theorem solved_singleton (h : singleton x t = .ok s) : s.Solved := by
  rw [singleton] at h
  split at h
  case isTrue =>
    cases h
    exact .empty
  case isFalse =>
    split at h
    case isTrue => cases h
    case isFalse hx =>
      cases h
      simpa using Solved.empty.insert (not_mentions_empty x) (mt Ty.occurs_iff.mpr hx)

theorem Solved.without (hs : s.Solved) (vs : VarSet) : (s.without vs).Solved := by
  intro x t hx y hy
  rw [get?_without] at hx ⊢
  split at hx
  case isTrue => cases hx
  case isFalse => simp [hs x t hx y hy]

theorem Built.solved (h : s.Built) : s.Solved := by
  induction h
  case empty => exact .empty
  case singleton h => exact solved_singleton h
  case extend h ih => exact extend_join ih |>.solved h
  case compose h ih₁ ih₂ => exact compose_join _ ih₂ |>.solved h
  case composeAll h ih => exact composeAll_join ih |>.solved h
  case unify h => exact solved_of_unify h
  case without vs ih => exact ih.without vs

end Subst

namespace Expr

variable {env : TypeEnv} {e v : Expr} {k : String} {value : TypeEnv → Infer Failure (Subst × Ty)}

theorem ensures_built_inferOp (e : Expr) (op : Op) (lt rt : Ty) :
    Ensures (fun r => ∀ s ∈ r.1, s.Built) (inferOp e op lt rt) := by
  rw [inferOp]
  split
  case isTrue =>
    refine .bind (.require e _) fun s₁ h₁ => .bind (.require e _) fun s₂ h₂ => .pure ?_
    simpa using ⟨.unify h₁, .unify h₂⟩
  case isFalse =>
    refine .bind (.require e _) fun s h => .pure ?_
    simpa using .unify h

theorem ensures_built_binding (hv : ∀ env, Ensures (·.1.Built) (value env)) :
    Ensures (·.1.Built) (binding env k value) :=
  (hv env).bind fun _ h => .pure h

theorem ensures_built_recBinding (hv : ∀ env, Ensures (·.1.Built) (value env)) :
    Ensures (·.1.Built) (recBinding env k v value) :=
  .after _ fun _ => (hv _).bind fun _ h₁ => .bind (.require v _) fun _ h₂ =>
    .bind (.require v _) fun _ h => .pure (.compose h₁ (.unify h₂) h)

theorem ensures_built_inferElems {es : List Expr}
    (ih : ∀ a ∈ es, ∀ env, Ensures (·.1.Built) (a.infer env))
    {s : Subst} (hs : s.Built) : Ensures (·.1.Built) (inferElems e env s es) := by
  induction es generalizing s <;> rw [inferElems]
  case nil => exact .pure hs
  case cons a es ihs =>
    obtain ⟨iha, ih⟩ := List.forall_mem_cons.mp ih
    exact (iha _).bind fun _ h₁ => .bind (.require e _) fun _ h => (ihs ih (.compose hs h₁ h)).bind
      fun _ h => .pure h

theorem ensures_built_inferBranches {bs : List (Pattern × Expr)}
    (ih : ∀ b ∈ bs, ∀ env, Ensures (·.1.Built) (b.2.infer env)) {vt ret : Ty} {s : Subst}
    (hs : s.Built) : Ensures Subst.Built (inferBranches e env vt ret s bs) := by
  induction bs generalizing s <;> rw [inferBranches]
  case nil => exact .pure hs
  case cons b bs ihs =>
    obtain ⟨ihb, ih⟩ := List.forall_mem_cons.mp ih
    refine .after _ fun _ => .bind (.require e _) fun s₁ h₁ => (ihb _).bind fun _ h₂ =>
      .bind (.require e _) fun s₃ h₃ => .bind (.require e _) fun _ h => ihs ih (.composeAll ?_ h)
    simpa using ⟨hs, .unify h₁, h₂, .unify h₃⟩

theorem ensures_built (e : Expr) (env : TypeEnv) : Ensures (·.1.Built) (e.infer env) := by
  induction e generalizing env <;> (try rw [infer])
  case int => exact .pure .empty
  case bool => exact .pure .empty
  case var x =>
    cases env.get? x
    case none => exact .throw
    case some σ => exact .after _ fun _ => .pure .empty
  case nil => exact .after _ fun _ => .pure .empty
  case lam p body ih => exact .after _ fun _ => (ih _).bind fun _ h => .pure h
  case binop op l r ihl ihr =>
    refine (ihl env).bind fun _ h₁ => (ihr env).bind fun _ h₂ => ?_
    cases op
    case none => exact .throw
    case some op =>
      refine (ensures_built_inferOp _ op _ _).bind fun _ h₃ =>
        .bind (.require _ _) fun _ h => .pure ?_
      exact .composeAll (List.forall_mem_cons.mpr ⟨h₁, List.forall_mem_cons.mpr ⟨h₂, h₃⟩⟩) h
  case tuple ih => exact (ensures_built_inferElems ih .empty).bind fun _ h => .pure h
  case cons ihh iht =>
    refine (ihh env).bind fun _ h₁ => (iht _).bind fun _ h₂ => .bind (.require _ _) fun _ h₃ =>
      .bind (.require _ _) fun _ h => .pure (.composeAll ?_ h)
    simpa using ⟨h₁, h₂, .unify h₃⟩
  case cond ihc ihy ihn =>
    refine (ihc env).bind fun _ h₁ => (ihy env).bind fun _ h₂ => (ihn env).bind fun _ h₃ =>
      .bind (.require _ _) fun _ h₄ => .bind (.require _ _) fun _ h₅ =>
        .bind (.require _ _) fun _ h => .pure (.composeAll ?_ h)
    simpa using ⟨h₁, h₂, h₃, .unify h₄, .unify h₅⟩
  case app ihf iha =>
    refine (ihf env).bind fun _ h₁ => (iha _).bind fun _ h₂ => .after _ fun _ =>
      .bind (.require _ _) fun _ h₃ => .bind (.require _ _) fun _ h => .pure (.composeAll ?_ h)
    simpa using ⟨h₁, h₂, .unify h₃⟩
  case letIn ihv ihb =>
    exact (ensures_built_binding ihv).bind fun _ h₁ => (ihb _).bind fun _ h₂ =>
      .bind (.require _ _) fun _ h => .pure (.compose h₁ h₂ h)
  case letRec ihv ihb =>
    exact (ensures_built_recBinding ihv).bind fun _ h₁ => (ihb _).bind fun _ h₂ =>
      .bind (.require _ _) fun _ h => .pure (.compose h₁ h₂ h)
  case cases ihv ihb =>
    exact (ihv env).bind fun _ h₁ => .after _ fun _ => (ensures_built_inferBranches ihb h₁).bind
      fun _ h => .pure h
  case hole k => cases k <;> exact .throw

end Expr

namespace Subst

-- Whatever is built is solved, so that applying it twice is applying it once and none of its
-- variables is left. The substitutions of inference are no exception.
theorem solvedForm_invariant :
    (∀ s : Subst, s.Built → s.Solved ∧
      ∀ t, s.apply (s.apply t) = s.apply t ∧ ∀ x ∈ (s.apply t).vars, s.get? x = none) ∧
    ∀ (env : TypeEnv) (e : Expr) (n m : Supply) (s : Subst) (t : Ty),
      e.infer env n = .ok (s, t) m → s.Solved ∧
        ∀ t, s.apply (s.apply t) = s.apply t ∧ ∀ x ∈ (s.apply t).vars, s.get? x = none := by
  have built (s : Subst) (hs : s.Built) : s.Solved ∧
      ∀ t, s.apply (s.apply t) = s.apply t ∧ ∀ x ∈ (s.apply t).vars, s.get? x = none :=
    ⟨hs.solved, fun t => ⟨hs.solved.apply_apply t, fun _ => hs.solved.get?_of_mem_apply⟩⟩
  refine ⟨built, fun env e n m s t h => built s ?_⟩
  exact e.ensures_built env n (s, t) m h

def openCall : Expr :=
  .app (.var "f") (.var "x")

def openEnv : TypeEnv :=
  (TypeEnv.declareMono ∅ "f" (.var 0)).declareMono "x" (.var 1)

theorem solvedForm_invariant_later :
    (∃ u o, unify (.var 0) (.list (.var 1)) = .ok u ∧ u.extend 1 (.hole none) = .ok o ∧
      o.entries = [(0, .list (.hole none)), (1, .hole none)] ∧ o.Solved) ∧
    ∃ s t m, openCall.infer openEnv { next := 2 } = .ok (s, t) m ∧
      s.entries = [(0, .arrow (.var 1) (.var 2))] ∧ s.Solved := by
  obtain ⟨built, inferred⟩ := solvedForm_invariant
  constructor
  case left =>
    have hu : (unify (.var 0) (.list (.var 1)) >>= (·.extend 1 (.hole none))).map (·.entries) =
        .ok [(0, .list (.hole none)), (1, .hole none)] := by cbv
    cases h : unify (.var 0) (.list (.var 1))
    case error => cases h ▸ hu
    case ok u =>
      replace hu : (u.extend 1 (.hole none)).map (·.entries) =
          .ok [(0, .list (.hole none)), (1, .hole none)] := by rwa [h] at hu
      cases ho : u.extend 1 (.hole none)
      case error => cases ho ▸ hu
      case ok o =>
        rw [ho] at hu
        exact ⟨u, o, rfl, ho, Except.ok.inj hu, (built o (.extend (.unify h) ho)).left⟩
  case right =>
    have he : ((openCall.infer openEnv).run' { next := 2 }).map (·.1.entries) =
        some [(0, .arrow (.var 1) (.var 2))] := by cbv
    cases h : openCall.infer openEnv { next := 2 }
    case error => simp [EStateM.run', EStateM.run, h] at he
    case ok r m =>
      obtain ⟨s, t⟩ := r
      exact ⟨s, t, m, rfl, by simpa [EStateM.run', EStateM.run, h] using he,
        (inferred _ _ _ _ s t h).left⟩

end Subst

end HindleyMilner
