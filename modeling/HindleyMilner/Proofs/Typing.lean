import HindleyMilner.Stmt
import HindleyMilner.Proofs.TypeEnv

namespace HindleyMilner

namespace Pattern

@[induction_eliminator]
theorem induction {P : Pattern → Prop} (wildcard : P .wildcard) (int : ∀ n, P (.int n))
    (bool : ∀ b, P (.bool b)) (nil : P .nil) (var : ∀ x, P (.var x))
    (cons : ∀ h t, P h → P t → P (.cons h t)) (tuple : ∀ ps, (∀ p ∈ ps, P p) → P (.tuple ps))
    (hole : ∀ k, P (.hole k)) (p : Pattern) : P p :=
  @Pattern.rec P (fun ps => ∀ p ∈ ps, P p) wildcard int bool nil var cons tuple hole (by simp)
    (fun _ _ hp hps => List.forall_mem_cons.mpr ⟨hp, hps⟩) p

mutual
def names : Pattern → List String
  | .var x => [x]
  | .cons h t => h.names ++ t.names
  | .tuple ps => namesAll ps
  | _ => []
def namesAll : List Pattern → List String
  | [] => []
  | p :: ps => p.names ++ namesAll ps
end

inductive Typing (δ : String → Ty) : Pattern → Ty → Prop
  | wildcard {τ : Ty} : Typing δ .wildcard τ
  | int {n : Int64} : Typing δ (.int n) .int
  | bool {b : Bool} : Typing δ (.bool b) .bool
  | nil {τ : Ty} : Typing δ .nil (.list τ)
  | var {x : String} {τ : Ty} (hx : δ x = τ) : Typing δ (.var x) τ
  | cons {h t : Pattern} {τ : Ty} (hh : Typing δ h τ) (ht : Typing δ t (.list τ)) :
    Typing δ (.cons h t) (.list τ)
  | tuple {ps : List Pattern} {τs : List Ty} (h : List.Forall₂ (Typing δ) ps τs) :
    Typing δ (.tuple ps) (.tuple τs)

structure Fresh (scope : List String) (p : Pattern) : Prop where
  nodup : p.names.Nodup
  new : ∀ x ∈ p.names, x ∉ scope

-- The names may be bound twice, but none of them is in scope.
def New (scope : List String) (p : Pattern) : Prop :=
  ∀ x ∈ p.names, x ∉ scope

instance (scope : List String) (p : Pattern) : Decidable (p.New scope) :=
  inferInstanceAs (Decidable (∀ x ∈ p.names, x ∉ scope))

namespace Typing

variable {δ δ' : String → Ty} {p : Pattern} {ps : List Pattern} {τ : Ty} {τs : List Ty}

theorem congr (h : p.Typing δ τ) (hδ : ∀ x ∈ p.names, δ x = δ' x) : p.Typing δ' τ := by
  have all {ps : List Pattern} {τs : List Ty} (h : List.Forall₂ (Typing δ) ps τs)
      (ih : ∀ p ∈ ps, ∀ τ, p.Typing δ τ → (∀ x ∈ p.names, δ x = δ' x) → p.Typing δ' τ)
      (hδ : ∀ x ∈ namesAll ps, δ x = δ' x) : List.Forall₂ (Typing δ') ps τs := by
    induction h
    case nil => exact .nil
    case cons hp _ ihs =>
      simp only [namesAll, List.mem_append, or_imp, forall_and] at hδ
      have ⟨ihp, ih⟩ := List.forall_mem_cons.mp ih
      exact .cons (ihp _ hp hδ.left) (ihs ih hδ.right)
  induction p generalizing τ <;> cases h
  case wildcard => exact .wildcard
  case int => exact .int
  case bool => exact .bool
  case nil => exact .nil
  case var hx => exact .var <| (hδ _ (by simp [names])).symm.trans hx
  case cons ihh iht _ hh ht =>
    simp only [names, List.mem_append, or_imp, forall_and] at hδ
    exact .cons (ihh hh hδ.left) (iht ht hδ.right)
  case tuple ih _ h => exact .tuple <| all h (fun p hp _ h hδ => ih p hp h hδ) hδ

theorem subst (h : p.Typing δ τ) (S : TyVar → Ty) :
    p.Typing (fun x => (δ x).subst S) (τ.subst S) := by
  have all {ps : List Pattern} {τs : List Ty} (h : List.Forall₂ (Typing δ) ps τs)
      (ih : ∀ p ∈ ps, ∀ τ, p.Typing δ τ → p.Typing (fun x => (δ x).subst S) (τ.subst S)) :
      List.Forall₂ (Typing fun x => (δ x).subst S) ps (τs.map (·.subst S)) := by
    induction h
    case nil => exact .nil
    case cons hp _ ihs =>
      have ⟨ihp, ih⟩ := List.forall_mem_cons.mp ih
      exact .cons (ihp _ hp) (ihs ih)
  induction p generalizing τ <;> cases h
  case wildcard => exact .wildcard
  case int => simpa using .int
  case bool => simpa using .bool
  case nil => simpa using .nil
  case var hx => exact .var (hx ▸ rfl)
  case cons ihh iht _ hh ht =>
    have ht := iht ht
    simp only [Ty.subst_list] at ht ⊢
    exact .cons (ihh hh) ht
  case tuple ih _ h =>
    rw [Ty.subst_tuple]
    exact .tuple <| all h fun p hp _ h => ih p hp h

end Typing

end Pattern

namespace Expr

@[induction_eliminator]
theorem induction {P : Expr → Prop} (int : ∀ n, P (.int n)) (bool : ∀ b, P (.bool b))
    (var : ∀ x, P (.var x)) (nil : P .nil) (lam : ∀ p body, P body → P (.lam p body))
    (binop : ∀ op l r, P l → P r → P (.binop op l r))
    (tuple : ∀ es, (∀ e ∈ es, P e) → P (.tuple es)) (cons : ∀ h t, P h → P t → P (.cons h t))
    (cond : ∀ c y n, P c → P y → P n → P (.cond c y n)) (app : ∀ f a, P f → P a → P (.app f a))
    (letIn : ∀ x v body, P v → P body → P (.letIn x v body))
    (letRec : ∀ x v body, P v → P body → P (.letRec x v body))
    (cases : ∀ v bs, P v → (∀ b ∈ bs, P b.2) → P (.cases v bs)) (hole : ∀ k, P (.hole k))
    (e : Expr) : P e :=
  @Expr.rec P (fun es => ∀ e ∈ es, P e) (fun bs => ∀ b ∈ bs, P b.2) (fun b => P b.2) int bool var nil
    lam binop tuple cons cond app letIn letRec cases hole (by simp)
    (fun _ _ he hes => List.forall_mem_cons.mpr ⟨he, hes⟩) (by simp)
    (fun _ _ hb hbs => List.forall_mem_cons.mpr ⟨hb, hbs⟩) (fun _ _ h => h) e

mutual
inductive Typing : TypeEnv → Expr → Ty → Prop
  | int {Γ : TypeEnv} {n : Int64} : Typing Γ (.int n) .int
  | bool {Γ : TypeEnv} {b : Bool} : Typing Γ (.bool b) .bool
  | var {Γ : TypeEnv} {x : String} {σ : Scheme} {τ : Ty} (hx : Γ.get? x = some σ)
    (hτ : σ.Instance τ) : Typing Γ (.var x) τ
  | nil {Γ : TypeEnv} {τ : Ty} : Typing Γ .nil (.list τ)
  | lam {Γ : TypeEnv} {p : Pattern} {body : Expr} {δ : String → Ty} {τ υ : Ty} (hp : p.Typing δ τ)
    (hb : Typing (Γ.declareAll p.names δ) body υ) : Typing Γ (.lam p body) (.arrow τ υ)
  | arithmetic {Γ : TypeEnv} {op : Op} {l r : Expr} (ho : op.isArithmetic) (hl : Typing Γ l .int)
    (hr : Typing Γ r .int) : Typing Γ (.binop (some op) l r) .int
  | relation {Γ : TypeEnv} {op : Op} {l r : Expr} {τ : Ty} (ho : op.isComparison ∨ op.isBoolean)
    (hl : Typing Γ l τ) (hr : Typing Γ r τ) : Typing Γ (.binop (some op) l r) .bool
  | tuple {Γ : TypeEnv} {es : List Expr} {τs : List Ty} (h : TypingAll Γ es τs) :
    Typing Γ (.tuple es) (.tuple τs)
  | cons {Γ : TypeEnv} {h t : Expr} {τ : Ty} (hh : Typing Γ h τ) (ht : Typing Γ t (.list τ)) :
    Typing Γ (.cons h t) (.list τ)
  | cond {Γ : TypeEnv} {c y n : Expr} {τ : Ty} (hc : Typing Γ c .bool) (hy : Typing Γ y τ)
    (hn : Typing Γ n τ) : Typing Γ (.cond c y n) τ
  | app {Γ : TypeEnv} {f a : Expr} {τ υ : Ty} (hf : Typing Γ f (.arrow τ υ)) (ha : Typing Γ a τ) :
    Typing Γ (.app f a) υ
  | letIn {Γ : TypeEnv} {x : String} {v body : Expr} {τ υ : Ty} (hv : Typing Γ v τ)
    (hb : Typing (Γ.declare x (Γ.generalize τ)) body υ) : Typing Γ (.letIn x v body) υ
  -- In its own value, `x` has one type.
  | letRec {Γ : TypeEnv} {x : String} {v body : Expr} {τ υ : Ty}
    (hv : Typing (Γ.declareMono x τ) v τ)
    (hb : Typing (Γ.declare x (Γ.generalizeRec τ x)) body υ) : Typing Γ (.letRec x v body) υ
  | cases {Γ : TypeEnv} {v : Expr} {bs : List (Pattern × Expr)} {τ υ : Ty} (hv : Typing Γ v τ)
    (hb : BranchTyping Γ τ υ bs) : Typing Γ (.cases v bs) υ
inductive TypingAll : TypeEnv → List Expr → List Ty → Prop
  | nil {Γ : TypeEnv} : TypingAll Γ [] []
  | cons {Γ : TypeEnv} {e : Expr} {es : List Expr} {τ : Ty} {τs : List Ty} (he : Typing Γ e τ)
    (hes : TypingAll Γ es τs) : TypingAll Γ (e :: es) (τ :: τs)
-- All patterns have the type `τ` and all bodies the type `υ`. Without branches, any types will do.
inductive BranchTyping : TypeEnv → Ty → Ty → List (Pattern × Expr) → Prop
  | nil {Γ : TypeEnv} {τ υ : Ty} : BranchTyping Γ τ υ []
  | cons {Γ : TypeEnv} {p : Pattern} {body : Expr} {bs : List (Pattern × Expr)} {δ : String → Ty}
    {τ υ : Ty} (hp : p.Typing δ τ) (hb : Typing (Γ.declareAll p.names δ) body υ)
    (hbs : BranchTyping Γ τ υ bs) : BranchTyping Γ τ υ ((p, body) :: bs)
end

-- Every pattern satisfies `ok` in the scope in which it stands.
mutual
def EachPattern (ok : List String → Pattern → Prop) (scope : List String) : Expr → Prop
  | .int _ | .bool _ | .var _ | .nil | .hole _ => True
  | .lam p body => ok scope p ∧ body.EachPattern ok (p.names ++ scope)
  | .binop _ l r => l.EachPattern ok scope ∧ r.EachPattern ok scope
  | .tuple es => AllEachPattern ok scope es
  | .cons h t => h.EachPattern ok scope ∧ t.EachPattern ok scope
  | .cond c y n => c.EachPattern ok scope ∧ y.EachPattern ok scope ∧ n.EachPattern ok scope
  | .app f a => f.EachPattern ok scope ∧ a.EachPattern ok scope
  | .letIn x v body => v.EachPattern ok scope ∧ body.EachPattern ok (x :: scope)
  | .letRec x v body => v.EachPattern ok (x :: scope) ∧ body.EachPattern ok (x :: scope)
  | .cases v bs => v.EachPattern ok scope ∧ BranchEachPattern ok scope bs
def AllEachPattern (ok : List String → Pattern → Prop) (scope : List String) : List Expr → Prop
  | [] => True
  | e :: es => e.EachPattern ok scope ∧ AllEachPattern ok scope es
def BranchEachPattern (ok : List String → Pattern → Prop) (scope : List String) :
    List (Pattern × Expr) → Prop
  | [] => True
  | (p, body) :: bs =>
    (ok scope p ∧ body.EachPattern ok (p.names ++ scope)) ∧ BranchEachPattern ok scope bs
end

theorem EachPattern.mono {ok ok' : List String → Pattern → Prop} {scope : List String} {e : Expr}
    (h : e.EachPattern ok scope) (hok : ∀ scope p, ok scope p → ok' scope p) :
    e.EachPattern ok' scope := by
  induction e generalizing scope
  case int | bool | var | nil | hole => trivial
  case lam ih => exact ⟨hok _ _ h.left, ih h.right⟩
  case binop ihl ihr => exact ⟨ihl h.left, ihr h.right⟩
  case tuple es ih =>
    induction es
    case nil => trivial
    case cons e es ihs =>
      obtain ⟨ihe, ih⟩ := List.forall_mem_cons.mp ih
      exact ⟨ihe h.left, ihs ih h.right⟩
  case cons ihh iht => exact ⟨ihh h.left, iht h.right⟩
  case cond ihc ihy ihn => exact ⟨ihc h.left, ihy h.right.left, ihn h.right.right⟩
  case app ihf iha => exact ⟨ihf h.left, iha h.right⟩
  case letIn ihv ihb => exact ⟨ihv h.left, ihb h.right⟩
  case letRec ihv ihb => exact ⟨ihv h.left, ihb h.right⟩
  case cases v bs ihv ih =>
    refine ⟨ihv h.left, ?_⟩
    replace h := h.right
    induction bs
    case nil => trivial
    case cons b bs ihs =>
      obtain ⟨ihb, ih⟩ := List.forall_mem_cons.mp ih
      exact ⟨⟨hok _ _ h.left.left, ihb h.left.right⟩, ihs ih h.right⟩

def PatternsFresh (scope : List String) (e : Expr) : Prop :=
  e.EachPattern Pattern.Fresh scope

def PatternsNew (scope : List String) (e : Expr) : Prop :=
  e.EachPattern Pattern.New scope

theorem PatternsFresh.new {scope : List String} {e : Expr} (h : e.PatternsFresh scope) :
    e.PatternsNew scope :=
  h.mono fun _ _ hp => hp.new

end Expr

namespace Program

inductive Typing : TypeEnv → Program → TypeEnv → Prop
  | nil {Γ : TypeEnv} : Typing Γ [] Γ
  | decl {Γ Γ' : TypeEnv} {x : String} {v : Expr} {p : Program} {τ : Ty} (hv : v.Typing Γ τ)
    (hp : Typing (Γ.declare x (Γ.generalize τ)) p Γ') : Typing Γ (.decl x v :: p) Γ'
  | declRec {Γ Γ' : TypeEnv} {x : String} {v : Expr} {p : Program} {τ : Ty}
    (hv : v.Typing (Γ.declareMono x τ) τ)
    (hp : Typing (Γ.declare x (Γ.generalizeRec τ x)) p Γ') : Typing Γ (.declRec x v :: p) Γ'
  | expr {Γ Γ' : TypeEnv} {e : Expr} {p : Program} {τ : Ty} (he : e.Typing Γ τ)
    (hp : Typing Γ p Γ') : Typing Γ (.expr e :: p) Γ'

-- Every pattern binds names that are new where it stands; earlier declarations are in scope.
def PatternsFresh (scope : List String) : Program → Prop
  | [] => True
  | .decl x v :: p => v.PatternsFresh scope ∧ PatternsFresh (x :: scope) p
  | .declRec x v :: p => v.PatternsFresh (x :: scope) ∧ PatternsFresh (x :: scope) p
  | .expr e :: p => e.PatternsFresh scope ∧ PatternsFresh scope p
  | .hole _ :: p => PatternsFresh scope p

end Program

end HindleyMilner
