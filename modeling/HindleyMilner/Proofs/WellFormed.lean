import HindleyMilner.Proofs.FirstFailure

namespace HindleyMilner

open Infer

def IsName (x : String) : Prop :=
  x ≠ "" ∧ ∀ c ∈ x.toList, c ∉ [' ', '\t', '\r', '\n']

instance (x : String) : Decidable (IsName x) :=
  decidable_of_iff (x ≠ "" ∧ x.toList.all (· ∉ [' ', '\t', '\r', '\n'])) (by simp [IsName])

namespace Pattern

inductive WellFormed : Pattern → Prop
  | wildcard : WellFormed .wildcard
  | int {n : Int64} : WellFormed (.int n)
  | bool {b : Bool} : WellFormed (.bool b)
  | nil : WellFormed .nil
  | var {x : String} (hx : IsName x) : WellFormed (.var x)
  | cons {h t : Pattern} (hh : WellFormed h) (ht : WellFormed t) : WellFormed (.cons h t)
  | tuple {ps : List Pattern} (h : ∀ p ∈ ps, WellFormed p) : WellFormed (.tuple ps)

mutual
def layout? (simple : Bool) : Pattern → Option String
  | .wildcard => some "_"
  | .int n => some (toString n.toInt)
  | .bool b => some (toString b)
  | .nil => some "[]"
  | .var x => some x
  | .cons h t => return parenthesizeIf simple ((← h.layout? true) ++ " :: " ++ (← t.layout? false))
  | .tuple [] => some "()"
  | .tuple (p :: ps) => return "(" ++ (← p.layout? false) ++ (← layoutRest? ps) ++ ")"
  | .hole _ => none
def layoutRest? : List Pattern → Option String
  | [] => some ""
  | p :: ps => return ", " ++ (← p.layout? false) ++ (← layoutRest? ps)
end

variable {p : Pattern} {ps : List Pattern}

theorem layoutRest?_eq (h : ∀ p ∈ ps, p.layout? false = some (p.layout false)) :
    layoutRest? ps = some (layoutRest ps) := by
  induction ps
  case nil => rfl
  case cons p ps ih =>
    obtain ⟨hp, h⟩ := List.forall_mem_cons.mp h
    simp [layoutRest?, layoutRest, hp, ih h]

theorem WellFormed.layout?_eq (h : p.WellFormed) (simple : Bool) :
    p.layout? simple = some (p.layout simple) := by
  induction h generalizing simple
  case wildcard | int | bool | nil | var => rfl
  case cons ihh iht => simp [layout?, layout, ihh, iht]
  case tuple ps _ ih =>
    cases ps
    case nil => rfl
    case cons p ps =>
      obtain ⟨ihp, ih⟩ := List.forall_mem_cons.mp ih
      simp [layout?, layout, ihp, layoutRest?_eq fun q hq => ih q hq false]

theorem WellFormed.not_hasHole {kind : Option String} (h : p.WellFormed) : ¬p.HasHole kind := by
  intro hh
  induction hh
  case here => cases h
  case head ih =>
    cases h
    case cons hh _ => exact ih hh
  case tail ih =>
    cases h
    case cons _ ht => exact ih ht
  case elem hp _ ih =>
    cases h
    case tuple h => exact ih (h _ hp)

end Pattern

namespace Expr

inductive WellFormed : Expr → Prop
  | int {n : Int64} : WellFormed (.int n)
  | bool {b : Bool} : WellFormed (.bool b)
  | var {x : String} (hx : IsName x) : WellFormed (.var x)
  | nil : WellFormed .nil
  | lam {p : Pattern} {body : Expr} (hp : p.WellFormed) (hb : WellFormed body) :
    WellFormed (.lam p body)
  | binop {op : Op} {l r : Expr} (hl : WellFormed l) (hr : WellFormed r) :
    WellFormed (.binop (some op) l r)
  | tuple {es : List Expr} (h : ∀ e ∈ es, WellFormed e) : WellFormed (.tuple es)
  | cons {h t : Expr} (hh : WellFormed h) (ht : WellFormed t) : WellFormed (.cons h t)
  | cond {c y n : Expr} (hc : WellFormed c) (hy : WellFormed y) (hn : WellFormed n) :
    WellFormed (.cond c y n)
  | app {f a : Expr} (hf : WellFormed f) (ha : WellFormed a) : WellFormed (.app f a)
  | letIn {x : String} {v body : Expr} (hx : IsName x) (hv : WellFormed v) (hb : WellFormed body) :
    WellFormed (.letIn x v body)
  | letRec {x : String} {v body : Expr} (hx : IsName x) (hv : WellFormed v)
    (hb : WellFormed body) : WellFormed (.letRec x v body)
  | cases {v : Expr} {bs : List (Pattern × Expr)} (hv : WellFormed v)
    (hp : ∀ b ∈ bs, b.1.WellFormed) (hb : ∀ b ∈ bs, WellFormed b.2) : WellFormed (.cases v bs)

mutual
def layout? (simple : Bool) : Expr → Option String
  | .int n => some (parenthesizeIf (simple && n < 0) (toString n.toInt))
  | .bool b => some (toString b)
  | .var x => some x
  | .nil => some "[]"
  | .lam p e =>
    return parenthesizeIf simple ("fun " ++ (← p.layout? true) ++ " -> " ++ (← e.layout? false))
  | .binop op l r =>
    return parenthesizeIf simple
      ((← l.layout? (!l.isApp)) ++ " " ++ (← op).render ++ " " ++ (← r.layout? (!r.isApp)))
  | .tuple [] => some "()"
  | .tuple (e :: es) => return "(" ++ (← e.layout? false) ++ (← layoutElems? es) ++ ")"
  | .cons h t =>
    if t.isList then return "[" ++ (← h.layout? false) ++ (← layoutItems? t) ++ "]"
    else return parenthesizeIf simple ((← h.layout? true) ++ " :: " ++ (← t.layout? false))
  | .cond c y n =>
    return parenthesizeIf simple
      ("if " ++ (← c.layout? false) ++ " then " ++ (← y.layout? false) ++ " else "
        ++ (← n.layout? false))
  | .app f a =>
    return parenthesizeIf simple ((← f.layout? (!f.isApp)) ++ " " ++ (← a.layout? true))
  | .letIn x v e =>
    return parenthesizeIf simple
      ("let " ++ x ++ " = " ++ (← v.layout? false) ++ " in " ++ (← e.layout? false))
  | .letRec x v e =>
    return parenthesizeIf simple
      ("let rec " ++ x ++ " = " ++ (← v.layout? false) ++ " in " ++ (← e.layout? false))
  | .cases v [] => return parenthesizeIf simple ("match " ++ (← v.layout? false) ++ " with")
  | .cases v ((p, e) :: bs) =>
    return parenthesizeIf simple
      ("match " ++ (← v.layout? false) ++ " with " ++ (← p.layout? false) ++ " -> "
        ++ (← e.layout? false) ++ (← layoutBranches? bs))
  | .hole _ => none
def layoutElems? : List Expr → Option String
  | [] => some ""
  | e :: es => return ", " ++ (← e.layout? false) ++ (← layoutElems? es)
def layoutItems? : Expr → Option String
  | .cons h t => return "; " ++ (← h.layout? false) ++ (← layoutItems? t)
  | _ => some ""
def layoutBranches? : List (Pattern × Expr) → Option String
  | [] => some ""
  | (p, e) :: bs =>
    return " | " ++ (← p.layout? false) ++ " -> " ++ (← e.layout? false) ++ (← layoutBranches? bs)
end

variable {e : Expr} {es : List Expr} {bs : List (Pattern × Expr)}

theorem layoutElems?_eq (h : ∀ e ∈ es, e.layout? false = some (e.layout false)) :
    layoutElems? es = some (layoutElems es) := by
  induction es
  case nil => rfl
  case cons e es ih =>
    obtain ⟨he, h⟩ := List.forall_mem_cons.mp h
    simp [layoutElems?, layoutElems, he, ih h]

theorem layoutBranches?_eq (hp : ∀ b ∈ bs, b.1.WellFormed)
    (hb : ∀ b ∈ bs, b.2.layout? false = some (b.2.layout false)) :
    layoutBranches? bs = some (layoutBranches bs) := by
  induction bs
  case nil => rfl
  case cons b bs ih =>
    obtain ⟨hp₁, hp⟩ := List.forall_mem_cons.mp hp
    obtain ⟨hb₁, hb⟩ := List.forall_mem_cons.mp hb
    simp [layoutBranches?, layoutBranches, hp₁.layout?_eq, hb₁, ih hp hb]

-- The items of a list are laid out on their own, so the induction has to carry them along.
theorem WellFormed.layout?_and_layoutItems?_eq (h : e.WellFormed) :
    (∀ simple, e.layout? simple = some (e.layout simple)) ∧
      e.layoutItems? = some e.layoutItems := by
  induction h
  case int | bool | var | nil => exact ⟨fun _ => rfl, rfl⟩
  case lam hp _ ih => simp [layout?, layout, layoutItems?, layoutItems, hp.layout?_eq, ih]
  case binop ihl ihr => simp [layout?, layout, layoutItems?, layoutItems, Op.renderOption, ihl, ihr]
  case tuple es _ ih =>
    refine ⟨fun _ => ?_, rfl⟩
    cases es
    case nil => rfl
    case cons e es =>
      obtain ⟨ihe, ih⟩ := List.forall_mem_cons.mp ih
      simp [layout?, layout, ihe, layoutElems?_eq fun a ha => (ih a ha).left false]
  case cons t _ _ ihh iht =>
    refine ⟨fun _ => ?_, by simp [layoutItems?, layoutItems, ihh, iht]⟩
    cases ht : t.isList <;> simp [layout?, layout, ihh, iht, ht]
  case cond ihc ihy ihn => simp [layout?, layout, layoutItems?, layoutItems, ihc, ihy, ihn]
  case app ihf iha => simp [layout?, layout, layoutItems?, layoutItems, ihf, iha]
  case letIn ihv ihb => simp [layout?, layout, layoutItems?, layoutItems, ihv, ihb]
  case letRec ihv ihb => simp [layout?, layout, layoutItems?, layoutItems, ihv, ihb]
  case cases bs _ hp _ ihv ih =>
    refine ⟨fun _ => ?_, rfl⟩
    cases bs
    case nil => simp [layout?, layout, ihv]
    case cons b bs =>
      obtain ⟨hp₁, hp⟩ := List.forall_mem_cons.mp hp
      obtain ⟨ihb, ih⟩ := List.forall_mem_cons.mp ih
      simp [layout?, layout, ihv, hp₁.layout?_eq, ihb,
        layoutBranches?_eq hp fun b hb => (ih b hb).left false]

theorem subexprsAll_eq_ok (h : ∀ e ∈ es, ∃ as, e.subexprs = .ok as) :
    ∃ as, subexprsAll es = .ok as := by
  induction es
  case nil => exact ⟨_, rfl⟩
  case cons e es ih =>
    obtain ⟨⟨as, he⟩, h⟩ := List.forall_mem_cons.mp h
    obtain ⟨bs, hes⟩ := ih h
    exact ⟨as ++ bs, by simp [subexprsAll, he, hes, bind, Except.bind, pure, Except.pure]⟩

theorem subexprsBranches_eq_subexprsAll (bs : List (Pattern × Expr)) :
    subexprsBranches bs = subexprsAll (bs.map (·.2)) := by
  induction bs
  case nil => rfl
  case cons b bs ih => simp [subexprsBranches, subexprsAll, ih]

theorem WellFormed.subexprs_eq_ok (h : e.WellFormed) : ∃ as, e.subexprs = .ok as := by
  induction h
  case int | bool | var | nil => exact ⟨_, rfl⟩
  case lam ih =>
    obtain ⟨as, h⟩ := ih
    simp [subexprs, h, bind, Except.bind, pure, Except.pure]
  case binop ih₁ ih₂ | cons ih₁ ih₂ | app ih₁ ih₂ | letIn ih₁ ih₂ | letRec ih₁ ih₂ =>
    obtain ⟨⟨as, h₁⟩, bs, h₂⟩ := And.intro ih₁ ih₂
    simp [subexprs, h₁, h₂, bind, Except.bind, pure, Except.pure]
  case tuple ih =>
    obtain ⟨as, h⟩ := subexprsAll_eq_ok ih
    simp [subexprs, h, bind, Except.bind, pure, Except.pure]
  case cond ihc ihy ihn =>
    obtain ⟨⟨as, hc⟩, ⟨bs, hy⟩, cs, hn⟩ := And.intro ihc (And.intro ihy ihn)
    simp [subexprs, hc, hy, hn, bind, Except.bind, pure, Except.pure]
  case cases ihv ih =>
    obtain ⟨as, hv⟩ := ihv
    obtain ⟨bs, h⟩ := subexprsAll_eq_ok (List.forall_mem_map.mpr ih)
    simp [subexprs, hv, subexprsBranches_eq_subexprsAll, h, bind, Except.bind, pure, Except.pure]

theorem WellFormed.children (h : e.WellFormed) : ∀ a ∈ e.children, a.WellFormed := by
  cases h
  case tuple h => exact h
  case cases hv _ hb => exact List.forall_mem_cons.mpr ⟨hv, List.forall_mem_map.mpr hb⟩
  all_goals simp [Expr.children, *]

theorem WellFormed.patterns (h : e.WellFormed) : ∀ p ∈ e.patterns, p.WellFormed := by
  cases h
  case lam hp _ => exact List.forall_mem_singleton.mpr hp
  case cases _ hp _ => exact List.forall_mem_map.mpr hp
  all_goals exact List.forall_mem_nil _

theorem WellFormed.part {a : Expr} (h : e.WellFormed) (ha : a.Part e) : a.WellFormed := by
  induction ha using Relation.ReflTransGen.head_induction_on
  case refl => exact h
  case head hab _ ih => exact ih.children _ hab

end Expr

inductive InferError.IsTypeError : InferError → Prop
  | occurs {x : TyVar} {t : Ty} : IsTypeError (.unify (.occurs x t))
  | mismatch {t u : Ty} : IsTypeError (.unify (.mismatch t u))
  | undefinedVar {x : String} : IsTypeError (.undefinedVar x)

theorem Expr.WellFormed.isTypeError {e : Expr} {f : Failure} (h : e.WellFormed) (hf : e.Raises f) :
    f.error.IsTypeError := by
  cases hf
  case unify err _ =>
    cases err
    case occurs => exact .occurs
    case mismatch => exact .mismatch
  case undefinedVar => exact .undefinedVar
  case unknownOperator => cases h
  case unhandledPattern hh hp => exact absurd hh (h.patterns _ hp).not_hasHole
  case unhandledExpr => cases h

namespace Stmt

inductive WellFormed : Stmt → Prop
  | decl {x : String} {v : Expr} (hx : IsName x) (hv : v.WellFormed) : WellFormed (.decl x v)
  | declRec {x : String} {v : Expr} (hx : IsName x) (hv : v.WellFormed) : WellFormed (.declRec x v)
  | expr {e : Expr} (he : e.WellFormed) : WellFormed (.expr e)

def render? : Stmt → Option String
  | .decl x e => return "let " ++ x ++ " = " ++ (← e.layout? false)
  | .declRec x e => return "let rec " ++ x ++ " = " ++ (← e.layout? false)
  | .expr e => e.layout? false
  | .hole _ => none

variable {stmt : Stmt}

theorem WellFormed.render?_eq (h : stmt.WellFormed) : stmt.render? = some stmt.render := by
  cases h
  case decl hv => simp [render?, render, Expr.render, hv.layout?_and_layoutItems?_eq]
  case declRec hv => simp [render?, render, Expr.render, hv.layout?_and_layoutItems?_eq]
  case expr he => exact he.layout?_and_layoutItems?_eq.left false

theorem WellFormed.subexprs_eq_ok (h : stmt.WellFormed) : ∃ as, stmt.subexprs = .ok as := by
  cases h
  case decl hv => exact hv.subexprs_eq_ok
  case declRec hv => exact hv.subexprs_eq_ok
  case expr he => exact he.subexprs_eq_ok

theorem WellFormed.of_expr? {e : Expr} (h : stmt.WellFormed) (he : stmt.expr? = some e) :
    e.WellFormed := by
  cases h <;> cases he <;> assumption

theorem WellFormed.isTypeError {f : Failure} (h : stmt.WellFormed) (hf : stmt.Raises f) :
    f.error.IsTypeError := by
  cases hf
  case part ha he hf => exact ((h.of_expr? he).part ha).isTypeError hf
  case unhandledStmt => cases h

end Stmt

namespace Program

def WellFormed (p : Program) : Prop :=
  ∀ stmt ∈ p, stmt.WellFormed

variable {p : Program}

theorem WellFormed.exprCount_eq_ok (h : p.WellFormed) : ∃ k, p.exprCount = .ok k := by
  induction p
  case nil => exact ⟨0, rfl⟩
  case cons stmt p ih =>
    obtain ⟨hs, h⟩ := List.forall_mem_cons.mp h
    obtain ⟨as, hs⟩ := hs.subexprs_eq_ok
    obtain ⟨k, hk⟩ := ih h
    exact ⟨as.length + k, by simp [exprCount, hs, hk, bind, Except.bind, pure, Except.pure]⟩

theorem WellFormed.isTypeError {c : Context} {env : TypeEnv} {err : InferError} (h : p.WellFormed)
    (he : (c.inferProgram env p).1 = .error err) : err.IsTypeError := by
  cases hp : infer env 0 p (c.start env).supply
  case ok env' m =>
    rw [Context.inferProgram_of_ok hp] at he
    cases he
  case error f m =>
    rw [Context.inferProgram_of_error hp] at he
    cases he
    obtain ⟨q, stmt, r, env₁, n₁, rfl, _, hs, _⟩ := exists_of_infer_eq_error hp
    have wf : stmt.WellFormed := h stmt (by simp)
    exact wf.isTypeError (stmt.failsOnly_infer env₁ n₁ f.toFailure m hs)

end Program

end HindleyMilner
