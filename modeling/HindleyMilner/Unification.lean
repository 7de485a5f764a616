import HindleyMilner.Subst
import HindleyMilner.Ty.Printer

namespace HindleyMilner

inductive UnifyError where
  -- Binding `x` to `t` would make an infinite type.
  | occurs (x : TyVar) (t : Ty)
  | mismatch (left right : Ty)
deriving Inhabited, Repr

namespace UnifyError

def message : UnifyError → String
  | .occurs x t => "Occurs check failed: " ++ x.render ++ " occurs in " ++ t.render
  | .mismatch (.tuple ls) (.tuple rs) =>
    let l := Ty.render (.tuple ls)
    let r := Ty.render (.tuple rs)
    if ls.length = rs.length then
      "Failed to unify " ++ l ++ " with " ++ r
    else
      "Cannot unify tuples with differing arity (" ++ toString ls.length ++ " and "
        ++ toString rs.length ++ "): " ++ l ++ " and " ++ r
  | .mismatch l r => "Failed to unify " ++ l.render ++ " with " ++ r.render

end UnifyError

abbrev Equation := Ty × Ty

namespace Equation

def vars (e : Equation) : List TyVar :=
  e.1.vars ++ e.2.vars

def size (e : Equation) : Nat :=
  e.1.size + e.2.size

def replace (e : Equation) (x : TyVar) (t : Ty) : Equation :=
  (e.1.replace x t, e.2.replace x t)

def replaceAll (es : List Equation) (x : TyVar) (t : Ty) : List Equation :=
  es.map (·.replace x t)

inductive Reduction where
  -- It holds exactly if these equations between its parts hold.
  | split (parts : List Equation)
  | bind (x : TyVar) (t : Ty)
  | clash

-- The first step on an equation. Of two variables the left one is bound. The components of tuples
-- are taken from right to left.
def reduce : Equation → Reduction
  | (.var x, b) => if b.isVar x then .split [] else .bind x b
  | (a, .var x) => .bind x a
  | (.const m, .const n) => if m = n then .split [] else .clash
  | (.arrow a r, .arrow a' r') => .split [(a, a'), (r, r')]
  | (.list e, .list e') => .split [(e, e')]
  | (.tuple es, .tuple es') =>
    if es.length = es'.length then .split (es.zip es').reverse else .clash
  | _ => .clash

def totalSize : List Equation → Nat
  | [] => 0
  | e :: es => e.size + totalSize es

def varCount (es : List Equation) : Nat :=
  (SortedSet.ofList (es.flatMap vars)).size

theorem totalSize_append (es es' : List Equation) :
    totalSize (es ++ es') = totalSize es + totalSize es' := by
  induction es with
  | nil => simp [totalSize]
  | cons e es ih => simp only [List.cons_append, totalSize, ih]; omega

theorem totalSize_reverse (es : List Equation) : totalSize es.reverse = totalSize es := by
  induction es with
  | nil => rfl
  | cons e es ih => simp only [List.reverse_cons, totalSize_append, totalSize, ih]; omega

theorem totalSize_zip_reverse_lt (ts us : List Ty) :
    totalSize (ts.zip us).reverse < (Ty.tuple ts).size + (Ty.tuple us).size := by
  rw [totalSize_reverse]
  simp only [Ty.size]
  induction ts generalizing us with
  | nil => simp only [List.zip_nil_left, totalSize]; omega
  | cons t ts ih =>
    cases us with
    | nil => simp only [List.zip_nil_right, totalSize]; omega
    | cons u us =>
      have := ih us
      simp only [List.zip_cons_cons, totalSize, size, Ty.sizeAll]
      omega

theorem mem_vars_zip {ts us : List Ty} {x : TyVar} (h : x ∈ (ts.zip us).flatMap vars) :
    x ∈ ts.flatMap Ty.vars ∨ x ∈ us.flatMap Ty.vars := by
  have ⟨e, he, hx⟩ := List.mem_flatMap.mp h
  cases List.mem_append.mp hx with
  | inl hx => exact .inl (List.mem_flatMap.mpr ⟨_, (List.of_mem_zip he).1, hx⟩)
  | inr hx => exact .inr (List.mem_flatMap.mpr ⟨_, (List.of_mem_zip he).2, hx⟩)

theorem size_of_reduce_split {e : Equation} {parts : List Equation} (h : e.reduce = .split parts) :
    totalSize parts < e.size := by
  unfold reduce at h
  split at h
  all_goals try split at h
  all_goals cases h
  case _ => exact Nat.add_pos_left (Ty.size_pos _) _
  case _ => exact Nat.add_pos_left (Ty.size_pos _) _
  case _ => simp [totalSize, size, Ty.size]; omega
  case _ => simp [totalSize, size, Ty.size]; omega
  case _ => exact totalSize_zip_reverse_lt _ _

theorem vars_of_reduce_split {e : Equation} {parts : List Equation} {x : TyVar}
    (h : e.reduce = .split parts) (hx : x ∈ parts.flatMap vars) : x ∈ e.vars := by
  unfold reduce at h
  split at h
  all_goals try split at h
  all_goals cases h
  case _ => cases hx
  case _ => cases hx
  case _ => simp [vars, Ty.vars] at hx ⊢; grind
  case _ => simpa [vars, Ty.vars] using hx
  case _ => simpa [vars, Ty.vars] using mem_vars_zip (by simpa using hx)

theorem vars_of_reduce_bind {e : Equation} {x : TyVar} {t : Ty} (h : e.reduce = .bind x t) :
    x ∈ e.vars ∧ ∀ y ∈ t.vars, y ∈ e.vars := by
  unfold reduce at h
  split at h
  all_goals try split at h
  all_goals cases h
  all_goals simp +contextual [vars, Ty.vars]

theorem varCount_le {ds es : List Equation} (h : ∀ x ∈ ds.flatMap vars, x ∈ es.flatMap vars) :
    varCount ds ≤ varCount es :=
  SortedSet.size_le_size fun x => by simpa only [SortedSet.mem_ofList] using h x

theorem varCount_lt {ds es : List Equation} {x : TyVar}
    (h : ∀ y ∈ ds.flatMap vars, y ∈ es.flatMap vars)
    (hx : x ∈ es.flatMap vars) (hn : x ∉ ds.flatMap vars) : varCount ds < varCount es :=
  SortedSet.size_lt_size (a := x) (fun y => by simpa only [SortedSet.mem_ofList] using h y)
    (SortedSet.mem_ofList.mpr hx) fun hm => hn (SortedSet.mem_ofList.mp hm)

theorem mem_vars_replace {es : List Equation} {x y : TyVar} {t : Ty}
    (h : y ∈ (replaceAll es x t).flatMap vars) :
    (y ∈ es.flatMap vars ∧ y ≠ x) ∨ y ∈ t.vars := by
  simp only [List.mem_flatMap, replaceAll, List.mem_map, vars, replace] at h ⊢
  obtain ⟨_, ⟨e, he, rfl⟩, hy⟩ := h
  cases List.mem_append.mp hy with
  | inl hy => have := Ty.mem_vars_replace hy; grind
  | inr hy => have := Ty.mem_vars_replace hy; grind

theorem varCount_replace_lt {e : Equation} {es : List Equation} {x : TyVar} {t : Ty}
    (h : e.reduce = .bind x t) (hx : ¬t.occurs x) :
    varCount (replaceAll es x t) < varCount (e :: es) := by
  have ⟨he, ht⟩ := vars_of_reduce_bind h
  have hx : x ∉ t.vars := fun hm => hx (Ty.occurs_iff.mpr hm)
  refine varCount_lt (x := x) (fun y hy => ?_) ?_ fun hm => ?_
  · have := mem_vars_replace hy; grind
  · simp [he]
  · have := mem_vars_replace hm; grind

-- Most general solution of the equations together. A binding is put into the equations that are
-- left, which then have one variable less.
def solve : List Equation → Except UnifyError Subst
  | [] => .ok ∅
  | e :: es =>
    match _h : e.reduce with
    | .split parts => solve (parts ++ es)
    | .bind x t =>
      if t.occurs x then .error (.occurs x t)
      else do
        let s ← solve (replaceAll es x t)
        return s.insert x (s.apply t)
    | .clash => .error (.mismatch e.1 e.2)
termination_by es => (varCount es, totalSize es)
decreasing_by
  · refine Prod.Lex.right' _ (varCount_le fun x hx => ?_) ?_
    · simp only [List.flatMap_append, List.mem_append, List.flatMap_cons] at hx ⊢
      exact hx.imp (vars_of_reduce_split ‹_›) id
    · have := size_of_reduce_split ‹_›
      simpa [totalSize, totalSize_append] using this
  · exact .left _ _ (varCount_replace_lt ‹_› ‹_›)

end Equation

def unify (a b : Ty) : Except UnifyError Subst :=
  Equation.solve [(a, b)]

end HindleyMilner
