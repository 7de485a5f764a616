import HindleyMilner.Proofs.TypeEnv

namespace HindleyMilner

section Lists

variable {α β : Type} [DecidableEq α] [DecidableEq β] {f : α → β} {as : List α} {a : α}

theorem idxOf_map (hf : ∀ b ∈ as, f b = f a → b = a) : (as.map f).idxOf (f a) = as.idxOf a := by
  induction as
  case nil => rfl
  case cons b as ih =>
    obtain ⟨hb, hf⟩ := List.forall_mem_cons.mp hf
    have he : (f b == f a) = (b == a) := decide_eq_decide.mpr ⟨hb, congrArg f⟩
    rw [List.map_cons, List.idxOf_cons, List.idxOf_cons, he, ih hf]

theorem eraseDups_map (hf : Set.InjOn f {a | a ∈ as}) :
    (as.map f).eraseDups = as.eraseDups.map f := by
  -- The recursion goes on with the rest of the list less one value.
  induction hn : as.length using Nat.strong_induction_on generalizing as
  case h n ih =>
    cases as
    case nil => rfl
    case cons a as =>
      have filter :
          (as.map f).filter (fun b => !b == f a) = (as.filter fun b => !b == a).map f := by
        rw [List.filter_map]
        congr 1
        refine List.filter_congr fun b hb => ?_
        have he : (f b == f a) = (b == a) :=
          decide_eq_decide.mpr (hf.eq_iff (List.mem_cons_of_mem a hb) List.mem_cons_self)
        rw [Function.comp_apply, he]
      have short : (as.filter fun b => !b == a).length < n :=
        Nat.lt_of_le_of_lt (List.length_filter_le _ as) (hn ▸ Nat.lt_succ_self _)
      have rest : Set.InjOn f {b | b ∈ as.filter fun b => !b == a} :=
        hf.mono fun b hb => List.mem_cons_of_mem a (List.mem_filter.mp hb).left
      rw [List.map_cons, List.eraseDups_cons, List.eraseDups_cons, filter, List.map_cons,
        ih _ short rest rfl]

end Lists

namespace Ty

variable {t : Ty} {ts : List Ty} {f : TyVar → TyVar} {name name' : TyVar → String}

theorem vars_rename (t : Ty) : (t.subst fun x => .var (f x)).vars = t.vars.map f := by
  induction t
  case const | var | hole => simp
  case arrow iha ihr => simp [iha, ihr]
  case list ih => simp [ih]
  case tuple ts ih =>
    rw [subst_tuple, vars_tuple, vars_tuple, List.flatMap_map, List.map_flatMap]
    exact List.flatMap_congr fun t ht => ih t ht

theorem isTuple_rename (t : Ty) : (t.subst fun x => .var (f x)).isTuple = t.isTuple := by
  cases t <;> simp [isTuple]

theorem layoutRest_rename
    (ih : ∀ t ∈ ts, ∀ simple,
      (t.subst fun x => .var (f x)).layout name simple = t.layout (fun x => name (f x)) simple) :
    layoutRest name (ts.map (·.subst fun x => .var (f x))) =
      layoutRest (fun x => name (f x)) ts := by
  induction ts
  case nil => rfl
  case cons t ts ihs =>
    obtain ⟨iht, ih⟩ := List.forall_mem_cons.mp ih
    rw [List.map_cons, layoutRest, layoutRest, iht, ihs ih]

theorem layout_rename (t : Ty) (simple : Bool) :
    (t.subst fun x => .var (f x)).layout name simple = t.layout (fun x => name (f x)) simple := by
  induction t generalizing simple
  case const | var | hole => simp [layout]
  case arrow iha ihr => simp [layout, iha, ihr]
  case list ih => simp [layout, isTuple_rename, ih]
  case tuple ts ih =>
    cases ts
    case nil => simp [layout]
    case cons t ts =>
      obtain ⟨iht, ih⟩ := List.forall_mem_cons.mp ih
      rw [subst_tuple, List.map_cons, layout, layout, iht, layoutRest_rename ih]

theorem layoutRest_congr
    (ih : ∀ t ∈ ts, (∀ x ∈ t.vars, name x = name' x) → ∀ simple,
      t.layout name simple = t.layout name' simple)
    (h : ∀ x ∈ ts.flatMap vars, name x = name' x) : layoutRest name ts = layoutRest name' ts := by
  induction ts
  case nil => rfl
  case cons t ts ihs =>
    obtain ⟨iht, ih⟩ := List.forall_mem_cons.mp ih
    simp only [List.flatMap_cons, List.mem_append, or_imp, forall_and] at h
    rw [layoutRest, layoutRest, iht h.left, ihs ih h.right]

theorem layout_congr (simple : Bool) (h : ∀ x ∈ t.vars, name x = name' x) :
    t.layout name simple = t.layout name' simple := by
  induction t generalizing simple
  case const | hole => simp [layout]
  case var x => simp [layout, h x]
  case arrow iha ihr =>
    simp only [vars_arrow, List.mem_append, or_imp, forall_and] at h
    rw [layout, layout, iha _ h.left, ihr _ h.right]
  case list ih => rw [layout, layout, ih _ (by simpa using h)]
  case tuple ts ih =>
    cases ts
    case nil => simp [layout]
    case cons t ts =>
      obtain ⟨iht, ih⟩ := List.forall_mem_cons.mp ih
      simp only [vars_tuple, List.flatMap_cons, List.mem_append, or_imp, forall_and] at h
      rw [layout, layout, iht _ h.left,
        layoutRest_congr (fun t ht hx simple => ih t ht simple hx) h.right]

end Ty

namespace Scheme

variable {σ σ' : Scheme} {f : TyVar → TyVar} {x : TyVar}

def renameIn (vs : VarSet) (f : TyVar → TyVar) (x : TyVar) : TyVar :=
  if x ∈ vs then f x else x

-- `f` renames the quantified variables of `σ` one to one, to variables that are not free in it.
structure RenamedBy (f : TyVar → TyVar) (σ σ' : Scheme) : Prop where
  injOn : ∀ x ∈ σ.vars, ∀ y ∈ σ.vars, f x = f y → x = y
  apart : ∀ x ∈ σ.vars, f x ∉ σ.freeVars
  vars : ∀ y, y ∈ σ'.vars ↔ ∃ x ∈ σ.vars, f x = y
  body : σ'.body = σ.body.subst fun x => .var (renameIn σ.vars f x)

def Equivalent (σ σ' : Scheme) : Prop :=
  ∃ f, RenamedBy f σ σ'

namespace RenamedBy

theorem mem_vars_iff (h : RenamedBy f σ σ') (hx : x ∈ σ.body.vars) :
    renameIn σ.vars f x ∈ σ'.vars ↔ x ∈ σ.vars := by
  rw [h.vars, renameIn]
  split
  case isTrue hq => exact iff_of_true ⟨x, hq, rfl⟩ hq
  case isFalse hq =>
    refine iff_of_false ?_ hq
    rintro ⟨y, hy, rfl⟩
    exact h.apart y hy (mem_freeVars.mpr ⟨hx, hq⟩)

end RenamedBy

theorem RenamedBy.appearing_eq (h : RenamedBy f σ σ') :
    σ'.body.vars.filter (· ∈ σ'.vars) = (σ.body.vars.filter (· ∈ σ.vars)).map f := by
  have same : ∀ x ∈ σ.body.vars, decide (renameIn σ.vars f x ∈ σ'.vars) = decide (x ∈ σ.vars) :=
    fun x hx => decide_eq_decide.mpr (h.mem_vars_iff hx)
  rw [h.body, Ty.vars_rename, List.filter_map, Function.comp_def, List.filter_congr same]
  refine List.map_congr_left fun x hx => if_pos ?_
  simpa using (List.mem_filter.mp hx).right

theorem Equivalent.render_eq (h : σ.Equivalent σ') : σ.render = σ'.render := by
  obtain ⟨f, h⟩ := h
  have quantified : ∀ x ∈ σ.body.vars.filter (· ∈ σ.vars), x ∈ σ.vars :=
    fun x hx => by simpa using (List.mem_filter.mp hx).right
  have injOn : Set.InjOn f {x | x ∈ σ.body.vars.filter (· ∈ σ.vars)} :=
    fun x hx y hy => h.injOn x (quantified x hx) y (quantified y hy)
  rw [render, render, Ty.renderQuantified, Ty.renderQuantified, h.appearing_eq, eraseDups_map injOn,
    h.body, Ty.layout_rename]
  refine Ty.layout_congr _ fun x hx => ?_
  simp only [h.mem_vars_iff hx]
  split
  case isTrue hq =>
    rw [renameIn, if_pos hq, idxOf_map fun y hy => ?_]
    exact h.injOn y (quantified y (List.mem_eraseDups.mp hy)) x hq
  case isFalse hq => rw [renameIn, if_neg hq]

end Scheme

namespace TypeEnv

variable {env env' : TypeEnv}

theorem render_eq_texts (env : TypeEnv) :
    env.render = "\x7b" ++ ", ".intercalate ((env.bindings.mapValues fun _ σ => σ.render).entries.map
      fun e => e.1 ++ " : " ++ e.2) ++ "\x7d" := by
  rw [SortedMap.mapValues, List.map_map]
  rfl

theorem render_eq (h : env.Rel Scheme.Equivalent env') : env.render = env'.render := by
  have texts : env.bindings.mapValues (fun _ σ => σ.render) =
      env'.bindings.mapValues fun _ σ => σ.render := by
    refine SortedMap.ext_get? fun k => ?_
    have hk : Option.Rel Scheme.Equivalent (env.bindings.get? k) (env'.bindings.get? k) := h k
    rw [SortedMap.get?_mapValues, SortedMap.get?_mapValues]
    cases he : env.bindings.get? k <;> cases he' : env'.bindings.get? k <;> rw [he, he'] at hk <;>
      cases hk
    case some.some hσ => exact congrArg some hσ.render_eq
  rw [render_eq_texts, render_eq_texts, texts]

end TypeEnv

end HindleyMilner
