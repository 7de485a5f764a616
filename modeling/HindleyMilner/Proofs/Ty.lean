import HindleyMilner.Ty
import Mathlib

namespace HindleyMilner.Ty

@[induction_eliminator]
theorem induction {P : Ty → Prop} (const : ∀ n, P (.const n)) (var : ∀ x, P (.var x))
    (arrow : ∀ a r, P a → P r → P (.arrow a r)) (list : ∀ e, P e → P (.list e))
    (tuple : ∀ ts, (∀ t ∈ ts, P t) → P (.tuple ts)) (hole : ∀ k, P (.hole k)) (t : Ty) : P t :=
  @Ty.rec P (fun ts => ∀ t ∈ ts, P t) const var arrow list tuple hole
    (fun _ h => nomatch h) (fun _ _ ht hts => List.forall_mem_cons.mpr ⟨ht, hts⟩) t

section Subst
variable {f g : TyVar → Ty} {t : Ty} {x : TyVar}

@[simp]
theorem subst_const (n : String) : (const n).subst f = .const n := by
  simp [subst]

@[simp]
theorem subst_int : int.subst f = .int := by
  simp [int]

@[simp]
theorem subst_bool : bool.subst f = .bool := by
  simp [bool]

@[simp]
theorem subst_var (x : TyVar) : (var x).subst f = f x := by
  simp [subst]

@[simp]
theorem subst_arrow (a r : Ty) : (arrow a r).subst f = .arrow (a.subst f) (r.subst f) := by
  simp [subst]

@[simp]
theorem subst_list (e : Ty) : (list e).subst f = .list (e.subst f) := by
  simp [subst]

@[simp]
theorem subst_tuple (ts : List Ty) : (tuple ts).subst f = .tuple (ts.map (·.subst f)) := by
  simp [subst]

@[simp]
theorem subst_hole (k : Option String) : (hole k).subst f = .hole k := by
  simp [subst]

@[simp]
theorem vars_const (n : String) : (const n).vars = [] := by
  simp [vars]

@[simp]
theorem vars_int : int.vars = [] := by
  simp [int]

@[simp]
theorem vars_bool : bool.vars = [] := by
  simp [bool]

@[simp]
theorem vars_var (x : TyVar) : (var x).vars = [x] := by
  simp [vars]

@[simp]
theorem vars_arrow (a r : Ty) : (arrow a r).vars = a.vars ++ r.vars := by
  simp [vars]

@[simp]
theorem vars_list (e : Ty) : (list e).vars = e.vars := by
  simp [vars]

@[simp]
theorem vars_tuple (ts : List Ty) : (tuple ts).vars = ts.flatMap vars := by
  simp [vars]

@[simp]
theorem vars_hole (k : Option String) : (hole k).vars = [] := by
  simp [vars]

theorem subst_congr (h : ∀ x ∈ t.vars, f x = g x) : t.subst f = t.subst g := by
  induction t
  case const | hole => simp
  case var x => simp [h x]
  case arrow a r iha ihr =>
    simp [iha fun x hx => h x (by simp [hx]), ihr fun x hx => h x (by simp [hx])]
  case list e ih => simp [ih fun x hx => h x (by simp [hx])]
  case tuple ts ih =>
    simp only [subst_tuple, tuple.injEq]
    refine List.map_congr_left fun t ht => ih t ht fun x hx => h x ?_
    simpa using ⟨t, ht, hx⟩

theorem subst_subst (t : Ty) : (t.subst f).subst g = t.subst fun x => (f x).subst g := by
  induction t
  case const | var | hole => simp
  case arrow a r iha ihr => simp [iha, ihr]
  case list e ih => simp [ih]
  case tuple ts ih => simpa using ih

@[simp]
theorem subst_id (t : Ty) : t.subst var = t := by
  induction t
  case const | var | hole => simp
  case arrow a r iha ihr => simp [iha, ihr]
  case list e ih => simp [ih]
  case tuple ts ih => simpa using List.map_congr_left ih

theorem subst_eq_self (h : ∀ x ∈ t.vars, f x = .var x) : t.subst f = t :=
  (subst_congr h).trans (subst_id t)

theorem subst_replace {u : Ty} (h : f x = u.subst f) : (t.replace x u).subst f = t.subst f := by
  rw [replace, subst_subst]
  refine subst_congr fun y _ => ?_
  split
  case isTrue hy => rw [hy, h]
  case isFalse => simp

theorem replace_eq_self {u : Ty} (h : x ∉ t.vars) : t.replace x u = t :=
  subst_eq_self fun y hy => if_neg fun hyx : y = x => h (hyx ▸ hy)

end Subst

def children : Ty → List Ty
  | .const _ | .var _ | .hole _ => []
  | .arrow a r => [a, r]
  | .list e => [e]
  | .tuple ts => ts

theorem children_induction {P : Ty → Prop} (h : ∀ t, (∀ u ∈ t.children, P u) → P t) (t : Ty) :
    P t := by
  induction t <;> refine h _ ?_
  case const | var | hole => exact List.forall_mem_nil P
  case arrow iha ihr => simpa [children] using ⟨iha, ihr⟩
  case list ih => exact List.forall_mem_singleton.mpr ih
  case tuple ih => exact ih

-- What stands at a place. The way to it goes from child to child, each given by its position.
def part? : List Nat → Ty → Option Ty
  | [], t => some t
  | i :: p, t => t.children[i]?.bind (part? p)

section Places
variable {f g : TyVar → Ty} {t u : Ty} {x : TyVar} {p : List Nat} {i : Nat}

theorem part?_cons_eq_some_iff :
    t.part? (i :: p) = some u ↔ ∃ c, t.children[i]? = some c ∧ c.part? p = some u :=
  Option.bind_eq_some_iff

theorem mem_vars_iff_children : x ∈ t.vars ↔ t = .var x ∨ ∃ c ∈ t.children, x ∈ c.vars := by
  cases t <;> simp [children, eq_comm]

theorem mem_vars_of_part? (h : t.part? p = some u) (hx : x ∈ u.vars) : x ∈ t.vars := by
  induction p generalizing t
  case nil =>
    cases h
    exact hx
  case cons i p ih =>
    obtain ⟨c, hc, h⟩ := part?_cons_eq_some_iff.mp h
    exact mem_vars_iff_children.mpr <| .inr ⟨c, List.mem_of_getElem? hc, ih h⟩

theorem exists_part?_of_mem_vars (h : x ∈ t.vars) : ∃ p, t.part? p = some (.var x) := by
  induction t using children_induction with | h t ih =>
  obtain rfl | ⟨c, hc, hx⟩ := mem_vars_iff_children.mp h
  · exact ⟨[], rfl⟩
  · obtain ⟨i, hi⟩ := List.mem_iff_getElem?.mp hc
    obtain ⟨p, hp⟩ := ih c hc hx
    exact ⟨i :: p, part?_cons_eq_some_iff.mpr ⟨c, hi, hp⟩⟩

theorem mem_vars_iff_part? : x ∈ t.vars ↔ ∃ p, t.part? p = some (.var x) := by
  constructor
  case mp => exact exists_part?_of_mem_vars
  case mpr =>
    rintro ⟨p, h⟩
    exact mem_vars_of_part? h (by simp)

theorem children_subst (h : ∀ x, t ≠ .var x) :
    (t.subst f).children = t.children.map (·.subst f) := by
  cases t
  case const | arrow | list | tuple | hole => simp [children]
  case var x => exact absurd rfl (h x)

theorem part?_subst (h : t.part? p = some u) : (t.subst f).part? p = some (u.subst f) := by
  induction p generalizing t
  case nil =>
    cases h
    rfl
  case cons i p ih =>
    obtain ⟨c, hc, h⟩ := part?_cons_eq_some_iff.mp h
    have ht : ∀ x, t ≠ .var x := by
      rintro x rfl
      cases hc
    refine part?_cons_eq_some_iff.mpr ⟨c.subst f, ?_, ih h⟩
    rw [children_subst ht, List.getElem?_map, hc, Option.map_some]

theorem eq_of_subst_eq (h : t.subst f = t.subst g) (hx : x ∈ t.vars) : f x = g x := by
  obtain ⟨p, hp⟩ := exists_part?_of_mem_vars hx
  have hf : (t.subst f).part? p = some (f x) := by simpa using part?_subst hp
  have hg : (t.subst g).part? p = some (g x) := by simpa using part?_subst hp
  rw [h, hg] at hf
  exact Option.some_inj.mp hf.symm

end Places

section Size
variable {f : TyVar → Ty} {t u : Ty} {x : TyVar} {p : List Nat} {i : Nat}

theorem size_le_sizeAll {ts : List Ty} (h : t ∈ ts) : t.size ≤ sizeAll ts := by
  induction h
  case head ts => exact Nat.le_add_right _ _
  case tail u ts _ ih => exact Nat.le_add_left_of_le ih

theorem size_lt_of_mem_children (h : u ∈ t.children) : u.size < t.size := by
  cases t
  case const | var | hole => cases h
  case arrow a r =>
    simp only [children, List.mem_cons, List.not_mem_nil, or_false] at h
    simp only [size]
    obtain rfl | rfl := h <;> omega
  case list e =>
    cases List.mem_singleton.mp h
    exact Nat.lt_succ_self _
  case tuple ts => exact Nat.lt_succ_of_le (size_le_sizeAll h)

theorem size_le_of_part? (h : t.part? p = some u) : u.size ≤ t.size := by
  induction p generalizing t
  case nil =>
    cases h
    exact Nat.le_refl _
  case cons i p ih =>
    obtain ⟨c, hc, h⟩ := part?_cons_eq_some_iff.mp h
    exact Nat.le_trans (ih h) (Nat.le_of_lt (size_lt_of_mem_children (List.mem_of_getElem? hc)))

theorem size_lt_of_part?_cons (h : t.part? (i :: p) = some u) : u.size < t.size := by
  obtain ⟨c, hc, h⟩ := part?_cons_eq_some_iff.mp h
  exact Nat.lt_of_le_of_lt (size_le_of_part? h) (size_lt_of_mem_children (List.mem_of_getElem? hc))

-- No replacement makes a variable equal to a type that properly contains it.
theorem subst_ne_of_occurs (h : x ∈ t.vars) (hv : t ≠ .var x) : f x ≠ t.subst f := by
  obtain ⟨p, hp⟩ := exists_part?_of_mem_vars h
  cases p
  case nil => exact absurd (Option.some_inj.mp hp) hv
  case cons i p =>
    have hs : (f x).size < (t.subst f).size := by
      simpa using size_lt_of_part?_cons (part?_subst (f := f) hp)
    exact fun he => Nat.lt_irrefl _ (he ▸ hs)

end Size

mutual
def holeFree : Ty → Bool
  | .const _ => true
  | .var _ => true
  | .arrow a r => a.holeFree && r.holeFree
  | .list e => e.holeFree
  | .tuple es => holeFreeAll es
  | .hole _ => false
def holeFreeAll : List Ty → Bool
  | [] => true
  | t :: ts => t.holeFree && holeFreeAll ts
end

@[simp]
theorem holeFreeAll_eq_all (ts : List Ty) : holeFreeAll ts = ts.all holeFree := by
  induction ts <;> simp_all [holeFreeAll]

section HoleFree
variable {f : TyVar → Ty} {t u : Ty}

@[simp]
theorem holeFree_const (n : String) : (const n).holeFree := by
  simp [holeFree]

@[simp]
theorem holeFree_int : int.holeFree := by
  simp [int]

@[simp]
theorem holeFree_bool : bool.holeFree := by
  simp [bool]

@[simp]
theorem holeFree_var (x : TyVar) : (var x).holeFree := by
  simp [holeFree]

@[simp]
theorem holeFree_arrow (a r : Ty) : (arrow a r).holeFree = (a.holeFree && r.holeFree) := by
  simp [holeFree]

@[simp]
theorem holeFree_list (e : Ty) : (list e).holeFree = e.holeFree := by
  simp [holeFree]

@[simp]
theorem holeFree_tuple (ts : List Ty) : (tuple ts).holeFree = ts.all holeFree := by
  simp [holeFree]

@[simp]
theorem holeFree_hole (k : Option String) : (hole k).holeFree = false := by
  simp [holeFree]

theorem holeFree_subst (ht : t.holeFree) (hf : ∀ x ∈ t.vars, (f x).holeFree) :
    (t.subst f).holeFree := by
  induction t
  case const => simp
  case hole => simp at ht
  case var x => simpa using hf
  case arrow a r iha ihr =>
    simp only [holeFree_arrow, Bool.and_eq_true, subst_arrow] at ht ⊢
    exact ⟨iha ht.left fun x hx => hf x (by simp [hx]), ihr ht.right fun x hx => hf x (by simp [hx])⟩
  case list e ih =>
    simp only [holeFree_list, subst_list] at ht ⊢
    exact ih ht fun x hx => hf x (by simp [hx])
  case tuple ts ih =>
    simp only [holeFree_tuple, List.all_eq_true, subst_tuple, List.mem_map] at ht ⊢
    rintro _ ⟨t, hm, rfl⟩
    exact ih t hm (ht t hm) fun x hx => hf x (by simpa using ⟨t, hm, hx⟩)

theorem equalAll_self {ts : List Ty} (h : ∀ t ∈ ts, t.equal t) : equalAll ts ts := by
  induction ts <;> simp_all [equalAll]

theorem equal_self (h : t.holeFree) : t.equal t := by
  induction t
  case const | var => simp [equal]
  case hole => simp at h
  case arrow a r iha ihr => simp_all [equal]
  case list e ih => simp_all [equal]
  case tuple ts ih =>
    simp only [holeFree_tuple, List.all_eq_true] at h
    simpa [equal] using equalAll_self fun t ht => ih t ht (h t ht)

end HoleFree

end HindleyMilner.Ty
