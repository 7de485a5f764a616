import HindleyMilner.Proofs.Subst

namespace HindleyMilner

namespace SortedSet

variable {κ μ : Type} [LE μ] [LT μ] [Std.IsLinearOrder μ] [Std.LawfulOrderLT μ] [DecidableLT μ]
  {f : κ → SortedSet μ} {b : μ}

def biUnion [LT κ] (s : SortedSet κ) (f : κ → SortedSet μ) : SortedSet μ :=
  s.members.foldl (fun u a => u.union (f a)) ∅

theorem mem_foldl_union {as : List κ} {u : SortedSet μ} :
    b ∈ as.foldl (fun u a => u.union (f a)) u ↔ b ∈ u ∨ ∃ a ∈ as, b ∈ f a := by
  induction as generalizing u
  case nil => simp
  case cons a as ih => simp [ih, or_assoc]

@[simp]
theorem mem_biUnion [LT κ] {s : SortedSet κ} : b ∈ s.biUnion f ↔ ∃ a ∈ s, b ∈ f a := by
  rw [biUnion, mem_foldl_union, or_iff_right (not_mem_empty b)]
  rfl

end SortedSet

namespace Subst

variable {s r : Subst} {t : Ty} {x : TyVar}

theorem freeVars_apply (s : Subst) (t : Ty) :
    (s.apply t).freeVars = t.freeVars.biUnion fun x => (s.apply (.var x)).freeVars :=
  SortedSet.ext_mem fun _ => by simp [apply, Ty.mem_vars_subst]

theorem apply_eq_apply_iff :
    s.apply t = r.apply t ↔ ∀ x ∈ t.freeVars, s.apply (.var x) = r.apply (.var x) := by
  simp only [apply_var, Ty.mem_freeVars]
  constructor
  case mp => exact fun h x hx => Ty.eq_of_subst_eq h hx
  case mpr => exact Ty.subst_congr

theorem Solved.image_eq_var_iff (hs : s.Solved) : s.image x = .var x ↔ s.get? x = none := by
  constructor
  case mp => exact fun h => hs.get?_of_mem_image (x := x) (by simp [h])
  case mpr => exact image_of_get?_none

theorem Solved.apply_eq_self_iff (hs : s.Solved) :
    s.apply t = t ↔ ∀ x ∈ s.bindings.keys, t.occurs x = false := by
  calc s.apply t = t
    _ ↔ s.apply t = (∅ : Subst).apply t := by rw [apply_empty]
    _ ↔ ∀ x ∈ t.freeVars, s.apply (.var x) = (∅ : Subst).apply (.var x) := apply_eq_apply_iff
    _ ↔ ∀ x ∈ t.freeVars, s.get? x = none := by
      simp only [apply_var, image_empty, hs.image_eq_var_iff]
    _ ↔ ∀ x ∈ s.bindings.keys, t.occurs x = false := forall_congr' fun x => by
      rw [mem_keys_iff, Ty.mem_freeVars, ← Ty.occurs_iff]
      cases s.get? x <;> simp

-- The variables that are found, those that are collected and those that are replaced are the ones
-- that stand at some place. Two substitutions differ on a type exactly if they differ on one of
-- them, and a substitution that is solved leaves a type as it is exactly if it binds none of them.
theorem apply_through_occurrences (s : Subst) (hs : s.Solved) (t : Ty) :
    (∀ x, t.occurs x = true ↔ x ∈ t.freeVars) ∧
    (∀ x, t.occurs x = true ↔ ∃ p, t.part? p = some (.var x)) ∧
    (∀ p u, t.part? p = some u → (s.apply t).part? p = some (s.apply u)) ∧
    (s.apply t).freeVars = t.freeVars.biUnion (fun x => (s.apply (.var x)).freeVars) ∧
    (∀ r : Subst,
      s.apply t = r.apply t ↔ ∀ x ∈ t.freeVars, s.apply (.var x) = r.apply (.var x)) ∧
    (s.apply t = t ↔ ∀ x ∈ s.bindings.keys, t.occurs x = false) := by
  refine ⟨fun x => ?found, fun x => ?place, fun p u => Ty.part?_subst, freeVars_apply s t,
    fun r => apply_eq_apply_iff, hs.apply_eq_self_iff⟩
  case found => rw [Ty.occurs_iff, Ty.mem_freeVars]
  case place => rw [Ty.occurs_iff, Ty.mem_vars_iff_part?]

-- `<hole> * ('3 * <hole>) list * ('5 -> unit)`, where `unit` is the empty tuple
def nested : Ty :=
  .tuple [.hole none, .list (.tuple [.var 3, .hole (some "Record")]), .arrow (.var 5) (.tuple [])]

def threeIsList : Subst :=
  ((∅ : Subst).insert 3 (.list (.var 7))).insert 4 (.var 5)

def threeIsListToo : Subst :=
  ((∅ : Subst).insert 3 (.list (.var 7))).insert 4 .int |>.insert 5 (.var 5)

theorem apply_through_occurrences_nested :
    threeIsList.Solved ∧ nested.occurs 3 = true ∧
      (threeIsList.apply nested).part? [1, 0, 0] = some (.list (.var 7)) ∧
      (threeIsList.apply nested).freeVars.members = [5, 7] ∧
      threeIsList.apply nested = threeIsListToo.apply nested ∧
      threeIsList.apply nested ≠ nested ∧
      threeIsList.apply (.tuple [.var 5, .hole none]) = .tuple [.var 5, .hole none] := by
  have keys : threeIsList.bindings.keys = [3, 4] := by cbv
  have solved : threeIsList.Solved := by
    have entries : threeIsList.entries = [(3, .list (.var 7)), (4, .var 5)] := by cbv
    rw [solved_iff_entries, entries]
    simp [threeIsList]
  obtain ⟨-, place, acts, vars, agree, same⟩ := apply_through_occurrences threeIsList solved nested
  obtain ⟨-, -, -, -, -, unchanged⟩ :=
    apply_through_occurrences threeIsList solved (.tuple [.var 5, .hole none])
  have occurs : nested.occurs 3 = true := (place 3).mpr ⟨[1, 0, 0], rfl⟩
  refine ⟨solved, occurs, acts [1, 0, 0] (.var 3) rfl, ?vars, (agree _).mpr ?agree,
    fun h => ?changed, ?same⟩
  case vars =>
    rw [vars]
    cbv
  case agree =>
    have free : nested.freeVars.members = [3, 5] := by cbv
    intro x hx
    rw [SortedSet.mem_def, free] at hx
    simp only [List.mem_cons, List.not_mem_nil, or_false] at hx
    obtain rfl | rfl := hx <;> cbv
  case changed =>
    have := same.mp h 3 (by simp [keys])
    simp [occurs] at this
  case same => exact unchanged.mpr (by simp [keys, Ty.occurs, Ty.occursAny])

end Subst

end HindleyMilner
