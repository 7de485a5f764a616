import HindleyMilner.Unification
import HindleyMilner.Proofs.Subst

namespace HindleyMilner

namespace Equation

variable {e : Equation} {es parts : List Equation} {x : TyVar} {t : Ty} {s : Subst}
  {r : TyVar → Ty}

def Holds (r : TyVar → Ty) (e : Equation) : Prop :=
  e.1.subst r = e.2.subst r

theorem holds_zip {ts us : List Ty} (hl : ts.length = us.length) :
    (∀ e ∈ ts.zip us, Holds r e) ↔ ts.map (·.subst r) = us.map (·.subst r) := by
  induction ts generalizing us <;> cases us <;> simp at hl
  case nil.nil => simp
  case cons.cons t ts ih u us =>
    rw [List.zip_cons_cons, List.forall_mem_cons, ih hl]
    simp [Holds]

theorem holds_replace (h : r x = t.subst r) : Holds r (e.replace x t) ↔ Holds r e := by
  simp [Holds, replace, Ty.subst_replace h]

theorem holds_replaceAll (h : r x = t.subst r) :
    (∀ e ∈ replaceAll es x t, Holds r e) ↔ ∀ e ∈ es, Holds r e := by
  simp only [replaceAll, List.forall_mem_map, holds_replace h]

theorem holds_of_reduce_split (h : e.reduce = .split parts) :
    Holds r e ↔ ∀ d ∈ parts, Holds r d := by
  unfold reduce at h
  split at h
  all_goals try split at h
  all_goals cases h
  case _ hv => simp_all [Holds]
  case _ => simp_all [Holds]
  case _ => simp [Holds]
  case _ => simp [Holds]
  case _ hl => simp [Holds, ← holds_zip hl]

theorem holds_of_reduce_bind (h : e.reduce = .bind x t) : Holds r e ↔ r x = t.subst r := by
  unfold reduce at h
  split at h
  all_goals try split at h
  all_goals cases h
  case _ => simp [Holds]
  case _ => simp [Holds, eq_comm]

theorem ne_var_of_reduce_bind (h : e.reduce = .bind x t) : t ≠ .var x := by
  unfold reduce at h
  split at h
  all_goals try split at h
  all_goals cases h
  case _ hv => simpa using hv
  case _ hv => exact hv x

def HoleFree (e : Equation) : Prop :=
  e.1.holeFree ∧ e.2.holeFree

theorem not_holds_of_reduce_clash (h : e.reduce = .clash) (hf : e.HoleFree) : ¬Holds r e := by
  obtain ⟨a, b⟩ := e
  intro he
  cases a
  case var =>
    simp only [reduce] at h
    split at h <;> cases h
  all_goals cases b
  case const.const m n =>
    have : m = n := by simpa [Holds] using he
    simp [reduce, this] at h
  case tuple.tuple ts us =>
    simp only [Holds, Ty.subst_tuple, Ty.tuple.injEq] at he
    have : ts.length = us.length := by simpa using congrArg List.length he
    simp [reduce, this] at h
  case hole.hole => simp [HoleFree] at hf
  case const.var | arrow.var | list.var | tuple.var | hole.var => cases h
  case arrow.arrow | list.list => cases h
  all_goals simp [Holds] at he

theorem holeFree_of_reduce_split (h : e.reduce = .split parts) (he : e.HoleFree) :
    ∀ d ∈ parts, d.HoleFree := by
  unfold reduce at h
  split at h
  all_goals try split at h
  all_goals cases h
  case _ => simp
  case _ => simp
  case _ => simp_all [HoleFree]
  case _ => simp_all [HoleFree]
  case _ =>
    intro d hd
    simp only [HoleFree, Ty.holeFree_tuple, List.all_eq_true] at he
    have hm := List.of_mem_zip (List.mem_reverse.mp hd)
    exact ⟨he.left _ hm.left, he.right _ hm.right⟩

theorem holeFree_of_reduce_bind (h : e.reduce = .bind x t) (he : e.HoleFree) : t.holeFree := by
  unfold reduce at h
  split at h
  all_goals try split at h
  all_goals cases h
  case _ => exact he.right
  case _ => exact he.left

theorem HoleFree.replaceAll (ht : t.holeFree) (hs : ∀ e ∈ es, e.HoleFree) :
    ∀ e ∈ replaceAll es x t, e.HoleFree := by
  have free {u : Ty} (hu : u.holeFree) : (u.replace x t).holeFree :=
    Ty.holeFree_subst hu fun y _ => by split <;> simp [ht]
  simp only [Equation.replaceAll, List.mem_map]
  rintro _ ⟨e, he, rfl⟩
  exact ⟨free (hs e he).left, free (hs e he).right⟩

theorem not_mem_vars_replaceAll (hx : x ∉ t.vars) : x ∉ (replaceAll es x t).flatMap vars := by
  intro h
  cases mem_vars_replace h
  case inl h => exact h.right rfl
  case inr h => exact hx h

theorem solve_of_split (h : e.reduce = .split parts) : solve (e :: es) = solve (parts ++ es) := by
  rw [solve]
  split <;> simp_all

theorem solve_of_occurs (h : e.reduce = .bind x t) (hx : x ∈ t.vars) :
    solve (e :: es) = .error (.occurs x t) := by
  rw [solve]
  split <;> simp_all [Ty.occurs_iff]

theorem solve_of_bind (h : e.reduce = .bind x t) (hx : x ∉ t.vars) :
    solve (e :: es) = (solve (replaceAll es x t)).map fun s => s.insert x (s.apply t) := by
  rw [solve]
  split <;> simp_all [Ty.occurs_iff]
  cases solve (replaceAll es x t) <;> rfl

theorem solve_of_clash (h : e.reduce = .clash) : solve (e :: es) = .error (.mismatch e.1 e.2) := by
  rw [solve]
  split <;> simp_all

@[elab_as_elim]
theorem solve_ok_induction {P : List Equation → Subst → Prop} (nil : P [] ∅)
    (split : ∀ e es parts s, e.reduce = .split parts → P (parts ++ es) s → P (e :: es) s)
    (bind : ∀ e es x t s, e.reduce = .bind x t → x ∉ t.vars → solve (replaceAll es x t) = .ok s →
      P (replaceAll es x t) s → P (e :: es) (s.insert x (s.apply t)))
    (h : solve es = .ok s) : P es s := by
  induction es using solve.induct generalizing s
  case case1 =>
    rw [solve] at h
    cases h
    exact nil
  case case2 e es parts hr ih => exact split e es parts s hr <| ih (solve_of_split hr ▸ h)
  case case3 e es x t hr hx => cases solve_of_occurs hr (Ty.occurs_iff.mp hx) ▸ h
  case case4 e es x t hr hx ih =>
    replace hx := mt Ty.occurs_iff.mpr hx
    rw [solve_of_bind hr hx] at h
    cases hs : solve (replaceAll es x t) <;> rw [hs] at h <;> cases h
    case ok s => exact bind e es x t s hr hx hs (ih hs)
  case case5 e es hr => cases solve_of_clash hr ▸ h

theorem mem_vars_of_mentions (h : solve es = .ok s) : ∀ x, s.Mentions x → x ∈ es.flatMap vars := by
  refine solve_ok_induction ?nil ?split ?bind h
  case nil => exact fun x hx => absurd hx (Subst.not_mentions_empty x)
  case split =>
    intro e es parts s hr ih x hx
    simp only [List.flatMap_append, List.mem_append, List.flatMap_cons] at ih ⊢
    exact (ih x hx).imp_left (vars_of_reduce_split hr)
  case bind =>
    intro e es y t s hr _ _ ih x hx
    have ⟨hye, hte⟩ := vars_of_reduce_bind hr
    have later {x : TyVar} (hx : s.Mentions x) : x ∈ (e :: es).flatMap vars := by
      cases mem_vars_replace (ih x hx)
      case inl h => simp [h.left]
      case inr h => simp [hte x h]
    cases hx
    case key u hu =>
      rw [Subst.get?_insert] at hu
      split at hu
      case isTrue hxy => simp [hxy, hye]
      case isFalse => exact later (.key hu)
    case target k u hu hxu =>
      rw [Subst.get?_insert] at hu
      split at hu
      case isTrue =>
        cases hu
        cases Subst.mem_vars_apply hxu
        case inl hx => simp [hte x hx]
        case inr hx => exact later hx
      case isFalse => exact later (.target hu hxu)

theorem not_mentions_of_solve_replaceAll (hx : x ∉ t.vars) (h : solve (replaceAll es x t) = .ok s) :
    ¬s.Mentions x :=
  fun hm => not_mem_vars_replaceAll hx <| mem_vars_of_mentions h x hm

theorem solved_of_solve (h : solve es = .ok s) : s.Solved := by
  refine solve_ok_induction ?nil ?split ?bind h
  case nil => exact .empty
  case split => exact fun _ _ _ _ _ ih => ih
  case bind =>
    intro e es x t s _ hx hs ih
    exact ih.insert (not_mentions_of_solve_replaceAll hx hs) hx

theorem solves_iff_of_solve (h : solve es = .ok s) (r : TyVar → Ty) :
    Subst.Solves r s ↔ ∀ e ∈ es, Holds r e := by
  refine solve_ok_induction ?nil ?split ?bind h
  case nil => simp [Subst.Solves.empty]
  case split =>
    intro e es parts s hr ih
    rw [ih, List.forall_mem_append, List.forall_mem_cons, holds_of_reduce_split hr]
  case bind =>
    intro e es x t s hr hx hs ih
    have hn := Subst.get?_of_not_mentions <| not_mentions_of_solve_replaceAll hx hs
    rw [Subst.Solves.insert_iff hn, List.forall_mem_cons, holds_of_reduce_bind hr]
    constructor
    case mp =>
      intro ⟨hrx, hsol⟩
      rw [hsol.subst_apply] at hrx
      exact ⟨hrx, holds_replaceAll hrx |>.mp <| ih.mp hsol⟩
    case mpr =>
      intro ⟨hrx, hes⟩
      have hsol := ih.mpr <| holds_replaceAll hrx |>.mpr hes
      exact ⟨hsol.subst_apply t ▸ hrx, hsol⟩

theorem holeFree_of_solve (h : solve es = .ok s) : (∀ e ∈ es, e.HoleFree) → s.HoleFree := by
  refine solve_ok_induction ?nil ?split ?bind h
  case nil => exact fun _ => .empty
  case split =>
    intro e es parts s hr ih hf
    have ⟨he, hes⟩ := List.forall_mem_cons.mp hf
    exact ih <| List.forall_mem_append.mpr ⟨holeFree_of_reduce_split hr he, hes⟩
  case bind =>
    intro e es x t s hr _ _ ih hf
    have ⟨he, hes⟩ := List.forall_mem_cons.mp hf
    have ht := holeFree_of_reduce_bind hr he
    have hs := ih (.replaceAll ht hes)
    exact hs.insert (hs.apply ht)

theorem not_holds_of_solve_error {err : UnifyError} (h : solve es = .error err)
    (hf : ∀ e ∈ es, e.HoleFree) (r : TyVar → Ty) : ¬∀ e ∈ es, Holds r e := by
  intro hr
  induction es using solve.induct
  case case1 =>
    rw [solve] at h
    cases h
  all_goals
    have ⟨he, hes⟩ := List.forall_mem_cons.mp hf
    have ⟨hre, hres⟩ := List.forall_mem_cons.mp hr
  case case2 hd ih =>
    refine ih (solve_of_split hd ▸ h) ?_ ?_
    · exact List.forall_mem_append.mpr ⟨holeFree_of_reduce_split hd he, hes⟩
    · exact List.forall_mem_append.mpr ⟨holds_of_reduce_split hd |>.mp hre, hres⟩
  case case3 hd hx =>
    exact Ty.subst_ne_of_occurs (Ty.occurs_iff.mp hx) (ne_var_of_reduce_bind hd)
      (holds_of_reduce_bind hd |>.mp hre)
  case case4 es x t hd hx ih =>
    rw [solve_of_bind hd (mt Ty.occurs_iff.mpr hx)] at h
    cases hs : solve (replaceAll es x t) <;> rw [hs] at h <;> cases h
    case error =>
      have hrx := holds_of_reduce_bind hd |>.mp hre
      exact ih hs (.replaceAll (holeFree_of_reduce_bind hd he) hes)
        (holds_replaceAll hrx |>.mpr hres)
  case case5 hd => exact not_holds_of_reduce_clash hd he hre

end Equation

section Unify
variable {a b : Ty} {s : Subst} {r : TyVar → Ty} {x : TyVar}

theorem solved_of_unify (h : unify a b = .ok s) : s.Solved :=
  Equation.solved_of_solve h

theorem solves_unify_iff (h : unify a b = .ok s) : Subst.Solves r s ↔ a.subst r = b.subst r := by
  simpa [Equation.Holds] using Equation.solves_iff_of_solve h r

theorem mentions_unify (h : unify a b = .ok s) (hx : s.Mentions x) : x ∈ a.vars ∨ x ∈ b.vars := by
  simpa [Equation.vars] using Equation.mem_vars_of_mentions h x hx

theorem holeFree_unify (h : unify a b = .ok s) (ha : a.holeFree) (hb : b.holeFree) : s.HoleFree :=
  Equation.holeFree_of_solve h <| by simp [Equation.HoleFree, ha, hb]

theorem subst_ne_of_unify_error {e : UnifyError} (h : unify a b = .error e) (ha : a.holeFree)
    (hb : b.holeFree) : a.subst r ≠ b.subst r := by
  have := Equation.not_holds_of_solve_error h (by simp [Equation.HoleFree, ha, hb]) r
  simpa [Equation.Holds] using this

-- The unifier makes the two types equal, every other assignment that does so factors through it,
-- and it speaks of no other variables. Types without a unifier are told apart from the rest.
theorem unify_mostGeneral (ha : a.holeFree) (hb : b.holeFree) :
    (∀ s, unify a b = .ok s →
      (s.apply a).equal (s.apply b) ∧
      (∀ r : TyVar → Ty, a.subst r = b.subst r → ∀ t, (s.apply t).subst r = t.subst r) ∧
      ∀ x, s.Mentions x → x ∈ a.vars ∨ x ∈ b.vars) ∧
    ∀ e, unify a b = .error e → ∀ r : TyVar → Ty, a.subst r ≠ b.subst r := by
  refine ⟨fun s h => ⟨?equal, ?general, fun x => mentions_unify h⟩, fun e h r => ?error⟩
  case equal =>
    have he : s.apply a = s.apply b := solves_unify_iff h |>.mp (solved_of_unify h).solves_image
    rw [he]
    exact Ty.equal_self <| (holeFree_unify h ha hb).apply hb
  case general => exact fun r hr => (solves_unify_iff h |>.mpr hr).subst_apply
  case error => exact subst_ne_of_unify_error h ha hb

theorem unify_mostGeneral_tuple :
    ∃ s, unify (.tuple [.var 0, .var 1, .var 0]) (.tuple [.int, .var 2, .var 2]) = .ok s ∧
      s.entries = [(0, .int), (1, .int), (2, .int)] ∧
      (s.apply (.tuple [.var 0, .var 1, .var 0])).equal (s.apply (.tuple [.int, .var 2, .var 2])) := by
  have hu : (unify (.tuple [.var 0, .var 1, .var 0]) (.tuple [.int, .var 2, .var 2])).map
      (·.entries) = .ok [(0, .int), (1, .int), (2, .int)] := by cbv
  cases h : unify (.tuple [.var 0, .var 1, .var 0]) (.tuple [.int, .var 2, .var 2])
  case ok s =>
    rw [h] at hu
    exact ⟨s, rfl, Except.ok.inj hu, unify_mostGeneral rfl rfl |>.left s h |>.left⟩
  case error => cases h ▸ hu

end Unify

end HindleyMilner
