import HindleyMilner.Subst
import HindleyMilner.Proofs.SortedMap
import HindleyMilner.Proofs.Ty

namespace HindleyMilner.Subst

variable {s : Subst} {r : TyVar → Ty} {x y : TyVar} {t : Ty}

theorem mem_entries_iff : (x, t) ∈ s.entries ↔ s.get? x = some t :=
  SortedMap.mem_entries_iff

theorem mem_keys_iff : x ∈ s.bindings.keys ↔ (s.get? x).isSome :=
  SortedMap.mem_keys_iff

theorem ext_get? {s₁ s₂ : Subst} (h : ∀ x, s₁.get? x = s₂.get? x) : s₁ = s₂ :=
  Subst.ext (SortedMap.ext_get? h)

theorem solved_iff_entries : s.Solved ↔ ∀ b ∈ s.entries, ∀ y ∈ b.2.vars, s.get? y = none := by
  simp only [Solved, Prod.forall, mem_entries_iff]

theorem image_of_get? (h : s.get? x = some t) : s.image x = t := by
  simp [image, h]

theorem image_of_get?_none (h : s.get? x = none) : s.image x = .var x := by
  simp [image, h]

@[simp]
theorem image_empty : (∅ : Subst).image = .var := by
  funext x
  exact image_of_get?_none (get?_empty x)

theorem image_insert (s : Subst) (x : TyVar) (t : Ty) (y : TyVar) :
    (s.insert x t).image y = if y = x then t else s.image y := by
  simp only [image, get?_insert]
  split <;> rfl

@[simp]
theorem apply_empty (t : Ty) : (∅ : Subst).apply t = t := by
  simp [apply]

@[simp]
theorem apply_var (s : Subst) (x : TyVar) : s.apply (.var x) = s.image x := by
  simp [apply]

@[simp]
theorem apply_int (s : Subst) : s.apply .int = .int := by
  simp [apply]

@[simp]
theorem apply_bool (s : Subst) : s.apply .bool = .bool := by
  simp [apply]

@[simp]
theorem apply_list (s : Subst) (t : Ty) : s.apply (.list t) = .list (s.apply t) := by
  simp [apply]

@[simp]
theorem apply_arrow (s : Subst) (a b : Ty) :
    s.apply (.arrow a b) = .arrow (s.apply a) (s.apply b) := by
  simp [apply]

@[simp]
theorem apply_tuple (s : Subst) (ts : List Ty) : s.apply (.tuple ts) = .tuple (ts.map s.apply) := by
  simp [apply]

inductive Mentions (s : Subst) : TyVar → Prop
  | key {x : TyVar} {t : Ty} (h : s.get? x = some t) : Mentions s x
  | target {k x : TyVar} {t : Ty} (h : s.get? k = some t) (hx : x ∈ t.vars) : Mentions s x

theorem mentions_iff_entries : s.Mentions x ↔ ∃ b ∈ s.entries, x = b.1 ∨ x ∈ b.2.vars := by
  constructor
  case mp =>
    intro h
    cases h
    case key t h => exact ⟨(x, t), mem_entries_iff.mpr h, .inl rfl⟩
    case target k t h hx => exact ⟨(k, t), mem_entries_iff.mpr h, .inr hx⟩
  case mpr =>
    rintro ⟨b, hb, rfl | hx⟩
    · exact .key (mem_entries_iff.mp hb)
    · exact .target (mem_entries_iff.mp hb) hx

theorem not_mentions_empty (x : TyVar) : ¬(∅ : Subst).Mentions x := by
  rintro (h | ⟨h, -⟩) <;> simp at h

theorem get?_of_not_mentions (h : ¬s.Mentions x) : s.get? x = none :=
  Option.eq_none_iff_forall_ne_some.mpr fun _ hx => h (.key hx)

theorem mem_vars_image (h : y ∈ (s.image x).vars) : y = x ∨ s.Mentions y := by
  cases hx : s.get? x
  case none => exact .inl <| by simpa [image_of_get?_none hx] using h
  case some t => exact .inr <| .target hx (image_of_get? hx ▸ h)

theorem mem_vars_apply (h : y ∈ (s.apply t).vars) : y ∈ t.vars ∨ s.Mentions y := by
  have ⟨x, hx, hy⟩ := Ty.mem_vars_subst.mp h
  cases mem_vars_image hy
  case inl hy => exact .inl (hy ▸ hx)
  case inr hy => exact .inr hy

theorem apply_eq_self (h : ∀ x ∈ t.vars, s.get? x = none) : s.apply t = t :=
  Ty.subst_eq_self fun x hx => image_of_get?_none (h x hx)

-- The assignment `r` makes both sides equal in every equation between a bound variable and its
-- type.
def Solves (r : TyVar → Ty) (s : Subst) : Prop :=
  ∀ x t, s.get? x = some t → r x = t.subst r

namespace Solves

theorem empty : Solves r ∅ :=
  fun _ _ h => by simp at h

theorem subst_image (h : Solves r s) (x : TyVar) : (s.image x).subst r = r x := by
  cases hx : s.get? x
  case none => simp [image_of_get?_none hx]
  case some t => rw [image_of_get? hx, h x t hx]

theorem subst_apply (h : Solves r s) (t : Ty) : (s.apply t).subst r = t.subst r := by
  rw [apply, Ty.subst_subst]
  exact Ty.subst_congr fun x _ => h.subst_image x

theorem congr {r' : TyVar → Ty} (h : Solves r s) (he : ∀ x, s.Mentions x → r x = r' x) :
    Solves r' s := by
  intro x t hx
  rw [← he x (.key hx), h x t hx]
  exact Ty.subst_congr fun y hy => he y (.target hx hy)

theorem insert_iff (hx : s.get? x = none) :
    Solves r (s.insert x t) ↔ r x = t.subst r ∧ Solves r s := by
  constructor
  case mp =>
    intro h
    refine ⟨h x t (by simp), fun y u hy => h y u ?_⟩
    have : y ≠ x := fun hyx => by simp [hyx ▸ hx] at hy
    simp [this, hy]
  case mpr =>
    intro ⟨hrx, h⟩ y u hy
    rw [get?_insert] at hy
    split at hy
    case isTrue hyx =>
      cases hy
      exact hyx ▸ hrx
    case isFalse => exact h y u hy

end Solves

namespace Solved

theorem get?_of_mem_image (hs : s.Solved) (h : y ∈ (s.image x).vars) : s.get? y = none := by
  cases hx : s.get? x
  case none =>
    have : y = x := by simpa [image_of_get?_none hx] using h
    exact this ▸ hx
  case some t => exact hs x t hx y (image_of_get? hx ▸ h)

theorem get?_of_mem_apply (hs : s.Solved) (h : y ∈ (s.apply t).vars) : s.get? y = none :=
  have ⟨_, _, hy⟩ := Ty.mem_vars_subst.mp h
  hs.get?_of_mem_image hy

theorem apply_image (hs : s.Solved) (x : TyVar) : s.apply (s.image x) = s.image x :=
  apply_eq_self fun _ hy => hs.get?_of_mem_image hy

theorem apply_apply (hs : s.Solved) (t : Ty) : s.apply (s.apply t) = s.apply t :=
  apply_eq_self fun _ hy => hs.get?_of_mem_apply hy

theorem solves_subst_image (hs : s.Solved) (f : TyVar → Ty) :
    Solves (fun x => (s.image x).subst f) s := by
  intro x t hx
  simp only [image_of_get? hx]
  refine Ty.subst_congr fun y hy => ?_
  simp [image_of_get?_none (hs x t hx y hy)]

theorem solves_image (hs : s.Solved) : Solves s.image s := by
  simpa using hs.solves_subst_image .var

theorem insert (hs : s.Solved) (hx : ¬s.Mentions x) (ht : x ∉ t.vars) :
    (s.insert x (s.apply t)).Solved := by
  intro y u hy z hz
  have hzx : s.get? z = none ∧ z ≠ x := by
    rw [get?_insert] at hy
    split at hy
    case isTrue =>
      cases hy
      refine ⟨hs.get?_of_mem_apply hz, fun hzx => ?_⟩
      cases mem_vars_apply (hzx ▸ hz)
      case inl h => exact ht h
      case inr h => exact hx h
    case isFalse => exact ⟨hs y u hy z hz, fun hzx => hx (hzx ▸ .target hy hz)⟩
  simp [hzx]

end Solved

def HoleFree (s : Subst) : Prop :=
  ∀ x t, s.get? x = some t → t.holeFree

namespace HoleFree

theorem empty : HoleFree ∅ :=
  fun _ _ h => by simp at h

theorem image (hs : s.HoleFree) (x : TyVar) : (s.image x).holeFree := by
  cases hx : s.get? x
  case none => simp [image_of_get?_none hx]
  case some t => exact image_of_get? hx ▸ hs x t hx

theorem apply (hs : s.HoleFree) (ht : t.holeFree) : (s.apply t).holeFree :=
  Ty.holeFree_subst ht fun x _ => hs.image x

theorem insert (hs : s.HoleFree) (ht : t.holeFree) : (s.insert x t).HoleFree := by
  intro y u h
  rw [get?_insert] at h
  split at h
  case isTrue => exact Option.some_inj.mp h ▸ ht
  case isFalse => exact hs y u h

end HoleFree

end HindleyMilner.Subst
