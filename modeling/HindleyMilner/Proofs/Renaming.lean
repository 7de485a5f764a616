import HindleyMilner.Proofs.Unification
import HindleyMilner.Subst.Compose

namespace HindleyMilner

theorem exists_mem_of_forall₂ {α β : Type} {r : α → β → Prop} {as : List α} {bs : List β} {a : α}
    (h : List.Forall₂ r as bs) (ha : a ∈ as) : ∃ b ∈ bs, r a b := by
  induction h
  case nil => cases ha
  case cons b _ bs hr _ ih =>
    cases ha
    case head => exact ⟨b, List.mem_cons_self, hr⟩
    case tail ha =>
      obtain ⟨c, hc, hr⟩ := ih ha
      exact ⟨c, List.mem_cons_of_mem b hc, hr⟩

theorem none_or_some_of_rel {α β : Type} {r : α → β → Prop} {a : Option α} {b : Option β}
    (h : Option.Rel r a b) :
    (a = none ∧ b = none) ∨ ∃ x y, a = some x ∧ b = some y ∧ r x y := by
  cases h
  case some h => exact .inr ⟨_, _, rfl, rfl, h⟩
  case none => exact .inl ⟨rfl, rfl⟩

-- A correspondence between variables that keeps their order, which is all that unifying and joining
-- look at.
structure Renaming where
  rel : TyVar → TyVar → Prop
  lt_iff : ∀ {x x' y y'}, rel x x' → rel y y' → (x < y ↔ x' < y')

namespace Renaming

variable {ρ : Renaming} {x x' y y' : TyVar}

theorem eq_iff (hx : ρ.rel x x') (hy : ρ.rel y y') : x = y ↔ x' = y' := by
  have h₁ := ρ.lt_iff hx hy
  have h₂ := ρ.lt_iff hy hx
  simp only [Int64.lt_iff_toInt_lt] at h₁ h₂
  rw [← Int64.toInt_inj, ← Int64.toInt_inj]
  omega

theorem idxOf_eq (ρ : Renaming) {xs xs' : List TyVar} (h : List.Forall₂ ρ.rel xs xs')
    (hx : ρ.rel x x') : xs.idxOf x = xs'.idxOf x' := by
  induction h
  case nil => rfl
  case cons y y' _ _ hy _ ih =>
    have he : (y == x) = (y' == x') := decide_eq_decide.mpr (ρ.eq_iff hy hx)
    rw [List.idxOf_cons, List.idxOf_cons, he, ih]

theorem forall₂_of_ascending (ρ : Renaming) {xs xs' : List TyVar} (h : xs.Pairwise (· < ·))
    (h' : xs'.Pairwise (· < ·)) (left : ∀ x ∈ xs, ∃ x' ∈ xs', ρ.rel x x')
    (right : ∀ x' ∈ xs', ∃ x ∈ xs, ρ.rel x x') : List.Forall₂ ρ.rel xs xs' := by
  induction xs generalizing xs'
  case nil =>
    cases xs'
    case nil => exact .nil
    case cons x' xs' => simpa using right x' List.mem_cons_self
  case cons x xs ih =>
    cases xs'
    case nil => simpa using left x List.mem_cons_self
    case cons x' xs' =>
      obtain ⟨hx, h⟩ := List.pairwise_cons.mp h
      obtain ⟨hx', h'⟩ := List.pairwise_cons.mp h'
      -- If one of the first variables came later on the other side, the order would be turned.
      have first : ρ.rel x x' := by
        obtain ⟨y', hy', hr⟩ := left x List.mem_cons_self
        obtain ⟨y, hy, hr'⟩ := right x' List.mem_cons_self
        cases hy'
        case head => exact hr
        case tail hy' =>
          cases hy
          case head => exact hr'
          case tail hy =>
            have hlt := (ρ.lt_iff hr hr').mp (hx y hy)
            exact absurd (Std.lt_trans hlt (hx' y' hy')) Std.lt_irrefl
      refine .cons first (ih h h' (fun y hy => ?_) fun y' hy' => ?_)
      · obtain ⟨y', hy', hr⟩ := left y (List.mem_cons_of_mem _ hy)
        cases hy'
        case head => exact absurd (hx y hy) ((ρ.eq_iff hr first).mpr rfl ▸ Std.lt_irrefl)
        case tail hy' => exact ⟨y', hy', hr⟩
      · obtain ⟨y, hy, hr⟩ := right y' (List.mem_cons_of_mem _ hy')
        cases hy
        case head => exact absurd (hx' y' hy') ((ρ.eq_iff hr first).mp rfl ▸ Std.lt_irrefl)
        case tail hy => exact ⟨y, hy, hr⟩

end Renaming

namespace VarSet

structure Renamed (ρ : Renaming) (vs vs' : VarSet) : Prop where
  left : ∀ x ∈ vs, ∃ x' ∈ vs', ρ.rel x x'
  right : ∀ x' ∈ vs', ∃ x ∈ vs, ρ.rel x x'

namespace Renamed

variable {ρ : Renaming} {vs vs' ws ws' : VarSet} {x x' : TyVar}

theorem mem_iff (h : Renamed ρ vs vs') (hx : ρ.rel x x') : x ∈ vs ↔ x' ∈ vs' := by
  constructor
  case mp =>
    intro hm
    obtain ⟨y', hy', hy⟩ := h.left x hm
    exact (ρ.eq_iff hx hy).mp rfl ▸ hy'
  case mpr =>
    intro hm
    obtain ⟨y, hy', hy⟩ := h.right x' hm
    exact (ρ.eq_iff hx hy).mpr rfl ▸ hy'

theorem empty : Renamed ρ ∅ ∅ where
  left x hx := absurd hx (SortedSet.not_mem_empty x)
  right x hx := absurd hx (SortedSet.not_mem_empty x)

theorem diff (h : Renamed ρ vs vs') (hw : Renamed ρ ws ws') :
    Renamed ρ (vs.diff ws) (vs'.diff ws') := by
  constructor <;> simp only [SortedSet.mem_diff]
  case left =>
    rintro x ⟨hv, hn⟩
    obtain ⟨x', hx', hx⟩ := h.left x hv
    exact ⟨x', ⟨hx', fun hm => hn ((hw.mem_iff hx).mpr hm)⟩, hx⟩
  case right =>
    rintro x' ⟨hv, hn⟩
    obtain ⟨x, hx', hx⟩ := h.right x' hv
    exact ⟨x, ⟨hx', fun hm => hn ((hw.mem_iff hx).mp hm)⟩, hx⟩

theorem forall₂ (h : Renamed ρ vs vs') : List.Forall₂ ρ.rel vs.members vs'.members :=
  ρ.forall₂_of_ascending vs.ascending vs'.ascending h.left h.right

theorem size_eq (h : Renamed ρ vs vs') : vs.size = vs'.size :=
  h.forall₂.length_eq

theorem idxOf_eq (h : Renamed ρ vs vs') (hx : ρ.rel x x') :
    vs.members.idxOf x = vs'.members.idxOf x' :=
  ρ.idxOf_eq h.forall₂ hx

end Renamed

end VarSet

namespace Ty

variable {ρ : Renaming} {t t' u u' : Ty} {x x' : TyVar}

inductive Renamed (ρ : Renaming) : Ty → Ty → Prop
  | const {n : String} : Renamed ρ (.const n) (.const n)
  | var {x x' : TyVar} (h : ρ.rel x x') : Renamed ρ (.var x) (.var x')
  | arrow {a r a' r' : Ty} (ha : Renamed ρ a a') (hr : Renamed ρ r r') :
    Renamed ρ (.arrow a r) (.arrow a' r')
  | list {e e' : Ty} (h : Renamed ρ e e') : Renamed ρ (.list e) (.list e')
  | tuple {ts ts' : List Ty} (h : List.Forall₂ (Renamed ρ) ts ts') :
    Renamed ρ (.tuple ts) (.tuple ts')
  | hole {k : Option String} : Renamed ρ (.hole k) (.hole k)

namespace Renamed

@[induction_eliminator]
theorem induction {motive : ∀ t t', Renamed ρ t t' → Prop}
    (const : ∀ {n : String}, motive (.const n) (.const n) .const)
    (var : ∀ {x x' : TyVar} (h : ρ.rel x x'), motive (.var x) (.var x') (.var h))
    (arrow : ∀ {a r a' r' : Ty} (ha : Renamed ρ a a') (hr : Renamed ρ r r'), motive a a' ha →
      motive r r' hr → motive (.arrow a r) (.arrow a' r') (.arrow ha hr))
    (list : ∀ {e e' : Ty} (h : Renamed ρ e e'), motive e e' h →
      motive (.list e) (.list e') (.list h))
    (tuple : ∀ {ts ts' : List Ty} (h : List.Forall₂ (Renamed ρ) ts ts'),
      List.Forall₂ (fun t t' => ∃ h, motive t t' h) ts ts' →
      motive (.tuple ts) (.tuple ts') (.tuple h))
    (hole : ∀ {k : Option String}, motive (.hole k) (.hole k) .hole) {t t' : Ty}
    (h : Renamed ρ t t') : motive t t' h :=
  @Renamed.rec ρ motive (fun ts ts' _ => List.Forall₂ (fun t t' => ∃ h, motive t t' h) ts ts')
    const var arrow list tuple hole .nil (fun h _ ih ihs => .cons ⟨h, ih⟩ ihs) t t' h

theorem vars (h : Renamed ρ t t') : List.Forall₂ ρ.rel t.vars t'.vars := by
  induction h
  case const | hole => simp
  case var h => simpa using h
  case arrow iha ihr => simpa using List.rel_append iha ihr
  case list ih => simpa using ih
  case tuple ih =>
    rw [vars_tuple, vars_tuple, List.flatMap, List.flatMap]
    exact List.rel_flatten (by simpa using ih.imp fun _ _ ih => ih.snd)

theorem freeVars (h : Renamed ρ t t') : VarSet.Renamed ρ t.freeVars t'.freeVars := by
  constructor <;> simp only [Ty.mem_freeVars]
  case left => exact fun x => exists_mem_of_forall₂ h.vars
  case right => exact fun x' => exists_mem_of_forall₂ h.vars.flip

theorem mem_vars_iff (h : Renamed ρ t t') (hx : ρ.rel x x') : x ∈ t.vars ↔ x' ∈ t'.vars := by
  simpa using h.freeVars.mem_iff hx

theorem occurs_eq (h : Renamed ρ t t') (hx : ρ.rel x x') : t.occurs x = t'.occurs x' := by
  rw [Bool.eq_iff_iff, occurs_iff, occurs_iff, h.mem_vars_iff hx]

theorem isVar_eq (h : Renamed ρ t t') (hx : ρ.rel x x') : t.isVar x = t'.isVar x' := by
  cases h
  case var hy => exact decide_eq_decide.mpr (ρ.eq_iff hy hx)
  all_goals rfl

theorem subst {f f' : TyVar → Ty} (h : Renamed ρ t t')
    (hf : ∀ x x', ρ.rel x x' → Renamed ρ (f x) (f' x')) : Renamed ρ (t.subst f) (t'.subst f') := by
  induction h
  case const => simpa using .const
  case var h => simpa using hf _ _ h
  case arrow iha ihr => simpa using .arrow iha ihr
  case list ih => simpa using .list ih
  case tuple ih =>
    rw [subst_tuple, subst_tuple]
    exact .tuple (by simpa using ih.imp fun _ _ ih => ih.snd)
  case hole => simpa using .hole

theorem replace (h : Renamed ρ t t') (hx : ρ.rel x x') (hu : Renamed ρ u u') :
    Renamed ρ (t.replace x u) (t'.replace x' u') := by
  refine h.subst fun y y' hy => ?_
  by_cases he : y = x
  case pos => simpa [he, (ρ.eq_iff hy hx).mp he] using hu
  case neg =>
    have he' : y' ≠ x' := fun h => he ((ρ.eq_iff hy hx).mpr h)
    simpa [he, he'] using .var hy

end Renamed

end Ty

inductive Agree {ε ε' α β : Type} (q : α → β → Prop) : Except ε α → Except ε' β → Prop
  | ok {a : α} {b : β} (h : q a b) : Agree q (.ok a) (.ok b)
  | error {e : ε} {e' : ε'} : Agree q (.error e) (.error e')

namespace Agree

variable {ε ε' α α' β β' : Type} {q : α → α' → Prop} {r : β → β' → Prop}

theorem bind {x : Except ε α} {x' : Except ε' α'} {f : α → Except ε β} {f' : α' → Except ε' β'}
    (h : Agree q x x') (hf : ∀ a a', q a a' → Agree r (f a) (f' a')) :
    Agree r (x >>= f) (x' >>= f') := by
  cases h
  case ok h => exact hf _ _ h
  case error => exact .error

theorem map {x : Except ε α} {x' : Except ε' α'} {f : α → β} {f' : α' → β'} (h : Agree q x x')
    (hf : ∀ a a', q a a' → r (f a) (f' a')) : Agree r (x.map f) (x'.map f') := by
  cases h
  case ok h => exact .ok (hf _ _ h)
  case error => exact .error

theorem foldlM {f : β → α → Except ε β} {f' : β' → α' → Except ε' β'} {as : List α}
    {as' : List α'} {b : β} {b' : β'} (h : List.Forall₂ q as as')
    (hf : ∀ b b' a a', r b b' → q a a' → Agree r (f b a) (f' b' a')) (hb : r b b') :
    Agree r (as.foldlM f b) (as'.foldlM f' b') := by
  induction h generalizing b b'
  case nil => exact .ok hb
  case cons ha _ ih =>
    rw [List.foldlM_cons, List.foldlM_cons]
    exact (hf _ _ _ _ hb ha).bind fun _ _ => ih

end Agree

namespace Subst

variable {ρ : Renaming} {s s' : Subst} {x x' : TyVar} {t t' : Ty}

def EntryRenamed (ρ : Renaming) (e e' : TyVar × Ty) : Prop :=
  ρ.rel e.1 e'.1 ∧ e.2.Renamed ρ e'.2

def Renamed (ρ : Renaming) (s s' : Subst) : Prop :=
  List.Forall₂ (EntryRenamed ρ) s.entries s'.entries

namespace Renamed

theorem empty : Renamed ρ ∅ ∅ :=
  .nil

theorem get? (h : Renamed ρ s s') (hx : ρ.rel x x') :
    Option.Rel (Ty.Renamed ρ) (s.get? x) (s'.get? x') := by
  have lookup {es es' : List (TyVar × Ty)} (h : List.Forall₂ (EntryRenamed ρ) es es') :
      Option.Rel (Ty.Renamed ρ) (es.lookup x) (es'.lookup x') := by
    induction h
    case nil => exact .none
    case cons e e' _ _ he _ ih =>
      have hb : (x == e.1) = (x' == e'.1) := decide_eq_decide.mpr (ρ.eq_iff hx he.left)
      rw [List.lookup_cons, List.lookup_cons, hb]
      cases x' == e'.1
      case true => exact .some he.right
      case false => exact ih
  exact lookup h

theorem image (h : Renamed ρ s s') (hx : ρ.rel x x') : (s.image x).Renamed ρ (s'.image x') := by
  rw [Subst.image, Subst.image]
  obtain ⟨hs, hs'⟩ | ⟨t, t', hs, hs', ht⟩ := none_or_some_of_rel (h.get? hx) <;> rw [hs, hs']
  · exact .var hx
  · exact ht

theorem apply (h : Renamed ρ s s') (ht : t.Renamed ρ t') : (s.apply t).Renamed ρ (s'.apply t') :=
  ht.subst fun _ _ => h.image

theorem insert (h : Renamed ρ s s') (hx : ρ.rel x x') (ht : t.Renamed ρ t') :
    Renamed ρ (s.insert x t) (s'.insert x' t') := by
  have go {es es' : List (TyVar × Ty)} (h : List.Forall₂ (EntryRenamed ρ) es es') :
      List.Forall₂ (EntryRenamed ρ) (SortedMap.insert.go x t es)
        (SortedMap.insert.go x' t' es') := by
    induction h
    case nil => exact .cons ⟨hx, ht⟩ .nil
    case cons e e' _ _ he hes ih =>
      simp only [SortedMap.insert.go, ← ρ.lt_iff hx he.left, ← ρ.lt_iff he.left hx]
      split
      case isTrue => exact .cons ⟨hx, ht⟩ (.cons he hes)
      case isFalse =>
        split
        case isTrue => exact .cons he ih
        case isFalse => exact .cons ⟨hx, ht⟩ hes
  exact go h

theorem without {vs vs' : VarSet} (h : Renamed ρ s s') (hv : VarSet.Renamed ρ vs vs') :
    Renamed ρ (s.without vs) (s'.without vs') := by
  have filter {es es' : List (TyVar × Ty)} (h : List.Forall₂ (EntryRenamed ρ) es es') :
      List.Forall₂ (EntryRenamed ρ) (es.filter (·.1 ∉ vs)) (es'.filter (·.1 ∉ vs')) := by
    induction h
    case nil => exact .nil
    case cons e e' _ _ he _ ih =>
      simp only [List.filter_cons, hv.mem_iff he.left]
      split
      case isTrue => exact .cons he ih
      case isFalse => exact ih
  exact filter h

theorem replace (h : Renamed ρ s s') (hx : ρ.rel x x') (ht : t.Renamed ρ t') :
    Renamed ρ ⟨s.bindings.mapValues fun _ u => u.replace x t⟩
      ⟨s'.bindings.mapValues fun _ u => u.replace x' t'⟩ :=
  List.forall₂_map_left_iff.mpr <| List.forall₂_map_right_iff.mpr <|
    List.Forall₂.imp (fun _ _ he => ⟨he.left, he.right.replace hx ht⟩) h

end Renamed

end Subst

namespace Equation

variable {ρ : Renaming} {e e' : Equation} {es es' : List Equation}

def Renamed (ρ : Renaming) (e e' : Equation) : Prop :=
  e.1.Renamed ρ e'.1 ∧ e.2.Renamed ρ e'.2

inductive Reduction.Renamed (ρ : Renaming) : Reduction → Reduction → Prop
  | split {es es' : List Equation} (h : List.Forall₂ (Equation.Renamed ρ) es es') :
    Renamed ρ (.split es) (.split es')
  | bind {x x' : TyVar} {t t' : Ty} (hx : ρ.rel x x') (ht : t.Renamed ρ t') :
    Renamed ρ (.bind x t) (.bind x' t')
  | clash : Renamed ρ .clash .clash

namespace Reduction.Renamed

variable {r r' : Reduction} {x : TyVar} {t : Ty}

theorem of_split (h : Reduction.Renamed ρ r r') (hr : r = .split es) :
    ∃ es', r' = .split es' ∧ List.Forall₂ (Equation.Renamed ρ) es es' := by
  cases h <;> cases hr
  case split h => exact ⟨_, rfl, h⟩

theorem of_bind (h : Reduction.Renamed ρ r r') (hr : r = .bind x t) :
    ∃ x' t', r' = .bind x' t' ∧ ρ.rel x x' ∧ t.Renamed ρ t' := by
  cases h <;> cases hr
  case bind hx ht => exact ⟨_, _, rfl, hx, ht⟩

theorem of_clash (h : Reduction.Renamed ρ r r') (hr : r = .clash) : r' = .clash := by
  cases h <;> cases hr
  rfl

end Reduction.Renamed

theorem renamed_zip {ts ts' us us' : List Ty} (ht : List.Forall₂ (Ty.Renamed ρ) ts ts')
    (hu : List.Forall₂ (Ty.Renamed ρ) us us') :
    List.Forall₂ (Renamed ρ) (ts.zip us) (ts'.zip us') := by
  induction ht generalizing us us'
  case nil => exact .nil
  case cons ht _ ih =>
    cases hu
    case nil => exact .nil
    case cons hu hus => exact .cons ⟨ht, hu⟩ (ih hus)

theorem Renamed.reduce (h : Renamed ρ e e') : Reduction.Renamed ρ e.reduce e'.reduce := by
  obtain ⟨a, b⟩ := e
  obtain ⟨a', b'⟩ := e'
  obtain ⟨ha, hb⟩ := h
  dsimp only at ha hb
  cases ha
  case var hx =>
    simp only [Equation.reduce, hb.isVar_eq hx]
    split
    case isTrue => exact .split .nil
    case isFalse => exact .bind hx hb
  case const =>
    cases hb
    case const =>
      simp only [Equation.reduce]
      split
      case isTrue => exact .split .nil
      case isFalse => exact .clash
    case var hx => exact .bind hx .const
    all_goals exact .clash
  case arrow ha hr =>
    cases hb
    case arrow hb hs => exact .split (.cons ⟨ha, hb⟩ (.cons ⟨hr, hs⟩ .nil))
    case var hx => exact .bind hx (.arrow ha hr)
    all_goals exact .clash
  case list ha =>
    cases hb
    case list hb => exact .split (.cons ⟨ha, hb⟩ .nil)
    case var hx => exact .bind hx (.list ha)
    all_goals exact .clash
  case tuple ha =>
    cases hb
    case tuple hb =>
      simp only [Equation.reduce, ha.length_eq, hb.length_eq]
      split
      case isTrue => exact .split (List.rel_reverse (renamed_zip ha hb))
      case isFalse => exact .clash
    case var hx => exact .bind hx (.tuple ha)
    all_goals exact .clash
  case hole =>
    cases hb
    case var hx => exact .bind hx .hole
    all_goals exact .clash

theorem renamed_replaceAll {x x' : TyVar} {t t' : Ty} (h : List.Forall₂ (Renamed ρ) es es')
    (hx : ρ.rel x x') (ht : t.Renamed ρ t') :
    List.Forall₂ (Renamed ρ) (replaceAll es x t) (replaceAll es' x' t') :=
  List.forall₂_map_left_iff.mpr <| List.forall₂_map_right_iff.mpr <|
    h.imp fun _ _ he => ⟨he.left.replace hx ht, he.right.replace hx ht⟩

theorem agree_solve (h : List.Forall₂ (Renamed ρ) es es') :
    Agree (Subst.Renamed ρ) (solve es) (solve es') := by
  induction es using solve.induct generalizing es' <;> cases h
  case case1 =>
    rw [solve]
    exact .ok .empty
  case case2 e es parts hr ih e' es' he hes =>
    obtain ⟨parts', hr', hp⟩ := he.reduce.of_split hr
    rw [solve_of_split hr, solve_of_split hr']
    exact ih (List.rel_append hp hes)
  case case3 e es x t hr hx e' es' he hes =>
    obtain ⟨x', t', hr', hxx, ht⟩ := he.reduce.of_bind hr
    rw [solve_of_occurs hr (Ty.occurs_iff.mp hx),
      solve_of_occurs hr' (Ty.occurs_iff.mp (ht.occurs_eq hxx ▸ hx))]
    exact .error
  case case4 e es x t hr hx ih e' es' he hes =>
    obtain ⟨x', t', hr', hxx, ht⟩ := he.reduce.of_bind hr
    rw [solve_of_bind hr (mt Ty.occurs_iff.mpr hx),
      solve_of_bind hr' (mt Ty.occurs_iff.mpr (ht.occurs_eq hxx ▸ hx))]
    exact (ih (renamed_replaceAll hes hxx ht)).map fun s s' hs => hs.insert hxx (hs.apply ht)
  case case5 e es hr e' es' he hes =>
    rw [solve_of_clash hr, solve_of_clash (he.reduce.of_clash hr)]
    exact .error

end Equation

section Joining

variable {ρ : Renaming} {s s' s₁ s₁' s₂ s₂' : Subst} {x x' : TyVar} {t t' u u' : Ty}

theorem agree_unify (ht : t.Renamed ρ t') (hu : u.Renamed ρ u') :
    Agree (Subst.Renamed ρ) (unify t u) (unify t' u') :=
  Equation.agree_solve (.cons ⟨ht, hu⟩ .nil)

namespace Subst

theorem isSome_recursion? {k k' : TyVar} (hx : ρ.rel x x') (ht : t.Renamed ρ t') (hk : ρ.rel k k')
    (hu : u.Renamed ρ u') : (recursion? x t k u).isSome = (recursion? x' t' k' u').isSome := by
  simp only [recursion?, hu.occurs_eq hx, (hu.replace hx ht).occurs_eq hk]
  split <;> rfl

theorem isSome_findSome?_recursion? {es es' : List (TyVar × Ty)} (hx : ρ.rel x x')
    (ht : t.Renamed ρ t') (h : List.Forall₂ (EntryRenamed ρ) es es') :
    (es.findSome? fun (k, u) => recursion? x t k u).isSome =
      (es'.findSome? fun (k, u) => recursion? x' t' k u).isSome := by
  induction h
  case nil => rfl
  case cons e e' _ _ he _ ih =>
    have hr := isSome_recursion? hx ht he.left he.right
    cases h₁ : recursion? x t e.1 e.2 <;> cases h₂ : recursion? x' t' e'.1 e'.2 <;>
      rw [h₁, h₂] at hr <;> cases hr
    case none.none => simpa [List.findSome?_cons, h₁, h₂] using ih
    case some.some => simp [h₁, h₂]

theorem agree_bind (hs : Renamed ρ s s') (hx : ρ.rel x x') (ht : t.Renamed ρ t') :
    Agree (Renamed ρ) (s.bind x t) (s'.bind x' t') := by
  have ht := hs.apply ht
  simp only [bind, ht.isVar_eq hx, ht.occurs_eq hx]
  split
  case isTrue => exact .ok hs
  case isFalse =>
    split
    case isTrue => exact .error
    case isFalse =>
      have hr := isSome_findSome?_recursion? hx ht hs
      split <;> split <;> simp_all only [Option.isSome_some, Option.isSome_none, reduceCtorEq]
      case h_1 => exact .error
      case h_2 => exact .ok ((hs.replace hx ht).insert hx ht)

theorem agree_bindAll {bs bs' : List (TyVar × Ty)} (hs : Renamed ρ s s')
    (hb : List.Forall₂ (EntryRenamed ρ) bs bs') :
    Agree (Renamed ρ) (s.bindAll bs) (s'.bindAll bs') :=
  .foldlM hb (fun _ _ _ _ hs he => agree_bind hs he.left he.right) hs

theorem agree_extend (hs : Renamed ρ s s') (hx : ρ.rel x x') (ht : t.Renamed ρ t') :
    Agree (Renamed ρ) (s.extend x t) (s'.extend x' t') := by
  rw [extend, extend]
  obtain ⟨hb, hb'⟩ | ⟨u, u', hb, hb', hu⟩ := none_or_some_of_rel (hs.get? hx) <;> rw [hb, hb']
  · exact agree_bind hs hx ht
  · exact (agree_unify (hs.apply ht) hu).bind fun _ _ => agree_bindAll hs

theorem agree_compose (h₁ : Renamed ρ s₁ s₁') (h₂ : Renamed ρ s₂ s₂') :
    Agree (Renamed ρ) (s₁.compose s₂) (s₁'.compose s₂') :=
  .foldlM h₁ (fun _ _ _ _ hs he => agree_extend hs he.left he.right) h₂

theorem agree_composeAll {ss ss' : List Subst} (h : List.Forall₂ (Renamed ρ) ss ss') :
    Agree (Renamed ρ) (composeAll ss) (composeAll ss') :=
  .foldlM h (fun _ _ _ _ => agree_compose) .empty

end Subst

end Joining

end HindleyMilner
