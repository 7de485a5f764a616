import HindleyMilner.Subst.Compose
import HindleyMilner.Proofs.Unification

namespace HindleyMilner.Subst

variable {s s₁ s₂ o : Subst} {r : TyVar → Ty} {x y : TyVar} {t u : Ty}

-- The outcome of joining constraints with the solutions `C`: a solved substitution that has the
-- same solutions and mentions only variables of `V`, or else, given that `F` excludes holes, a
-- proof that there are no solutions.
inductive Join (C : (TyVar → Ty) → Prop) (V : TyVar → Prop) (F : Prop) :
    Except UnifyError Subst → Prop
  | ok {o : Subst} (solved : o.Solved) (solves : ∀ r, Solves r o ↔ C r)
    (mentions : ∀ x, o.Mentions x → V x) (holeFree : F → o.HoleFree) : Join C V F (.ok o)
  | error {e : UnifyError} (unsolvable : F → ∀ r, ¬C r) : Join C V F (.error e)

namespace Join

variable {C C' D : (TyVar → Ty) → Prop} {V V' W : TyVar → Prop} {F F' G : Prop}
  {m : Except UnifyError Subst}

theorem congr (h : Join C V F m) (hc : ∀ r, C r ↔ C' r) (hv : ∀ x, V x → V' x) (hf : F' → F) :
    Join C' V' F' m := by
  cases h
  case ok hs hr hm hh =>
    exact .ok hs (fun r => (hr r).trans (hc r)) (fun x hx => hv x (hm x hx)) (hh ∘ hf)
  case error hu => exact .error fun hf' r hr => hu (hf hf') r <| (hc r).mpr hr

theorem bind {f : Subst → Except UnifyError Subst} (h : Join C V F m)
    (hf : ∀ o, m = .ok o → o.Solved →
      Join (fun r => Solves r o ∧ D r) (fun x => o.Mentions x ∨ W x) (o.HoleFree ∧ G) (f o)) :
    Join (fun r => C r ∧ D r) (fun x => V x ∨ W x) (F ∧ G) (m >>= f) := by
  cases h
  case ok o hs hr hm hh =>
    refine hf o rfl hs |>.congr (fun r => ?_) (fun x => Or.imp_left (hm x)) (And.imp_left hh)
    simp only [hr r]
  case error hu => exact .error fun hf r hr => hu hf.left r hr.left

theorem solved (h : Join C V F m) (hm : m = .ok o) : o.Solved := by
  subst hm
  cases h
  assumption

theorem solves_iff (h : Join C V F m) (hm : m = .ok o) : Solves r o ↔ C r := by
  subst hm
  cases h
  case ok hr _ _ => exact hr r

theorem mentions (h : Join C V F m) (hm : m = .ok o) (hx : o.Mentions x) : V x := by
  subst hm
  cases h
  case ok hv _ => exact hv x hx

theorem holeFree (h : Join C V F m) (hm : m = .ok o) (hf : F) : o.HoleFree := by
  subst hm
  cases h
  case ok hh => exact hh hf

theorem exists_ok (h : Join C V F m) (hf : F) (hr : C r) : ∃ o, m = .ok o := by
  cases h
  case ok o _ _ _ _ => exact ⟨o, rfl⟩
  case error hu => exact absurd hr (hu hf r)

theorem error_iff (h : Join C V F m) (hf : F) : (∃ e, m = .error e) ↔ ∀ r, ¬C r := by
  cases h
  case ok o hs hr _ _ =>
    have : C o.image := hr _ |>.mp hs.solves_image
    exact ⟨nofun, fun hc => absurd this (hc _)⟩
  case error hu => simp [hu hf]

end Join

theorem unify_join (a b : Ty) :
    Join (fun r => a.subst r = b.subst r) (fun x => x ∈ a.vars ∨ x ∈ b.vars)
      (a.holeFree ∧ b.holeFree) (unify a b) := by
  cases h : unify a b
  case ok s =>
    exact .ok (solved_of_unify h) (fun _ => solves_unify_iff h) (fun _ => mentions_unify h)
      fun hf => holeFree_unify h hf.left hf.right
  case error e => exact .error fun hf _ => subst_ne_of_unify_error h hf.left hf.right

def put (s : Subst) (x : TyVar) (u : Ty) : Subst :=
  Subst.insert ⟨s.bindings.mapValues fun _ v => v.replace x u⟩ x u

section Put

theorem get?_put (s : Subst) (x : TyVar) (u : Ty) (y : TyVar) :
    (s.put x u).get? y = if y = x then some u else (s.get? y).map (·.replace x u) := by
  rw [put, get?_insert]
  simp [get?]

theorem get?_put_of_ne (h : y ≠ x) : (s.put x u).get? y = (s.get? y).map (·.replace x u) := by
  simp [get?_put, h]

theorem solved_put (hs : s.Solved) (hx : x ∉ u.vars) (hu : ∀ y ∈ u.vars, s.get? y = none) :
    (s.put x u).Solved := by
  have free {y : TyVar} (hy : s.get? y = none) (hyx : y ≠ x) : (s.put x u).get? y = none := by
    rw [get?_put_of_ne hyx, hy, Option.map_none]
  intro y t ht z hz
  rw [get?_put] at ht
  split at ht
  case isTrue =>
    cases ht
    exact free (hu z hz) fun hzx => hx (hzx ▸ hz)
  case isFalse =>
    have ⟨v, hv, ht⟩ := Option.map_eq_some_iff.mp ht
    subst ht
    cases Ty.mem_vars_replace hz
    case inl hz => exact free (hs y v hv z hz.left) hz.right
    case inr hz => exact free (hu z hz) fun hzx => hx (hzx ▸ hz)

theorem solves_put_iff (hx : s.get? x = none) :
    Solves r (s.put x u) ↔ Solves r s ∧ r x = u.subst r := by
  constructor
  case mp =>
    intro h
    have hrx : r x = u.subst r := h x u (by simp [get?_put])
    refine ⟨fun y v hv => ?_, hrx⟩
    have hyx : y ≠ x := fun hyx => by simp [hyx ▸ hx] at hv
    rw [h y (v.replace x u) (by simp [get?_put_of_ne hyx, hv]), Ty.subst_replace hrx]
  case mpr =>
    intro ⟨h, hrx⟩ y t ht
    rw [get?_put] at ht
    split at ht
    case isTrue hyx =>
      cases ht
      exact hyx ▸ hrx
    case isFalse =>
      have ⟨v, hv, ht⟩ := Option.map_eq_some_iff.mp ht
      rw [← ht, Ty.subst_replace hrx, h y v hv]

theorem mentions_put (h : (s.put x u).Mentions y) : s.Mentions y ∨ y = x ∨ y ∈ u.vars := by
  cases h
  case key t ht =>
    rw [get?_put] at ht
    split at ht
    case isTrue hyx => exact .inr (.inl hyx)
    case isFalse =>
      have ⟨v, hv, _⟩ := Option.map_eq_some_iff.mp ht
      exact .inl (.key hv)
  case target k t ht hy =>
    rw [get?_put] at ht
    split at ht
    case isTrue =>
      cases ht
      exact .inr (.inr hy)
    case isFalse =>
      have ⟨v, hv, ht⟩ := Option.map_eq_some_iff.mp ht
      subst ht
      cases Ty.mem_vars_replace hy
      case inl hy => exact .inl (.target hv hy.left)
      case inr hy => exact .inr (.inr hy)

theorem holeFree_put (hs : s.HoleFree) (hu : u.holeFree) : (s.put x u).HoleFree := by
  intro y t ht
  rw [get?_put] at ht
  split at ht
  case isTrue => exact Option.some_inj.mp ht ▸ hu
  case isFalse =>
    have ⟨v, hv, ht⟩ := Option.map_eq_some_iff.mp ht
    rw [← ht]
    exact Ty.holeFree_subst (hs y v hv) fun z _ => by split <;> simp [hu]

end Put

section Bind

theorem bind_of_var (h : s.apply t = .var x) : s.bind x t = .ok s := by
  simp [Subst.bind, h]

theorem bind_of_occurs (hx : x ∈ (s.apply t).vars) (hv : s.apply t ≠ .var x) :
    s.bind x t = .error (.occurs x (s.apply t)) := by
  simp [Subst.bind, hv, Ty.occurs_iff.mpr hx]

-- No bound type becomes recursive: neither it nor what is put into it has a bound variable.
theorem recursion?_eq_none {k : TyVar} (hs : s.Solved) (hk : s.get? k = some u) :
    recursion? x (s.apply t) k u = none := by
  have hn : ¬(u.replace x (s.apply t)).occurs k := by
    rw [Ty.occurs_iff]
    intro h
    cases Ty.mem_vars_replace h
    case inl h => exact absurd (hs k u hk k h.left) (by simp [hk])
    case inr h => exact absurd (hs.get?_of_mem_apply h) (by simp [hk])
  simp [recursion?, hn]

theorem bind_of_not_occurs (hs : s.Solved) (hx : x ∉ (s.apply t).vars) :
    s.bind x t = .ok (s.put x (s.apply t)) := by
  have hv : s.apply t ≠ .var x := fun h => hx (by simp [h])
  simp only [Subst.bind, Ty.isVar_iff, hv, mt Ty.occurs_iff.mp hx, Bool.false_eq_true, if_false,
    put]
  rw [List.findSome?_eq_none_iff.mpr fun e he => recursion?_eq_none hs (mem_entries_iff.mp he)]

theorem bind_eq_error_iff {e : UnifyError} (hs : s.Solved) :
    s.bind x t = .error e ↔
      (x ∈ (s.apply t).vars ∧ s.apply t ≠ .var x) ∧ e = .occurs x (s.apply t) := by
  by_cases hv : s.apply t = .var x
  case pos => simp [bind_of_var hv, hv]
  case neg =>
    by_cases hx : x ∈ (s.apply t).vars
    case pos => simp [bind_of_occurs hx hv, hx, hv, eq_comm]
    case neg => simp [bind_of_not_occurs hs hx, hx]

theorem get?_bind (hs : s.Solved) (h : s.bind x t = .ok o) (hy : s.get? y = none) (hyx : y ≠ x) :
    o.get? y = none := by
  by_cases hv : s.apply t = .var x
  case pos =>
    cases bind_of_var hv ▸ h
    exact hy
  case neg =>
    by_cases hx : x ∈ (s.apply t).vars
    case pos => cases bind_of_occurs hx hv ▸ h
    case neg =>
      cases bind_of_not_occurs hs hx ▸ h
      rw [get?_put_of_ne hyx, hy, Option.map_none]

theorem bind_join (hs : s.Solved) (hx : s.get? x = none) :
    Join (fun r => Solves r s ∧ r x = t.subst r) (fun y => s.Mentions y ∨ y = x ∨ y ∈ t.vars)
      (s.HoleFree ∧ t.holeFree) (s.bind x t) := by
  by_cases hv : s.apply t = .var x
  case pos =>
    rw [bind_of_var hv]
    refine .ok hs (fun r => ⟨fun h => ⟨h, ?_⟩, And.left⟩) (fun _ => .inl) And.left
    rw [← h.subst_apply t, hv, Ty.subst_var]
  case neg =>
    by_cases hm : x ∈ (s.apply t).vars
    case pos =>
      rw [bind_of_occurs hm hv]
      refine .error fun _ r ⟨h, hr⟩ => Ty.subst_ne_of_occurs (f := r) hm hv ?_
      rw [h.subst_apply, hr]
    case neg =>
      rw [bind_of_not_occurs hs hm]
      refine .ok (solved_put hs hm fun _ => hs.get?_of_mem_apply) (fun r => ?_) (fun y hy => ?_)
        fun hf => holeFree_put hf.left (hf.left.apply hf.right)
      · rw [solves_put_iff hx]
        exact and_congr_right fun h => by rw [h.subst_apply]
      · cases mentions_put hy
        case inl hy => exact .inl hy
        case inr hy =>
          cases hy
          case inl hy => exact .inr (.inl hy)
          case inr hy => exact mem_vars_apply hy |>.symm.imp_right .inr

def Satisfies (r : TyVar → Ty) (bs : List (TyVar × Ty)) : Prop :=
  ∀ b ∈ bs, r b.1 = b.2.subst r

theorem satisfies_entries_iff : Satisfies r s.entries ↔ Solves r s := by
  simp only [Satisfies, Solves, Prod.forall, mem_entries_iff]

theorem satisfies_cons_iff {b : TyVar × Ty} {bs : List (TyVar × Ty)} :
    Satisfies r (b :: bs) ↔ r b.1 = b.2.subst r ∧ Satisfies r bs :=
  List.forall_mem_cons

theorem bindAll_join {bs : List (TyVar × Ty)} (hs : s.Solved) (hn : ∀ b ∈ bs, s.get? b.1 = none)
    (hd : bs.Pairwise (·.1 ≠ ·.1)) :
    Join (fun r => Solves r s ∧ Satisfies r bs)
      (fun y => s.Mentions y ∨ ∃ b ∈ bs, y = b.1 ∨ y ∈ b.2.vars)
      (s.HoleFree ∧ ∀ b ∈ bs, b.2.holeFree) (s.bindAll bs) := by
  induction bs generalizing s
  case nil =>
    refine .ok hs (fun r => ?_) (fun _ => .inl) And.left
    simp [Satisfies]
  case cons b bs ih =>
    have ⟨hb, hbs⟩ := List.forall_mem_cons.mp hn
    have ⟨hbd, hd⟩ := List.pairwise_cons.mp hd
    have step := bind_join (t := b.2) hs hb
    refine step.bind (fun o ho hos => ih hos (fun c hc => ?_) hd) |>.congr ?_ ?_ ?_
    · exact get?_bind hs ho (hbs c hc) (hbd c hc).symm
    · exact fun r => by rw [satisfies_cons_iff, and_assoc]
    · rintro y ((h | h) | ⟨c, hc, h⟩)
      · exact .inl h
      · exact .inr ⟨b, by simp, h⟩
      · exact .inr ⟨c, by simp [hc], h⟩
    · intro ⟨h, hbs⟩
      have ⟨hb, hbs⟩ := List.forall_mem_cons.mp hbs
      exact ⟨⟨h, hb⟩, hbs⟩

theorem entries_pairwise_ne (s : Subst) : s.entries.Pairwise (·.1 ≠ ·.1) :=
  s.bindings.ascending.imp Std.ne_of_lt

theorem extend_join (hs : s.Solved) :
    Join (fun r => Solves r s ∧ r x = t.subst r) (fun y => s.Mentions y ∨ y = x ∨ y ∈ t.vars)
      (s.HoleFree ∧ t.holeFree) (s.extend x t) := by
  cases hx : s.get? x
  case none =>
    simp only [extend, hx]
    exact bind_join hs hx
  case some bound =>
    simp only [extend, hx]
    have free {y : TyVar} (hy : y ∈ (s.apply t).vars ∨ y ∈ bound.vars) : s.get? y = none :=
      hy.elim hs.get?_of_mem_apply (hs x bound hx y)
    cases hu : unify (s.apply t) bound
    case error e =>
      refine .error fun hf r ⟨h, hr⟩ => ?_
      refine subst_ne_of_unify_error (r := r) hu (hf.left.apply hf.right) (hf.left x bound hx) ?_
      rw [h.subst_apply, ← hr, h x bound hx]
    case ok u =>
      have hk : ∀ b ∈ u.entries, s.get? b.1 = none := fun b hb =>
        free <| mentions_unify hu <| .key <| mem_entries_iff.mp hb
      refine bindAll_join hs hk u.entries_pairwise_ne |>.congr (fun r => ?_) (fun y hy => ?_) ?_
      · rw [satisfies_entries_iff, solves_unify_iff hu]
        refine and_congr_right fun h => ?_
        rw [h.subst_apply, h x bound hx, eq_comm]
      · have known {y : TyVar} (hy : u.Mentions y) : s.Mentions y ∨ y = x ∨ y ∈ t.vars := by
          cases mentions_unify hu hy
          case inl hy => exact mem_vars_apply hy |>.symm.imp_right .inr
          case inr hy => exact .inl (.target hx hy)
        obtain hy | ⟨b, hb, hy | hy⟩ := hy
        · exact .inl hy
        · exact known <| hy ▸ .key (mem_entries_iff.mp hb)
        · exact known <| .target (mem_entries_iff.mp hb) hy
      · intro hf
        have := holeFree_unify hu (hf.left.apply hf.right) (hf.left x bound hx)
        exact ⟨hf.left, fun b hb => this b.1 b.2 (mem_entries_iff.mp hb)⟩

theorem extend_of_unbound (hx : s.get? x = none) : s.extend x t = s.bind x t := by
  simp only [extend, hx]

theorem extendAll_of_unbound {bs : List (TyVar × Ty)} (hs : s.Solved) (hk : ∀ b ∈ bs, s.get? b.1 = none)
    (hd : bs.Pairwise (·.1 ≠ ·.1)) :
    bs.foldlM (fun s (x, t) => s.extend x t) s = s.bindAll bs := by
  induction bs generalizing s
  case nil => rfl
  case cons b bs ih =>
    obtain ⟨x, t⟩ := b
    obtain ⟨hx, hbs⟩ := List.forall_mem_cons.mp hk
    obtain ⟨hxd, hd⟩ := List.pairwise_cons.mp hd
    simp only [bindAll, List.foldlM_cons, extend_of_unbound hx]
    cases ho : s.bind x t
    case error => rfl
    case ok o =>
      refine ih (bind_join hs hx |>.solved ho) (fun c hc => ?_) hd
      exact get?_bind hs ho (hbs c hc) (hxd c hc).symm

end Bind

section Compose

theorem extendAll_join (bs : List (TyVar × Ty)) (hs : s.Solved) :
    Join (fun r => Solves r s ∧ Satisfies r bs)
      (fun y => s.Mentions y ∨ ∃ b ∈ bs, y = b.1 ∨ y ∈ b.2.vars)
      (s.HoleFree ∧ ∀ b ∈ bs, b.2.holeFree) (bs.foldlM (fun s (x, t) => s.extend x t) s) := by
  induction bs generalizing s
  case nil =>
    refine .ok hs (fun r => ?_) (fun _ => .inl) And.left
    simp [Satisfies]
  case cons b bs ih =>
    have step := extend_join (x := b.1) (t := b.2) hs
    refine step.bind (fun o _ hos => ih hos) |>.congr ?_ ?_ ?_
    · exact fun r => by rw [satisfies_cons_iff, and_assoc]
    · rintro y ((h | h) | ⟨c, hc, h⟩)
      · exact .inl h
      · exact .inr ⟨b, by simp, h⟩
      · exact .inr ⟨c, by simp [hc], h⟩
    · intro ⟨h, hbs⟩
      have ⟨hb, hbs⟩ := List.forall_mem_cons.mp hbs
      exact ⟨⟨h, hb⟩, hbs⟩

theorem compose_join (s₁ : Subst) (h₂ : s₂.Solved) :
    Join (fun r => Solves r s₁ ∧ Solves r s₂) (fun y => s₁.Mentions y ∨ s₂.Mentions y)
      (s₁.HoleFree ∧ s₂.HoleFree) (compose s₁ s₂) := by
  refine extendAll_join _ h₂ |>.congr (fun r => ?_) (fun y hy => ?_) fun hf => ?_
  · rw [satisfies_entries_iff, and_comm]
  · obtain hy | ⟨b, hb, hy | hy⟩ := hy
    · exact .inr hy
    · exact .inl <| hy ▸ .key (mem_entries_iff.mp hb)
    · exact .inl <| .target (mem_entries_iff.mp hb) hy
  · exact ⟨hf.right, fun b hb => hf.left b.1 b.2 (mem_entries_iff.mp hb)⟩

theorem foldlM_compose_join {ss : List Subst} (hs : s.Solved) (hss : ∀ p ∈ ss, p.Solved) :
    Join (fun r => Solves r s ∧ ∀ p ∈ ss, Solves r p)
      (fun y => s.Mentions y ∨ ∃ p ∈ ss, p.Mentions y)
      (s.HoleFree ∧ ∀ p ∈ ss, p.HoleFree) (ss.foldlM compose s) := by
  induction ss generalizing s
  case nil =>
    refine .ok hs (fun r => ?_) (fun _ => .inl) And.left
    simp
  case cons p ss ih =>
    have ⟨hp, hss⟩ := List.forall_mem_cons.mp hss
    have step := compose_join s hp
    refine step.bind (fun o _ hos => ih hos hss) |>.congr ?_ ?_ ?_
    · exact fun r => by rw [List.forall_mem_cons, and_assoc]
    · rintro y ((h | h) | ⟨q, hq, h⟩)
      · exact .inl h
      · exact .inr ⟨p, by simp, h⟩
      · exact .inr ⟨q, by simp [hq], h⟩
    · intro ⟨h, hss⟩
      have ⟨hp, hss⟩ := List.forall_mem_cons.mp hss
      exact ⟨⟨h, hp⟩, hss⟩

theorem composeAll_join {ss : List Subst} (hss : ∀ p ∈ ss, p.Solved) :
    Join (fun r => ∀ p ∈ ss, Solves r p) (fun y => ∃ p ∈ ss, p.Mentions y)
      (∀ p ∈ ss, p.HoleFree) (composeAll ss) := by
  refine foldlM_compose_join .empty hss |>.congr (fun r => ?_) (fun y hy => ?_) fun hf => ?_
  · exact and_iff_right .empty
  · exact hy.resolve_left (not_mentions_empty y)
  · exact ⟨.empty, hf⟩

-- Extending a substitution, composing two and composing any number of them all amount to the
-- conjunction of the equations that they are given.
theorem joining_is_conjunction :
    (∀ (s : Subst) (x : TyVar) (t : Ty), s.Solved → s.HoleFree → t.holeFree →
      (∀ o, s.extend x t = .ok o → ∀ r, Solves r o ↔ Solves r s ∧ r x = t.subst r) ∧
      ((∃ e, s.extend x t = .error e) ↔ ∀ r, ¬(Solves r s ∧ r x = t.subst r))) ∧
    (∀ s₁ s₂ : Subst, s₁.Solved → s₁.HoleFree → s₂.Solved → s₂.HoleFree →
      (∀ o, compose s₁ s₂ = .ok o → ∀ r, Solves r o ↔ Solves r s₁ ∧ Solves r s₂) ∧
      ((∃ e, compose s₁ s₂ = .error e) ↔ ∀ r, ¬(Solves r s₁ ∧ Solves r s₂))) ∧
    ∀ ss : List Subst, (∀ s ∈ ss, s.Solved) → (∀ s ∈ ss, s.HoleFree) →
      (∀ o, composeAll ss = .ok o → ∀ r, Solves r o ↔ ∀ s ∈ ss, Solves r s) ∧
      ((∃ e, composeAll ss = .error e) ↔ ∀ r, ¬∀ s ∈ ss, Solves r s) := by
  refine ⟨fun s x t hs hf ht => ?extend, fun s₁ s₂ h₁ hf₁ h₂ hf₂ => ?compose,
    fun ss hss hf => ?composeAll⟩
  case extend =>
    have join := extend_join (x := x) (t := t) hs
    exact ⟨fun o ho r => join.solves_iff ho, join.error_iff ⟨hf, ht⟩⟩
  case compose =>
    have join := compose_join s₁ h₂
    exact ⟨fun o ho r => join.solves_iff ho, join.error_iff ⟨hf₁, hf₂⟩⟩
  case composeAll =>
    have join := composeAll_join hss
    exact ⟨fun o ho r => join.solves_iff ho, join.error_iff hf⟩

theorem joining_cycle :
    ∃ o, compose ((∅ : Subst).insert 0 (.var 1)) ((∅ : Subst).insert 1 (.var 0)) = .ok o ∧
      o.entries = [(1, .var 0)] ∧ ∀ r, Solves r o ↔
        Solves r ((∅ : Subst).insert 0 (.var 1)) ∧ Solves r ((∅ : Subst).insert 1 (.var 0)) := by
  have solved {x y : TyVar} (h : x ≠ y) : ((∅ : Subst).insert x (.var y)).Solved := by
    simpa using Solved.empty.insert (t := .var y) (not_mentions_empty x) (by simpa using h)
  have holeFree (x y : TyVar) : ((∅ : Subst).insert x (.var y)).HoleFree :=
    HoleFree.empty.insert (by simp)
  have hc : (compose ((∅ : Subst).insert 0 (.var 1)) ((∅ : Subst).insert 1 (.var 0))).map
      (·.entries) = .ok [(1, .var 0)] := by cbv
  cases h : compose ((∅ : Subst).insert 0 (.var 1)) ((∅ : Subst).insert 1 (.var 0))
  case ok o =>
    rw [h] at hc
    have := joining_is_conjunction.right.left _ _ (solved (by decide)) (holeFree 0 1)
      (solved (by decide)) (holeFree 1 0) |>.left o h
    exact ⟨o, rfl, Except.ok.inj hc, this⟩
  case error => cases h ▸ hc

end Compose

end HindleyMilner.Subst
