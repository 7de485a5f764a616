import HindleyMilner.Proofs.Compose

namespace HindleyMilner.Subst

variable {s s₁ s₂ o : Subst} {x y : TyVar} {t : Ty} {bs : List (TyVar × Ty)} {ss : List Subst}
  {D : TyVar → Prop}

section Sequence

theorem get?_put_of_not_mentions {u : Ty} (h : ¬s.Mentions x) :
    (s.put x u).get? y = if y = x then some u else s.get? y := by
  rw [get?_put]
  cases hy : s.get? y
  case none => simp
  case some v => simp [Ty.replace_eq_self fun hx => h (.target hy hx)]

theorem extend_of_not_mentions (hs : s.Solved) (hx : ¬s.Mentions x) (ht : x ∉ t.vars) :
    s.extend x t = .ok (s.put x (s.apply t)) := by
  have hn : x ∉ (s.apply t).vars := fun h => (mem_vars_apply h).elim ht hx
  simp only [extend, get?_of_not_mentions hx]
  exact bind_of_not_occurs hs hn

theorem extendAll_of_not_mentions (hs : s.Solved) (hk : ∀ b ∈ bs, ¬s.Mentions b.1)
    (hd : bs.Pairwise (·.1 ≠ ·.1)) (ht : ∀ b ∈ bs, ∀ c ∈ bs, c.1 ∉ b.2.vars) :
    ∃ o, bs.foldlM (fun s (x, t) => s.extend x t) s = .ok o ∧
      (∀ b ∈ bs, o.get? b.1 = some (s.apply b.2)) ∧
      ∀ y, (∀ b ∈ bs, b.1 ≠ y) → o.get? y = s.get? y := by
  induction bs generalizing s
  case nil => exact ⟨s, rfl, by simp⟩
  case cons b bs ih =>
    obtain ⟨hb, hbs⟩ := List.forall_mem_cons.mp hk
    obtain ⟨hbd, hd⟩ := List.pairwise_cons.mp hd
    have htb := ht b (by simp)
    have hn : b.1 ∉ (s.apply b.2).vars := fun h => (mem_vars_apply h).elim (htb b (by simp)) hb
    let s' := s.put b.1 (s.apply b.2)
    have hs' : s'.Solved := solved_put hs hn fun _ => hs.get?_of_mem_apply
    have hk' : ∀ c ∈ bs, ¬s'.Mentions c.1 := by
      intro c hc hm
      obtain h | h | h := mentions_put hm
      · exact hbs c hc h
      · exact hbd c hc h.symm
      · exact (mem_vars_apply h).elim (htb c (by simp [hc])) (hbs c hc)
    have same : ∀ c ∈ bs, s'.apply c.2 = s.apply c.2 := by
      refine fun c hc => Ty.subst_congr fun z hz => ?_
      have : z ≠ b.1 := fun h => ht c (by simp [hc]) b (by simp) (h ▸ hz)
      simp [s', image, get?_put_of_not_mentions hb, this]
    obtain ⟨o, ho, hmem, hne⟩ := ih hs' hk' hd fun c hc d hd => ht c (by simp [hc]) d (by simp [hd])
    refine ⟨o, ?_, List.forall_mem_cons.mpr ⟨?_, fun c hc => ?_⟩, fun y hy => ?_⟩
    · simp only [List.foldlM_cons, extend_of_not_mentions hs hb (htb b (by simp))]
      exact ho
    · rw [hne b.1 fun c hc => (hbd c hc).symm]
      simp [s', get?_put]
    · rw [hmem c hc, same c hc]
    · obtain ⟨hyb, hy⟩ := List.forall_mem_cons.mp hy
      rw [hne y hy]
      simp [s', get?_put_of_not_mentions hb, hyb.symm]

theorem compose_of_not_mentions (h₁ : s₁.Solved) (h₂ : s₂.Solved)
    (h : ∀ x, s₂.Mentions x → s₁.get? x = none) :
    ∃ o, compose s₁ s₂ = .ok o ∧ ∀ x, o.get? x = ((s₁.get? x).map s₂.apply).or (s₂.get? x) := by
  have hk : ∀ b ∈ s₁.entries, ¬s₂.Mentions b.1 := fun b hb hm =>
    absurd (h b.1 hm) (by simp [mem_entries_iff.mp hb])
  have ht : ∀ b ∈ s₁.entries, ∀ c ∈ s₁.entries, c.1 ∉ b.2.vars := fun b hb c hc hx =>
    absurd (h₁ b.1 b.2 (mem_entries_iff.mp hb) c.1 hx) (by simp [mem_entries_iff.mp hc])
  have ⟨o, ho, hmem, hne⟩ := extendAll_of_not_mentions h₂ hk s₁.entries_pairwise_ne ht
  refine ⟨o, ho, fun x => ?_⟩
  cases hx : s₁.get? x
  case some t => simp [hmem (x, t) (mem_entries_iff.mpr hx)]
  case none =>
    have : ∀ b ∈ s₁.entries, b.1 ≠ x := fun b hb hbx => by
      simp [← hbx, mem_entries_iff.mp hb] at hx
    simp [hne x this]

theorem image_compose (h₁ : s₁.Solved) (h₂ : s₂.Solved)
    (h : ∀ x, s₂.Mentions x → s₁.get? x = none) (ho : compose s₁ s₂ = .ok o) (x : TyVar) :
    o.image x = s₂.apply (s₁.image x) := by
  have ⟨o', ho', hg⟩ := compose_of_not_mentions h₁ h₂ h
  cases ho'.symm.trans ho
  cases hx : s₁.get? x <;> simp [image, hg, hx]

theorem apply_compose (h₁ : s₁.Solved) (h₂ : s₂.Solved)
    (h : ∀ x, s₂.Mentions x → s₁.get? x = none) (ho : compose s₁ s₂ = .ok o) (t : Ty) :
    o.apply t = s₂.apply (s₁.apply t) := by
  simp only [apply, Ty.subst_subst]
  exact Ty.subst_congr fun x _ => image_compose h₁ h₂ h ho x

-- Where no variable bound by `s₁` occurs in `s₂`, joining does not fail, binds what either of them
-- binds, and puts `s₁` first and `s₂` afterwards. None of it depends on types being free of holes.
theorem compose_sequential (s₁ s₂ : Subst) (h₁ : s₁.Solved) (h₂ : s₂.Solved)
    (h : ∀ x ∈ s₁.bindings.keys, ¬s₂.Mentions x) :
    ∃ o, compose s₁ s₂ = .ok o ∧
      (∀ x, x ∈ o.bindings.keys ↔ x ∈ s₁.bindings.keys ∨ x ∈ s₂.bindings.keys) ∧
      ∀ t, o.apply t = s₂.apply (s₁.apply t) := by
  have free : ∀ x, s₂.Mentions x → s₁.get? x = none := by
    intro x hm
    by_contra hx
    exact h x (mem_keys_iff.mpr (Option.isSome_iff_ne_none.mpr hx)) hm
  have ⟨o, ho, hget⟩ := compose_of_not_mentions h₁ h₂ free
  refine ⟨o, ho, fun x => ?keys, apply_compose h₁ h₂ free ho⟩
  case keys =>
    rw [mem_keys_iff, mem_keys_iff, mem_keys_iff, hget x]
    simp

def laterFree : Subst :=
  ((∅ : Subst).insert 1 (.list (.var 0))).insert 4 (.arrow (.var 2) (.var 0))
    |>.insert 6 (.hole none)

def earlierKeys : Subst :=
  ((∅ : Subst).insert 0 .int).insert 2 (.list (.var 3))

theorem compose_sequential_alternating :
    ∃ o, compose laterFree earlierKeys = .ok o ∧
      (∀ x, x ∈ o.bindings.keys ↔ x ∈ [1, 4, 6] ∨ x ∈ [0, 2]) ∧
      o.apply (.tuple [.var 1, .var 4, .var 6, .var 2, .hole none]) =
        .tuple [.list .int, .arrow (.list (.var 3)) .int, .hole none, .list (.var 3), .hole none] := by
  have entries₁ : laterFree.entries =
    [(1, .list (.var 0)), (4, .arrow (.var 2) (.var 0)), (6, .hole none)] := by cbv
  have entries₂ : earlierKeys.entries = [(0, .int), (2, .list (.var 3))] := by cbv
  have keys₁ : laterFree.bindings.keys = [1, 4, 6] := by cbv
  have keys₂ : earlierKeys.bindings.keys = [0, 2] := by cbv
  have h₁ : laterFree.Solved := by
    rw [solved_iff_entries, entries₁]
    simp [laterFree]
  have h₂ : earlierKeys.Solved := by
    rw [solved_iff_entries, entries₂]
    simp [earlierKeys]
  have apart : ∀ x ∈ laterFree.bindings.keys, ¬earlierKeys.Mentions x := by
    simp [mentions_iff_entries, keys₁, entries₂]
  obtain ⟨o, ho, keys, apply⟩ := compose_sequential laterFree earlierKeys h₁ h₂ apart
  rw [keys₁, keys₂] at keys
  refine ⟨o, ho, keys, ?_⟩
  rw [apply]
  cbv

end Sequence

section Free

def imageOf (bs : List (TyVar × Ty)) (x : TyVar) : Ty :=
  (bs.lookup x).getD (.var x)

theorem subst_imageOf_eq_self (h : ∀ b ∈ bs, b.1 ∉ t.vars) : t.subst (imageOf bs) = t := by
  refine Ty.subst_eq_self fun x hx => ?_
  have : bs.lookup x = none := by
    refine List.lookup_eq_none_iff.mpr fun b hb => ?_
    simpa using fun hxb : x = b.1 => h b hb (hxb ▸ hx)
  rw [imageOf, this, Option.getD_none]

theorem subst_imageOf_cons {u : Ty} (h : ∀ b ∈ bs, b.1 ∉ u.vars) :
    t.subst (imageOf ((x, u) :: bs)) = (t.replace x u).subst (imageOf bs) := by
  rw [Ty.replace, Ty.subst_subst]
  refine Ty.subst_congr fun y _ => ?_
  by_cases hy : y = x
  case pos => simp [hy, subst_imageOf_eq_self h, imageOf]
  case neg => simp [hy, imageOf, List.lookup_cons, beq_eq_false_iff_ne.mpr hy]

theorem extend_of_free (hs : s.Solved) (hx : s.get? x = none) (hxt : x ∉ t.vars)
    (ht : ∀ y ∈ t.vars, s.get? y = none) : s.extend x t = .ok (s.put x t) := by
  have ha : s.apply t = t := apply_eq_self ht
  rw [extend_of_unbound hx, bind_of_not_occurs hs (ha.symm ▸ hxt), ha]

theorem extendAll_of_free (hs : s.Solved) (hk : ∀ b ∈ bs, s.get? b.1 = none)
    (hd : bs.Pairwise (·.1 ≠ ·.1)) (ht : ∀ b ∈ bs, ∀ c ∈ bs, c.1 ∉ b.2.vars)
    (hf : ∀ b ∈ bs, ∀ y ∈ b.2.vars, s.get? y = none) :
    ∃ o, bs.foldlM (fun s (x, t) => s.extend x t) s = .ok o ∧
      ∀ y, o.get? y = (bs.lookup y).or ((s.get? y).map (·.subst (imageOf bs))) := by
  induction bs generalizing s
  case nil => exact ⟨s, rfl, fun y => by simp [subst_imageOf_eq_self]⟩
  case cons b bs ih =>
    obtain ⟨x, u⟩ := b
    obtain ⟨hx, hbs⟩ := List.forall_mem_cons.mp hk
    obtain ⟨hxd, hd⟩ := List.pairwise_cons.mp hd
    obtain ⟨hu, hfs⟩ := List.forall_mem_cons.mp hf
    have hxu : x ∉ u.vars := ht (x, u) (by simp) (x, u) (by simp)
    have later : ∀ c ∈ bs, c.1 ∉ u.vars := fun c hc => ht (x, u) (by simp) c (by simp [hc])
    have earlier : ∀ c ∈ bs, x ∉ c.2.vars := fun c hc => ht c (by simp [hc]) (x, u) (by simp)
    have free {y : TyVar} (hy : s.get? y = none) (hyx : y ≠ x) : (s.put x u).get? y = none := by
      rw [get?_put_of_ne hyx, hy, Option.map_none]
    obtain ⟨o, ho, hget⟩ := ih (solved_put hs hxu hu)
      (fun c hc => free (hbs c hc) (hxd c hc).symm) hd
      (fun c hc d hd => ht c (by simp [hc]) d (by simp [hd]))
      fun c hc y hy => free (hfs c hc y hy) fun hyx => earlier c hc (hyx ▸ hy)
    refine ⟨o, ?_, fun y => ?_⟩
    · simp only [List.foldlM_cons, extend_of_free hs hx hxu hu]
      exact ho
    · rw [hget y, get?_put, List.lookup_cons]
      by_cases hy : y = x
      case pos =>
        have : bs.lookup x = none := List.lookup_eq_none_iff.mpr fun c hc => by simpa using hxd c hc
        simp [hy, this, subst_imageOf_eq_self later]
      case neg =>
        simp [hy, beq_eq_false_iff_ne.mpr hy, Function.comp_def, subst_imageOf_cons later]

theorem compose_of_free (h₁ : s₁.Solved) (h₂ : s₂.Solved)
    (h : ∀ x, s₁.Mentions x → s₂.get? x = none) :
    ∃ o, compose s₁ s₂ = .ok o ∧ ∀ x, o.get? x = (s₁.get? x).or ((s₂.get? x).map s₁.apply) := by
  refine extendAll_of_free h₂ (fun b hb => ?_) s₁.entries_pairwise_ne (fun b hb c hc hx => ?_)
    fun b hb y hy => ?_
  · exact h b.1 (.key (mem_entries_iff.mp hb))
  · exact absurd (h₁ b.1 b.2 (mem_entries_iff.mp hb) c.1 hx) (by simp [mem_entries_iff.mp hc])
  · exact h y (.target (mem_entries_iff.mp hb) hy)

theorem image_compose_of_free (h₁ : s₁.Solved) (h₂ : s₂.Solved)
    (h : ∀ x, s₁.Mentions x → s₂.get? x = none) (ho : compose s₁ s₂ = .ok o) (x : TyVar) :
    o.image x = s₁.apply (s₂.image x) := by
  obtain ⟨o', ho', hget⟩ := compose_of_free h₁ h₂ h
  cases ho'.symm.trans ho
  cases hx : s₁.get? x
  case none => cases hx₂ : s₂.get? x <;> simp [image, hget, hx, hx₂]
  case some t => simp [image, hget, hx, h x (.key hx)]

theorem apply_compose_of_free (h₁ : s₁.Solved) (h₂ : s₂.Solved)
    (h : ∀ x, s₁.Mentions x → s₂.get? x = none) (ho : compose s₁ s₂ = .ok o) (t : Ty) :
    o.apply t = s₁.apply (s₂.apply t) := by
  simp only [apply, Ty.subst_subst]
  exact Ty.subst_congr fun x _ => image_compose_of_free h₁ h₂ h ho x

theorem compose_empty (hs : s.Solved) : compose s ∅ = .ok s := by
  obtain ⟨o, ho, hget⟩ := compose_of_free hs .empty fun _ _ => get?_empty _
  have : o = s := ext_get? fun x => by simp [hget]
  rw [ho, this]

theorem compose_compose {o' : Subst} (hs : s.Solved) (h₁ : s₁.Solved) (h₂ : s₂.Solved)
    (hs₁ : ∀ x, s₁.Mentions x → s.get? x = none) (hs₂ : ∀ x, s₂.Mentions x → s.get? x = none)
    (h₁₂ : ∀ x, s₂.Mentions x → s₁.get? x = none) (ho : compose s₁ s = .ok o)
    (ho' : compose s₁ s₂ = .ok o') : compose s₂ o = compose o' s := by
  have join := compose_join s₁ hs
  have join' := compose_join s₁ h₂
  obtain ⟨_, ho₁, hget⟩ := compose_of_free h₁ hs hs₁
  obtain ⟨_, ho₂, hget'⟩ := compose_of_not_mentions h₁ h₂ h₁₂
  cases ho.symm.trans ho₁
  cases ho'.symm.trans ho₂
  have free : ∀ x, s₂.Mentions x → o.get? x = none := by
    intro x hx
    simp [hget, h₁₂ x hx, hs₂ x hx]
  have free' : ∀ x, o'.Mentions x → s.get? x = none :=
    fun x hx => (join'.mentions ho' hx).elim (hs₁ x) (hs₂ x)
  obtain ⟨p, hp, getp⟩ := compose_of_free h₂ (join.solved ho) free
  obtain ⟨q, hq, getq⟩ := compose_of_free (join'.solved ho') hs free'
  have : p = q := by
    refine ext_get? fun x => ?_
    have same : o'.apply = s₂.apply ∘ s₁.apply := funext (apply_compose h₁ h₂ h₁₂ ho')
    rw [getp, getq, hget, hget', same]
    cases hx₁ : s₁.get? x
    case none => simp
    case some t =>
      have : s₂.get? x = none := get?_of_not_mentions fun hx => by simp [h₁₂ x hx] at hx₁
      simp [this]
  rw [hp, hq, this]

end Free

section Keys

theorem foldlM_ok_preserves {α β ε : Type} {f : β → α → Except ε β} {P : β → Prop} {as : List α}
    {b b' : β} (step : ∀ b a b', P b → f b a = .ok b' → P b') (hb : P b)
    (h : as.foldlM f b = .ok b') : P b' := by
  induction as generalizing b
  case nil =>
    cases h
    exact hb
  case cons a as ih =>
    rw [List.foldlM_cons] at h
    cases hf : f b a <;> rw [hf] at h
    case error => cases h
    case ok c => exact ih (step b a c hb hf) h

theorem isSome_bind (hx : (s.get? x).isSome) (h : s.bind y t = .ok o) : (o.get? x).isSome := by
  simp only [Subst.bind] at h
  split at h
  case isTrue =>
    cases h
    exact hx
  case isFalse =>
    split at h
    case isTrue => cases h
    case isFalse =>
      split at h <;> cases h
      change ((s.put y (s.apply t)).get? x).isSome
      rw [get?_put]
      split <;> simp [hx]

theorem isSome_extend (hx : (s.get? x).isSome) (h : s.extend y t = .ok o) : (o.get? x).isSome := by
  rw [extend] at h
  split at h
  case h_1 bound _ =>
    cases hu : unify (s.apply t) bound <;> rw [hu] at h
    case error => cases h
    case ok u =>
      exact foldlM_ok_preserves (P := fun s => (s.get? x).isSome) (fun _ _ _ => isSome_bind) hx h
  case h_2 => exact isSome_bind hx h

theorem isSome_compose_right (hx : (s₂.get? x).isSome) (h : compose s₁ s₂ = .ok o) :
    (o.get? x).isSome :=
  foldlM_ok_preserves (P := fun s => (s.get? x).isSome) (fun _ _ _ => isSome_extend) hx h

theorem isSome_compose_left (h₁ : s₁.Solved) (h₂ : s₂.Solved) (hx : (s₁.get? x).isSome)
    (hn : ¬s₂.Mentions x) (h : compose s₁ s₂ = .ok o) : (o.get? x).isSome := by
  have ⟨t, ht⟩ := Option.isSome_iff_exists.mp hx
  have ⟨l₁, l₂, hl⟩ := List.append_of_mem (mem_entries_iff.mpr ht)
  have hd := s₁.entries_pairwise_ne
  rw [hl, List.pairwise_append] at hd
  have hb : ∀ b ∈ l₁, s₁.get? b.1 = some b.2 ∧ x ≠ b.1 := fun b hb =>
    ⟨mem_entries_iff.mp (by simp [hl, hb]), (hd.right.right b hb (x, t) (by simp)).symm⟩
  have join := extendAll_join l₁ h₂
  rw [compose, hl, List.foldlM_append] at h
  cases ho : l₁.foldlM (fun s (x, t) => s.extend x t) s₂ <;> rw [ho] at h
  case error => cases h
  case ok o₁ =>
    have hm : ¬o₁.Mentions x := by
      intro hm
      obtain hm | ⟨b, hbl, hm | hm⟩ := join.mentions ho hm
      · exact hn hm
      · exact (hb b hbl).right hm
      · exact absurd (h₁ b.1 b.2 (hb b hbl).left x hm) (by simp [ht])
    have htx : x ∉ t.vars := fun h => absurd (h₁ x t ht x h) (by simp [ht])
    change ((x, t) :: l₂).foldlM (fun s (x, t) => s.extend x t) o₁ = _ at h
    simp only [List.foldlM_cons, extend_of_not_mentions (join.solved ho) hm htx] at h
    exact foldlM_ok_preserves (P := fun s => (s.get? x).isSome) (fun _ _ _ => isSome_extend)
      (by simp [get?_put]) h

end Keys

section Hides

-- No variable of `D` is put for a variable outside of it.
def Hides (D : TyVar → Prop) (s : Subst) : Prop :=
  ∀ x, ¬D x → ∀ y ∈ (s.image x).vars, ¬D y

theorem hides_of_not_mentions (h : ∀ x, D x → ¬s.Mentions x) : s.Hides D := by
  intro x hx y hy hd
  cases mem_vars_image hy
  case inl he => exact hx (he ▸ hd)
  case inr hm => exact h y hd hm

theorem Hides.empty : Hides D ∅ :=
  hides_of_not_mentions fun x _ => not_mentions_empty x

theorem Hides.apply (h : s.Hides D) (ht : ∀ x ∈ t.vars, ¬D x) : ∀ y ∈ (s.apply t).vars, ¬D y :=
  fun _ hy =>
    have ⟨x, hx, hy⟩ := Ty.mem_vars_subst.mp hy
    h x (ht x hx) _ hy

theorem Hides.solves {r r' f : TyVar → Ty} (hd : s.Hides D) (hs : s.Solved) (hr : Solves r s)
    (hf : ∀ x, ¬D x → f x = r x) (hout : ∀ x, ¬D x → r' x = r x)
    (hin : ∀ x, D x → s.Mentions x → r' x = (s.image x).subst f) : Solves r' s := by
  intro x t ht
  by_cases hx : D x
  case pos =>
    rw [hin x hx (.key ht), image_of_get? ht]
    refine Ty.subst_congr fun y hy => ?_
    by_cases hdy : D y
    case pos => simp [hin y hdy (.target ht hy), image_of_get?_none (hs x t ht y hy)]
    case neg => rw [hf y hdy, hout y hdy]
  case neg =>
    rw [hout x hx, hr x t ht]
    refine Ty.subst_congr fun y hy => (hout y ?_).symm
    exact hd x hx y (image_of_get? ht ▸ hy)

def ApartOn (D : TyVar → Prop) (s₁ s₂ : Subst) : Prop :=
  ∀ x, D x → s₁.Mentions x → ¬s₂.Mentions x

-- If a variable of `D` that is free were put for one outside of it, it would be the same under
-- every solution. But at most one of the two substitutions mentions it, which leaves its value
-- open.
theorem Hides.of_solves_iff (hs : s.Solved) (h₁ : s₁.Solved) (h₂ : s₂.Solved)
    (hsol : ∀ r, Solves r s ↔ Solves r s₁ ∧ Solves r s₂) (hd₁ : s₁.Hides D) (hd₂ : s₂.Hides D)
    (apart : ApartOn D s₁ s₂)
    (hk : ∀ x, D x → (s₁.get? x).isSome ∨ (s₂.get? x).isSome → (s.get? x).isSome) :
    s.Hides D := by
  classical
  intro x hx y hy hdy
  let f : TyVar → Ty := fun z => if D z then .int else s.image z
  let r : TyVar → Ty := fun z =>
    if D z then (if s₁.Mentions z then s₁.image z else s₂.image z).subst f else s.image z
  have ⟨hr₁, hr₂⟩ := hsol _ |>.mp hs.solves_image
  have hf : ∀ z, ¬D z → f z = s.image z := fun z hz => by simp [f, hz]
  have hout : ∀ z, ¬D z → r z = s.image z := fun z hz => by simp [r, hz]
  have hr : Solves r s := by
    refine hsol r |>.mpr ⟨hd₁.solves h₁ hr₁ hf hout ?_, hd₂.solves h₂ hr₂ hf hout ?_⟩
    · exact fun z hz hm => by simp [r, hz, hm]
    · intro z hz hm
      have hn : ¬s₁.Mentions z := fun h => apart z hz h hm
      simp [r, hz, hn]
  have hyn : s.get? y = none := hs.get?_of_mem_image hy
  have he : r y = s.image y := by
    refine Ty.eq_of_subst_eq (t := s.image x) ?_ hy
    rw [hr.subst_image, hout x hx]
    exact (hs.apply_image x).symm
  have hn : s₁.get? y = none ∧ s₂.get? y = none := by
    have := mt (hk y hdy) (by simp [hyn])
    simpa using this
  simp only [r, f, hdy, if_true, image_of_get?_none hn.left, image_of_get?_none hn.right, ite_self,
    Ty.subst_var, image_of_get?_none hyn] at he
  cases he

theorem Hides.compose (h₁ : s₁.Solved) (h₂ : s₂.Solved) (hd₁ : s₁.Hides D) (hd₂ : s₂.Hides D)
    (apart : ApartOn D s₁ s₂) (h : compose s₁ s₂ = .ok o) :
    o.Hides D := by
  have join := compose_join s₁ h₂
  refine .of_solves_iff (join.solved h) h₁ h₂ (fun r => join.solves_iff h) hd₁ hd₂ apart ?_
  intro x hx hk
  cases hk
  case inl hk =>
    have ⟨t, ht⟩ := Option.isSome_iff_exists.mp hk
    exact isSome_compose_left h₁ h₂ hk (apart x hx (.key ht)) h
  case inr hk => exact isSome_compose_right hk h

theorem Hides.foldlM_compose (hs : s.Solved) (hd : s.Hides D)
    (hss : ∀ p ∈ ss, p.Solved ∧ p.Hides D ∧ ApartOn D s p) (hp : ss.Pairwise (ApartOn D))
    (h : ss.foldlM Subst.compose s = .ok o) : o.Hides D := by
  induction ss generalizing s
  case nil =>
    cases h
    exact hd
  case cons p ss ih =>
    have ⟨hps, hss⟩ := List.forall_mem_cons.mp hss
    have ⟨hpd, hp⟩ := List.pairwise_cons.mp hp
    rw [List.foldlM_cons] at h
    cases hc : Subst.compose s p <;> rw [hc] at h
    case error => cases h
    case ok c =>
      have join := compose_join s hps.left
      refine ih (join.solved hc) (.compose hs hps.left hd hps.right.left hps.right.right hc) ?_ hp h
      intro q hq
      refine ⟨(hss q hq).left, (hss q hq).right.left, fun x hx hm => ?_⟩
      cases join.mentions hc hm
      case inl hm => exact (hss q hq).right.right x hx hm
      case inr hm => exact hpd q hq x hx hm

theorem Hides.composeAll (hss : ∀ p ∈ ss, p.Solved ∧ p.Hides D) (hp : ss.Pairwise (ApartOn D))
    (h : composeAll ss = .ok o) : o.Hides D := by
  refine .foldlM_compose .empty .empty (fun p hm => ?_) hp h
  exact ⟨(hss p hm).left, (hss p hm).right, fun x _ hx => absurd hx (not_mentions_empty x)⟩

theorem Hides.composeAll_append (ss : List Subst) {us : List Subst}
    (hss : ∀ p ∈ ss, p.Solved ∧ p.Hides D) (hp : ss.Pairwise (ApartOn D))
    (hus : ∀ p ∈ us, p.Solved ∧ ∀ x, D x → ¬p.Mentions x)
    (h : Subst.composeAll (ss ++ us) = .ok o) : o.Hides D := by
  refine .composeAll (fun p hp => ?_) (List.pairwise_append.mpr ⟨hp, ?_, fun p _ q hq => ?_⟩) h
  · cases List.mem_append.mp hp
    case inl hp => exact hss p hp
    case inr hp => exact (hus p hp).imp_right hides_of_not_mentions
  · exact List.pairwise_of_forall_mem_list fun p _ q hq x hx _ => (hus q hq).right x hx
  · exact fun x hx _ => (hus q hq).right x hx

end Hides

end HindleyMilner.Subst
