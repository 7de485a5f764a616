import HindleyMilner.Proofs.SourceText

namespace HindleyMilner.Expr

open Source

-- The expression to which the text of `e` comes when the branches `cs` follow it.
mutual
def absorb : Expr → List (Pattern × Expr) → Expr
  | .lam p e, cs => .lam p (e.absorb cs)
  | .binop op l r, _ => .binop op (l.absorb []) (r.absorb [])
  | .tuple es, _ => .tuple (absorbEach es)
  | .cons h t, cs => .cons (h.absorb []) (t.absorb cs)
  | .cond c y n, cs => .cond (c.absorb []) (y.absorb []) (n.absorb cs)
  | .app f a, _ => .app (f.absorb []) (a.absorb [])
  | .letIn x v e, cs => .letIn x (v.absorb []) (e.absorb cs)
  | .letRec x v e, cs => .letRec x (v.absorb []) (e.absorb cs)
  | .cases v bs, cs => .cases (v.absorb []) (absorbBranches bs cs)
  | e, _ => e
def absorbEach : List Expr → List Expr
  | [] => []
  | e :: es => e.absorb [] :: absorbEach es
def absorbBranches : List (Pattern × Expr) → List (Pattern × Expr) → List (Pattern × Expr)
  | [], cs => cs
  | (p, e) :: bs, cs =>
    if e.endsInCase then [(p, e.absorb (absorbBranches bs cs))]
    else (p, e.absorb []) :: absorbBranches bs cs
end

def regroup (e : Expr) : Expr :=
  e.absorb []

variable {e t : Expr} {es : List Expr} {bs cs : List (Pattern × Expr)}
  {allowed : List (Pattern × Expr) → Prop}

theorem isApp_absorb (e : Expr) (cs : List (Pattern × Expr)) :
    (e.absorb cs).isApp = e.isApp := by
  cases e <;> rfl

theorem isList_absorb (e : Expr) (cs : List (Pattern × Expr)) :
    (e.absorb cs).isList = e.isList := by
  fun_induction isList e
  case case1 => rfl
  case case2 t ih => exact ih
  case case3 e nil cons =>
    cases e
    case nil => exact absurd rfl nil
    case cons h t => exact absurd rfl (cons h t)
    all_goals rfl

theorem endsInCase_of_isList (h : t.isList) : t.endsInCase = false := by
  fun_induction isList t
  case case1 => rfl
  case case2 ih => exact ih h
  case case3 => cases h

theorem isEmpty_absorbBranches (bs : List (Pattern × Expr)) :
    (absorbBranches bs []).isEmpty = bs.isEmpty := by
  cases bs
  case nil => rfl
  case cons b bs =>
    rw [absorbBranches]
    split <;> rfl

theorem Spelled.endsInCase_regroup (h : e.Spelled allowed) :
    e.regroup.endsInCase = e.endsInCase := by
  induction h
  case int | bool | var | nil | binop | tuple | app => rfl
  case lam ih | cons ih | cond ih | letIn ih | letRec ih => exact ih
  case cases bs _ _ _ _ _ _ => exact congrArg not (isEmpty_absorbBranches bs)

structure Grouped (bs : List (Pattern × Expr)) : Prop where
  separate : Separate bs
  patterns : ∀ b ∈ bs, b.1.Spelled
  bodies : ∀ b ∈ bs, b.2.Spelled Separate

theorem grouped_nil : Grouped [] :=
  ⟨nofun, nofun, nofun⟩

theorem grouped_singleton {p : Pattern} (hp : p.Spelled) (he : e.Spelled Separate) :
    Grouped [(p, e)] :=
  ⟨nofun, List.forall_mem_singleton.mpr hp, List.forall_mem_singleton.mpr he⟩

theorem Grouped.cons {p : Pattern} (h : Grouped bs) (hp : p.Spelled) (he : e.Spelled Separate)
    (closed : e.endsInCase = false) : Grouped ((p, e) :: bs) where
  separate := by
    cases bs
    case nil => exact nofun
    case cons => exact List.forall_mem_cons.mpr ⟨closed, h.separate⟩
  patterns := List.forall_mem_cons.mpr ⟨hp, h.patterns⟩
  bodies := List.forall_mem_cons.mpr ⟨he, h.bodies⟩

theorem Grouped.absorbBranches (hps : ∀ b ∈ bs, b.1.Spelled) (hes : ∀ b ∈ bs, b.2.Spelled allowed)
    (ih : ∀ b ∈ bs, ∀ cs, Grouped cs → (b.2.absorb cs).Spelled Separate) (hcs : Grouped cs) :
    Grouped (absorbBranches bs cs) := by
  induction bs
  case nil => exact hcs
  case cons b bs ihbs =>
    obtain ⟨p, e⟩ := b
    obtain ⟨hp, hps⟩ := List.forall_mem_cons.mp hps
    obtain ⟨he, hes⟩ := List.forall_mem_cons.mp hes
    obtain ⟨ihe, ih⟩ := List.forall_mem_cons.mp ih
    have rest := ihbs hps hes ih
    rw [Expr.absorbBranches]
    split
    case isTrue => exact grouped_singleton hp (ihe _ rest)
    case isFalse closed =>
      have closed := he.endsInCase_regroup.trans (eq_false_of_ne_true closed)
      exact rest.cons hp (ihe _ grouped_nil) closed

theorem absorbEach_eq_map (es : List Expr) : absorbEach es = es.map regroup := by
  induction es
  case nil => rfl
  case cons ih => rw [absorbEach, List.map_cons, ih, regroup]

theorem Spelled.absorb (h : e.Spelled allowed) (hcs : Grouped cs) :
    (e.absorb cs).Spelled Separate := by
  induction h generalizing cs
  case int => exact .int
  case bool => exact .bool
  case var hx => exact .var hx
  case nil => exact .nil
  case lam hp _ ih => exact .lam hp (ih hcs)
  case binop ihl ihr => exact .binop (ihl grouped_nil) (ihr grouped_nil)
  case tuple es length _ ih =>
    rw [Expr.absorb, absorbEach_eq_map]
    refine .tuple (by rwa [List.length_map]) (List.forall_mem_map.mpr fun e he => ?_)
    exact ih e he grouped_nil
  case cons ihh iht => exact .cons (ihh grouped_nil) (iht hcs)
  case cond ihc ihy ihn => exact .cond (ihc grouped_nil) (ihy grouped_nil) (ihn hcs)
  case app ihf iha => exact .app (ihf grouped_nil) (iha grouped_nil)
  case letIn hx _ _ ihv ihe => exact .letIn hx (ihv grouped_nil) (ihe hcs)
  case letRec hx _ _ ihv ihe => exact .letRec hx (ihv grouped_nil) (ihe hcs)
  case cases _ _ hps hes ihv ihe =>
    have branches := hcs.absorbBranches hps hes fun b hb _ hcs => ihe b hb hcs
    exact .cases branches.separate (ihv grouped_nil) branches.patterns branches.bodies

theorem absorbBranches_nil (sep : Separate bs) (ih : ∀ b ∈ bs, b.2.regroup = b.2) :
    absorbBranches bs [] = bs := by
  induction bs
  case nil => rfl
  case cons b bs ihbs =>
    obtain ⟨p, e⟩ := b
    obtain ⟨he, ih⟩ := List.forall_mem_cons.mp ih
    rw [regroup] at he
    cases bs
    case nil => simp only [absorbBranches, he, ite_self]
    case cons =>
      obtain ⟨closed, sep⟩ := List.forall_mem_cons.mp sep
      rw [absorbBranches, closed, if_neg Bool.false_ne_true, he, ihbs sep ih]

theorem Spelled.regroup_eq_self (h : e.Spelled Separate) : e.regroup = e := by
  induction h
  case int | bool | var | nil => rfl
  case lam ih => exact congrArg _ ih
  case binop ihl ihr => exact congrArg₂ _ ihl ihr
  case tuple ih =>
    rw [regroup, Expr.absorb, absorbEach_eq_map, List.map_congr_left ih, List.map_id']
  case cons ihh iht => exact congrArg₂ _ ihh iht
  case cond ihc ihy ihn =>
    rw [regroup] at ihc ihy ihn ⊢
    rw [Expr.absorb, ihc, ihy, ihn]
  case app ihf iha => exact congrArg₂ _ ihf iha
  case letIn ihv ihe => exact congrArg₂ _ ihv ihe
  case letRec ihv ihe => exact congrArg₂ _ ihv ihe
  case cases sep _ _ _ ihv ihe => exact congrArg₂ _ ihv (absorbBranches_nil sep ihe)

structure SameText (e : Expr) : Prop where
  layout (b : Bool) : (e.absorb []).layout b = e.layout b
  items : layoutItems (e.absorb []) = layoutItems e
  absorb (h : e.endsInCase) (cs : List (Pattern × Expr)) :
    (e.absorb cs).layout false = e.layout false ++ layoutBranches cs

theorem SameText.of_closed (closed : e.endsInCase = false)
    (layout : ∀ b, (e.absorb []).layout b = e.layout b)
    (items : layoutItems (e.absorb []) = layoutItems e) : SameText e where
  layout := layout
  items := items
  absorb h := by
    rw [closed] at h
    cases h

theorem SameText.of_last {last : Expr} {s : String} (hl : SameText last)
    (text : ∀ b, e.layout b = parenthesizeIf b (s ++ last.layout false))
    (absorbed : ∀ b cs,
      (e.absorb cs).layout b = parenthesizeIf b (s ++ (last.absorb cs).layout false))
    (ends : e.endsInCase = last.endsInCase) (items : layoutItems (e.absorb []) = layoutItems e) :
    SameText e where
  layout b := by rw [text, absorbed, hl.layout]
  items := items
  absorb h cs := by
    rw [text, absorbed, hl.absorb (ends ▸ h), ← String.append_assoc]
    rfl

theorem layoutBranches_absorb (ih : ∀ b ∈ bs, SameText b.2) :
    layoutBranches (absorbBranches bs cs) = layoutBranches bs ++ layoutBranches cs := by
  induction bs
  case nil => exact String.empty_append.symm
  case cons b bs ihbs =>
    obtain ⟨p, e⟩ := b
    obtain ⟨he, ih⟩ := List.forall_mem_cons.mp ih
    rw [absorbBranches]
    split
    case isTrue h =>
      rw [layoutBranches, layoutBranches, layoutBranches, he.absorb h, ihbs ih]
      simp only [String.append_assoc, String.append_empty]
    case isFalse =>
      rw [layoutBranches, layoutBranches, he.layout, ihbs ih]
      simp only [String.append_assoc]

theorem layout_cases {v : Expr} {s : String} (h : layoutBranches bs = " | " ++ s) (b : Bool) :
    (cases v bs).layout b = parenthesizeIf b ("match " ++ v.layout false ++ " with " ++ s) := by
  cases bs
  case nil =>
    have chars := congrArg String.toList h
    rw [String.toList_append] at chars
    cases chars
  case cons b' bs =>
    rw [layoutBranches] at h
    simp only [String.append_assoc, String.append_right_inj] at h
    rw [layout, ← h]
    simp only [String.append_assoc]

theorem sameText_cases {v : Expr} (hv : SameText v) (ih : ∀ b ∈ bs, SameText b.2) :
    SameText (.cases v bs) := by
  cases bs
  case nil =>
    exact .of_closed rfl (fun b => by rw [absorb, absorbBranches, layout, layout, hv.layout]) rfl
  case cons b bs =>
    obtain ⟨s, text⟩ : ∃ s, layoutBranches (b :: bs) = " | " ++ s :=
      ⟨b.1.layout false ++ " -> " ++ b.2.layout false ++ layoutBranches bs,
        by simp only [layoutBranches, String.append_assoc]⟩
    have absorbed (cs) : layoutBranches (absorbBranches (b :: bs) cs) =
        " | " ++ (s ++ layoutBranches cs) := by
      rw [layoutBranches_absorb ih, text, String.append_assoc]
    refine ⟨fun b => ?_, rfl, fun _ cs => ?_⟩
    · rw [absorb, layout_cases (absorbed []), layout_cases text, hv.layout, layoutBranches,
        String.append_empty]
    · rw [absorb, layout_cases (absorbed cs), layout_cases text, hv.layout, ← String.append_assoc]
      rfl

theorem layoutElems_absorbEach (ih : ∀ e ∈ es, SameText e) :
    layoutElems (absorbEach es) = layoutElems es := by
  induction es
  case nil => rfl
  case cons e es ihes =>
    obtain ⟨he, ih⟩ := List.forall_mem_cons.mp ih
    rw [absorbEach, layoutElems, layoutElems, he.layout, ihes ih]

theorem sameText_tuple (ih : ∀ e ∈ es, SameText e) : SameText (.tuple es) := by
  refine .of_closed rfl (fun b => ?_) rfl
  cases es
  case nil => rfl
  case cons e es =>
    obtain ⟨he, ih⟩ := List.forall_mem_cons.mp ih
    rw [absorb, absorbEach, layout, layout, he.layout, layoutElems_absorbEach ih]

theorem sameText_cons {h : Expr} (hh : SameText h) (ht : SameText t) : SameText (.cons h t) := by
  have items : layoutItems ((cons h t).absorb []) = layoutItems (.cons h t) := by
    rw [absorb, layoutItems, layoutItems, hh.layout, ht.items]
  cases hl : t.isList
  case true =>
    refine .of_closed (endsInCase_of_isList hl) (fun b => ?_) items
    rw [absorb, layout, layout, isList_absorb, hl, if_pos rfl, if_pos rfl, hh.layout, ht.items]
  case false =>
    refine .of_last (s := h.layout true ++ " :: ") ht (fun b => ?_) (fun b cs => ?_) rfl items
    · rw [layout, hl, if_neg Bool.false_ne_true]
    · rw [absorb, layout, isList_absorb, hl, if_neg Bool.false_ne_true, hh.layout]

theorem Spelled.sameText (h : e.Spelled allowed) : SameText e := by
  induction h
  case int | bool | var | nil => exact .of_closed rfl (fun _ => rfl) rfl
  case lam ih =>
    exact .of_last ih (fun _ => by rw [layout]) (fun _ _ => by rw [Expr.absorb, layout]) rfl rfl
  case binop ihl ihr =>
    refine .of_closed rfl (fun _ => ?_) rfl
    rw [Expr.absorb, layout, layout, isApp_absorb, isApp_absorb, ihl.layout, ihr.layout]
  case tuple ih => exact sameText_tuple ih
  case cons ihh iht => exact sameText_cons ihh iht
  case cond ihc ihy ihn =>
    exact .of_last ihn (fun _ => by rw [layout])
      (fun _ _ => by rw [Expr.absorb, layout, ihc.layout, ihy.layout]) rfl rfl
  case app ihf iha =>
    refine .of_closed rfl (fun _ => ?_) rfl
    rw [Expr.absorb, layout, layout, isApp_absorb, ihf.layout, iha.layout]
  case letIn ihv ihe =>
    exact .of_last ihe (fun _ => by rw [layout])
      (fun _ _ => by rw [Expr.absorb, layout, ihv.layout]) rfl rfl
  case letRec ihv ihe =>
    exact .of_last ihe (fun _ => by rw [layout])
      (fun _ _ => by rw [Expr.absorb, layout, ihv.layout]) rfl rfl
  case cases ihv ihe => exact sameText_cases ihv ihe

def outerBranch : Expr :=
  .cases (.var "x") [(.var "a", .cases (.var "y") [(.var "b", .int 1)]), (.var "c", .int 2)]

def innerBranch : Expr :=
  .cases (.var "x") [(.var "a", .cases (.var "y") [(.var "b", .int 1), (.var "c", .int 2)])]

theorem spelled_outerBranch : outerBranch.Spelled fun _ => True := by
  have match_y : (cases (.var "y") [(.var "b", .int 1)]).Spelled fun _ => True :=
    .cases trivial (.var (by decide)) (List.forall_mem_singleton.mpr (.var (by decide)))
      (List.forall_mem_singleton.mpr .int)
  exact .cases trivial (.var (by decide))
    (List.forall_mem_cons.mpr ⟨.var (by decide), List.forall_mem_singleton.mpr (.var (by decide))⟩)
    (List.forall_mem_cons.mpr ⟨match_y, List.forall_mem_singleton.mpr .int⟩)

theorem spelled_innerBranch (h : ∀ bs, Separate bs → allowed bs) :
    innerBranch.Spelled allowed := by
  have match_y : (cases (.var "y") [(.var "b", .int 1), (.var "c", .int 2)]).Spelled allowed :=
    .cases (h _ (List.forall_mem_singleton.mpr rfl)) (.var (by decide))
      (List.forall_mem_cons.mpr ⟨.var (by decide), List.forall_mem_singleton.mpr (.var (by decide))⟩)
      (List.forall_mem_cons.mpr ⟨.int, List.forall_mem_singleton.mpr .int⟩)
  exact .cases (h _ nofun) (.var (by decide)) (List.forall_mem_singleton.mpr (.var (by decide)))
    (List.forall_mem_singleton.mpr match_y)

theorem outerBranch_ne_innerBranch : outerBranch ≠ innerBranch := by
  simp [outerBranch, innerBranch]

-- The text alone does not tell which match a branch belongs to.
theorem render_ambiguous :
    (outerBranch.Spelled fun _ => True) ∧ (innerBranch.Spelled fun _ => True) ∧
      outerBranch.render = innerBranch.render ∧ outerBranch ≠ innerBranch :=
  ⟨spelled_outerBranch, spelled_innerBranch fun _ _ => trivial, by decide,
    outerBranch_ne_innerBranch⟩

-- Two expressions have the same source text exactly if they are the same regrouped. So the text
-- tells the expression where no branch but the last of a match ends with a branch.
theorem render_eq_iff_regroup (e₁ e₂ : Expr) (h₁ : e₁.Spelled fun _ => True)
    (h₂ : e₂.Spelled fun _ => True) :
    (e₁.render = e₂.render ↔ e₁.regroup = e₂.regroup) ∧
      (e₁.Spelled Separate → e₂.Spelled Separate → e₁.render = e₂.render → e₁ = e₂) := by
  have text {e : Expr} (h : e.Spelled fun _ => True) : e.regroup.render = e.render :=
    h.sameText.layout false
  have read {e : Expr} (h : e.Spelled fun _ => True) :
      Reader.run (scan e.render) ⟨[], none⟩ = some e.regroup :=
    text h ▸ (h.absorb grouped_nil).run_render
  have determined (h : e₁.render = e₂.render) : e₁.regroup = e₂.regroup := by
    have same := h ▸ read h₁
    exact Option.some_inj.mp (same.symm.trans (read h₂))
  refine ⟨⟨determined, fun h => ?_⟩, fun s₁ s₂ h => ?_⟩
  · rw [← text h₁, ← text h₂, h]
  · rw [← s₁.regroup_eq_self, ← s₂.regroup_eq_self, determined h]

theorem render_eq_iff_regroup_branches :
    outerBranch.regroup = innerBranch.regroup ∧ innerBranch.Spelled Separate ∧
      ¬outerBranch.Spelled Separate := by
  have inner : innerBranch.Spelled Separate := spelled_innerBranch fun _ h => h
  have same : outerBranch.render = innerBranch.render := by decide
  have both := render_eq_iff_regroup outerBranch innerBranch spelled_outerBranch
    (spelled_innerBranch fun _ _ => trivial)
  refine ⟨both.left.mp same, inner, fun outer => ?_⟩
  exact outerBranch_ne_innerBranch (both.right outer inner same)

end HindleyMilner.Expr
