import HindleyMilner.Proofs.SourceReader

namespace HindleyMilner

open Text

namespace Expr

open Source Source.Reader

variable {s : String} {e h t v : Expr} {bs : List (Pattern × Expr)} {ts : List Token}

def endsInCase : Expr → Bool
  | .lam _ e => e.endsInCase
  | .cons _ t => t.endsInCase
  | .cond _ _ n => n.endsInCase
  | .letIn _ _ e => e.endsInCase
  | .letRec _ _ e => e.endsInCase
  | .cases _ bs => !bs.isEmpty
  | _ => false

theorem startsApart_layoutItems (e : Expr) : startsApart (layoutItems e) := by
  cases e
  case cons =>
    rw [layoutItems, String.append_assoc]
    exact startsApart_append (by decide) (by decide)
  all_goals rfl

theorem scan_layoutItems_cons (h t : Expr) :
    scan (layoutItems (.cons h t)) =
      .closer .semicolon :: (scan (h.layout false) ++ scan (layoutItems t)) := by
  rw [layoutItems, scan_append_of_starts (startsApart_layoutItems t),
    scan_opened (rfl : scan "; " = [.closer .semicolon]) (by decide)]
  rfl

theorem ends_items (e : Expr) : Ends true (scan (layoutItems e) ++ .closer .bracket :: ts) := by
  cases e
  case cons => exact scan_layoutItems_cons _ _ ▸ .closer _ nofun
  all_goals exact .closer _ nofun

theorem items_cons (hh : Whole true (h.layout false) h) (ht : Items (layoutItems t) t) :
    Items (layoutItems (.cons h t)) (.cons h t) := by
  intro fs f before e ts
  rw [scan_layoutItems_cons, List.cons_append, List.append_assoc]
  calc run (.closer .semicolon :: (scan (h.layout false) ++
        (scan (layoutItems t) ++ .closer .bracket :: ts))) ⟨.bracket f before :: fs, some e⟩
    _ = run (scan (h.layout false) ++ (scan (layoutItems t) ++ .closer .bracket :: ts))
        ⟨.bracket f (before ++ [e]) :: fs, none⟩ := rfl
    _ = run (scan (layoutItems t) ++ .closer .bracket :: ts)
        ⟨.bracket f (before ++ [e]) :: fs, some h⟩ := hh _ (ends_items t)
    _ = _ := ht _ _ _ _ _
    _ = _ := by simp only [List.foldr_append, List.foldr_cons, List.foldr_nil]

theorem simple_list (hh : Whole true (h.layout false) h) (ht : Items (layoutItems t) t) :
    Simple ("[" ++ h.layout false ++ layoutItems t ++ "]") (.cons h t) := by
  intro fs f ts
  rw [scan_closed (rfl : scan "]" = [.closer .bracket]) (by decide),
    scan_append_of_starts (startsApart_layoutItems t),
    scan_opened (rfl : scan "[" = [.bracket]) (by decide), List.append_assoc, List.append_assoc,
    List.append_assoc]
  calc run (.bracket :: (scan (h.layout false) ++ (scan (layoutItems t) ++ .closer .bracket :: ts)))
        ⟨fs, f⟩
    _ = run (scan (h.layout false) ++ (scan (layoutItems t) ++ .closer .bracket :: ts))
        ⟨.bracket f [] :: fs, none⟩ := rfl
    _ = run (scan (layoutItems t) ++ .closer .bracket :: ts) ⟨.bracket f [] :: fs, some h⟩ :=
      hh _ (ends_items t)
    _ = run ts ⟨fs, some (applied f (.cons h t))⟩ := ht _ _ _ _ _

theorem startsApart_layoutBranches (bs : List (Pattern × Expr)) :
    startsApart (layoutBranches bs) := by
  cases bs <;> rw [layoutBranches]
  case nil => decide
  case cons =>
    simp only [String.append_assoc]
    exact startsApart_append (by decide) (by decide)

theorem scan_layoutBranches_cons (p : Pattern) (e : Expr) (bs : List (Pattern × Expr)) :
    scan (layoutBranches ((p, e) :: bs)) = .closer .bar :: (scan (p.layout false) ++
      .closer .arrow :: (scan (e.layout false) ++ scan (layoutBranches bs))) := by
  rw [layoutBranches, scan_append_of_starts (startsApart_layoutBranches bs),
    scan_between (rfl : scan " -> " = [.closer .arrow]) (by decide),
    scan_opened (rfl : scan " | " = [.closer .bar]) (by decide), List.append_assoc,
    List.append_assoc]
  rfl

-- No branch but the last takes in the one that follows it.
def Separate (bs : List (Pattern × Expr)) : Prop :=
  ∀ b ∈ bs.dropLast, b.2.endsInCase = false

theorem run_last_branch {fs : List Frame} {before : List (Pattern × Expr)} {p : Pattern}
    (hts : Ends true ts) :
    run ts ⟨.branch v before p :: fs, some e⟩ =
      run ts ⟨fs, some (.cases v (before ++ [(p, e)]))⟩ := by
  cases hts
  case text => rfl
  case closer c ts hc =>
    have other : c ≠ .bar := fun h => Bool.noConfusion (hc h)
    simp [run, step, settle, close, other]

structure BranchReads (b : Pattern × Expr) : Prop where
  pattern : Whole false (b.1.layout false) b.1.toExpr
  inverse : .ofExpr b.1.toExpr = b.1
  body : Whole b.2.endsInCase (b.2.layout false) b.2

theorem BranchReads.run_eq {fs : List Frame} {p : Pattern} (h : BranchReads (p, e))
    (hts : Ends e.endsInCase ts) (before : List (Pattern × Expr)) :
    run (scan (p.layout false) ++ .closer .arrow :: (scan (e.layout false) ++ ts))
      ⟨.pattern v before :: fs, none⟩ = run ts ⟨.branch v before p :: fs, some e⟩ := by
  calc run (scan (p.layout false) ++ .closer .arrow :: (scan (e.layout false) ++ ts))
        ⟨.pattern v before :: fs, none⟩
    _ = run (.closer .arrow :: (scan (e.layout false) ++ ts))
        ⟨.pattern v before :: fs, some p.toExpr⟩ := h.pattern _ (.closer _ nofun)
    _ = run (scan (e.layout false) ++ ts) ⟨.branch v before (.ofExpr p.toExpr) :: fs, none⟩ := rfl
    _ = run ts ⟨.branch v before p :: fs, some e⟩ := by rw [h.inverse, h.body _ hts]

theorem run_branches {fs : List Frame} {p : Pattern} (sep : Separate ((p, e) :: bs))
    (hbs : ∀ b ∈ (p, e) :: bs, BranchReads b) (hts : Ends true ts)
    (before : List (Pattern × Expr)) :
    run (scan (p.layout false) ++ .closer .arrow :: (scan (e.layout false) ++
        (scan (layoutBranches bs) ++ ts))) ⟨.pattern v before :: fs, none⟩ =
      run ts ⟨fs, some (.cases v (before ++ (p, e) :: bs))⟩ := by
  induction bs generalizing p e before
  case nil =>
    have hb := hbs _ List.mem_cons_self
    exact (hb.run_eq hts.mono before).trans (run_last_branch hts)
  case cons b bs ih =>
    obtain ⟨p', e'⟩ := b
    obtain ⟨hb, hbs⟩ := List.forall_mem_cons.mp hbs
    obtain ⟨closed, sep⟩ := List.forall_mem_cons.mp sep
    rw [scan_layoutBranches_cons, List.cons_append, List.append_assoc, List.cons_append,
      List.append_assoc, hb.run_eq (.closer _ fun _ => closed)]
    calc run (.closer .bar :: (scan (p'.layout false) ++ .closer .arrow ::
          (scan (e'.layout false) ++ (scan (layoutBranches bs) ++ ts))))
          ⟨.branch v before p :: fs, some e⟩
      _ = run (scan (p'.layout false) ++ .closer .arrow :: (scan (e'.layout false) ++
          (scan (layoutBranches bs) ++ ts))) ⟨.pattern v (before ++ [(p, e)]) :: fs, none⟩ := rfl
      _ = run ts ⟨fs, some (.cases v (before ++ [(p, e)] ++ (p', e') :: bs))⟩ := ih sep hbs _
      _ = _ := by rw [List.append_assoc]; rfl

theorem run_value (hv : Whole true (v.layout false) v) (fs : List Frame) (ts : List Token) :
    run (.cases :: (scan (v.layout false) ++ .closer .of :: ts)) ⟨fs, none⟩ =
      run ts ⟨.pattern v [] :: fs, none⟩ := by
  calc run (.cases :: (scan (v.layout false) ++ .closer .of :: ts)) ⟨fs, none⟩
    _ = run (scan (v.layout false) ++ .closer .of :: ts) ⟨.value :: fs, none⟩ := rfl
    _ = run (.closer .of :: ts) ⟨.value :: fs, some v⟩ := hv _ (.closer _ nofun)
    _ = run ts ⟨.pattern v [] :: fs, none⟩ := rfl

theorem whole_cases_nil {b : Bool} (hv : Whole true (v.layout false) v) :
    Whole b ("match " ++ v.layout false ++ " with") (.cases v []) := by
  intro fs ts hts
  rw [scan_closed (rfl : scan " with" = [.closer .of]) (by decide),
    scan_opened (rfl : scan "match " = [.cases]) (by decide), List.append_assoc, List.append_assoc]
  refine (run_value hv fs ts).trans ?_
  cases hts <;> rfl

theorem whole_cases_cons {p : Pattern} (hv : Whole true (v.layout false) v)
    (sep : Separate ((p, e) :: bs)) (hbs : ∀ b ∈ (p, e) :: bs, BranchReads b) :
    Whole true ("match " ++ v.layout false ++ " with " ++ p.layout false ++ " -> " ++
      e.layout false ++ layoutBranches bs) (.cases v ((p, e) :: bs)) := by
  intro fs ts hts
  rw [scan_append_of_starts (startsApart_layoutBranches bs),
    scan_between (rfl : scan " -> " = [.closer .arrow]) (by decide),
    scan_between (rfl : scan " with " = [.closer .of]) (by decide),
    scan_opened (rfl : scan "match " = [.cases]) (by decide)]
  simp only [List.append_assoc]
  exact (run_value hv fs _).trans (run_branches sep hbs hts [])

end Expr

namespace Pattern

open Source

variable {p : Pattern} {ps : List Pattern}

-- The patterns that a text can tell apart: their variables are identifiers, and parentheses are not
-- taken for a tuple.
inductive Spelled : Pattern → Prop
  | wildcard : Spelled .wildcard
  | int {n : Int64} : Spelled (.int n)
  | bool {b : Bool} : Spelled (.bool b)
  | nil : Spelled .nil
  | var {x : String} (hx : IsIdentifier x) : Spelled (.var x)
  | cons {h t : Pattern} (hh : Spelled h) (ht : Spelled t) : Spelled (.cons h t)
  | tuple {ps : List Pattern} (length : ps.length ≠ 1) (hps : ∀ p ∈ ps, Spelled p) :
    Spelled (.tuple ps)

theorem ofExprs_toExprs (h : ∀ p ∈ ps, ofExpr p.toExpr = p) : ofExprs (toExprs ps) = ps := by
  induction ps
  case nil => rfl
  case cons p ps ih =>
    obtain ⟨hp, h⟩ := List.forall_mem_cons.mp h
    rw [toExprs, ofExprs, hp, ih h]

theorem Spelled.ofExpr_toExpr (h : p.Spelled) : ofExpr p.toExpr = p := by
  induction h
  case wildcard | int | bool | nil => rfl
  case var x hx =>
    have named : x ≠ "_" := by
      rintro rfl
      exact absurd hx (by decide)
    rw [toExpr, ofExpr, if_neg named]
  case cons ihh iht => rw [toExpr, ofExpr, ihh, iht]
  case tuple ih => rw [toExpr, ofExpr, ofExprs_toExprs ih]

theorem layoutRest_eq_elemsText (ps : List Pattern) :
    layoutRest ps = elemsText (ps.map (layout false)) := by
  induction ps
  case nil => rfl
  case cons p ps ih => rw [layoutRest, List.map_cons, elemsText, ih]

theorem forall₂_toExprs (h : ∀ p ∈ ps, Whole false (p.layout false) p.toExpr) :
    List.Forall₂ (Whole true) (ps.map (layout false)) (toExprs ps) := by
  induction ps
  case nil => exact .nil
  case cons p ps ih =>
    obtain ⟨hp, h⟩ := List.forall_mem_cons.mp h
    exact .cons hp.weaken (ih h)

structure Reads (p : Pattern) : Prop where
  simple : Simple (p.layout true) p.toExpr
  whole : Whole false (p.layout false) p.toExpr

theorem Reads.of_eq (same : p.layout false = p.layout true) (h : Simple (p.layout true) p.toExpr) :
    Reads p where
  simple := h
  whole := same ▸ h.operand.whole

theorem Reads.cons {h t : Pattern} (hh : Reads h) (ht : Reads t) : Reads (.cons h t) := by
  have whole := whole_cons hh.simple ht.whole
  exact ⟨whole.paren, whole⟩

theorem Reads.tuple (length : ps.length ≠ 1) (h : ∀ p ∈ ps, Reads p) : Reads (.tuple ps) := by
  cases ps
  case nil => exact .of_eq rfl simple_unit
  case cons p ps =>
    obtain ⟨hp, h⟩ := List.forall_mem_cons.mp h
    refine .of_eq (by rw [layout, layout]) ?_
    rw [layout, layoutRest_eq_elemsText]
    refine simple_tuple (forall₂_toExprs fun p hp => (h p hp).whole) hp.whole.weaken ?_
    cases ps
    case nil => exact absurd rfl length
    case cons => nofun

theorem Spelled.reads (h : p.Spelled) : Reads p := by
  induction h
  case wildcard => exact .of_eq rfl (simple_atom (by decide) rfl)
  case int n => exact .of_eq rfl (simple_atom (isWord_toString _) (ofWord_toString n))
  case bool b => cases b <;> exact .of_eq rfl (simple_atom (by decide) rfl)
  case nil => exact .of_eq rfl simple_nil
  case var hx => exact .of_eq rfl (simple_atom hx.isWord hx.ofWord_eq)
  case cons ihh iht => exact .cons ihh iht
  case tuple length _ ih => exact .tuple length ih

end Pattern

namespace Expr

open Source

variable {e : Expr} {es : List Expr} {bs : List (Pattern × Expr)}

-- Every place is filled, every operator is known, every name is an identifier, and parentheses are
-- not taken for a tuple. Each match has branches that are `allowed`.
inductive Spelled (allowed : List (Pattern × Expr) → Prop) : Expr → Prop
  | int {n : Int64} : Spelled allowed (.int n)
  | bool {b : Bool} : Spelled allowed (.bool b)
  | var {x : String} (hx : IsIdentifier x) : Spelled allowed (.var x)
  | nil : Spelled allowed .nil
  | lam {p : Pattern} {e : Expr} (hp : p.Spelled) (he : Spelled allowed e) :
    Spelled allowed (.lam p e)
  | binop {op : Op} {l r : Expr} (hl : Spelled allowed l) (hr : Spelled allowed r) :
    Spelled allowed (.binop op l r)
  | tuple {es : List Expr} (length : es.length ≠ 1) (hes : ∀ e ∈ es, Spelled allowed e) :
    Spelled allowed (.tuple es)
  | cons {h t : Expr} (hh : Spelled allowed h) (ht : Spelled allowed t) :
    Spelled allowed (.cons h t)
  | cond {c y n : Expr} (hc : Spelled allowed c) (hy : Spelled allowed y) (hn : Spelled allowed n) :
    Spelled allowed (.cond c y n)
  | app {f a : Expr} (hf : Spelled allowed f) (ha : Spelled allowed a) : Spelled allowed (.app f a)
  | letIn {x : String} {v e : Expr} (hx : IsIdentifier x) (hv : Spelled allowed v)
    (he : Spelled allowed e) : Spelled allowed (.letIn x v e)
  | letRec {x : String} {v e : Expr} (hx : IsIdentifier x) (hv : Spelled allowed v)
    (he : Spelled allowed e) : Spelled allowed (.letRec x v e)
  | cases {v : Expr} {bs : List (Pattern × Expr)} (hbs : allowed bs) (hv : Spelled allowed v)
    (hps : ∀ b ∈ bs, b.1.Spelled) (hes : ∀ b ∈ bs, Spelled allowed b.2) :
    Spelled allowed (.cases v bs)

structure Reads (e : Expr) : Prop where
  simple : Simple (e.layout true) e
  operand : Operand (e.layout (!e.isApp)) e
  whole : Whole e.endsInCase (e.layout false) e
  items : e.isList → Items (layoutItems e) e

theorem Reads.of_eq (same : e.layout false = e.layout true) (h : Simple (e.layout true) e)
    (hi : e.isList → Items (layoutItems e) e) : Reads e where
  simple := h
  operand := by
    cases e.isApp
    case true => exact same ▸ h.operand
    case false => exact h.operand
  whole := same ▸ h.operand.whole
  items := hi

theorem Reads.of_parenthesizeIf {s : String} (text : ∀ b, e.layout b = parenthesizeIf b s)
    (hf : e.isApp = false) (hl : e.isList = false) (h : Whole e.endsInCase s e) : Reads e := by
  have simple : Simple (e.layout true) e := by
    rw [text]
    exact h.paren
  refine ⟨simple, ?_, ?_, ?_⟩
  · rw [hf]
    exact simple.operand
  · rw [text]
    exact h
  · rw [hl]
    nofun

theorem layoutElems_eq_elemsText (es : List Expr) :
    layoutElems es = elemsText (es.map (layout false)) := by
  induction es
  case nil => rfl
  case cons e es ih => rw [layoutElems, List.map_cons, elemsText, ih]

theorem forall₂_whole (h : ∀ e ∈ es, Reads e) :
    List.Forall₂ (Whole true) (es.map (layout false)) es := by
  rw [List.forall₂_map_left_iff, List.forall₂_same]
  exact fun e he => (h e he).whole.weaken

theorem reads_int (n : Int64) : Reads (.int n) := by
  have text := simple_atom (isWord_toString _) (ofWord_toString n)
  by_cases hn : n < 0
  case pos =>
    refine .of_parenthesizeIf (fun b => ?_) rfl rfl text.operand.whole
    rw [layout, decide_eq_true hn, Bool.and_true]
  case neg =>
    have same (b : Bool) : (int n).layout b = toString n.toInt := by
      rw [layout, decide_eq_false hn, Bool.and_false]
      rfl
    exact .of_eq (by rw [same, same]) (same true ▸ text) nofun

theorem reads_tuple (length : es.length ≠ 1) (h : ∀ e ∈ es, Reads e) : Reads (.tuple es) := by
  cases es
  case nil => exact .of_eq rfl simple_unit nofun
  case cons e es =>
    obtain ⟨he, h⟩ := List.forall_mem_cons.mp h
    refine .of_eq (by rw [layout, layout]) ?_ nofun
    rw [layout, layoutElems_eq_elemsText]
    refine simple_tuple (forall₂_whole h) he.whole.weaken ?_
    cases es
    case nil => exact absurd rfl length
    case cons => nofun

theorem reads_cons {h t : Expr} (hh : Reads h) (ht : Reads t) : Reads (.cons h t) := by
  cases hl : t.isList
  case true =>
    refine .of_eq (by rw [layout, layout, if_pos hl, if_pos hl]) ?_ fun _ => ?_
    · rw [layout, if_pos hl]
      exact simple_list hh.whole.weaken (ht.items hl)
    · exact items_cons hh.whole.weaken (ht.items hl)
  case false =>
    refine .of_parenthesizeIf (fun b => ?_) rfl hl (whole_cons hh.simple ht.whole)
    rw [layout, hl, if_neg Bool.false_ne_true]

theorem reads_app {f a : Expr} (hf : Reads f) (ha : Reads a) : Reads (.app f a) := by
  have operand := operand_app hf.operand ha.simple
  have whole : Whole false _ _ := operand.whole
  exact ⟨whole.paren, operand, whole, nofun⟩

theorem reads_cases {v : Expr} (sep : Separate bs) (hv : Reads v) (hbs : ∀ b ∈ bs, BranchReads b) :
    Reads (.cases v bs) := by
  cases bs
  case nil =>
    exact .of_parenthesizeIf (fun _ => by rw [layout]) rfl rfl (whole_cases_nil hv.whole.weaken)
  case cons b bs =>
    exact .of_parenthesizeIf (fun _ => by rw [layout]) rfl rfl
      (whole_cases_cons hv.whole.weaken sep hbs)

theorem Spelled.reads (h : e.Spelled Separate) : Reads e := by
  induction h
  case int n => exact reads_int n
  case bool b => cases b <;> exact .of_eq rfl (simple_atom (by decide) rfl) nofun
  case var hx => exact .of_eq rfl (simple_atom hx.isWord hx.ofWord_eq) nofun
  case nil => exact .of_eq rfl simple_nil fun _ _ _ _ _ _ => rfl
  case lam hp _ ih =>
    exact .of_parenthesizeIf (fun _ => by rw [layout]) rfl rfl
      (whole_lam hp.reads.simple hp.ofExpr_toExpr ih.whole)
  case binop ihl ihr =>
    exact .of_parenthesizeIf (fun _ => by rw [layout, Op.renderOption]) rfl rfl
      (whole_binop ihl.operand ihr.operand)
  case tuple length _ ih => exact reads_tuple length ih
  case cons ihh iht => exact reads_cons ihh iht
  case cond ihc ihy ihn =>
    exact .of_parenthesizeIf (fun _ => by rw [layout]) rfl rfl
      (whole_cond ihc.whole.weaken ihy.whole.weaken ihn.whole)
  case app ihf iha => exact reads_app ihf iha
  case letIn hx _ _ ihv ihe =>
    exact .of_parenthesizeIf (fun _ => by rw [layout]) rfl rfl
      (whole_binding false (by decide) (fun _ _ => rfl) hx ihv.whole.weaken ihe.whole)
  case letRec hx _ _ ihv ihe =>
    exact .of_parenthesizeIf (fun _ => by rw [layout]) rfl rfl
      (whole_binding true (by decide) (fun _ _ => rfl) hx ihv.whole.weaken ihe.whole)
  case cases sep _ hps _ ihv ihe =>
    exact reads_cases sep ihv fun b hb =>
      ⟨(hps b hb).reads.whole, (hps b hb).ofExpr_toExpr, (ihe b hb).whole⟩

theorem Spelled.run_render (h : e.Spelled Separate) :
    Reader.run (scan e.render) ⟨[], none⟩ = some e := by
  have whole := h.reads.whole [] .text
  rw [List.append_nil] at whole
  exact whole

end Expr

end HindleyMilner
