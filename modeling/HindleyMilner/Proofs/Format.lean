import HindleyMilner.Proofs.Decoding
import HindleyMilner.Proofs.Numerals

namespace HindleyMilner

open Document

section Lookup

variable {α β : Type} {k : String}

theorem lookup_map (f : α → β) (fs : List (String × α)) :
    (fs.map fun e => (e.1, f e.2)).lookup k = (fs.lookup k).map f := by
  induction fs
  case nil => rfl
  case cons e fs ih =>
    rw [List.map_cons, List.lookup_cons, List.lookup_cons, ih]
    cases k == e.1 <;> rfl

theorem lookup_eq_some_iff_mem {fs : List (String × α)} {a : α} (h : (fs.map (·.1)).Nodup) :
    fs.lookup k = some a ↔ (k, a) ∈ fs := by
  refine ⟨Node.mem_of_lookup, fun hk => ?_⟩
  induction fs
  case nil => cases hk
  case cons e fs ih =>
    obtain ⟨he, h⟩ := List.nodup_cons.mp h
    obtain rfl | hk := List.mem_cons.mp hk
    · exact List.lookup_cons_self
    · have other : k ≠ e.1 := fun hke => he (List.mem_map.mpr ⟨(k, a), hk, hke⟩)
      rw [List.lookup_cons, beq_eq_false_iff_ne.mpr other]
      exact ih h hk

theorem lookup_eq_of_perm {fs gs : List (String × α)} (hp : fs.Perm gs)
    (h : (gs.map (·.1)).Nodup) : fs.lookup k = gs.lookup k := by
  refine Option.ext fun a => ?_
  rw [lookup_eq_some_iff_mem ((hp.map _).nodup_iff.mpr h), lookup_eq_some_iff_mem h, hp.mem_iff]

end Lookup

section Bind

variable {ε α β : Type} {x : Except ε α} {f : α → Except ε β} {a : α} {b : β}

theorem bind_eq_ok (hx : x = .ok a) (hf : f a = .ok b) : (x >>= f) = .ok b := by
  rw [hx]
  exact hf

theorem mapM_eq_ok {as : List α} {bs : List β} (h : List.Forall₂ (fun b a => f a = .ok b) bs as) :
    as.mapM f = .ok bs := by
  induction h
  case nil => rfl
  case cons ha _ ih =>
    rw [List.mapM_cons]
    exact bind_eq_ok ha (bind_eq_ok ih rfl)

end Bind

namespace Document.Node

def Maps (n : Node) (fs : List (String × Node)) : Prop :=
  ∃ mark entries, n = .mapping mark entries ∧ (entries.map fun e => (e.1.text, e.2)).Perm fs

def Lists (n : Node) (ms : List Node) : Prop :=
  ∃ mark, n = .sequence mark ms

def Says (n : Node) (text : String) : Prop :=
  ∃ mark s, n = .scalar mark s ∧ s.text = text

def Plain (n : Node) (text : String) : Prop :=
  ∃ mark, n = .scalar mark ⟨none, false, text⟩

theorem maps_record (fs : List (String × Node)) : (record fs).Maps fs :=
  ⟨{}, _, rfl, by simp [word, text, Function.comp_def]⟩

theorem lists_sequence (ms : List Node) : (Node.sequence {} ms).Lists ms :=
  ⟨{}, rfl⟩

theorem plain_word (s : String) : (word s).Plain s :=
  ⟨{}, rfl⟩

theorem says_word (s : String) : (word s).Says s :=
  ⟨{}, _, rfl, rfl⟩

variable {n m : Node} {fs : List (String × Node)} {k : String} {β : Type} {b : β}

theorem Maps.bind_onlyField (h : n.Maps [(k, m)]) {what : String}
    {f : String × n.Part → Except DecodeError β} (hf : ∀ lt, f (k, ⟨m, lt⟩) = .ok b) :
    (n.onlyField what >>= f) = .ok b := by
  obtain ⟨mark, entries, rfl, hp⟩ := h
  obtain ⟨e, rfl, he⟩ := List.map_eq_singleton_iff.mp (List.perm_singleton.mp hp)
  cases he
  exact bind_eq_ok rfl (hf _)

theorem duplicate?_eq_none {ks : List Node} {seen : List String} (h : (ks.map text).Nodup)
    (hs : ∀ k ∈ ks, k.text ∉ seen) : duplicate? seen ks = none := by
  induction ks generalizing seen <;> rw [duplicate?]
  case cons k ks ih =>
    obtain ⟨hk, h⟩ := List.nodup_cons.mp h
    obtain ⟨hks, hs⟩ := List.forall_mem_cons.mp hs
    rw [if_neg hks]
    refine ih h fun j hj hjs => ?_
    obtain he | hjs := List.mem_cons.mp hjs
    · exact hk (he ▸ List.mem_map_of_mem hj)
    · exact hs j hj hjs

structure Finds (n : Node) (gs : List (String × n.Part)) (fs : List (String × Node)) : Prop where
  length : gs.length = fs.length
  lookup : ∀ k, (gs.lookup k).map (·.1) = fs.lookup k

theorem Maps.bind_fields (h : n.Maps fs) (hd : (fs.map (·.1)).Nodup) {what : String}
    {f : List (String × n.Part) → Except DecodeError β}
    (hf : ∀ gs, n.Finds gs fs → f gs = .ok b) : (n.fields what >>= f) = .ok b := by
  obtain ⟨mark, entries, rfl, hp⟩ := h
  have keys : ((entries.map (·.1)).map text).Nodup := by
    simpa [Function.comp_def] using (hp.map (·.1)).nodup_iff.mpr hd
  rw [fields, duplicate?_eq_none keys (by simp)]
  refine bind_eq_ok rfl (hf _ ⟨by simpa using hp.length_eq, fun k => ?_⟩)
  rw [← lookup_eq_of_perm hp hd, ← lookup_map, List.map_map]
  exact congrArg (List.lookup k)
    (List.attach_map_val (f := fun e : Node × Node => (e.1.text, e.2)))

variable {gs : List (String × n.Part)}

theorem Finds.lookup_eq_some (h : n.Finds gs fs) (hk : fs.lookup k = some m) :
    ∃ lt, gs.lookup k = some ⟨m, lt⟩ := by
  obtain ⟨⟨m, lt⟩, hm, rfl⟩ := Option.map_eq_some_iff.mp ((h.lookup k).trans hk)
  exact ⟨lt, hm⟩

theorem Finds.lookup_eq_none (h : n.Finds gs fs) (hk : fs.lookup k = none) :
    gs.lookup k = none :=
  Option.map_eq_none_iff.mp ((h.lookup k).trans hk)

theorem Finds.bind_field (h : n.Finds gs fs) (hk : fs.lookup k = some m) {cause : DecodeCause}
    {f : n.Part → Except DecodeError β} (hf : ∀ lt, f ⟨m, lt⟩ = .ok b) :
    (n.field gs k cause >>= f) = .ok b := by
  obtain ⟨lt, hm⟩ := h.lookup_eq_some hk
  rw [field, hm]
  exact bind_eq_ok rfl (hf lt)

theorem Lists.bind_items {ms : List Node} (h : n.Lists ms) {what : String}
    {f : List n.Part → Except DecodeError β}
    (hf : ∀ ps : List n.Part, ps.map (·.1) = ms → f ps = .ok b) :
    (n.items what >>= f) = .ok b := by
  obtain ⟨mark, rfl⟩ := h
  exact bind_eq_ok rfl (hf _ (by simp))

theorem mapM_items {α : Type} {W : α → Node → Prop} {g : Node → Except DecodeError α} {as : List α}
    {ms : List Node} (ih : ∀ (q : n.Part) {a : α}, W a q.1 → g q.1 = .ok a)
    (lt : sizeOf m < sizeOf n) (h : List.Forall₂ W as ms) {qs : List m.Part}
    (hqs : qs.map (·.1) = ms) : (qs.mapM fun q => g q.1) = .ok as := by
  rw [← hqs, List.forall₂_map_right_iff] at h
  exact mapM_eq_ok (h.imp fun _ q hq => ih ⟨q.1, q.2.trans lt⟩ hq)

theorem Says.identifier_eq {x : String} (h : n.Says x) (hx : IsName x) : n.identifier = .ok x := by
  obtain ⟨mark, s, rfl, rfl⟩ := h
  rw [identifier, if_neg]
  simpa [IsName] using hx

theorem Plain.int_literal {v : Int64} (h : n.Plain (toString v.toInt)) (what : String) :
    n.literal what n.toInt64? = .ok v := by
  obtain ⟨mark, rfl⟩ := h
  have value : toInt64? (.scalar mark ⟨none, false, toString v.toInt⟩) = some v := by
    change (Value.ofPlain (toString v.toInt)).toInt64? = some v
    rw [Value.ofPlain_toString, Value.toInt64?, if_pos v.toInt_le, Int64.ofInt_toInt]
  rw [value]
  rfl

theorem Plain.bool_literal {v : Bool} (h : n.Plain (toString v)) (what : String) :
    n.literal what n.toBool? = .ok v := by
  obtain ⟨mark, rfl⟩ := h
  have value : toBool? (.scalar mark ⟨none, false, toString v⟩) = some v := by
    change (Value.ofPlain (toString v)).toBool? = some v
    rw [Value.ofPlain_toString_bool, Value.toBool?]
  rw [value]
  rfl

end Document.Node

open Document.Node

namespace Pattern

inductive Written : Pattern → Node → Prop
  | wildcard {n m : Node} (hn : n.Maps [("wildcard", m)]) : Written .wildcard n
  | underscore {n : Node} (hn : n.Says "_") : Written .wildcard n
  | int {n m : Node} {v : Int64} (hn : n.Maps [("int", m)]) (hm : m.Plain (toString v.toInt)) :
    Written (.int v) n
  | bool {n m : Node} {v : Bool} (hn : n.Maps [("bool", m)]) (hm : m.Plain (toString v)) :
    Written (.bool v) n
  | nil {n m : Node} (hn : n.Maps [("nil", m)]) : Written .nil n
  | var {n m : Node} {x : String} (hx : IsName x) (hn : n.Maps [("var", m)]) (hm : m.Says x) :
    Written (.var x) n
  | name {n : Node} {x : String} (hx : IsName x) (hw : x ≠ "_") (hn : n.Says x) : Written (.var x) n
  | cons {n m a b : Node} {h t : Pattern} (hn : n.Maps [("cons", m)])
    (hm : m.Maps [("head", a), ("tail", b)]) (hh : Written h a) (ht : Written t b) :
    Written (.cons h t) n
  | tuple {n m : Node} {ms : List Node} {ps : List Pattern} (hn : n.Maps [("tuple", m)])
    (hm : m.Lists ms) (hps : List.Forall₂ Written ps ms) : Written (.tuple ps) n

theorem Written.ofScalar_eq {mark : Mark} {s : Scalar} {p : Pattern}
    (h : p.Written (.scalar mark s)) : ofScalar (.scalar mark s) = .ok p := by
  cases h
  case underscore hn =>
    obtain ⟨_, _, hs, ht⟩ := hn
    cases hs
    exact if_pos ht
  case name x hx hw hn =>
    have read := hn.identifier_eq hx
    obtain ⟨_, _, hs, ht⟩ := hn
    cases hs
    exact (if_neg fun he => hw (ht.symm.trans he)).trans (bind_eq_ok read rfl)
  all_goals
    rename Maps _ _ => hn
    obtain ⟨_, _, hs, _⟩ := hn
    cases hs

theorem Written.ofNode_eq {n : Node} {p : Pattern} (h : p.Written n) : ofNode n = .ok p := by
  induction n using part_induction generalizing p with | h n ih =>
  rw [ofNode.eq_def]
  split
  case h_1 => exact h.ofScalar_eq
  case h_2 hs =>
    cases h
    case underscore hn | name hn =>
      obtain ⟨mark, s, rfl, _⟩ := hn
      cases hs mark s rfl
    case wildcard hn => exact hn.bind_onlyField fun _ => rfl
    case nil hn => exact hn.bind_onlyField fun _ => rfl
    case int hm hn => exact hn.bind_onlyField fun _ => bind_eq_ok (hm.int_literal _) rfl
    case bool hm hn => exact hn.bind_onlyField fun _ => bind_eq_ok (hm.bool_literal _) rfl
    case var hx hm hn => exact hn.bind_onlyField fun _ => bind_eq_ok (hm.identifier_eq hx) rfl
    case cons hm hh ht hn =>
      refine hn.bind_onlyField fun lt => hm.bind_fields (by simp) fun gs finds => ?_
      refine finds.bind_field rfl fun lth => finds.bind_field rfl fun ltt => ?_
      exact bind_eq_ok (ih ⟨_, lth.trans lt⟩ hh) (bind_eq_ok (ih ⟨_, ltt.trans lt⟩ ht) rfl)
    case tuple hm hps hn =>
      refine hn.bind_onlyField fun lt => hm.bind_items fun qs hqs => ?_
      exact bind_eq_ok (mapM_items ih lt hps hqs) rfl

end Pattern

namespace Expr

mutual
-- The node is a way to write the expression. Lists and applications have a short form besides.
inductive Written : Expr → Node → Prop
  | int {n m : Node} {v : Int64} (hn : n.Maps [("int", m)]) (hm : m.Plain (toString v.toInt)) :
    Written (.int v) n
  | bool {n m : Node} {v : Bool} (hn : n.Maps [("bool", m)]) (hm : m.Plain (toString v)) :
    Written (.bool v) n
  | var {n m : Node} {x : String} (hx : IsName x) (hn : n.Maps [("var", m)]) (hm : m.Says x) :
    Written (.var x) n
  | nil {n m : Node} (hn : n.Maps [("nil", m)]) : Written .nil n
  | lam {n m a b : Node} {p : Pattern} {body : Expr} (hn : n.Maps [("fun", m)])
    (hm : m.Maps [("param", a), ("body", b)]) (hp : p.Written a) (hb : Written body b) :
    Written (.lam p body) n
  | binop {n m a b c : Node} {op : Op} {l r : Expr} (hn : n.Maps [("binop", m)])
    (hm : m.Maps [("op", a), ("left", b), ("right", c)]) (ho : a.Says op.render)
    (hl : Written l b) (hr : Written r c) : Written (.binop (some op) l r) n
  | tuple {n m : Node} {ms : List Node} {es : List Expr} (hn : n.Maps [("tuple", m)])
    (hm : m.Lists ms) (hes : List.Forall₂ Written es ms) : Written (.tuple es) n
  | list {n m : Node} {ms : List Node} {es : List Expr} (hn : n.Maps [("list", m)])
    (hm : m.Lists ms) (hes : List.Forall₂ Written es ms) : Written (.list es) n
  | cons {n m a b : Node} {h t : Expr} (hn : n.Maps [("cons", m)])
    (hm : m.Maps [("head", a), ("tail", b)]) (hh : Written h a) (ht : Written t b) :
    Written (.cons h t) n
  | cond {n m a b c : Node} {test yes no : Expr} (hn : n.Maps [("if", m)])
    (hm : m.Maps [("cond", a), ("then", b), ("else", c)]) (ht : Written test a)
    (hy : Written yes b) (hno : Written no c) : Written (.cond test yes no) n
  | call {n m : Node} {ms : List Node} {fn arg : Expr} {args : List Expr}
    (hn : n.Maps [("call", m)]) (hm : m.Lists ms)
    (hes : List.Forall₂ Written (fn :: arg :: args) ms) : Written (fn.apps (arg :: args)) n
  | letIn {n m a b c : Node} {x : String} {v body : Expr} (hx : IsName x) (hn : n.Maps [("let", m)])
    (hm : m.Maps [("var", a), ("value", b), ("body", c)]) (ha : a.Says x) (hv : Written v b)
    (hb : Written body c) : Written (.letIn x v body) n
  | letRec {n m a b c : Node} {x : String} {v body : Expr} (hx : IsName x)
    (hn : n.Maps [("letrec", m)]) (hm : m.Maps [("var", a), ("value", b), ("body", c)])
    (ha : a.Says x) (hv : Written v b) (hb : Written body c) : Written (.letRec x v body) n
  | cases {n m a b : Node} {ms : List Node} {v : Expr} {bs : List (Pattern × Expr)}
    (hn : n.Maps [("match", m)]) (hm : m.Maps [("value", a), ("cases", b)]) (hv : Written v a)
    (hb : b.Lists ms) (hbs : List.Forall₂ BranchWritten bs ms) : Written (.cases v bs) n
inductive BranchWritten : Pattern × Expr → Node → Prop
  | branch {n a b : Node} {p : Pattern} {body : Expr} (hn : n.Maps [("pattern", a), ("body", b)])
    (hp : p.Written a) (hb : Written body b) : BranchWritten (p, body) n
end

theorem opField_eq {n m : Node} {fs : List (String × Node)} {gs : List (String × n.Part)} {op : Op}
    (h : n.Finds gs fs) (hk : fs.lookup "op" = some m) (ho : m.Says op.render) :
    opField n gs = .ok op := by
  obtain ⟨lt, hm⟩ := h.lookup_eq_some hk
  obtain ⟨mark, s, rfl, hs⟩ := ho
  rw [opField, hm]
  change opOfNode (.scalar mark s) = .ok op
  rw [opOfNode, Node.text, hs, Op.parse?_render]

-- The induction is on the node, as the decoder's recursion is: a short form is not made of the ways
-- to write the expressions that it stands for.
theorem Written.ofNode_eq {n : Node} {e : Expr} (h : e.Written n) : ofNode n = .ok e := by
  induction n using part_induction generalizing e with | h n ih =>
  rw [ofNode]
  cases h
  case int hm hn => exact hn.bind_onlyField fun _ => bind_eq_ok (hm.int_literal _) rfl
  case bool hm hn => exact hn.bind_onlyField fun _ => bind_eq_ok (hm.bool_literal _) rfl
  case var hx hm hn => exact hn.bind_onlyField fun _ => bind_eq_ok (hm.identifier_eq hx) rfl
  case nil hn => exact hn.bind_onlyField fun _ => rfl
  case lam hm hp hb hn =>
    refine hn.bind_onlyField fun lt => hm.bind_fields (by simp) fun gs finds => ?_
    refine finds.bind_field rfl fun _ => bind_eq_ok hp.ofNode_eq ?_
    refine finds.bind_field rfl fun ltb => ?_
    exact bind_eq_ok (ih ⟨_, ltb.trans lt⟩ hb) rfl
  case binop op _ _ hm ho hl hr hn =>
    refine hn.bind_onlyField fun lt => hm.bind_fields (by simp) fun gs finds => ?_
    refine bind_eq_ok (opField_eq finds rfl ho) ?_
    refine finds.bind_field rfl fun ltl => bind_eq_ok (ih ⟨_, ltl.trans lt⟩ hl) ?_
    refine finds.bind_field rfl fun ltr => bind_eq_ok (ih ⟨_, ltr.trans lt⟩ hr) ?_
    rfl
  case tuple hm hes hn =>
    refine hn.bind_onlyField fun lt => hm.bind_items fun qs hqs => ?_
    exact bind_eq_ok (mapM_items ih lt hes hqs) rfl
  case list hm hes hn =>
    refine hn.bind_onlyField fun lt => hm.bind_items fun qs hqs => ?_
    exact bind_eq_ok (mapM_items ih lt hes hqs) rfl
  case cons hm hh ht hn =>
    refine hn.bind_onlyField fun lt => hm.bind_fields (by simp) fun gs finds => ?_
    refine finds.bind_field rfl fun lth => bind_eq_ok (ih ⟨_, lth.trans lt⟩ hh) ?_
    refine finds.bind_field rfl fun ltt => bind_eq_ok (ih ⟨_, ltt.trans lt⟩ ht) ?_
    rfl
  case cond hm ht hy hno hn =>
    refine hn.bind_onlyField fun lt => hm.bind_fields (by simp) fun gs finds => ?_
    refine finds.bind_field rfl fun ltt => bind_eq_ok (ih ⟨_, ltt.trans lt⟩ ht) ?_
    refine finds.bind_field rfl fun lty => bind_eq_ok (ih ⟨_, lty.trans lt⟩ hy) ?_
    refine finds.bind_field rfl fun ltn => bind_eq_ok (ih ⟨_, ltn.trans lt⟩ hno) ?_
    rfl
  case call hm hes hn =>
    refine hn.bind_onlyField fun lt => hm.bind_items fun qs hqs => ?_
    exact bind_eq_ok (mapM_items ih lt hes hqs) rfl
  case letIn hx hm ha hv hb hn | letRec hx hm ha hv hb hn =>
    refine hn.bind_onlyField fun lt => hm.bind_fields (by simp) fun gs finds => ?_
    refine finds.bind_field rfl fun lta => bind_eq_ok (ha.identifier_eq hx) ?_
    refine finds.bind_field rfl fun ltv => bind_eq_ok (ih ⟨_, ltv.trans lt⟩ hv) ?_
    refine finds.bind_field rfl fun ltb => bind_eq_ok (ih ⟨_, ltb.trans lt⟩ hb) ?_
    rfl
  case cases hm hv hb hbs hn =>
    refine hn.bind_onlyField fun lt => hm.bind_fields (by simp) fun gs finds => ?_
    refine finds.bind_field rfl fun ltv => bind_eq_ok (ih ⟨_, ltv.trans lt⟩ hv) ?_
    obtain ⟨ltc, hc⟩ := finds.lookup_eq_some (k := "cases") rfl
    simp only [hc]
    refine hb.bind_items fun qs hqs => bind_eq_ok (mapM_eq_ok ?_) rfl
    rw [← hqs, List.forall₂_map_right_iff] at hbs
    refine hbs.imp fun br q hq => ?_
    cases hq
    case branch hp hb hn =>
      refine hn.bind_fields (by simp) fun gs finds => ?_
      refine finds.bind_field rfl fun _ => bind_eq_ok hp.ofNode_eq ?_
      refine finds.bind_field rfl fun ltb => ?_
      exact bind_eq_ok (ih ⟨_, ltb.trans (q.2.trans (ltc.trans lt))⟩ hb) rfl

end Expr

namespace Stmt

inductive Written : Stmt → Node → Prop
  | decl {n a b : Node} {x : String} {v : Expr} (hx : IsName x)
    (hn : n.Maps [("let", a), ("value", b)]) (ha : a.Says x) (hv : v.Written b) :
    Written (.decl x v) n
  | declRec {n a b : Node} {x : String} {v : Expr} (hx : IsName x)
    (hn : n.Maps [("letrec", a), ("value", b)]) (ha : a.Says x) (hv : v.Written b) :
    Written (.declRec x v) n
  | expr {n a : Node} {e : Expr} (hn : n.Maps [("expr", a)]) (he : e.Written a) :
    Written (.expr e) n

theorem ofNode_declaration (isRec : Bool) {n a b : Node} {x : String} {v : Expr} (hx : IsName x)
    (hn : n.Maps [(if isRec then "letrec" else "let", a), ("value", b)]) (ha : a.Says x)
    (hv : v.Written b) : ofNode n = .ok (if isRec then .declRec x v else .decl x v) := by
  rw [ofNode]
  refine hn.bind_fields (by cases isRec <;> simp) fun gs finds => ?_
  have noExpr : gs.lookup "expr" = none := finds.lookup_eq_none (by cases isRec <;> rfl)
  have name : declared n gs = .ok (a, isRec) := by
    cases isRec
    case false =>
      obtain ⟨_, hl⟩ := finds.lookup_eq_some (k := "let") rfl
      rw [declared, hl, finds.lookup_eq_none (k := "letrec") rfl]
    case true =>
      obtain ⟨_, hl⟩ := finds.lookup_eq_some (k := "letrec") rfl
      rw [declared, hl, finds.lookup_eq_none (k := "let") rfl]
  have two : gs.length = 2 := finds.length
  simp only [noExpr]
  refine bind_eq_ok name (bind_eq_ok (ha.identifier_eq hx) ?_)
  rw [if_pos two]
  refine finds.bind_field (by cases isRec <;> rfl) fun _ => bind_eq_ok hv.ofNode_eq ?_
  rfl

theorem Written.ofNode_eq {n : Node} {stmt : Stmt} (h : stmt.Written n) : ofNode n = .ok stmt := by
  cases h
  case decl hx ha hv hn => exact ofNode_declaration false hx hn ha hv
  case declRec hx ha hv hn => exact ofNode_declaration true hx hn ha hv
  case expr he hn =>
    rw [ofNode]
    refine hn.bind_fields (by simp) fun gs finds => ?_
    obtain ⟨_, hl⟩ := finds.lookup_eq_some (k := "expr") rfl
    have one : gs.length = 1 := finds.length
    simp only [hl]
    rw [if_pos one]
    exact bind_eq_ok he.ofNode_eq rfl

end Stmt

namespace Program

def Written (p : Program) (n : Node) : Prop :=
  ∃ ms, n.Lists ms ∧ List.Forall₂ Stmt.Written p ms

theorem Written.ofDocument_eq {p : Program} {n : Node} (h : p.Written n) :
    ofDocument (some n) = .ok p := by
  obtain ⟨ms, ⟨mark, rfl⟩, hms⟩ := h
  exact mapM_eq_ok (hms.imp fun _ _ => Stmt.Written.ofNode_eq)

end Program

namespace Pattern

mutual
def toNode : Pattern → Node
  | .wildcard => record [("wildcard", word "null")]
  | .int v => record [("int", word (toString v.toInt))]
  | .bool v => record [("bool", word (toString v))]
  | .nil => record [("nil", word "null")]
  | .var x => record [("var", word x)]
  | .cons h t => record [("cons", record [("head", h.toNode), ("tail", t.toNode)])]
  | .tuple ps => record [("tuple", .sequence {} (toNodes ps))]
  | .hole _ => record []
def toNodes : List Pattern → List Node
  | [] => []
  | p :: ps => p.toNode :: toNodes ps
end

theorem forall₂_toNodes {ps : List Pattern} (h : ∀ p ∈ ps, p.Written p.toNode) :
    List.Forall₂ Written ps (toNodes ps) := by
  induction ps <;> rw [toNodes]
  case nil => exact .nil
  case cons p ps ih =>
    obtain ⟨hp, h⟩ := List.forall_mem_cons.mp h
    exact .cons hp (ih h)

theorem WellFormed.written_toNode {p : Pattern} (h : p.WellFormed) : p.Written p.toNode := by
  induction h <;> rw [toNode]
  case wildcard => exact .wildcard (maps_record _)
  case int => exact .int (maps_record _) (plain_word _)
  case bool => exact .bool (maps_record _) (plain_word _)
  case nil => exact .nil (maps_record _)
  case var hx => exact .var hx (maps_record _) (says_word _)
  case cons ihh iht => exact .cons (maps_record _) (maps_record _) ihh iht
  case tuple ih => exact .tuple (maps_record _) (lists_sequence _) (forall₂_toNodes ih)

end Pattern

namespace Expr

mutual
def toNode : Expr → Node
  | .int v => record [("int", word (toString v.toInt))]
  | .bool v => record [("bool", word (toString v))]
  | .var x => record [("var", word x)]
  | .nil => record [("nil", word "null")]
  | .lam p body => record [("fun", record [("param", p.toNode), ("body", body.toNode)])]
  | .binop op l r =>
    record [("binop", record [
      ("op", word (op.elim "" Op.render)), ("left", l.toNode), ("right", r.toNode)])]
  | .tuple es => record [("tuple", .sequence {} (toNodes es))]
  | .cons h t => record [("cons", record [("head", h.toNode), ("tail", t.toNode)])]
  | .cond c y n =>
    record [("if", record [("cond", c.toNode), ("then", y.toNode), ("else", n.toNode)])]
  | .app f a => record [("call", .sequence {} [f.toNode, a.toNode])]
  | .letIn x v body =>
    record [("let", record [("var", word x), ("value", v.toNode), ("body", body.toNode)])]
  | .letRec x v body =>
    record [("letrec", record [("var", word x), ("value", v.toNode), ("body", body.toNode)])]
  | .cases v bs =>
    record [("match", record [("value", v.toNode), ("cases", .sequence {} (branchNodes bs))])]
  | .hole _ => record []
def toNodes : List Expr → List Node
  | [] => []
  | e :: es => e.toNode :: toNodes es
def branchNodes : List (Pattern × Expr) → List Node
  | [] => []
  | (p, body) :: bs => record [("pattern", p.toNode), ("body", body.toNode)] :: branchNodes bs
end

theorem forall₂_toNodes {es : List Expr} (h : ∀ e ∈ es, e.Written e.toNode) :
    List.Forall₂ Written es (toNodes es) := by
  induction es <;> rw [toNodes]
  case nil => exact .nil
  case cons e es ih =>
    obtain ⟨he, h⟩ := List.forall_mem_cons.mp h
    exact .cons he (ih h)

theorem forall₂_branchNodes {bs : List (Pattern × Expr)} (hp : ∀ b ∈ bs, b.1.WellFormed)
    (hb : ∀ b ∈ bs, b.2.Written b.2.toNode) : List.Forall₂ BranchWritten bs (branchNodes bs) := by
  induction bs <;> rw [branchNodes]
  case nil => exact .nil
  case cons b bs ih =>
    obtain ⟨hp, hps⟩ := List.forall_mem_cons.mp hp
    obtain ⟨hb, hbs⟩ := List.forall_mem_cons.mp hb
    exact .cons (.branch (maps_record _) hp.written_toNode hb) (ih hps hbs)

theorem WellFormed.written_toNode {e : Expr} (h : e.WellFormed) : e.Written e.toNode := by
  induction h <;> rw [toNode]
  case int => exact .int (maps_record _) (plain_word _)
  case bool => exact .bool (maps_record _) (plain_word _)
  case var hx => exact .var hx (maps_record _) (says_word _)
  case nil => exact .nil (maps_record _)
  case lam hp _ ih => exact .lam (maps_record _) (maps_record _) hp.written_toNode ih
  case binop ihl ihr => exact .binop (maps_record _) (maps_record _) (says_word _) ihl ihr
  case tuple ih => exact .tuple (maps_record _) (lists_sequence _) (forall₂_toNodes ih)
  case cons ihh iht => exact .cons (maps_record _) (maps_record _) ihh iht
  case cond ihc ihy ihn => exact .cond (maps_record _) (maps_record _) ihc ihy ihn
  case app ihf iha =>
    exact .call (maps_record _) (lists_sequence _) (.cons ihf (.cons iha .nil))
  case letIn hx _ _ ihv ihb =>
    exact .letIn hx (maps_record _) (maps_record _) (says_word _) ihv ihb
  case letRec hx _ _ ihv ihb =>
    exact .letRec hx (maps_record _) (maps_record _) (says_word _) ihv ihb
  case cases hp _ ihv ihb =>
    exact .cases (maps_record _) (maps_record _) ihv (lists_sequence _) (forall₂_branchNodes hp ihb)

end Expr

namespace Stmt

def toNode : Stmt → Node
  | .decl x v => record [("let", word x), ("value", v.toNode)]
  | .declRec x v => record [("letrec", word x), ("value", v.toNode)]
  | .expr e => record [("expr", e.toNode)]
  | .hole _ => record []

theorem WellFormed.written_toNode {stmt : Stmt} (h : stmt.WellFormed) :
    stmt.Written stmt.toNode := by
  cases h <;> rw [toNode]
  case decl hx hv => exact .decl hx (maps_record _) (says_word _) hv.written_toNode
  case declRec hx hv => exact .declRec hx (maps_record _) (says_word _) hv.written_toNode
  case expr he => exact .expr (maps_record _) he.written_toNode

end Stmt

namespace Program

def toNode (p : Program) : Node :=
  .sequence {} (p.map Stmt.toNode)

theorem WellFormed.written_toNode {p : Program} (h : p.WellFormed) : p.Written p.toNode := by
  refine ⟨_, lists_sequence _, ?_⟩
  rw [List.forall₂_map_right_iff, List.forall₂_same]
  exact fun stmt hs => (h stmt hs).written_toNode

-- Decoding gives back what has been written, be it in the plain way or in any other.
theorem decode_faithful (p : Program) (hp : p.WellFormed) :
    ofDocument (some p.toNode) = .ok p ∧ p.Written p.toNode ∧
      ∀ n : Node, p.Written n → ofDocument (some n) = .ok p :=
  ⟨hp.written_toNode.ofDocument_eq, hp.written_toNode, fun _ hn => hn.ofDocument_eq⟩

-- `let xs = [1; -2]` and `f true xs`
def listAndCall : Program :=
  [.decl "xs" (.list [.int 1, .int (-2)]), .expr ((Expr.var "f").apps [.bool true, .var "xs"])]

def listAndCallShort : Node :=
  .sequence {} [
    record [
      ("value", record [("list", .sequence {} [
        record [("int", word "1")], record [("int", word "-2")]])]),
      ("let", word "xs")],
    record [("expr", record [("call", .sequence {} [
      record [("var", word "f")], record [("bool", word "true")], record [("var", word "xs")]])])]]

theorem wellFormed_listAndCall : listAndCall.WellFormed := by
  refine List.forall_mem_cons.mpr ⟨?_, List.forall_mem_singleton.mpr ?_⟩
  · exact .decl (by decide) (.cons .int (.cons .int .nil))
  · exact .expr (.app (.app (.var (by decide)) .bool) (.var (by decide)))

theorem written_listAndCallShort : listAndCall.Written listAndCallShort := by
  have name {x : String} (hx : IsName x) : (Expr.var x).Written (record [("var", word x)]) :=
    .var hx (maps_record _) (says_word _)
  have xs : (Expr.list [.int 1, .int (-2)]).Written (record [("list", .sequence {} [
      record [("int", word "1")], record [("int", word "-2")]])]) := by
    refine .list (maps_record _) (lists_sequence _) (.cons ?_ (.cons ?_ .nil))
    · exact .int (maps_record _) (plain_word _)
    · exact .int (maps_record _) (plain_word _)
  refine ⟨_, lists_sequence _, .cons ?_ (.cons ?_ .nil)⟩
  · exact .decl (by decide) ⟨{}, _, rfl, .swap _ _ _⟩ (says_word _) xs
  · refine .expr (maps_record _) (.call (maps_record _) (lists_sequence _) ?_)
    exact .cons (name (by decide)) (.cons (.bool (maps_record _) (plain_word _))
      (.cons (name (by decide)) .nil))

theorem decode_faithful_listAndCall :
    listAndCall.WellFormed ∧ ofDocument (some listAndCall.toNode) = .ok listAndCall ∧
      listAndCall.Written listAndCallShort ∧
      ofDocument (some listAndCallShort) = .ok listAndCall := by
  obtain ⟨plain, _, written⟩ := decode_faithful listAndCall wellFormed_listAndCall
  exact ⟨wellFormed_listAndCall, plain, written_listAndCallShort,
    written _ written_listAndCallShort⟩

end Program

end HindleyMilner
