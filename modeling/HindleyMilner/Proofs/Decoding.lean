import HindleyMilner.Stmt.Decode
import HindleyMilner.Proofs.WellFormed

namespace HindleyMilner

namespace Document.Node

def children : Node → List Node
  | .scalar _ _ | .alias _ _ _ => []
  | .sequence _ items => items
  | .mapping _ entries => entries.flatMap fun e => [e.1, e.2]

def Inside : Node → Node → Prop :=
  Relation.ReflTransGen fun m n => m ∈ n.children

def word (s : String) : Node :=
  .scalar {} ⟨none, false, s⟩

def record (fs : List (String × Node)) : Node :=
  .mapping {} (fs.map fun f => (word f.1, f.2))

end Document.Node

open Document

namespace DecodeError

def At (n : Node) (e : DecodeError) : Prop :=
  ∃ m : Node, m.Inside n ∧ e.mark = m.mark

def Outcome {α : Type} (P : α → Prop) (Q : DecodeError → Prop) : Except DecodeError α → Prop
  | .ok a => P a
  | .error e => Q e

namespace Outcome

variable {α β : Type} {P : α → Prop} {R : β → Prop} {Q : DecodeError → Prop}
  {x : Except DecodeError α} {f : α → Except DecodeError β} {a : α} {m n : Node}

theorem pure (h : P a) : Outcome P Q (pure a) :=
  h

theorem bind (hx : Outcome P Q x) (hf : ∀ a, P a → Outcome R Q (f a)) : Outcome R Q (x >>= f) := by
  cases x
  case error => exact hx
  case ok a => exact hf a hx

theorem mapM {as : List α} (h : ∀ a ∈ as, Outcome R Q (f a)) :
    Outcome (fun bs => ∀ b ∈ bs, R b) Q (as.mapM f) := by
  induction as
  case nil => exact pure (List.forall_mem_nil R)
  case cons a as ih =>
    obtain ⟨ha, h⟩ := List.forall_mem_cons.mp h
    rw [List.mapM_cons]
    exact ha.bind fun _ hb => (ih h).bind fun _ hbs => pure (List.forall_mem_cons.mpr ⟨hb, hbs⟩)

theorem failAt (h : m.Inside n) {cause : DecodeCause} : Outcome P (At n) (failAt m cause) :=
  ⟨m, h, rfl⟩

theorem child (hm : m ∈ n.children) (h : Outcome P (At m) x) : Outcome P (At n) x := by
  cases x
  case ok => exact h
  case error e =>
    obtain ⟨k, hk, he⟩ := h
    exact ⟨k, hk.tail hm, he⟩

end Outcome

section FirstError

variable {α β : Type} {f : α → Except DecodeError β} {a : α} {as before : List α} {e : DecodeError}

theorem exists_of_mapM_eq_error (h : as.mapM f = .error e) :
    ∃ before a after, as = before ++ a :: after ∧ (∀ b ∈ before, ∃ c, f b = .ok c) ∧
      f a = .error e := by
  induction as
  case nil => cases h
  case cons a as ih =>
    rw [List.mapM_cons] at h
    cases ha : f a <;> rw [ha] at h
    case error =>
      cases h
      exact ⟨[], a, as, rfl, List.forall_mem_nil _, ha⟩
    case ok c =>
      cases hs : as.mapM f <;> rw [hs] at h <;> cases h
      obtain ⟨before, b, after, rfl, hb, he⟩ := ih hs
      exact ⟨a :: before, b, after, rfl, List.forall_mem_cons.mpr ⟨⟨c, ha⟩, hb⟩, he⟩

theorem mapM_append_of_error (hb : ∀ b ∈ before, ∃ c, f b = .ok c) (ha : f a = .error e)
    (after : List α) : (before ++ a :: after).mapM f = .error e := by
  induction before
  case nil =>
    rw [List.nil_append, List.mapM_cons, ha]
    rfl
  case cons b before ih =>
    obtain ⟨⟨c, hc⟩, hb⟩ := List.forall_mem_cons.mp hb
    rw [List.cons_append, List.mapM_cons, hc, ih hb]
    rfl

end FirstError

end DecodeError

open DecodeError

namespace Document.Node

theorem part_induction {P : Node → Prop} (h : ∀ n : Node, (∀ m : n.Part, P m.1) → P n) (n : Node) :
    P n :=
  sizeOfWFRel.wf.induction n fun n ih => h n fun m => ih m.1 m.2

theorem outcome_identifier (n : Node) : Outcome IsName (At n) n.identifier := by
  unfold identifier
  split
  case h_1 mark s =>
    split
    case isTrue => exact .failAt .refl
    case isFalse h =>
      rw [Bool.or_eq_true, decide_eq_true_iff, List.any_eq_true, not_or] at h
      exact ⟨h.left, fun c hc hw => h.right ⟨c, hc, decide_eq_true hw⟩⟩
  case h_2 => exact .failAt .refl

theorem outcome_literal {α : Type} (n : Node) (what : String) (value? : Option α) :
    Outcome (fun _ => True) (At n) (n.literal what value?) := by
  cases value?
  case none => exact .failAt .refl
  case some => exact trivial

theorem outcome_items (n : Node) (what : String) :
    Outcome (fun ms => ∀ m ∈ ms, m.1 ∈ n.children) (At n) (n.items what) := by
  unfold items
  split
  case h_1 mark ms =>
    intro m hm
    obtain ⟨a, _, rfl⟩ := List.mem_map.mp hm
    exact a.2
  case h_2 => exact .failAt .refl

theorem mem_children_of_duplicate? {mark : Mark} {entries : List (Node × Node)} {k : Node}
    {seen : List String} (h : duplicate? seen (entries.map (·.1)) = some k) :
    k ∈ (Node.mapping mark entries).children := by
  have key {ks : List Node} {seen : List String} (h : duplicate? seen ks = some k) : k ∈ ks := by
    induction ks generalizing seen <;> rw [duplicate?] at h
    case nil => cases h
    case cons a ks ih =>
      split at h
      case isTrue => exact Option.some.inj h ▸ List.mem_cons_self
      case isFalse => exact List.mem_cons_of_mem a (ih h)
  obtain ⟨e, he, rfl⟩ := List.mem_map.mp (key h)
  exact List.mem_flatMap.mpr ⟨e, he, by simp⟩

theorem outcome_fields (n : Node) (what : String) :
    Outcome (fun fs => ∀ f ∈ fs, f.2.1 ∈ n.children) (At n) (n.fields what) := by
  unfold fields
  split
  case h_1 mark entries =>
    split
    case h_1 k hk => exact .failAt (.single (mem_children_of_duplicate? hk))
    case h_2 =>
      intro f hf
      obtain ⟨a, _, rfl⟩ := List.mem_map.mp hf
      exact List.mem_flatMap.mpr ⟨a.1, a.2, by simp⟩
  case h_2 => exact .failAt .refl

theorem outcome_onlyField (n : Node) (what : String) :
    Outcome (fun r => r.2.1 ∈ n.children) (At n) (n.onlyField what) := by
  unfold onlyField
  split
  case h_1 => exact List.mem_flatMap.mpr ⟨_, List.mem_singleton_self _, by simp⟩
  case h_2 => exact .failAt .refl

theorem mem_of_lookup {α : Type} {fs : List (String × α)} {key : String} {a : α}
    (h : fs.lookup key = some a) : (key, a) ∈ fs := by
  obtain ⟨as, bs, rfl, _⟩ := List.lookup_eq_some_iff.mp h
  exact List.mem_append_right as List.mem_cons_self

theorem outcome_field {n : Node} {fs : List (String × n.Part)}
    (hfs : ∀ f ∈ fs, f.2.1 ∈ n.children) (key : String) (cause : DecodeCause) :
    Outcome (fun m : n.Part => m.1 ∈ n.children) (At n) (n.field fs key cause) := by
  rw [field]
  cases h : fs.lookup key
  case none => exact .failAt .refl
  case some m => exact hfs _ (mem_of_lookup h)

end Document.Node

open Document.Node

namespace Pattern

theorem outcome_ofScalar (n : Node) : Outcome WellFormed (At n) (ofScalar n) := by
  rw [ofScalar]
  split
  case isTrue => exact .wildcard
  case isFalse => exact n.outcome_identifier.bind fun _ hx => .pure (.var hx)

theorem outcome_ofNode (n : Node) : Outcome WellFormed (At n) (ofNode n) := by
  induction n using part_induction with | h n ih =>
  rw [ofNode.eq_def]
  split
  case h_1 => exact outcome_ofScalar _
  case h_2 =>
    refine (n.outcome_onlyField _).bind fun r hval => ?_
    obtain ⟨key, val, hlt⟩ := r
    -- What is a part of the value is a part of the node.
    have part (m : val.Part) (hm : m.1 ∈ val.children) : Outcome WellFormed (At val) (ofNode m.1) :=
      (ih ⟨m.1, m.2.trans hlt⟩).child hm
    dsimp only at hval ⊢
    split
    case h_1 => exact .pure .wildcard
    case h_2 => exact (val.outcome_identifier.bind fun _ hx => .pure (.var hx)).child hval
    case h_3 => exact ((val.outcome_literal _ _).bind fun _ _ => .pure .int).child hval
    case h_4 => exact ((val.outcome_literal _ _).bind fun _ _ => .pure .bool).child hval
    case h_5 => exact .pure .nil
    case h_6 =>
      refine .child hval <| (val.outcome_fields _).bind fun fs hfs => ?_
      refine (outcome_field hfs _ _).bind fun h hh => (outcome_field hfs _ _).bind fun t ht => ?_
      exact (part h hh).bind fun _ hh => (part t ht).bind fun _ ht => .pure (.cons hh ht)
    case h_7 =>
      refine .child hval <| (val.outcome_items _).bind fun ms hms => ?_
      exact .bind (.mapM fun m hm => part m (hms m hm)) fun _ hps => .pure (.tuple hps)
    case h_8 => exact .failAt .refl

end Pattern

namespace Expr

theorem WellFormed.list {es : List Expr} (h : ∀ e ∈ es, e.WellFormed) : (list es).WellFormed := by
  induction es
  case nil => exact .nil
  case cons e es ih =>
    obtain ⟨he, h⟩ := List.forall_mem_cons.mp h
    exact .cons he (ih h)

theorem WellFormed.apps {fn : Expr} {args : List Expr} (hf : fn.WellFormed)
    (h : ∀ e ∈ args, e.WellFormed) : (fn.apps args).WellFormed := by
  induction args generalizing fn
  case nil => exact hf
  case cons e es ih =>
    obtain ⟨he, h⟩ := List.forall_mem_cons.mp h
    exact ih (.app hf he) h

theorem outcome_opField {n : Node} {fs : List (String × n.Part)}
    (hfs : ∀ f ∈ fs, f.2.1 ∈ n.children) : Outcome (fun _ => True) (At n) (opField n fs) := by
  rw [opField]
  split
  case h_1 h =>
    rw [opOfNode]
    split
    case h_1 => exact trivial
    case h_2 => exact .failAt (.single (hfs _ (mem_of_lookup h)))
  case h_2 => exact .failAt .refl

theorem outcome_ofNode (n : Node) : Outcome WellFormed (At n) (ofNode n) := by
  induction n using part_induction with | h n ih =>
  rw [ofNode]
  refine (n.outcome_onlyField _).bind fun r hval => ?_
  obtain ⟨key, val, hlt⟩ := r
  have part (m : val.Part) (hm : m.1 ∈ val.children) : Outcome WellFormed (At val) (ofNode m.1) :=
    (ih ⟨m.1, m.2.trans hlt⟩).child hm
  dsimp only at hval ⊢
  split
  case h_1 => exact ((val.outcome_literal _ _).bind fun _ _ => .pure .int).child hval
  case h_2 => exact ((val.outcome_literal _ _).bind fun _ _ => .pure .bool).child hval
  case h_3 => exact (val.outcome_identifier.bind fun _ hx => .pure (.var hx)).child hval
  case h_4 => exact .pure .nil
  case h_5 =>
    refine .child hval <| (val.outcome_fields _).bind fun fs hfs => ?_
    refine (outcome_field hfs _ _).bind fun p hp => ?_
    refine ((Pattern.outcome_ofNode p.1).child hp).bind fun _ hp => ?_
    refine (outcome_field hfs _ _).bind fun body hb => ?_
    exact (part body hb).bind fun _ hb => .pure (.lam hp hb)
  case h_6 =>
    refine .child hval <| (val.outcome_fields _).bind fun fs hfs => ?_
    refine (outcome_opField hfs).bind fun op _ => ?_
    refine (outcome_field hfs _ _).bind fun l hl => (part l hl).bind fun _ hl => ?_
    refine (outcome_field hfs _ _).bind fun r hr => (part r hr).bind fun _ hr => ?_
    exact .pure (.binop hl hr)
  case h_7 =>
    refine .child hval <| (val.outcome_items _).bind fun ms hms => ?_
    exact .bind (.mapM fun m hm => part m (hms m hm)) fun _ hes => .pure (.tuple hes)
  case h_8 =>
    refine .child hval <| (val.outcome_items _).bind fun ms hms => ?_
    exact .bind (.mapM fun m hm => part m (hms m hm)) fun _ hes => .pure (.list hes)
  case h_9 =>
    refine .child hval <| (val.outcome_fields _).bind fun fs hfs => ?_
    refine (outcome_field hfs _ _).bind fun h hh => (part h hh).bind fun _ hh => ?_
    refine (outcome_field hfs _ _).bind fun t ht => (part t ht).bind fun _ ht => ?_
    exact .pure (.cons hh ht)
  case h_10 =>
    refine .child hval <| (val.outcome_fields _).bind fun fs hfs => ?_
    refine (outcome_field hfs _ _).bind fun c hc => (part c hc).bind fun _ hc => ?_
    refine (outcome_field hfs _ _).bind fun y hy => (part y hy).bind fun _ hy => ?_
    refine (outcome_field hfs _ _).bind fun n hn => (part n hn).bind fun _ hn => ?_
    exact .pure (.cond hc hy hn)
  case h_11 =>
    refine .child hval <| (val.outcome_items _).bind fun ms hms => ?_
    refine .bind (.mapM fun m hm => part m (hms m hm)) fun es hes => ?_
    split
    case h_1 fn arg args =>
      obtain ⟨hf, ha⟩ := List.forall_mem_cons.mp hes
      exact .pure (.apps hf ha)
    case h_2 => exact .failAt .refl
  case h_12 | h_13 =>
    refine .child hval <| (val.outcome_fields _).bind fun fs hfs => ?_
    refine (outcome_field hfs _ _).bind fun x hx => ?_
    refine (x.1.outcome_identifier.child hx).bind fun _ hx => ?_
    refine (outcome_field hfs _ _).bind fun v hv => (part v hv).bind fun _ hv => ?_
    refine (outcome_field hfs _ _).bind fun body hb => (part body hb).bind fun _ hb => .pure ?_
    split
    case isTrue => exact .letIn hx hv hb
    case isFalse => exact .letRec hx hv hb
  case h_14 =>
    refine .child hval <| (val.outcome_fields _).bind fun fs hfs => ?_
    refine (outcome_field hfs _ _).bind fun v hv => (part v hv).bind fun _ hv => ?_
    split
    case h_1 => exact .pure (.cases hv (List.forall_mem_nil _) (List.forall_mem_nil _))
    case h_2 branches hbs h =>
      refine .child (hfs _ (mem_of_lookup h)) <| (outcome_items _ _).bind fun ms hms => ?_
      refine .bind (.mapM (R := fun b => b.1.WellFormed ∧ b.2.WellFormed) fun m hm => ?_)
        fun bs hb => .pure (.cases hv (fun b h => (hb b h).left) fun b h => (hb b h).right)
      refine .child (hms m hm) <| (outcome_fields _ _).bind fun fs hfs => ?_
      refine (outcome_field hfs _ _).bind fun p hp => ?_
      refine ((Pattern.outcome_ofNode p.1).child hp).bind fun _ hp => ?_
      refine (outcome_field hfs _ _).bind fun body hb => ?_
      have small : sizeOf body.1 < sizeOf n := body.2.trans (m.2.trans (hbs.trans hlt))
      exact ((ih ⟨body.1, small⟩).child hb).bind fun _ hb => .pure ⟨hp, hb⟩
  case h_15 => exact .failAt .refl

end Expr

namespace Stmt

theorem outcome_declared {n : Node} {fs : List (String × n.Part)}
    (hfs : ∀ f ∈ fs, f.2.1 ∈ n.children) :
    Outcome (fun r => r.1 ∈ n.children) (At n) (declared n fs) := by
  rw [declared]
  split
  case h_1 => exact .failAt .refl
  case h_2 h _ => exact hfs _ (mem_of_lookup h)
  case h_3 h => exact hfs _ (mem_of_lookup h)
  case h_4 => exact .failAt .refl

theorem outcome_ofNode (n : Node) : Outcome WellFormed (At n) (ofNode n) := by
  rw [ofNode]
  refine (n.outcome_fields _).bind fun fs hfs => ?_
  split
  case h_1 e h =>
    split
    case isTrue =>
      exact ((Expr.outcome_ofNode e.1).child (hfs _ (mem_of_lookup h))).bind fun _ he =>
        .pure (.expr he)
    case isFalse => exact .failAt .refl
  case h_2 =>
    refine (outcome_declared hfs).bind fun r hr => ?_
    refine (r.1.outcome_identifier.child hr).bind fun _ hx => ?_
    split
    case isTrue =>
      refine (outcome_field hfs _ _).bind fun v hv => ?_
      refine ((Expr.outcome_ofNode v.1).child hv).bind fun _ hv => .pure ?_
      split
      case isTrue => exact .declRec hx hv
      case isFalse => exact .decl hx hv
    case isFalse => exact .failAt .refl

end Stmt

namespace Program

theorem outcome_ofNode (n : Node) : Outcome WellFormed (At n) (ofNode n) := by
  unfold ofNode
  split
  case h_1 mark stmts =>
    exact .mapM fun stmt hs => (Stmt.outcome_ofNode stmt).child hs
  case h_2 => exact .failAt .refl

theorem wellFormed_of_ofDocument {doc : Option Node} {p : Program} (h : ofDocument doc = .ok p) :
    p.WellFormed := by
  cases doc
  case none =>
    cases h
    exact List.forall_mem_nil _
  case some n =>
    have outcome := outcome_ofNode n
    rw [ofDocument] at h
    rwa [h] at outcome

-- A program that has been decoded has no empty places, unknown operators or words that are not
-- names. So its expressions can be counted, its text has no gaps, and inference can go wrong only
-- over its types and over names that are not in scope.
theorem decoded_complete (doc : Option Node) (p : Program) (h : ofDocument doc = .ok p) :
    p.WellFormed ∧ (∃ k, p.exprCount = .ok k) ∧ (∀ stmt ∈ p, stmt.render? = some stmt.render) ∧
      ∀ (c : Context) (env : TypeEnv), (∃ env', (c.inferProgram env p).1 = .ok env') ∨
        ∃ err, (c.inferProgram env p).1 = .error err ∧ err.IsTypeError := by
  have wf := wellFormed_of_ofDocument h
  refine ⟨wf, wf.exprCount_eq_ok, fun stmt hs => (wf stmt hs).render?_eq, fun c env => ?_⟩
  cases hr : (c.inferProgram env p).1
  case ok env' => exact .inl ⟨env', rfl⟩
  case error err => exact .inr ⟨err, rfl, wf.isTypeError hr⟩

-- `let rec f = fun (_ :: x) -> f x` and `match [1] with _ -> 0 - x`, with nothing for the zero
def loopAndNegate : Node :=
  .sequence {} [
    record [
      ("value", record [("fun", record [
        ("param", record [("cons", record [("head", word "_"), ("tail", word "x")])]),
        ("body", record [("call", .sequence {} [
          record [("var", word "f")], record [("var", word "x")]])])])]),
      ("letrec", word "f")],
    record [("expr", record [("match", record [
      ("value", record [("list", .sequence {} [record [("int", word "1")]])]),
      ("cases", .sequence {} [record [
        ("pattern", word "_"),
        ("body", record [("binop", record [
          ("op", word "-"),
          ("left", record [("int", word "~")]),
          ("right", record [("var", word "x")])])])]])])])]]

def loopAndNegateProgram : Program :=
  [.declRec "f" (.lam (.cons .wildcard (.var "x")) (.app (.var "f") (.var "x"))),
    .expr (.cases (.cons (.int 1) .nil) [(.wildcard, .binop (some .sub) (.int 0) (.var "x"))])]

theorem ofDocument_loopAndNegate :
    ofDocument (some loopAndNegate) = .ok loopAndNegateProgram := by
  cbv

theorem decoded_complete_loopAndNegate :
    ofDocument (some loopAndNegate) = .ok loopAndNegateProgram ∧
      loopAndNegateProgram.WellFormed ∧ (∃ k, loopAndNegateProgram.exprCount = .ok k) ∧
      (∀ stmt ∈ loopAndNegateProgram, stmt.render? = some stmt.render) ∧
      ∃ err, (Context.inferProgram {} ∅ loopAndNegateProgram).1 = .error err ∧ err.IsTypeError := by
  obtain ⟨wf, count, text, infer⟩ := decoded_complete _ _ ofDocument_loopAndNegate
  refine ⟨ofDocument_loopAndNegate, wf, count, text, (infer {} ∅).resolve_left ?_⟩
  rintro ⟨env, h⟩
  have fails : (Context.inferProgram {} ∅ loopAndNegateProgram).1 = .error (.undefinedVar "x") := by
    cbv
  cases fails.symm.trans h

-- An error is the one of the first statement that is not decoded, and it is at a node of this
-- statement. What comes after it is not looked at.
theorem decodeError_of_first (doc : Option Node) (err : DecodeError)
    (h : ofDocument doc = .error err) :
    ∃ root, doc = some root ∧
      (((∀ mark stmts, root ≠ .sequence mark stmts) ∧ err = ⟨root.mark, .programNotSequence⟩) ∨
        ∃ mark before stmt after, root = .sequence mark (before ++ stmt :: after) ∧
          (∀ n ∈ before, ∃ s, Stmt.ofNode n = .ok s) ∧ Stmt.ofNode stmt = .error err ∧
          err.At stmt ∧
          ∀ later, ofDocument (some (.sequence mark (before ++ stmt :: later))) = .error err) := by
  cases doc
  case none => cases h
  case some root =>
    refine ⟨root, rfl, ?_⟩
    rw [ofDocument] at h
    cases root
    case sequence mark stmts =>
      obtain ⟨before, stmt, after, rfl, hb, hs⟩ := exists_of_mapM_eq_error h
      have outcome := Stmt.outcome_ofNode stmt
      rw [hs] at outcome
      exact .inr ⟨mark, before, stmt, after, rfl, hb, hs, outcome, mapM_append_of_error hb hs⟩
    case scalar | «alias» | mapping =>
      cases h
      exact .inl ⟨nofun, rfl⟩

def wordAt (line column : Nat) (s : String) : Node :=
  .scalar ⟨line, column⟩ ⟨none, false, s⟩

-- `let x = 1`, an expression that should be a Boolean and is not, and a statement without keys
def badSecond : Node :=
  .sequence ⟨1, 1⟩ [
    .mapping ⟨1, 3⟩ [
      (wordAt 1 3 "let", wordAt 1 8 "x"),
      (wordAt 2 3 "value", .mapping ⟨2, 10⟩ [(wordAt 2 11 "int", wordAt 2 16 "1")])],
    .mapping ⟨3, 3⟩ [
      (wordAt 3 3 "expr", .mapping ⟨3, 9⟩ [(wordAt 3 10 "bool", wordAt 3 16 "2")])],
    .mapping ⟨4, 3⟩ []]

def badLiteral : DecodeError where
  mark := ⟨3, 16⟩
  cause := .invalidLiteral "boolean literal" "2"

theorem decodeError_of_first_badSecond :
    ofDocument (some badSecond) = .error badLiteral ∧
      ∃ mark before stmt after, badSecond = .sequence mark (before ++ stmt :: after) ∧
        (∀ n ∈ before, ∃ s, Stmt.ofNode n = .ok s) ∧ Stmt.ofNode stmt = .error badLiteral ∧
        badLiteral.At stmt ∧
        ∀ later, ofDocument (some (.sequence mark (before ++ stmt :: later))) = .error badLiteral := by
  have fails : ofDocument (some badSecond) = .error badLiteral := by cbv
  obtain ⟨root, ⟨⟩, ⟨notSequence, _⟩ | first⟩ := decodeError_of_first _ _ fails
  · exact absurd rfl (notSequence _ _)
  · exact ⟨fails, first⟩

end Program

end HindleyMilner
