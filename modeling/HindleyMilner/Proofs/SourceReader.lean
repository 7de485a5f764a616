import HindleyMilner.Expr.Printer
import HindleyMilner.Proofs.Words

namespace HindleyMilner

open Text

namespace Pattern

-- A pattern is written like an expression, in which a wildcard is a name.
mutual
def toExpr : Pattern → Expr
  | .wildcard => .var "_"
  | .int n => .int n
  | .bool b => .bool b
  | .nil => .nil
  | .var x => .var x
  | .cons h t => .cons h.toExpr t.toExpr
  | .tuple ps => .tuple (toExprs ps)
  | .hole k => .hole k
def toExprs : List Pattern → List Expr
  | [] => []
  | p :: ps => p.toExpr :: toExprs ps
end

mutual
def ofExpr : Expr → Pattern
  | .int n => .int n
  | .bool b => .bool b
  | .nil => .nil
  | .var x => if x = "_" then .wildcard else .var x
  | .cons h t => .cons (ofExpr h) (ofExpr t)
  | .tuple es => .tuple (ofExprs es)
  | .hole k => .hole k
  | _ => .hole none
def ofExprs : List Expr → List Pattern
  | [] => []
  | e :: es => ofExpr e :: ofExprs es
end

end Pattern

namespace Source

def keywords : List String :=
  ["fun", "if", "then", "else", "let", "rec", "in", "match", "with", "true", "false"]

def isLetter (c : Char) : Bool :=
  c.isAlpha || 127 < c.toNat

def IsIdentifier (x : String) : Prop :=
  x ∉ keywords ∧ x.toList.head?.any isLetter ∧
    x.toList.all fun c => isLetter c || c.isDigit || c = '_'

instance (x : String) : Decidable (IsIdentifier x) :=
  inferInstanceAs (Decidable (_ ∧ _ ∧ _))

inductive Closer where
  | paren | comma | bracket | semicolon | arrow | yes | no | within | of | bar
deriving DecidableEq

inductive Token where
  | atom (e : Expr)
  | op (op : Op)
  | cons | paren | bracket | lam | cond | binder | isRec | cases
  | closer (c : Closer)

namespace Token

def isNumeral (w : String) : Bool :=
  w.toList.any Char.isDigit && w.toList.head?.all fun c => c.isDigit || c = '-'

def fixed : List (String × Token) :=
  [("fun", .lam), ("->", .closer .arrow), ("if", .cond), ("then", .closer .yes),
    ("else", .closer .no), ("let", .binder), ("rec", .isRec), ("in", .closer .within),
    ("match", .cases), ("with", .closer .of), ("|", .closer .bar), ("true", .atom (.bool true)),
    ("false", .atom (.bool false)), ("(", .paren), (",", .closer .comma), (")", .closer .paren),
    ("[", .bracket), (";", .closer .semicolon), ("]", .closer .bracket), ("::", .cons)]

def table : List (String × Token) :=
  fixed ++ Op.all.map fun op => (op.render, .op op)

def ofWord (w : String) : Token :=
  if isNumeral w then .atom (.int (Int64.ofInt (w.toInt?.getD 0)))
  else (table.lookup w).getD (.atom (.var w))

end Token

def scan (s : String) : List Token :=
  (words s).map Token.ofWord

-- What has been begun. An expression that stands before an opening bracket is a function, to which
-- what is in the brackets is given.
inductive Frame where
  | paren (fn : Option Expr) (elems : List Expr)
  | bracket (fn : Option Expr) (elems : List Expr)
  | param
  | lam (param : Pattern)
  | right (op : Op) (left : Expr)
  | tail (head : Expr)
  | test
  | yes (test : Expr)
  | no (test yes : Expr)
  | binder (isRec : Bool)
  | body (isRec : Bool) (name : String) (value : Expr)
  | value
  | pattern (value : Expr) (before : List (Pattern × Expr))
  | branch (value : Expr) (before : List (Pattern × Expr)) (pattern : Pattern)

structure Reader where
  begun : List Frame
  last : Option Expr

namespace Reader

def applied : Option Expr → Expr → Expr
  | none, e => e
  | some f, e => .app f e

def enclosed : List Expr → Expr
  | [e] => e
  | es => .tuple es

def bound (isRec : Bool) (x : String) (v e : Expr) : Expr :=
  if isRec then .letRec x v e else .letIn x v e

def binding? : Expr → Option (String × Expr)
  | .binop (some .eq) (.var x) v => some (x, v)
  | _ => none

-- Completes everything that ends with `e`. A bar leaves the innermost branch, which it ends too, to
-- what comes next.
def close (bar : Bool) : List Frame → Expr → Reader
  | .lam p :: fs, e => close bar fs (.lam p e)
  | .right op l :: fs, e => close bar fs (.binop op l e)
  | .tail h :: fs, e => close bar fs (.cons h e)
  | .no c y :: fs, e => close bar fs (.cond c y e)
  | .body isRec x v :: fs, e => close bar fs (bound isRec x v e)
  | .branch v bs p :: fs, e =>
    if bar then ⟨.branch v bs p :: fs, some e⟩ else close bar fs (.cases v (bs ++ [(p, e)]))
  | fs, e => ⟨fs, some e⟩

def settle (bar : Bool) : Reader → Reader
  | ⟨fs, some e⟩ => close bar fs e
  | ⟨.pattern v [] :: fs, none⟩ => close bar fs (.cases v [])
  | r => r

def finish : Closer → Reader → Option Reader
  | .paren, ⟨.paren f es :: fs, e⟩ => some ⟨fs, some (applied f (enclosed (es ++ e.toList)))⟩
  | .comma, ⟨.paren f es :: fs, some e⟩ => some ⟨.paren f (es ++ [e]) :: fs, none⟩
  | .bracket, ⟨.bracket f es :: fs, e⟩ => some ⟨fs, some (applied f (.list (es ++ e.toList)))⟩
  | .semicolon, ⟨.bracket f es :: fs, some e⟩ => some ⟨.bracket f (es ++ [e]) :: fs, none⟩
  | .arrow, ⟨.param :: fs, some p⟩ => some ⟨.lam (.ofExpr p) :: fs, none⟩
  | .arrow, ⟨.pattern v bs :: fs, some p⟩ => some ⟨.branch v bs (.ofExpr p) :: fs, none⟩
  | .yes, ⟨.test :: fs, some c⟩ => some ⟨.yes c :: fs, none⟩
  | .no, ⟨.yes c :: fs, some y⟩ => some ⟨.no c y :: fs, none⟩
  | .within, ⟨.binder isRec :: fs, some e⟩ =>
    (binding? e).map fun b => ⟨.body isRec b.1 b.2 :: fs, none⟩
  | .of, ⟨.value :: fs, some v⟩ => some ⟨.pattern v [] :: fs, none⟩
  | .bar, ⟨.branch v bs p :: fs, some e⟩ => some ⟨.pattern v (bs ++ [(p, e)]) :: fs, none⟩
  | _, _ => none

def step : Token → Reader → Option Reader
  | .atom e, ⟨fs, f⟩ => some ⟨fs, some (applied f e)⟩
  | .paren, ⟨fs, f⟩ => some ⟨.paren f [] :: fs, none⟩
  | .bracket, ⟨fs, f⟩ => some ⟨.bracket f [] :: fs, none⟩
  | .op op, ⟨fs, some l⟩ => some ⟨.right op l :: fs, none⟩
  | .cons, ⟨fs, some h⟩ => some ⟨.tail h :: fs, none⟩
  | .lam, ⟨fs, none⟩ => some ⟨.param :: fs, none⟩
  | .cond, ⟨fs, none⟩ => some ⟨.test :: fs, none⟩
  | .binder, ⟨fs, none⟩ => some ⟨.binder false :: fs, none⟩
  | .isRec, ⟨.binder _ :: fs, none⟩ => some ⟨.binder true :: fs, none⟩
  | .cases, ⟨fs, none⟩ => some ⟨.value :: fs, none⟩
  | .closer c, r => finish c (r.settle (c = .bar))
  | _, _ => none

def run : List Token → Reader → Option Expr
  | [], r =>
    match r.settle false with
    | ⟨[], e⟩ => e
    | _ => none
  | t :: ts, r => r.step t >>= run ts

end Reader

section Tokens

variable {s t l x : String} {c : Char} {ts : List Token}

theorem scan_append_of_starts (h : startsApart t) : scan (s ++ t) = scan s ++ scan t := by
  rw [scan, words_append_of_starts h, List.map_append]
  rfl

theorem scan_opened (hl : scan l = ts) (h : endsApart l) : scan (l ++ t) = ts ++ scan t := by
  rw [← hl, scan, words_append_of_ends h, List.map_append]
  rfl

theorem scan_closed (hl : scan l = ts) (h : startsApart l) : scan (s ++ l) = scan s ++ ts := by
  rw [← hl, scan_append_of_starts h]

theorem scan_between (hl : scan l = ts) (h : separates l) :
    scan (s ++ l ++ t) = scan s ++ (ts ++ scan t) := by
  rw [← hl, scan, words_between h, List.map_append, List.map_append, List.append_assoc]
  rfl

theorem scan_word (h : IsWord s) : scan s = [.ofWord s] := by
  rw [scan, h.words_eq]
  rfl

theorem IsIdentifier.isWord (h : IsIdentifier x) : IsWord x := by
  obtain ⟨_, first, all⟩ := h
  refine ⟨?_, List.all_eq_true.mpr fun c hc => ?_⟩
  · rintro rfl
    exact absurd first (by decide)
  · have hc := List.all_eq_true.mp all c hc
    simp only [Bool.or_eq_true, decide_eq_true_eq] at hc
    obtain (letter | digit) | rfl := hc
    · exact not_isMark_of (by decide) letter
    · exact not_isMark_of (by decide) digit
    · decide

theorem not_isDigit_of_isLetter (h : isLetter c) : c.isDigit = false := by
  refine Bool.eq_false_iff.mpr fun digit => ?_
  have digit := Char.isDigit_iff_toNat.mp digit
  have nine : '9'.toNat = 57 := rfl
  simp only [isLetter, Char.isAlpha, Char.isUpper, Char.isLower, Bool.or_eq_true, Bool.and_eq_true,
    decide_eq_true_eq, ge_iff_le, UInt32.le_iff_toNat_le] at h
  change (65 ≤ c.toNat ∧ _ ∨ 97 ≤ c.toNat ∧ _) ∨ _ at h
  omega

theorem IsIdentifier.lookup_table_eq_none (h : IsIdentifier x) : Token.table.lookup x = none := by
  have keys : Token.table.all fun b => b.1 ∈ keywords ∨ !b.1.toList.head?.any isLetter := by decide
  refine List.lookup_eq_none_iff.mpr fun b hb => ?_
  rw [bne_iff_ne]
  rintro rfl
  simpa [h.left, h.right.left] using List.all_eq_true.mp keys b hb

theorem IsIdentifier.ofWord_eq (h : IsIdentifier x) : Token.ofWord x = .atom (.var x) := by
  have first := h.right.left
  rw [Option.any_eq_true] at first
  obtain ⟨c, hc, letter⟩ := first
  have minus : c ≠ '-' := by
    rintro rfl
    exact absurd letter (by decide)
  have numeral : Token.isNumeral x = false := by
    simp [Token.isNumeral, hc, not_isDigit_of_isLetter letter, minus]
  rw [Token.ofWord, numeral, if_neg Bool.false_ne_true, h.lookup_table_eq_none]
  rfl

theorem ofWord_toString (n : Int64) : Token.ofWord (toString n.toInt) = .atom (.int n) := by
  obtain ⟨c, cs, hcs, first, digit, _⟩ := Document.Numeral.exists_toString_eq_cons n.toInt
  have numeral : Token.isNumeral (toString n.toInt) := by
    rw [Token.isNumeral, hcs, List.any_eq_true.mpr digit]
    simpa using first
  rw [Token.ofWord, if_pos numeral, Int.toString_eq_repr, Int.toInt?_repr]
  exact congrArg (Token.atom ∘ Expr.int) n.ofInt_toInt

theorem scan_op (op : Op) : scan op.render = [.op op] := by
  cases op <;> rfl

end Tokens

-- What may follow an expression: a closer, or nothing more. With `inCase`, a bar would be taken for
-- a part of the expression.
inductive Ends (inCase : Bool) : List Token → Prop
  | text : Ends inCase []
  | closer {c : Closer} (ts : List Token) (h : c = .bar → inCase = false) :
    Ends inCase (.closer c :: ts)

theorem Ends.mono {inCase : Bool} {ts : List Token} (h : Ends true ts) : Ends inCase ts := by
  cases h
  case text => exact .text
  case closer ts h => exact .closer ts fun hc => absurd (h hc) Bool.true_eq_false.mp

open Reader

def Simple (s : String) (e : Expr) : Prop :=
  ∀ fs f ts, run (scan s ++ ts) ⟨fs, f⟩ = run ts ⟨fs, some (applied f e)⟩

def Operand (s : String) (e : Expr) : Prop :=
  ∀ fs ts, run (scan s ++ ts) ⟨fs, none⟩ = run ts ⟨fs, some e⟩

-- The text is an expression that goes on as long as it can. With `inCase`, it takes branches in.
def Whole (inCase : Bool) (s : String) (e : Expr) : Prop :=
  ∀ fs {ts}, Ends inCase ts → run (scan s ++ ts) ⟨fs, none⟩ = run ts ⟨fs, some e⟩

def Items (s : String) (e : Expr) : Prop :=
  ∀ fs f before h ts, run (scan s ++ .closer .bracket :: ts) ⟨.bracket f before :: fs, some h⟩ =
    run ts ⟨fs, some (applied f ((before ++ [h]).foldr .cons e))⟩

section Forms

variable {b : Bool} {s s' s'' w x : String} {e e' f h t v l r : Expr} {p : Pattern}
  {fs : List Frame} {ts : List Token} {ss : List String} {es : List Expr}

theorem Simple.operand (hs : Simple s e) : Operand s e :=
  fun fs ts => hs fs none ts

theorem Operand.whole (hs : Operand s e) : Whole b s e :=
  fun fs _ _ => hs fs _

theorem Whole.weaken (hs : Whole b s e) : Whole true s e :=
  fun fs _ hts => hs fs hts.mono

theorem Whole.paren (hs : Whole b s e) : Simple ("(" ++ s ++ ")") e := by
  intro fs f ts
  rw [scan_closed (rfl : scan ")" = [.closer .paren]) (by decide),
    scan_opened (rfl : scan "(" = [.paren]) (by decide), List.append_assoc, List.append_assoc]
  calc run (.paren :: (scan s ++ .closer .paren :: ts)) ⟨fs, f⟩
    _ = run (scan s ++ .closer .paren :: ts) ⟨.paren f [] :: fs, none⟩ := rfl
    _ = run (.closer .paren :: ts) ⟨.paren f [] :: fs, some e⟩ := hs _ (.closer ts nofun)
    _ = run ts ⟨fs, some (applied f e)⟩ := rfl

theorem simple_atom (hw : IsWord w) (ha : Token.ofWord w = .atom e) : Simple w e := by
  intro fs f ts
  rw [scan_word hw, ha]
  rfl

theorem simple_nil : Simple "[]" .nil :=
  fun _ _ _ => rfl

theorem simple_unit : Simple "()" (.tuple []) :=
  fun _ _ _ => rfl

theorem operand_app (hf : Operand s f) (ha : Simple s' e) :
    Operand (s ++ " " ++ s') (.app f e) := by
  intro fs ts
  rw [scan_between (rfl : scan " " = []) (by decide), List.append_assoc]
  calc run (scan s ++ (scan s' ++ ts)) ⟨fs, none⟩
    _ = run (scan s' ++ ts) ⟨fs, some f⟩ := hf _ _
    _ = run ts ⟨fs, some (.app f e)⟩ := ha _ _ _

theorem run_close {frame : Frame} (hts : Ends b ts)
    (hc : ∀ bar, close bar (frame :: fs) e = close bar fs e') :
    run ts ⟨frame :: fs, some e⟩ = run ts ⟨fs, some e'⟩ := by
  cases hts
  case text => rw [run, run, settle, settle, hc]
  case closer => rw [run, run, step, step, settle, settle, hc]

theorem whole_lam (hp : Simple s p.toExpr) (inv : .ofExpr p.toExpr = p) (he : Whole b s' e) :
    Whole b ("fun " ++ s ++ " -> " ++ s') (.lam p e) := by
  intro fs ts hts
  rw [scan_between (rfl : scan " -> " = [.closer .arrow]) (by decide),
    scan_opened (rfl : scan "fun " = [.lam]) (by decide), List.append_assoc, List.append_assoc]
  calc run (.lam :: (scan s ++ .closer .arrow :: (scan s' ++ ts))) ⟨fs, none⟩
    _ = run (scan s ++ .closer .arrow :: (scan s' ++ ts)) ⟨.param :: fs, none⟩ := rfl
    _ = run (.closer .arrow :: (scan s' ++ ts)) ⟨.param :: fs, some p.toExpr⟩ := hp _ _ _
    _ = run (scan s' ++ ts) ⟨.lam (.ofExpr p.toExpr) :: fs, none⟩ := rfl
    _ = run ts ⟨.lam p :: fs, some e⟩ := by rw [inv, he _ hts]
    _ = run ts ⟨fs, some (.lam p e)⟩ := run_close hts fun _ => rfl

theorem whole_binop {op : Op} (hl : Operand s l) (hr : Operand s' r) :
    Whole b (s ++ " " ++ op.render ++ " " ++ s') (.binop op l r) := by
  intro fs ts hts
  rw [scan_between (rfl : scan " " = []) (by decide),
    scan_between (rfl : scan " " = []) (by decide), scan_op, List.append_assoc, List.append_assoc]
  calc run (scan s ++ .op op :: (scan s' ++ ts)) ⟨fs, none⟩
    _ = run (.op op :: (scan s' ++ ts)) ⟨fs, some l⟩ := hl _ _
    _ = run (scan s' ++ ts) ⟨.right op l :: fs, none⟩ := rfl
    _ = run ts ⟨.right op l :: fs, some r⟩ := hr _ _
    _ = run ts ⟨fs, some (.binop op l r)⟩ := run_close hts fun _ => rfl

theorem whole_cons (hh : Simple s h) (ht : Whole b s' t) :
    Whole b (s ++ " :: " ++ s') (.cons h t) := by
  intro fs ts hts
  rw [scan_between (rfl : scan " :: " = [.cons]) (by decide), List.append_assoc]
  calc run (scan s ++ .cons :: (scan s' ++ ts)) ⟨fs, none⟩
    _ = run (.cons :: (scan s' ++ ts)) ⟨fs, some h⟩ := hh _ _ _
    _ = run (scan s' ++ ts) ⟨.tail h :: fs, none⟩ := rfl
    _ = run ts ⟨.tail h :: fs, some t⟩ := ht _ hts
    _ = run ts ⟨fs, some (.cons h t)⟩ := run_close hts fun _ => rfl

theorem whole_cond {c y n : Expr} (hc : Whole true s c) (hy : Whole true s' y)
    (hn : Whole b s'' n) :
    Whole b ("if " ++ s ++ " then " ++ s' ++ " else " ++ s'') (.cond c y n) := by
  intro fs ts hts
  rw [scan_between (rfl : scan " else " = [.closer .no]) (by decide),
    scan_between (rfl : scan " then " = [.closer .yes]) (by decide),
    scan_opened (rfl : scan "if " = [.cond]) (by decide), List.append_assoc, List.append_assoc,
    List.append_assoc, List.append_assoc]
  calc run (.cond :: (scan s ++ .closer .yes :: (scan s' ++ .closer .no :: (scan s'' ++ ts))))
        ⟨fs, none⟩
    _ = run (scan s ++ .closer .yes :: (scan s' ++ .closer .no :: (scan s'' ++ ts)))
        ⟨.test :: fs, none⟩ := rfl
    _ = run (.closer .yes :: (scan s' ++ .closer .no :: (scan s'' ++ ts))) ⟨.test :: fs, some c⟩ :=
      hc _ (.closer _ nofun)
    _ = run (scan s' ++ .closer .no :: (scan s'' ++ ts)) ⟨.yes c :: fs, none⟩ := rfl
    _ = run (.closer .no :: (scan s'' ++ ts)) ⟨.yes c :: fs, some y⟩ := hy _ (.closer _ nofun)
    _ = run (scan s'' ++ ts) ⟨.no c y :: fs, none⟩ := rfl
    _ = run ts ⟨.no c y :: fs, some n⟩ := hn _ hts
    _ = run ts ⟨fs, some (.cond c y n)⟩ := run_close hts fun _ => rfl

theorem whole_binding (isRec : Bool) {start : String} (hb : endsApart start)
    (hr : ∀ fs ts, run (scan start ++ ts) ⟨fs, none⟩ = run ts ⟨.binder isRec :: fs, none⟩)
    (hx : IsIdentifier x) (hv : Whole true s v) (he : Whole b s' e) :
    Whole b (start ++ x ++ " = " ++ s ++ " in " ++ s') (bound isRec x v e) := by
  intro fs ts hts
  rw [scan_between (rfl : scan " in " = [.closer .within]) (by decide),
    scan_between (rfl : scan " = " = [.op .eq]) (by decide), scan_opened rfl hb,
    scan_word hx.isWord, hx.ofWord_eq, List.append_assoc, List.append_assoc, List.append_assoc, hr]
  calc run (.atom (.var x) :: .op .eq :: (scan s ++ .closer .within :: (scan s' ++ ts)))
        ⟨.binder isRec :: fs, none⟩
    _ = run (scan s ++ .closer .within :: (scan s' ++ ts))
        ⟨.right .eq (.var x) :: .binder isRec :: fs, none⟩ := rfl
    _ = run (.closer .within :: (scan s' ++ ts))
        ⟨.right .eq (.var x) :: .binder isRec :: fs, some v⟩ := hv _ (.closer _ nofun)
    _ = run (scan s' ++ ts) ⟨.body isRec x v :: fs, none⟩ := rfl
    _ = run ts ⟨.body isRec x v :: fs, some e⟩ := he _ hts
    _ = run ts ⟨fs, some (bound isRec x v e)⟩ := run_close hts fun _ => rfl

def elemsText : List String → String
  | [] => ""
  | s :: ss => ", " ++ s ++ elemsText ss

theorem startsApart_elemsText (ss : List String) : startsApart (elemsText ss) := by
  cases ss <;> rw [elemsText]
  case nil => decide
  case cons =>
    rw [String.append_assoc]
    exact startsApart_append (by decide) (by decide)

theorem scan_elemsText_cons (s : String) (ss : List String) :
    scan (elemsText (s :: ss)) = .closer .comma :: (scan s ++ scan (elemsText ss)) := by
  rw [elemsText, scan_append_of_starts (startsApart_elemsText ss),
    scan_opened (rfl : scan ", " = [.closer .comma]) (by decide)]
  rfl

theorem ends_elems (ss : List String) :
    Ends true (scan (elemsText ss) ++ .closer .paren :: ts) := by
  cases ss
  case nil => exact .closer _ nofun
  case cons => exact scan_elemsText_cons _ _ ▸ .closer _ nofun

theorem run_elems (hs : List.Forall₂ (Whole true) ss es) (f : Option Expr) (before : List Expr)
    (e : Expr) :
    run (scan (elemsText ss) ++ .closer .paren :: ts) ⟨.paren f before :: fs, some e⟩ =
      run ts ⟨fs, some (applied f (enclosed (before ++ e :: es)))⟩ := by
  induction hs generalizing before e
  case nil => rfl
  case cons s e' ss es he _ ih =>
    rw [scan_elemsText_cons, List.cons_append, List.append_assoc]
    calc run (.closer .comma :: (scan s ++ (scan (elemsText ss) ++ .closer .paren :: ts)))
          ⟨.paren f before :: fs, some e⟩
      _ = run (scan s ++ (scan (elemsText ss) ++ .closer .paren :: ts))
          ⟨.paren f (before ++ [e]) :: fs, none⟩ := rfl
      _ = run (scan (elemsText ss) ++ .closer .paren :: ts)
          ⟨.paren f (before ++ [e]) :: fs, some e'⟩ := he _ (ends_elems ss)
      _ = _ := ih _ _
      _ = _ := by rw [List.append_assoc]; rfl

theorem simple_tuple (hs : List.Forall₂ (Whole true) ss es) (he : Whole true s e) (ne : es ≠ []) :
    Simple ("(" ++ s ++ elemsText ss ++ ")") (.tuple (e :: es)) := by
  intro fs f ts
  have several : enclosed (e :: es) = .tuple (e :: es) := by
    cases es
    case nil => exact absurd rfl ne
    case cons => rfl
  rw [scan_closed (rfl : scan ")" = [.closer .paren]) (by decide),
    scan_append_of_starts (startsApart_elemsText ss),
    scan_opened (rfl : scan "(" = [.paren]) (by decide), List.append_assoc, List.append_assoc,
    List.append_assoc]
  calc run (.paren :: (scan s ++ (scan (elemsText ss) ++ .closer .paren :: ts))) ⟨fs, f⟩
    _ = run (scan s ++ (scan (elemsText ss) ++ .closer .paren :: ts))
        ⟨.paren f [] :: fs, none⟩ := rfl
    _ = run (scan (elemsText ss) ++ .closer .paren :: ts) ⟨.paren f [] :: fs, some e⟩ :=
      he _ (ends_elems ss)
    _ = _ := run_elems hs f [] e
    _ = run ts ⟨fs, some (applied f (.tuple (e :: es)))⟩ := by rw [List.nil_append, several]

end Forms

end Source

end HindleyMilner
