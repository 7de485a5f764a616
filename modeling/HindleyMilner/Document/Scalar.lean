import HindleyMilner.Document.SyntaxError

namespace HindleyMilner.Document

structure Gap where
  -- The blanks, the last one first.
  blanks : List Char := []
  -- The first line break, if there has been one.
  firstBreak : Option (List Char) := none
  -- The other line breaks, the last one first.
  moreBreaks : List Char := []
deriving Inhabited

namespace Gap

def isEmpty (g : Gap) : Bool :=
  g.blanks.isEmpty && g.firstBreak.isNone

def addBlank (g : Gap) (c : Char) : Gap :=
  if g.firstBreak.isNone then { g with blanks := c :: g.blanks } else g

def addBreak (g : Gap) (c : Char) : Gap :=
  -- The breaks of the usual kinds are all the same.
  let c := if c = '\r' || c = '\u0085' then '\n' else c
  match g.firstBreak with
  | none => { firstBreak := some [c] }
  | some _ => { g with moreBreaks := c :: g.moreBreaks }

def escapedBreak : Gap where
  firstBreak := some []

-- A single line break is a space, and of several breaks all but the first are kept.
def folded (g : Gap) : List Char :=
  match g.firstBreak with
  | none => g.blanks
  | some ['\n'] => if g.moreBreaks.isEmpty then [' '] else g.moreBreaks
  | some cs => g.moreBreaks ++ cs

end Gap

structure ScalarText where
  text : String
  -- Where the scalar ends.
  stop : Place
  rest : List Char
  -- Where the text after it goes on.
  place : Place
  -- White space with a line break has been passed over at the end.
  brokeLine : Bool
  -- Every character before this index has been looked at.
  reach : Nat

namespace ScalarText

def syntaxError {α : Type} (p : Place) (cause : SyntaxCause) : Except SyntaxError α :=
  .error ⟨p.toMark, cause⟩

def isFlowIndicator (c : Char) : Bool :=
  c = ',' || c = '?' || c = '[' || c = ']' || c = '\x7b' || c = '\x7d'

def atDocumentMark (p : Place) (cs : List Char) : Bool :=
  p.column = 1 && (documentMarkNext '-' cs || documentMarkNext '.' cs)

def endsPlain (inFlow : Bool) (g : Gap) (p : Place) (c : Char) (cs : List Char) : Bool :=
  (!g.isEmpty && (c = '#' || atDocumentMark p (c :: cs)))
    || (c = ':' && gapNext cs)
    || (inFlow && isFlowIndicator c)

-- How far the text has been looked at when a word starts at `p` after the white space `g`, or goes
-- on there.
def wordReach (g : Gap) (p : Place) (reach : Nat) : Nat :=
  if g.isEmpty then reach else max reach (p.index + 4)

def plain (inFlow : Bool) (indent : Nat) (cs : List Char) (p : Place) :
    Except SyntaxError ScalarText :=
  go cs p [] {} p (p.index + 4)
where
  done (cs : List Char) (p : Place) (acc : List Char) (g : Gap) (stop : Place) (reach : Nat) :
      ScalarText :=
    ⟨.ofList acc.reverse, stop, cs, p, g.firstBreak.isSome, reach⟩
  go : List Char → Place → List Char → Gap → Place → Nat → Except SyntaxError ScalarText
    | [], p, acc, g, stop, reach => .ok (done [] p acc g stop reach)
    | '\r' :: '\n' :: cs, p, acc, g, stop, reach =>
      go cs (p.newline 2) acc (g.addBreak '\n') stop reach
    | c :: cs, p, acc, g, stop, reach =>
      if isBreak c then go cs (p.newline 1) acc (g.addBreak c) stop reach
      else if isBlank c then
        if c = '\t' && g.firstBreak.isSome && p.column ≤ indent then syntaxError p .tabIndentation
        else go cs (p.forward 1) acc (g.addBlank c) stop reach
      else if !g.isEmpty && !inFlow && p.column ≤ indent then
        .ok (done (c :: cs) p acc g stop (max reach (p.index + 1)))
      else
        let reach := wordReach g p reach
        if endsPlain inFlow g p c cs then .ok (done (c :: cs) p acc g stop reach)
        else
          go cs (p.forward 1) (c :: g.folded ++ acc) {} (p.forward 1) (max reach (p.index + 3))

def closed (cs : List Char) (p : Place) (acc : List Char) (reach : Nat) : ScalarText where
  text := .ofList acc.reverse
  stop := p
  rest := cs
  place := p
  brokeLine := false
  reach := reach

def singleQuoted (cs : List Char) (p : Place) : Except SyntaxError ScalarText :=
  go cs p [] {} (p.index + 4)
where
  go : List Char → Place → List Char → Gap → Nat → Except SyntaxError ScalarText
    | [], p, _, _, _ => syntaxError p .unclosedQuote
    | '\r' :: '\n' :: cs, p, acc, g, reach => go cs (p.newline 2) acc (g.addBreak '\n') reach
    | '\'' :: '\'' :: cs, p, acc, g, reach =>
      go cs (p.forward 2) ('\'' :: g.folded ++ acc) {} (max (wordReach g p reach) (p.index + 4))
    | c :: cs, p, acc, g, reach =>
      if isBreak c then go cs (p.newline 1) acc (g.addBreak c) reach
      else if isBlank c then go cs (p.forward 1) acc (g.addBlank c) reach
      else if atDocumentMark p (c :: cs) then syntaxError p .documentMarkInQuote
      else
        let reach := wordReach g p reach
        if c = '\'' then .ok (closed cs (p.forward 1) (g.folded ++ acc) reach)
        else go cs (p.forward 1) (c :: g.folded ++ acc) {} (max reach (p.index + 3))

def escape? : Char → Option Char
  | '0' => '\x00'
  | 'a' => '\x07'
  | 'b' => '\x08'
  | 't' | '\t' => '\t'
  | 'n' => '\n'
  | 'v' => '\x0b'
  | 'f' => '\x0c'
  | 'r' => '\r'
  | 'e' => '\x1b'
  | ' ' => ' '
  | '"' => '"'
  | '\'' => '\''
  | '\\' => '\\'
  | 'N' => '\u0085'
  | '_' => '\u00a0'
  | 'L' => '\u2028'
  | 'P' => '\u2029'
  | _ => none

def escapeDigits? : Char → Option Nat
  | 'x' => some 2
  | 'u' => some 4
  | 'U' => some 8
  | _ => none

def hexDigit? (c : Char) : Option Nat :=
  if '0' ≤ c ∧ c ≤ '9' then some (c.toNat - '0'.toNat)
  else if 'a' ≤ c ∧ c ≤ 'f' then some (c.toNat - 'a'.toNat + 10)
  else if 'A' ≤ c ∧ c ≤ 'F' then some (c.toNat - 'A'.toNat + 10)
  else none

def char? (n : Nat) : Option Char :=
  if h : n.isValidChar then some (.ofNatAux n h) else none

def doubleQuoted (cs : List Char) (p : Place) : Except SyntaxError ScalarText :=
  go cs p [] {} (p.index + 4) none
where
  -- The last argument holds how many digits of an escape are still to come, and their value so far.
  go : List Char → Place → List Char → Gap → Nat → Option (Nat × Nat) →
      Except SyntaxError ScalarText
    | [], p, _, _, _, _ => syntaxError p .unclosedQuote
    | c :: cs, p, acc, g, reach, some (k, n) =>
      match hexDigit? c with
      | none => syntaxError p .badEscapeDigits
      | some d =>
        let n := 16 * n + d
        if k = 1 then
          match char? n with
          | some c => go cs (p.forward 1) (c :: acc) g (max reach (p.index + 3)) none
          | none => syntaxError p .badCodePoint
        else go cs (p.forward 1) acc g reach (some (k - 1, n))
    | '\r' :: '\n' :: cs, p, acc, g, reach, none =>
      go cs (p.newline 2) acc (g.addBreak '\n') reach none
    | '\\' :: '\r' :: '\n' :: cs, p, acc, g, reach, none =>
      go cs (p.newline 3) (g.folded ++ acc) .escapedBreak (wordReach g p reach) none
    | '\\' :: c :: cs, p, acc, g, reach, none =>
      let reach := wordReach g p reach
      if isBreak c then go cs (p.newline 2) (g.folded ++ acc) .escapedBreak reach none
      else
        match escape? c, escapeDigits? c with
        | some c, _ => go cs (p.forward 2) (c :: g.folded ++ acc) {} (max reach (p.index + 4)) none
        | none, some k => go cs (p.forward 2) (g.folded ++ acc) {} reach (some (k, 0))
        | none, none => syntaxError p .unknownEscape
    | c :: cs, p, acc, g, reach, none =>
      if isBreak c then go cs (p.newline 1) acc (g.addBreak c) reach none
      else if isBlank c then go cs (p.forward 1) acc (g.addBlank c) reach none
      else if atDocumentMark p (c :: cs) then syntaxError p .documentMarkInQuote
      else
        let reach := wordReach g p reach
        if c = '"' then .ok (closed cs (p.forward 1) (g.folded ++ acc) reach)
        else go cs (p.forward 1) (c :: g.folded ++ acc) {} (max reach (p.index + 3)) none

end ScalarText

end HindleyMilner.Document
