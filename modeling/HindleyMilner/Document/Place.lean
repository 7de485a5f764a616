namespace HindleyMilner.Document

-- A place in a text. Lines and columns are counted from 1, columns in characters.
structure Mark where
  line : Nat := 1
  column : Nat := 1
deriving Inhabited, Repr, DecidableEq

structure Place extends Mark where
  index : Nat := 0
deriving Inhabited, Repr, DecidableEq

namespace Place

def forward (p : Place) (n : Nat) : Place :=
  { p with column := p.column + n, index := p.index + n }

def newline (p : Place) (n : Nat) : Place where
  line := p.line + 1
  column := 1
  index := p.index + n

def lineStart (p : Place) : Place :=
  if p.column = 1 then p else p.newline 0

end Place

def isBlank (c : Char) : Bool :=
  c = ' ' || c = '\t'

def isBreak (c : Char) : Bool :=
  c = '\n' || c = '\r' || c = '\u0085' || c = '\u2028' || c = '\u2029'

def gapNext : List Char → Bool
  | [] => true
  | c :: _ => isBlank c || isBreak c

def documentMarkNext (c : Char) : List Char → Bool
  | c₁ :: c₂ :: c₃ :: cs => c₁ = c && c₂ = c && c₃ = c && gapNext cs
  | _ => false

end HindleyMilner.Document
