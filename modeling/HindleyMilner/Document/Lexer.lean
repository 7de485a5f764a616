import HindleyMilner.Document.Chunk
import HindleyMilner.Document.Scalar
import HindleyMilner.Document.Token

namespace HindleyMilner.Document

-- A token that is a key if a colon follows. Then the tokens that open the mapping and mark the key
-- are put in before it.
structure KeyCandidate where
  -- The number of tokens before it.
  position : Nat
  place : Place
  -- The token stands where only a key can stand.
  required : Bool
  -- The token is not handed out before it is decided.
  held : Bool := true
deriving Inhabited

structure OpenFlow where
  -- The number of tokens before it.
  position : Nat
  -- The candidate around it, which may be the collection itself.
  outer : Option KeyCandidate
  -- There has been no candidate in it.
  isBare : Bool := true
deriving Inhabited

structure Lexer where
  -- The text from the place on, and the number of characters in the whole text.
  rest : List Char
  size : Nat := rest.length
  place : Place := {}
  -- The tokens that have not been handed out.
  queue : List Token := []
  -- The number of tokens that have been handed out.
  taken : Nat := 0
  -- The column of the innermost block, or 0 outside of any block.
  indent : Nat := 0
  -- The columns of the blocks around it.
  outerIndents : List Nat := []
  candidate : Option KeyCandidate := none
  -- The flow collections that are open, the innermost one first.
  flows : List OpenFlow := []
  -- A key may start here.
  keyAllowed : Bool := true
  -- The end of the text is among the tokens.
  isDone : Bool := false
  -- Every character before this index has been looked at.
  reach : Nat := 0
  -- The index of the first character that cannot be looked at, if there is one.
  readable : Option Nat := none
deriving Inhabited

namespace Lexer

abbrev Step := Except SyntaxError Lexer

def fail {α : Type} (lx : Lexer) (cause : SyntaxCause) : Except SyntaxError α :=
  .error ⟨lx.place.toMark, cause⟩

def left (lx : Lexer) : Nat :=
  lx.size - lx.place.index

def inFlow (lx : Lexer) : Bool :=
  !lx.flows.isEmpty

def lookUpTo (lx : Lexer) (index : Nat) : Lexer :=
  { lx with reach := max lx.reach index }

def push (lx : Lexer) (kind : TokenKind) (start stop : Place) : Lexer :=
  { lx with queue := lx.queue ++ [⟨kind, start.toMark, stop.toMark⟩] }

def take (lx : Lexer) (kind : TokenKind) (n : Nat) : Lexer :=
  let stop := lx.place.forward n
  { lx.push kind lx.place stop with rest := lx.rest.drop n, place := stop }

-- Puts a token of no characters before the candidate `k`. It is too late for that, and the token
-- comes last, if `k` has been handed out.
def insertBefore (lx : Lexer) (k : KeyCandidate) (kind : TokenKind) : Lexer :=
  if k.position < lx.taken then lx.push kind k.place k.place
  else
    { lx with
      queue := lx.queue.insertIdx (k.position - lx.taken) ⟨kind, k.place.toMark, k.place.toMark⟩ }

def dropCandidate (lx : Lexer) : Step :=
  match lx.candidate with
  | some k =>
    if k.required then .error ⟨k.place.toMark, .missingColon⟩
    else .ok { lx with candidate := none }
  | none => .ok lx

def saveCandidate (lx : Lexer) : Step :=
  if lx.keyAllowed then do
    let lx ← lx.dropCandidate
    let required := !lx.inFlow && lx.indent = lx.place.column
    let flows := match lx.flows with
      | f :: fs => { f with isBare := false } :: fs
      | [] => []
    return { lx with
      candidate := some ⟨lx.taken + lx.queue.length, lx.place, required, true⟩, flows }
  else .ok lx

-- A colon that comes here is too late for the candidate, which is on an earlier line or too far
-- back.
def tooLate (lx : Lexer) (k : KeyCandidate) : Bool :=
  k.place.line < lx.place.line || k.place.index + 1024 < lx.place.index

def liveCandidate (lx : Lexer) : Except SyntaxError (Option KeyCandidate) :=
  match lx.candidate with
  | some k =>
    if lx.tooLate k then
      if k.required then .error ⟨k.place.toMark, .missingColon⟩ else .ok none
    else .ok (some k)
  | none => .ok none

def firstCandidate (lx : Lexer) : Option KeyCandidate :=
  go lx.candidate lx.flows
where
  -- Candidates further out come earlier.
  go (k? : Option KeyCandidate) : List OpenFlow → Option KeyCandidate
    | [] => k?.filter (·.position = lx.taken)
    | f :: fs =>
      if k?.any (·.position = lx.taken) then k?
      else if f.position < lx.taken then none
      else go f.outer fs

def isHeld (lx : Lexer) : Except SyntaxError Bool :=
  match lx.firstCandidate with
  | some k =>
    if !k.held then .ok false
    else if !lx.tooLate k then .ok true
    else if k.required then .error ⟨k.place.toMark, .missingColon⟩ else .ok false
  | none => .ok false

def maxDepth : Nat := 10000

def openBlock (lx : Lexer) (column : Nat) (token : Lexer → Lexer) : Step :=
  if !lx.inFlow && lx.indent < column then
    let outerIndents := lx.indent :: lx.outerIndents
    if maxDepth < outerIndents.length then lx.fail .tooDeep
    else .ok { token lx with indent := column, outerIndents }
  else .ok lx

def closeBlocks (lx : Lexer) (column : Nat) (stop : Place) : Lexer :=
  if lx.inFlow then lx else go lx.outerIndents lx
where
  go : List Nat → Lexer → Lexer
    | [], lx => lx
    | outer :: outers, lx =>
      if column < lx.indent then
        go outers { lx.push .blockEnd stop stop with indent := outer, outerIndents := outers }
      else lx

def commentFollows : List Char → Bool
  | c :: cs =>
    let isGap (c : Char) : Bool := isBlank c || c = '\n' || c = '\r'
    (c = '\n' || c = '\r') && ((cs.take 511).dropWhile isGap).head? = some '#'
  | [] => false

inductive GapPart where
  | space
  | comment
  -- White space between two comments, in which tabs may stand everywhere.
  | betweenComments

def GapPart.afterBreak (part : GapPart) (cs : List Char) : GapPart :=
  match part with
  | .comment => if commentFollows cs then .betweenComments else .space
  | part => part

def skipGap (lx : Lexer) : Lexer :=
  let (rest, place, keyAllowed) := go lx.rest lx.place lx.keyAllowed .space
  { lx with rest, place, keyAllowed }
where
  -- Outside of flow collections a key may start on every new line, and no tab may stand before it.
  go : List Char → Place → Bool → GapPart → List Char × Place × Bool
    | [], p, allowed, _ => ([], p, allowed)
    | '\r' :: '\n' :: cs, p, allowed, part =>
      go cs (p.newline 2) (allowed || !lx.inFlow) (part.afterBreak ('\r' :: '\n' :: cs))
    | c :: cs, p, allowed, part =>
      if isBreak c then
        go cs (p.newline 1) (allowed || !lx.inFlow) (part.afterBreak (c :: cs))
      else
        match part with
        | .comment => go cs (p.forward 1) allowed .comment
        | .betweenComments =>
          go cs (p.forward 1) allowed (if c = '#' then .comment else .betweenComments)
        | .space =>
          if c = '#' then go cs (p.forward 1) allowed .comment
          else if c = ' ' || (c = '\t' && (lx.inFlow || !allowed)) then
            go cs (p.forward 1) allowed .space
          else (c :: cs, p, allowed)

-- Steps over a comment after a token on its line. After a dash and a document mark there is none:
-- such a comment belongs to what follows.
def skipLineComment (lx : Lexer) : Lexer :=
  match lx.queue.getLast? with
  | some t =>
    if t.stop.line < lx.place.line || t.kind ∈ [.entry, .documentStart, .documentEnd, .streamEnd]
    then lx
    else
      let blanks := (lx.rest.takeWhile isBlank).length
      let rest := lx.rest.drop blanks
      if blanks < 512 && rest.head? = some '#' then
        let n := blanks + (rest.takeWhile (!isBreak ·)).length
        let lx := { lx with rest := lx.rest.drop n, place := lx.place.forward n }
        lx.lookUpTo (lx.place.index + 1)
      else lx.lookUpTo (lx.place.index + min (blanks + 1) 512)
  | none => lx

def documentMark (lx : Lexer) (kind : TokenKind) : Step := do
  let lx ← (lx.closeBlocks 0 lx.place).dropCandidate
  return { lx.take kind 3 with keyAllowed := false }

def flowStart (lx : Lexer) (kind : TokenKind) : Step := do
  let lx ← lx.saveCandidate
  let flows := { position := lx.taken + lx.queue.length, outer := lx.candidate } :: lx.flows
  if maxDepth < flows.length then lx.fail .tooDeep
  else return { lx.take kind 1 with candidate := none, flows, keyAllowed := true }

-- If there has been no candidate in it, the collection is handed out though a colon may follow.
def flowEnd (lx : Lexer) (kind : TokenKind) : Step := do
  let lx := { (← lx.dropCandidate).take kind 1 with keyAllowed := false }
  match lx.flows with
  | f :: flows =>
    let candidate := f.outer.map fun k =>
      if f.isBare && k.position = f.position then { k with held := false } else k
    return { lx with candidate, flows }
  | [] => return lx

def flowEntry (lx : Lexer) : Step := do
  return { (← lx.dropCandidate).take .flowEntry 1 with keyAllowed := true }

def blockEntry (lx : Lexer) : Step := do
  if !lx.inFlow && !lx.keyAllowed then lx.fail .entryNotAllowed
  else
    let lx ← lx.openBlock lx.place.column fun lx => lx.push .sequenceStart lx.place lx.place
    return { (← lx.dropCandidate).take .entry 1 with keyAllowed := true }

def key (lx : Lexer) : Step := do
  if !lx.inFlow && !lx.keyAllowed then lx.fail .keyNotAllowed
  else
    let lx ← lx.openBlock lx.place.column fun lx => lx.push .mappingStart lx.place lx.place
    return { (← lx.dropCandidate).take .key 1 with keyAllowed := !lx.inFlow }

def value (lx : Lexer) : Step := do
  match ← lx.liveCandidate with
  | some k =>
    let lx := lx.insertBefore k .key
    let lx ← lx.openBlock k.place.column fun lx => lx.insertBefore k .mappingStart
    return { lx.take .value 1 with candidate := none, keyAllowed := false }
  | none =>
    let lx := { lx with candidate := none }
    if !lx.inFlow && !lx.keyAllowed then lx.fail .valueNotAllowed
    else
      let lx ← lx.openBlock lx.place.column fun lx => lx.push .mappingStart lx.place lx.place
      return { lx.take .value 1 with keyAllowed := !lx.inFlow }

def isWordChar (c : Char) : Bool :=
  c.isAlphanum || c = '_' || c = '-'

def named (lx : Lexer) (kind : String → TokenKind) : Step := do
  let lx := { (← lx.saveCandidate) with keyAllowed := false }
  let name := (lx.rest.drop 1).takeWhile isWordChar
  let rest := (lx.rest.drop 1).dropWhile isWordChar
  if name.isEmpty || !(gapNext rest || rest.head?.any (· ∈ "?:,]\x7d%@`".toList)) then
    lx.fail .badAnchor
  else
    let lx := lx.take (kind (.ofList name)) (name.length + 1)
    return lx.lookUpTo (lx.place.index + 1)

def isTagChar (c : Char) : Bool :=
  isWordChar c || c ∈ ";/?:@&=+$,.!~*'()[]".toList

def tagOf (cs : List Char) : Option Tag :=
  let word := cs.takeWhile isWordChar
  match cs.dropWhile isWordChar with
  | '!' :: name =>
    if name.isEmpty then none
    else if word.isEmpty then some (.core (.ofList name))
    else some (.undefined (.ofList word) (.ofList name))
  | _ => some (if cs.isEmpty then .any else .custom (.ofList cs))

def tag (lx : Lexer) : Step := do
  let lx := { (← lx.saveCandidate) with keyAllowed := false }
  let text := (lx.rest.drop 1).takeWhile isTagChar
  match tagOf text with
  | some t =>
    if gapNext (lx.rest.drop (text.length + 1)) then
      let lx := lx.take (.tag t) (text.length + 1)
      return lx.lookUpTo (lx.place.index + 1)
    else lx.fail .badTag
  | none => lx.fail .badTag

def scalar (lx : Lexer) (s : ScalarText) (quoted : Bool) : Lexer :=
  { lx.push (.scalar s.text quoted) lx.place s.stop with
    rest := s.rest, place := s.place, keyAllowed := s.brokeLine, reach := max lx.reach s.reach }

def quotedScalar (lx : Lexer)
    (read : List Char → Place → Except SyntaxError ScalarText) : Step := do
  let lx ← lx.saveCandidate
  return lx.scalar (← read (lx.rest.drop 1) (lx.place.forward 1)) true

def plainScalar (lx : Lexer) : Step := do
  let lx ← lx.saveCandidate
  return lx.scalar (← ScalarText.plain lx.inFlow lx.indent lx.rest lx.place) false

def startsPlain (inFlow : Bool) (c : Char) (cs : List Char) : Bool :=
  !(isBlank c || isBreak c || c ∈ "-?:,[]\x7b\x7d#&*!|>'\"%@`".toList)
    || (c = '-' && !cs.head?.any isBlank)
    || (!inFlow && (c = '?' || c = ':') && !gapNext cs)

def token (lx : Lexer) (c : Char) (cs : List Char) : Step :=
  if lx.place.column = 1 && documentMarkNext '-' (c :: cs) then lx.documentMark .documentStart
  else if lx.place.column = 1 && documentMarkNext '.' (c :: cs) then lx.documentMark .documentEnd
  else if c = '[' then lx.flowStart .flowSequenceStart
  else if c = '\x7b' then lx.flowStart .flowMappingStart
  else if c = ']' then lx.flowEnd .flowSequenceEnd
  else if c = '\x7d' then lx.flowEnd .flowMappingEnd
  else if c = ',' then lx.flowEntry
  else if c = '-' && gapNext cs then lx.blockEntry
  else if c = '?' && (lx.inFlow || gapNext cs) then lx.key
  else if c = ':' && (lx.inFlow || gapNext cs) then lx.value
  else if c = '*' then lx.named .alias
  else if c = '&' then lx.named .anchor
  else if c = '!' then lx.tag
  else if c = '\'' then lx.quotedScalar ScalarText.singleQuoted
  else if c = '"' then lx.quotedScalar ScalarText.doubleQuoted
  else if startsPlain lx.inFlow c cs then lx.plainScalar
  else lx.fail .unexpectedCharacter

def finish (lx : Lexer) : Step := do
  let place := lx.place.lineStart
  let lx ← (Lexer.closeBlocks { lx with place } 0 place).dropCandidate
  return { lx.push .streamEnd place place with isDone := true }

def next (lx : Lexer) : Step := do
  let gap := lx.skipGap
  let before := (gap.closeBlocks gap.place.column lx.place).lookUpTo (gap.place.index + 4)
  let after ← match before.rest with
    | [] => before.finish
    | c :: cs => before.token c cs
  let after := after.skipLineComment
  if after.readable.any (· < after.reach) then after.fail .controlCharacter else return after

-- Reads tokens until there are three, and until the first of them can be handed out.
def fill (lx : Lexer) : Step :=
  if lx.isDone then .ok lx
  else
    match if lx.queue.length < 3 then .ok true else lx.isHeld with
    | .error e => .error e
    | .ok false => .ok lx
    | .ok true =>
      match lx.next with
      | .error e => .error e
      -- Every token but the last one takes at least one character.
      | .ok after => if after.left < lx.left then after.fill else .ok after
termination_by lx.left

def drop (lx : Lexer) : Lexer :=
  { lx with queue := lx.queue.drop 1, taken := lx.taken + 1 }

-- A byte order mark at the start is no part of the text.
def ofString (s : String) : Lexer :=
  match s.toList with
  | '\ufeff' :: cs => { rest := cs, readable := readable? '\ufeff'.utf8Size cs }
  | cs => { rest := cs, readable := readable? 0 cs }

end Lexer

end HindleyMilner.Document
