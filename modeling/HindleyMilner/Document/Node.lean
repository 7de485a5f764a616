import HindleyMilner.Document.Lexer

namespace HindleyMilner.Document

structure Scalar where
  tag : Option Tag
  quoted : Bool
  text : String
deriving Inhabited, Repr, DecidableEq

inductive Node where
  | scalar (mark : Mark) (s : Scalar)
  | sequence (mark : Mark) (items : List Node)
  | mapping (mark : Mark) (entries : List (Node × Node))
  -- Another node by its name, together with the scalar that the name stands for, if it is one.
  | alias (mark : Mark) (name : String) (target : Option Scalar)
deriving Inhabited, Repr

namespace Node

def mark : Node → Mark
  | .scalar m _ | .sequence m _ | .mapping m _ | .alias m _ _ => m

def text : Node → String
  | .scalar _ s => s.text
  | .alias _ name _ => name
  | .sequence _ _ | .mapping _ _ => ""

def missing (mark : Mark) : Node :=
  .scalar mark ⟨none, false, ""⟩

structure Reader where
  lexer : Lexer
  anchors : List (String × Option Scalar) := []

abbrev Read := EStateM SyntaxError Reader

namespace Read

def peek : Read Token := do
  let r ← get
  match r.lexer.fill with
  | .error e => throw e
  | .ok lexer =>
    set { r with lexer }
    match lexer.queue with
    | t :: _ => return t
    | [] => throw ⟨lexer.place.toMark, .unexpectedCharacter⟩

def skip : Read Unit :=
  modify fun r => { r with lexer := r.lexer.drop }

def fail {α : Type} (t : Token) (cause : SyntaxCause) : Read α :=
  throw ⟨t.start, cause⟩

def name (anchor : Option String) (s : Option Scalar) : Read Unit := do
  if let some a := anchor then
    modify fun r => { r with anchors := (a, s) :: r.anchors }

def properties : Read (Option String × Option Tag) := do
  let t ← peek
  match t.kind with
  | .anchor a =>
    skip
    let t ← peek
    match t.kind with
    | .tag tag => skip; return (some a, some tag)
    | _ => return (some a, none)
  | .tag tag =>
    skip
    let t ← peek
    match t.kind with
    | .anchor a => skip; return (some a, some tag)
    | _ => return (none, some tag)
  | _ => return (none, none)

-- Each call hands on one less of the number of calls that may be nested.
mutual
def node (inBlock asValue : Bool) : Nat → Read Node
  | 0 => do fail (← peek) .tooDeep
  | n + 1 => do
    let first ← peek
    match first.kind with
    | .alias a => do
      skip
      match (← get).anchors.lookup a with
      | some target => return .alias first.start a target
      | none => fail first (.unknownAnchor a)
    | _ => do
      let (anchor, tag) ← properties
      if let some (.undefined ..) := tag then fail first .undefinedTagHandle
      let t ← peek
      match t.kind, inBlock, asValue with
      | .scalar text quoted, _, _ => do
        skip
        let s : Scalar := ⟨tag, quoted, text⟩
        name anchor s
        return .scalar first.start s
      | .flowSequenceStart, _, _ => do
        skip
        name anchor none
        return .sequence first.start (← flowItems true n)
      | .flowMappingStart, _, _ => do
        skip
        name anchor none
        return .mapping first.start (← flowEntries true n)
      | .entry, _, true => do
        name anchor none
        return .sequence first.start (← flatItems n)
      | .sequenceStart, true, _ => do
        skip
        name anchor none
        return .sequence first.start (← blockItems n)
      | .mappingStart, true, _ => do
        skip
        name anchor none
        return .mapping first.start (← blockEntries n)
      | _, _, _ => do
        if anchor.isSome || tag.isSome then
          let s : Scalar := ⟨tag, false, ""⟩
          name anchor s
          return .scalar first.start s
        else fail t .expectedNode
def nodeOr (ends : List TokenKind) (mark : Mark) (inBlock asValue : Bool) : Nat → Read Node
  | 0 => do fail (← peek) .tooDeep
  | n + 1 => do
    if (← peek).kind ∈ ends then return missing mark else node inBlock asValue n
def blockItems : Nat → Read (List Node)
  | 0 => do fail (← peek) .tooDeep
  | n + 1 => do
    let t ← peek
    match t.kind with
    | .entry => do
      skip
      let item ← nodeOr [.entry, .blockEnd] t.stop true false n
      return item :: (← blockItems n)
    | .blockEnd => do skip; return []
    | _ => fail t .expectedEntry
def flatItems : Nat → Read (List Node)
  | 0 => do fail (← peek) .tooDeep
  | n + 1 => do
    let t ← peek
    match t.kind with
    | .entry => do
      skip
      let item ← nodeOr [.entry, .key, .value, .blockEnd] t.stop true false n
      return item :: (← flatItems n)
    | _ => return []
def blockEntries : Nat → Read (List (Node × Node))
  | 0 => do fail (← peek) .tooDeep
  | n + 1 => do
    let t ← peek
    match t.kind with
    | .key => do
      skip
      let k ← nodeOr [.key, .value, .blockEnd] t.stop true true n
      let v ← blockValue n
      return (k, v) :: (← blockEntries n)
    | .blockEnd => do skip; return []
    | _ => fail t .expectedKey
def blockValue : Nat → Read Node
  | 0 => do fail (← peek) .tooDeep
  | n + 1 => do
    let t ← peek
    match t.kind with
    | .value => do
      skip
      nodeOr [.key, .value, .blockEnd] t.stop true true n
    | _ => return missing t.start
def flowItems (isFirst : Bool) : Nat → Read (List Node)
  | 0 => do fail (← peek) .tooDeep
  | n + 1 => do
    let t ← peek
    match t.kind, isFirst with
    | .flowSequenceEnd, _ => do skip; return []
    | .flowEntry, false => do
      skip
      if (← peek).kind = .flowSequenceEnd then
        skip
        return []
      else flowItems true n
    | .key, true => do
      skip
      let k ← pairKey n
      let v ← pairValue n
      return .mapping t.start [(k, v)] :: (← flowItems false n)
    | _, true => do
      let item ← node false false n
      return item :: (← flowItems false n)
    | _, false => fail t .expectedSequenceEnd
-- Reads the key of a pair that is an item of a flow sequence. Where there is none, the token that
-- comes in its place is passed over.
def pairKey : Nat → Read Node
  | 0 => do fail (← peek) .tooDeep
  | n + 1 => do
    let t ← peek
    if t.kind ∈ [.value, .flowEntry, .flowSequenceEnd] then
      skip
      return missing t.stop
    else node false false n
def pairValue : Nat → Read Node
  | 0 => do fail (← peek) .tooDeep
  | n + 1 => do
    let t ← peek
    if t.kind = .value then
      skip
      nodeOr [.flowEntry, .flowSequenceEnd] t.start false false n
    else return missing t.start
def flowEntries (isFirst : Bool) : Nat → Read (List (Node × Node))
  | 0 => do fail (← peek) .tooDeep
  | n + 1 => do
    let t ← peek
    match t.kind, isFirst with
    | .flowMappingEnd, _ => do skip; return []
    | .flowEntry, false => do
      skip
      if (← peek).kind = .flowMappingEnd then
        skip
        return []
      else flowEntries true n
    | .key, true => do
      skip
      let k ← nodeOr [.value, .flowEntry, .flowMappingEnd] (← peek).start false false n
      let v ← flowValue n
      return (k, v) :: (← flowEntries false n)
    | _, true => do
      let k ← node false false n
      let v := missing (← peek).start
      return (k, v) :: (← flowEntries false n)
    | _, false => fail t .expectedMappingEnd
def flowValue : Nat → Read Node
  | 0 => do fail (← peek) .tooDeep
  | n + 1 => do
    let t ← peek
    if t.kind = .value then
      skip
      nodeOr [.flowEntry, .flowMappingEnd] (← peek).start false false n
    else return missing t.start
end

def document (limit : Nat) : Read (Option Node) := do
  match (← peek).kind with
  | .streamEnd => return none
  | .documentStart => do
    skip
    let ends := [.documentStart, .documentEnd, .streamEnd]
    let root ← nodeOr ends (← peek).start true false limit
    let _ ← peek
    return some root
  | _ => do
    let root ← node true false limit
    let _ ← peek
    return some root

end Read

-- The first document of a text, if there is one. No node lies deeper than the calls that are
-- allowed for: a character makes four tokens at the most, and a token needs four calls at the most.
def parse (s : String) : Except SyntaxError (Option Node) :=
  match Read.document (16 * (s.length + 1)) { lexer := .ofString s } with
  | .ok doc _ => .ok doc
  | .error e _ => .error e

end Node

end HindleyMilner.Document
