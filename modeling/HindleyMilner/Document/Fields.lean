import HindleyMilner.DecodeError

namespace HindleyMilner.Document.Node

abbrev Part (n : Node) := { m : Node // sizeOf m < sizeOf n }

def items (what : String) : (n : Node) → Except DecodeError (List n.Part)
  | .sequence _ ms =>
    .ok (ms.attach.map fun ⟨m, h⟩ => ⟨m, by have := List.sizeOf_lt_of_mem h; simp; omega⟩)
  | n => DecodeError.failAt n (.notSequence what)

def duplicate? (seen : List String) : List Node → Option Node
  | [] => none
  | k :: ks => if k.text ∈ seen then some k else duplicate? (k.text :: seen) ks

theorem sizeOf_value_lt {mark : Mark} {entries : List (Node × Node)} {k v : Node}
    (h : (k, v) ∈ entries) : sizeOf v < sizeOf (Node.mapping mark entries) := by
  have := List.sizeOf_lt_of_mem h
  simp at this ⊢
  omega

def fields (what : String) : (n : Node) → Except DecodeError (List (String × n.Part))
  | .mapping _ entries =>
    match duplicate? [] (entries.map (·.1)) with
    | some k => DecodeError.failAt k (.duplicateKey k.text what)
    | none => .ok (entries.attach.map fun ⟨(k, v), h⟩ => (k.text, ⟨v, sizeOf_value_lt h⟩))
  | n => DecodeError.failAt n (.notMapping what)

def onlyField (what : String) : (n : Node) → Except DecodeError (String × n.Part)
  | .mapping _ [(k, v)] => .ok (k.text, ⟨v, sizeOf_value_lt (List.mem_singleton.mpr rfl)⟩)
  | n => DecodeError.failAt n (.notSingleKey what)

def field (n : Node) (fs : List (String × n.Part)) (key : String) (cause : DecodeCause) :
    Except DecodeError n.Part :=
  match fs.lookup key with
  | some v => .ok v
  | none => DecodeError.failAt n cause

def identifier : Node → Except DecodeError String
  | n@(.scalar _ s) =>
    if s.text = "" || s.text.toList.any (· ∈ [' ', '\t', '\r', '\n']) then
      DecodeError.failAt n .invalidIdentifier
    else .ok s.text
  | n => DecodeError.failAt n .invalidIdentifier

def literal {α : Type} (n : Node) (what : String) (value? : Option α) : Except DecodeError α :=
  match value? with
  | some a => .ok a
  | none => DecodeError.failAt n (.invalidLiteral what n.text)

end HindleyMilner.Document.Node
