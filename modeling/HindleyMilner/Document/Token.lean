import HindleyMilner.Document.Place

namespace HindleyMilner.Document

inductive Tag where
  -- A lone exclamation mark, which says nothing.
  | any
  -- One of the types that every document has: `!!int`, `!!str` and others.
  | core (name : String)
  | custom (name : String)
  -- A tag with a handle that nothing defines.
  | undefined (handle name : String)
deriving Inhabited, Repr, DecidableEq

inductive TokenKind where
  | documentStart
  | documentEnd
  | sequenceStart
  | mappingStart
  | blockEnd
  | flowSequenceStart
  | flowSequenceEnd
  | flowMappingStart
  | flowMappingEnd
  -- The dash of a block sequence.
  | entry
  -- The comma of a flow collection.
  | flowEntry
  -- What follows is a key.
  | key
  | value
  | alias (name : String)
  | anchor (name : String)
  | tag (t : Tag)
  | scalar (text : String) (quoted : Bool)
  | streamEnd
deriving Inhabited, Repr, DecidableEq

structure Token where
  kind : TokenKind
  start : Mark
  stop : Mark
deriving Inhabited, Repr

end HindleyMilner.Document
