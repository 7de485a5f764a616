import HindleyMilner.Document.Place

namespace HindleyMilner.Document

def isAllowed (c : Char) : Bool :=
  let n := c.toNat
  c = '\t' || c = '\n' || c = '\r' || c = '\u0085' || (0x20 ≤ n && n ≤ 0x7e)
    || (0xa0 ≤ n && n ≤ 0xfffd) || 0x10000 ≤ n

def chunkSize : Nat := 512

-- The number of characters before the first chunk that has a character which is not allowed. The
-- first `used` bytes of the first chunk are no part of the text.
def readable? (used : Nat) (cs : List Char) : Option Nat :=
  go cs 0 0 used
where
  -- A character that does not fit into a chunk is the first one of the next chunk.
  go : List Char → Nat → Nat → Nat → Option Nat
    | [], _, _, _ => none
    | c :: cs, index, start, used =>
      let (start, used) := if used + c.utf8Size ≤ chunkSize then (start, used) else (index, 0)
      if isAllowed c then go cs (index + 1) start (used + c.utf8Size) else some start

end HindleyMilner.Document
