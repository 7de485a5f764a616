namespace HindleyMilner.Text.Base64

def digit? (c : Char) : Option Nat :=
  if 'A' ≤ c ∧ c ≤ 'Z' then some (c.toNat - 'A'.toNat)
  else if 'a' ≤ c ∧ c ≤ 'z' then some (c.toNat - 'a'.toNat + 26)
  else if '0' ≤ c ∧ c ≤ '9' then some (c.toNat - '0'.toNat + 52)
  else if c = '+' then some 62
  else if c = '/' then some 63
  else none

def ofDigits? (cs : List Char) : Option Nat :=
  cs.foldlM (fun n c => return 64 * n + (← digit? c)) 0

-- Reads groups of four characters. Signs of equality fill up the last group, and the bits that are
-- then left over do not count.
def groups? : List Char → Option (List Nat)
  | [] => some []
  | [c₁, c₂, '=', '='] => do
    let n ← ofDigits? [c₁, c₂]
    return [n / 2 ^ 4]
  | [c₁, c₂, c₃, '='] => do
    let n ← ofDigits? [c₁, c₂, c₃]
    return [n / 2 ^ 10, n / 2 ^ 2 % 2 ^ 8]
  | c₁ :: c₂ :: c₃ :: c₄ :: cs => do
    let n ← ofDigits? [c₁, c₂, c₃, c₄]
    return n / 2 ^ 16 :: n / 2 ^ 8 % 2 ^ 8 :: n % 2 ^ 8 :: (← groups? cs)
  | _ => none

def decode? (s : String) : Option (List Nat) :=
  groups? (s.toList.filter fun c => c ≠ '\n' && c ≠ '\r')

end HindleyMilner.Text.Base64
