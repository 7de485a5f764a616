namespace HindleyMilner.Document.Numeral

def digit? (base : Nat) (c : Char) : Option Nat :=
  let d? :=
    if '0' ≤ c ∧ c ≤ '9' then some (c.toNat - '0'.toNat)
    else if 'a' ≤ c ∧ c ≤ 'f' then some (c.toNat - 'a'.toNat + 10)
    else if 'A' ≤ c ∧ c ≤ 'F' then some (c.toNat - 'A'.toNat + 10)
    else none
  d?.filter (· < base)

def nat? (base : Nat) (cs : List Char) : Option Nat :=
  if cs.isEmpty then none else cs.foldlM (fun n c => return base * n + (← digit? base c)) 0

def splitSign : List Char → Bool × List Char
  | '-' :: cs => (true, cs)
  | '+' :: cs => (false, cs)
  | cs => (false, cs)

def withSign (negative : Bool) (n : Nat) : Int :=
  if negative then -n else n

-- An integer, in base ten unless its start says otherwise. A leading zero alone means base eight.
def prefixed? : List Char → Option Nat
  | ['0'] => some 0
  | '0' :: p :: c :: cs =>
    if p = 'x' || p = 'X' then nat? 16 (c :: cs)
    else if p = 'o' || p = 'O' then nat? 8 (c :: cs)
    else if p = 'b' || p = 'B' then nat? 2 (c :: cs)
    else nat? 8 (p :: c :: cs)
  | '0' :: cs => nat? 8 cs
  | cs => nat? 10 cs

def IsInt64 (n : Int) : Prop :=
  Int64.minValue.toInt ≤ n ∧ n ≤ Int64.maxValue.toInt

instance (n : Int) : Decidable (IsInt64 n) :=
  inferInstanceAs (Decidable (_ ∧ _))

def signed? (read : List Char → Option Nat) (cs : List Char) : Option Int := do
  let (negative, cs) := splitSign cs
  let n := withSign negative (← read cs)
  if IsInt64 n then some n else none

def unsigned? (read : List Char → Option Nat) (cs : List Char) : Option Int :=
  (read cs).filter (· < UInt64.size)

def int? (cs : List Char) : Option Int :=
  signed? prefixed? cs <|> unsigned? prefixed? cs

def innerSign? : List Char → Option Int
  | '0' :: 'b' :: cs => signed? (nat? 2) cs
  | '0' :: 'o' :: cs => signed? (nat? 8) cs
  | _ => none

structure Decimal where
  negative : Bool
  mantissa : Nat
  exponent : Int
deriving Inhabited, Repr, DecidableEq

namespace Decimal

def exponent? : List Char → Option Int
  | [] => some 0
  | e :: cs =>
    if e = 'e' || e = 'E' then
      let (negative, cs) := splitSign cs
      (nat? 10 cs).map (withSign negative)
    else none

def parse? (cs : List Char) : Option Decimal := do
  let (negative, cs) := splitSign cs
  let whole := cs.takeWhile Char.isDigit
  let cs := cs.dropWhile Char.isDigit
  let (fraction, cs) := match cs with
    | '.' :: cs => (cs.takeWhile Char.isDigit, cs.dropWhile Char.isDigit)
    | cs => ([], cs)
  let mantissa ← nat? 10 (whole ++ fraction)
  let exponent ← exponent? cs
  return ⟨negative, mantissa, exponent - fraction.length⟩

end Decimal

def roundDiv (a b : Nat) : Nat :=
  let q := a / b
  let r := 2 * (a % b)
  if r < b then q
  else if b < r then q + 1
  else if q % 2 = 0 then q
  else q + 1

-- The whole part of a quotient, not less than a half, that has been rounded to 53 binary digits.
def roundedWhole (a b : Nat) : Nat :=
  -- The number of binary digits of the whole part, or one more.
  let size := a.log2 + 1 - b.log2
  let size := if b <<< size ≤ 2 * a then size else size - 1
  if size ≤ 53 then
    let scale := 1 <<< (53 - size)
    roundDiv (a * scale) b / scale
  else
    let scale := 1 <<< (size - 53)
    roundDiv a (b * scale) * scale

inductive Stored where
  | notANumber
  | infinite (negative : Bool)
  | finite (negative : Bool) (whole : Nat)
deriving Inhabited, Repr, DecidableEq

namespace Stored

def ofDecimal? (d : Decimal) : Option Stored :=
  -- The number of digits before the point.
  let size := (Nat.toDigits 10 d.mantissa).length + d.exponent
  if d.mantissa = 0 || size < 0 then some (.finite d.negative 0)
  else if 310 < size then none
  else
    let a := d.mantissa * Nat.pow 10 d.exponent.toNat
    let b := Nat.pow 10 (-d.exponent).toNat
    let whole := if 2 * a < b then 0 else roundedWhole a b
    if whole < 1 <<< 1024 then some (.finite d.negative whole) else none

def ofInt (n : Int) : Stored :=
  .finite (n < 0) (if n = 0 then 0 else roundedWhole n.natAbs 1)

-- The whole part as a signed word. Of what lies beyond the words, the next number above wraps
-- around, and all numbers below become the least word.
def toInt64? : Stored → Option Int64
  | .finite false n => if n ≤ 1 <<< 63 then some (.ofInt n) else none
  | .finite true n => if n ≤ 1 <<< 63 then some (.ofInt (-n)) else some .minValue
  | .infinite true => some .minValue
  | .infinite false | .notANumber => none

end Stored

end HindleyMilner.Document.Numeral
