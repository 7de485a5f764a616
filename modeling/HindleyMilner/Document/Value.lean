import HindleyMilner.Document.Node
import HindleyMilner.Document.Numeral
import HindleyMilner.Text.Base64

namespace HindleyMilner.Document

inductive Value where
  | null
  | bool (b : Bool)
  | int (n : Int)
  | fraction (f : Numeral.Stored)
  | text (s : String)
deriving Inhabited, Repr, DecidableEq

namespace Value

def word? (s : String) : Option Value :=
  if s ∈ ["", "~", "null", "Null", "NULL"] then some .null
  else if s ∈ ["true", "True", "TRUE"] then some (.bool true)
  else if s ∈ ["false", "False", "FALSE"] then some (.bool false)
  else if s ∈ [".nan", ".NaN", ".NAN"] then some (.fraction .notANumber)
  else if s ∈ [".inf", ".Inf", ".INF", "+.inf", "+.Inf", "+.INF"] then
    some (.fraction (.infinite false))
  else if s ∈ ["-.inf", "-.Inf", "-.INF"] then some (.fraction (.infinite true))
  else none

def dropSeparators? (cs : List Char) : Option (List Char) :=
  go false cs
where
  go (afterDigit : Bool) : List Char → Option (List Char)
    | [] => some []
    | '_' :: c :: cs => if afterDigit && c.isDigit then (c :: ·) <$> go true cs else none
    | c :: cs => if c = '_' then none else (c :: ·) <$> go c.isDigit cs

def fraction? (cs : List Char) : Option Value :=
  .fraction <$> (Numeral.Decimal.parse? cs >>= Numeral.Stored.ofDecimal?)

-- What starts with a point may be a fraction; what starts with a digit or a sign may be any number,
-- in which underscores do not count.
def number? (s : String) : Option Value :=
  match s.toList with
  | '.' :: cs => dropSeparators? ('.' :: cs) >>= fraction?
  | c :: cs =>
    if c.isDigit || c = '+' || c = '-' then
      let cs := (c :: cs).filter (· ≠ '_')
      .int <$> Numeral.int? cs <|> fraction? cs <|> .int <$> Numeral.innerSign? cs
    else none
  | [] => none

def ofPlain (s : String) : Value :=
  (word? s <|> number? s).getD (.text s)

def tagName : Value → String
  | .null => "null"
  | .bool _ => "bool"
  | .int _ => "int"
  | .fraction _ => "float"
  | .text _ => "str"

-- The meaning of a scalar with the tag `!!name`, unless it is not what the tag says. Only some tags
-- ask for a kind of value; with any other tag a scalar is text.
def ofTagged? (name text : String) : Option Value :=
  if name ∈ ["null", "bool", "int", "float", "timestamp"] then
    match name, ofPlain text with
    | "float", .int n => if n ≤ Int64.maxValue.toInt then some (.fraction (.ofInt n)) else none
    | name, v => if v.tagName = name then some v else none
  else if name = "binary" then
    (Text.Base64.decode? text).map fun bytes => .text (.ofList (bytes.map Char.ofNat))
  else some (.text text)

def ofScalar? (s : Scalar) : Option Value :=
  match s.tag with
  | none | some .any => some (if s.quoted then .text s.text else ofPlain s.text)
  | some (.core name) => ofTagged? name s.text
  | some (.custom _) | some (.undefined ..) => some (.text s.text)

-- An integer that fits into a signed word. Nothing counts as zero, and of a fraction the whole part
-- counts.
def toInt64? : Value → Option Int64
  | .null => some 0
  | .int n => if n ≤ Int64.maxValue.toInt then some (.ofInt n) else none
  | .fraction f => f.toInt64?
  | .bool _ | .text _ => none

def toBool? : Value → Option Bool
  | .null => some false
  | .bool b => some b
  | .text s =>
    if s ∈ ["y", "Y", "yes", "Yes", "YES", "on", "On", "ON"] then some true
    else if s ∈ ["n", "N", "no", "No", "NO", "off", "Off", "OFF"] then some false
    else none
  | .int _ | .fraction _ => none

end Value

namespace Node

def scalar? : Node → Option Scalar
  | .scalar _ s => some s
  | .alias _ _ target => target
  | .sequence _ _ | .mapping _ _ => none

def toInt64? (n : Node) : Option Int64 :=
  n.scalar? >>= Value.ofScalar? >>= Value.toInt64?

def toBool? (n : Node) : Option Bool :=
  n.scalar? >>= Value.ofScalar? >>= Value.toBool?

end Node

end HindleyMilner.Document
