import HindleyMilner.Document.Place

namespace HindleyMilner.Document

inductive SyntaxCause where
  | controlCharacter
  | unexpectedCharacter
  | tabIndentation
  | missingColon
  | keyNotAllowed
  | valueNotAllowed
  | entryNotAllowed
  | unclosedQuote
  | documentMarkInQuote
  | unknownEscape
  | badEscapeDigits
  | badCodePoint
  | badAnchor
  | badTag
  | undefinedTagHandle
  | unknownAnchor (name : String)
  | expectedNode
  | expectedEntry
  | expectedKey
  | expectedSequenceEnd
  | expectedMappingEnd
  | tooDeep
deriving Inhabited, Repr, DecidableEq

namespace SyntaxCause

def message : SyntaxCause → String
  | .controlCharacter => "control characters are not allowed"
  | .unexpectedCharacter => "found character that cannot start any token"
  | .tabIndentation => "found a tab character that violates indentation"
  | .missingColon => "could not find expected ':'"
  | .keyNotAllowed => "mapping keys are not allowed in this context"
  | .valueNotAllowed => "mapping values are not allowed in this context"
  | .entryNotAllowed => "block sequence entries are not allowed in this context"
  | .unclosedQuote => "found unexpected end of stream"
  | .documentMarkInQuote => "found unexpected document indicator"
  | .unknownEscape => "found unknown escape character"
  | .badEscapeDigits => "did not find expected hexdecimal number"
  | .badCodePoint => "found invalid Unicode character escape code"
  | .badAnchor => "did not find expected alphabetic or numeric character"
  | .badTag => "did not find expected tag URI"
  | .undefinedTagHandle => "found undefined tag handle"
  | .unknownAnchor name => "unknown anchor '" ++ name ++ "' referenced"
  | .expectedNode => "did not find expected node content"
  | .expectedEntry => "did not find expected '-' indicator"
  | .expectedKey => "did not find expected key"
  | .expectedSequenceEnd => "did not find expected ',' or ']'"
  | .expectedMappingEnd => "did not find expected ',' or '\x7d'"
  | .tooDeep => "exceeded max depth"

end SyntaxCause

structure SyntaxError where
  mark : Mark
  cause : SyntaxCause
deriving Inhabited, Repr

namespace SyntaxError

def message (e : SyntaxError) : String :=
  "yaml: line " ++ toString e.mark.line ++ ": " ++ e.cause.message

end SyntaxError

end HindleyMilner.Document
