/-!
# Wordloom.Regex.Error

What can be wrong with a regular expression.
-/

namespace Wordloom.Regex

inductive Error where
  | tooMuchNesting
  | duplicateGroupName
  | unclosedGroup
  | unclosedGroupQuestion
  | unopenedGroup
  | lookAround
  | emptyFlags
  | missingGroupName
  | invalidGroupName
  | unclosedGroupName
  | emptyGroupName
  | unknownFlag
  | repeatedNegation
  | duplicateFlag
  | unclosedFlags
  | danglingNegation
  | noDigits
  | badDecimal
  | braceNotHex
  | braceUnclosed
  | braceEmpty
  | braceInvalid
  | hexTooShort
  | hexNotHex
  | hexInvalid
  | hexMissing
  | unfinishedEscape
  | backReference
  | unicodeClass
  | unknownEscape
  | nothingToRepeat
  | nothingToCount
  | unclosedCount
  | unclosedCountMin
  | unclosedCountComma
  | unclosedCountMax
  | badCount
  | emptyCountRange
  | classUnclosedAfterItem
  | classRangeItem
  | classItem
  | classUnclosedAfterDash
  | classUnclosedAfterNegation
  | classUnclosedAfterBracket
  | classRange
  | classUnclosed
  | classNested
  | classIntersection
  | classDifference
  | classSymmetricDifference
  | wordBoundaryUnclosed
  | wordBoundaryUnknown
  | wordBoundaryOrCountUnclosed
  | tooLarge
deriving DecidableEq

def Error.message : Error → String
  | .tooMuchNesting => "pattern has too much nesting"
  | .duplicateGroupName => "duplicate capture group name"
  | .unclosedGroup => "found open group without closing ')'"
  | .unclosedGroupQuestion => "expected closing ')', but got end of pattern"
  | .unopenedGroup => "found closing ')' without matching '('"
  | .lookAround => "look-around is not supported"
  | .emptyFlags => "empty flag directive '(?)' is not allowed"
  | .missingGroupName => "expected capture group name, but got end of pattern"
  | .invalidGroupName => "invalid group name"
  | .unclosedGroupName => "expected end of capture group name, but got end of pattern"
  | .emptyGroupName => "empty capture group names are not allowed"
  | .unknownFlag => "unrecognized inline flag"
  | .repeatedNegation => "inline flag negation cannot be repeated"
  | .duplicateFlag => "duplicate inline flag is not allowed"
  | .unclosedFlags => "expected ':' or ')' to end inline flags, but got end of pattern"
  | .danglingNegation => "inline flags cannot end with negation directive"
  | .noDigits => "expected decimal number, but found no digits"
  | .badDecimal => "got invalid decimal number"
  | .braceNotHex => "expected hexadecimal number in braces, but got non-hex digit"
  | .braceUnclosed => "expected hexadecimal number, but saw end of pattern before closing brace"
  | .braceEmpty => "expected hexadecimal number in braces, but got no digits"
  | .braceInvalid => "got invalid hexadecimal number in braces"
  | .hexTooShort => "expected fixed length hexadecimal number, but saw end of pattern first"
  | .hexNotHex => "expected fixed length hexadecimal number, but got non-hex digit"
  | .hexInvalid => "got invalid fixed length hexadecimal number"
  | .hexMissing => "expected hexadecimal number, but saw end of pattern first"
  | .unfinishedEscape => "saw start of escape sequence, but saw end of pattern before it finished"
  | .backReference => "backreferences are not supported"
  | .unicodeClass => "Unicode character classes are not supported"
  | .unknownEscape => "unrecognized escape sequence"
  | .nothingToRepeat => "uncounted repetition operator must be applied to a sub-expression"
  | .nothingToCount => "counted repetition operator must be applied to a sub-expression"
  | .unclosedCount => "found unclosed counted repetition operator"
  | .unclosedCountMin => "found incomplete and unclosed counted repetition operator"
  | .unclosedCountComma => "found counted repetition operator with a comma that is unclosed"
  | .unclosedCountMax => "found counted repetition with min and max that is unclosed"
  | .badCount => "expected closing brace for counted repetition, but got something else"
  | .emptyCountRange => "found counted repetition with a min bigger than its max"
  | .classUnclosedAfterItem => "non-empty character class has no closing bracket"
  | .classRangeItem => "character class ranges must start and end with a single character"
  | .classItem => "invalid escape sequence in character class"
  | .classUnclosedAfterDash => "non-empty character class has no closing bracket after dash"
  | .classUnclosedAfterNegation => "negated character class has no closing bracket"
  | .classUnclosedAfterBracket =>
    "character class begins with literal ']' but has no closing bracket"
  | .classRange => "invalid range in character class"
  | .classUnclosed => "found unclosed character class"
  | .classNested => "nested character classes are not supported"
  | .classIntersection => "character class intersection is not supported"
  | .classDifference => "character class difference is not supported"
  | .classSymmetricDifference => "character class symmetric difference is not supported"
  | .wordBoundaryUnclosed =>
    "special word boundary assertion is unclosed or has an invalid character"
  | .wordBoundaryUnknown => "special word boundary assertion is unrecognized"
  | .wordBoundaryOrCountUnclosed =>
    "found start of special word boundary or repetition without an end"
  | .tooLarge => "compiled regex exceeded size limit"

end Wordloom.Regex
