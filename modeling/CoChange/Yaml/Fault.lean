/-!
# Why a text is not a YAML document
-/

namespace CoChange.Yaml

/-- Why a text is not read as a document. -/
inductive Fault where
  | forbiddenCharacter
  | strayCharacter
  | missingColon
  | misplacedEntry
  | misplacedKey
  | misplacedValue
  | badAnchor
  | badTag
  | badDirective
  | badHeader
  | badEscape
  | badIndentation
  | unclosedText
  | misplacedMark
  | unexpectedToken
  | unknownHandle
  | unknownAlias
  | severalDocuments
  | localTag
  | badValue
  | wideInteger
  | badKey
  | tooDeep
  | tooManyAliases
  deriving DecidableEq, Repr

def Fault.message : Fault → String
  | forbiddenCharacter => "control characters are not allowed"
  | strayCharacter => "found character that cannot start any token"
  | missingColon => "could not find expected ':'"
  | misplacedEntry => "block sequence entries are not allowed in this context"
  | misplacedKey => "mapping keys are not allowed in this context"
  | misplacedValue => "mapping values are not allowed in this context"
  | badAnchor => "did not find expected name of an anchor or alias"
  | badTag => "did not find expected tag"
  | badDirective => "found unknown or incomplete directive"
  | badHeader => "did not find expected line break behind the mark of a block"
  | badEscape => "found unknown escape"
  | badIndentation => "found a tab character that violates indentation"
  | unclosedText => "found unexpected end of stream"
  | misplacedMark => "found unexpected document indicator"
  | unexpectedToken => "did not find expected node content"
  | unknownHandle => "found undefined tag handle"
  | unknownAlias => "unknown anchor"
  | severalDocuments => "more than one document"
  | localTag => "no value has a tag of its own"
  | badValue => "the value does not fit its tag"
  | wideInteger => "integer out of range"
  | badKey => "a key has to be a scalar"
  | tooDeep => "recursion limit exceeded"
  | tooManyAliases => "repetition limit exceeded"

end CoChange.Yaml
