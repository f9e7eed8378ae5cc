import LinkerNames.Signature.Parse
import LinkerNames.Symbol.Fold
/-!
# From a text to its symbol

A text means what the phrase means that it is read as.
-/

namespace LinkerNames

/-- Why a text means nothing as a signature. -/
inductive SignatureError
  | parse (why : ParseError)
  | fold (why : FoldError)
deriving DecidableEq

/-- What a text means as a signature. -/
def Symbol.ofText (text : String) : Except SignatureError Symbol := do
  let phrase ← (parse text).mapError .parse
  (ofPhrase phrase).mapError .fold

end LinkerNames
