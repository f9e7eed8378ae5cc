import LinkerNames.Encoding.Encoder
import LinkerNames.Symbol.OfText
/-!
# From a text to its linker name

The whole way: a text is read as a phrase, the phrase is folded into a symbol, and the symbol is
encoded. Each stage has its own way to fail.
-/

namespace LinkerNames

/-- Why a text has no linker name. -/
inductive Failure
  | signature (why : SignatureError)
  | encode (why : EncodeError)
deriving DecidableEq

/-- The linker name of the function that a text is the signature of. -/
def linkerName (text : String) : Except Failure String := do
  let s ← (Symbol.ofText text).mapError .signature
  s.linkerName.mapError .encode

end LinkerNames
