import LinkerNames.CommandLine.Command
import LinkerNames.Main
import LinkerNames.Proofs.Signature.Acceptance
import LinkerNames.Proofs.Encoding.Decoding
import LinkerNames.Proofs.Encoding.Failure
import LinkerNames.Proofs.Encoding.References
import LinkerNames.Proofs.Signature.Rejection
import LinkerNames.Proofs.Signature.Places
import LinkerNames.Proofs.Encoding.Spacing
import LinkerNames.Proofs.CommandLine.Channels
import LinkerNames.Proofs.CommandLine.Output
import LinkerNames.Proofs.Encoding.Renaming
import LinkerNames.Proofs.Encoding.Repetition
import LinkerNames.Proofs.CommandLine.Redirection
import LinkerNames.Proofs.CommandLine.Detail
import LinkerNames.Proofs.Token.Tokenization
import LinkerNames.Proofs.Signature.Pointing
import LinkerNames.Proofs.Encoding.Form
import LinkerNames.Proofs.Token.Offsets
import LinkerNames.Proofs.Signature.Pieces
import LinkerNames.Proofs.Signature.Yield
import LinkerNames.Proofs.Signature.Stream
import LinkerNames.Proofs.Encoding.OneToOne
import LinkerNames.Proofs.Encoding.Rewrapping
import LinkerNames.Proofs.Symbol.Shape
import LinkerNames.Proofs.Encoding.TrailingConst
import LinkerNames.Proofs.Encoding.TypeCodes
import LinkerNames.Proofs.Encoding.FurtherArguments
import LinkerNames.Proofs.Text.Quoted
import LinkerNames.Proofs.Symbol.Display
import LinkerNames.Proofs.CommandLine.Interruption
import LinkerNames.Proofs.CommandLine.Trees
