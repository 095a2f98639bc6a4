import Transcribe.Text.Source
import Transcribe.Text.Sink
import Transcribe.Java.Describe
import Transcribe.Java.Parse
import Transcribe.Output.Batch
import Transcribe.Target.Document
import Transcribe.Problem
import Transcribe.Main
import Transcribe.Proofs.Output
import Transcribe.Proofs.Comment
import Transcribe.Proofs.Dims
import Transcribe.Proofs.Attribution
import Transcribe.Proofs.Tour
import Transcribe.Proofs.Verbatim
import Transcribe.Proofs.Methods
import Transcribe.Proofs.Keep.Nested
import Transcribe.Proofs.Saved
import Transcribe.Proofs.Alone
import Transcribe.Proofs.Ending.Files
import Transcribe.Proofs.Total.Parse
import Transcribe.Proofs.Operands
import Transcribe.Proofs.Offsets
import Transcribe.Proofs.Indent
import Transcribe.Proofs.Labels
import Transcribe.Proofs.Includes
import Transcribe.Proofs.TypeText
import Transcribe.Proofs.Columns
import Transcribe.Proofs.Reload.Document
import Transcribe.Proofs.Word
