import Jack.Compiler.Run
import Jack.Machine.Lemmas
import Jack.Machine.Step
import Jack.Proofs.BrokenReads
import Jack.Proofs.CallingConvention
import Jack.Proofs.Constants
import Jack.Proofs.ControlSafety
import Jack.Proofs.CorrectPrefix
import Jack.Proofs.ElementStore
import Jack.Proofs.EndOfSource
import Jack.Proofs.ErrorSpans
import Jack.Proofs.ExpressionValue
import Jack.Proofs.FreshLabels
import Jack.Proofs.FullSinks
import Jack.Proofs.Histories
import Jack.Proofs.Independence
import Jack.Proofs.LineByLine
import Jack.Proofs.Objects
import Jack.Proofs.ReadBack
import Jack.Proofs.Receiver
import Jack.Proofs.Recovery
import Jack.Proofs.Reference
import Jack.Proofs.RenamedSources
import Jack.Proofs.RoundTrip
import Jack.Proofs.Slots
import Jack.Proofs.Spelling
import Jack.Proofs.StackDiscipline
import Jack.Proofs.StringLiteral
import Jack.Proofs.SubroutineRun
import Jack.Proofs.Termination
import Jack.Proofs.TokenClasses
import Jack.Reader
import Jack.Report
import Jack.Scanner.WholeText
import Jack.Syntax.Lowering
import Jack.Syntax.Written
