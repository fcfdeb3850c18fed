import IjvmAsm.CommandLine.Assembler
import IjvmAsm.CommandLine.Inspector
import IjvmAsm.Main
import IjvmAsm.Proofs.Program.Linked
import IjvmAsm.Proofs.Program.Relinking
import IjvmAsm.Proofs.Program.Sealing
import IjvmAsm.Proofs.Program.Encoding
import IjvmAsm.Proofs.Assembly.Arity
import IjvmAsm.Proofs.Image.RoundTrip
import IjvmAsm.Proofs.Image.Jumps
import IjvmAsm.Proofs.Assembly.WellFormed
import IjvmAsm.Proofs.Assembly.Shadow
import IjvmAsm.Proofs.Assembly.Widening
import IjvmAsm.Proofs.Source.Identifier
import IjvmAsm.Proofs.Source.Span
import IjvmAsm.Proofs.Source.Declaration
import IjvmAsm.Proofs.Assembly.Bodies
import IjvmAsm.Proofs.Image.Independence
import IjvmAsm.Proofs.Source.Sentence
import IjvmAsm.Proofs.Source.Header
import IjvmAsm.Proofs.Script.Basic
import IjvmAsm.Proofs.Script.Reading
import IjvmAsm.Proofs.Script.Linking
import IjvmAsm.Proofs.Image.Layout
import IjvmAsm.Proofs.Image.Truncation
import IjvmAsm.Proofs.Assembly.Relaid
import IjvmAsm.Proofs.Assembly.Rejection
import IjvmAsm.Proofs.CommandLine.AllOrNothing
import IjvmAsm.Proofs.Image.Tiling
import IjvmAsm.Proofs.InstructionSet.Table
import IjvmAsm.Proofs.Program.Renaming
import IjvmAsm.Proofs.InstructionSet.Format
import IjvmAsm.Proofs.InstructionSet.Reloading
import IjvmAsm.Proofs.Source.Quotation
import IjvmAsm.Proofs.Assembly.Indifference
import IjvmAsm.Proofs.Assembly.Atomic
import IjvmAsm.Proofs.Assembly.Forced
import IjvmAsm.Proofs.Source.Numeral
import IjvmAsm.Proofs.Program.Interrupted
import IjvmAsm.Proofs.Program.Limited
import IjvmAsm.Proofs.Assembly.Addressing
import IjvmAsm.Proofs.Assembly.Printing
import IjvmAsm.Proofs.Assembly.ConstantBlock
import IjvmAsm.Proofs.Assembly.Reporting
