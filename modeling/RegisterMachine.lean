import RegisterMachine.Assembly.Diagnostic
import RegisterMachine.CommandLine.Assembler
import RegisterMachine.CommandLine.Directory
import RegisterMachine.CommandLine.Runner
import RegisterMachine.Image.Loader
import RegisterMachine.Machine.Delivery
import RegisterMachine.Machine.Syscall
import RegisterMachine.Main
import RegisterMachine.Proofs.Assembly.Diagnostics
import RegisterMachine.Proofs.Assembly.Inlining
import RegisterMachine.Proofs.Assembly.Listing
import RegisterMachine.Proofs.Assembly.Literals
import RegisterMachine.Proofs.Assembly.Numbering
import RegisterMachine.Proofs.Assembly.Printing
import RegisterMachine.Proofs.Assembly.Tokens
import RegisterMachine.Proofs.Assembly.Uses
import RegisterMachine.Proofs.Checked.Machine
import RegisterMachine.Proofs.Delivery.Verdicts
import RegisterMachine.Proofs.Image.Accepted
import RegisterMachine.Proofs.Image.Codec
import RegisterMachine.Proofs.Image.Loading
import RegisterMachine.Proofs.Image.Report
import RegisterMachine.Proofs.Image.Turns
import RegisterMachine.Proofs.Machine.Access
import RegisterMachine.Proofs.Machine.Batches
import RegisterMachine.Proofs.Machine.Constants
import RegisterMachine.Proofs.Machine.Integers
import RegisterMachine.Proofs.Machine.StackPointer
import RegisterMachine.Proofs.Machine.Tracing
import RegisterMachine.Proofs.Machine.Transparency
