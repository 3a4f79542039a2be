import WordMachine.CommandLine.Directory
import WordMachine.Main
import WordMachine.Proofs.Isa.Codec
import WordMachine.Proofs.Isa.Command
import WordMachine.Proofs.Machine.Effect
import WordMachine.Proofs.Machine.Conduct
import WordMachine.Proofs.Sequencing
import WordMachine.Proofs.Machine.Step
import WordMachine.Proofs.Assembly.Draft
import WordMachine.Proofs.Assembly.FirstPass
import WordMachine.Proofs.Assembly.Patching
import WordMachine.Proofs.Assembly.Resolution
import WordMachine.Proofs.Assembly.Program
import WordMachine.Proofs.Assembly.Meaning
import WordMachine.Proofs.Fidelity
import WordMachine.Proofs.Machine.History
import WordMachine.Proofs.Machine.Reached
import WordMachine.Proofs.Assembly.Literal
import WordMachine.Proofs.Assembly.Lexing
import WordMachine.Proofs.Isa.Listing
import WordMachine.Proofs.Isa.Canonical
import WordMachine.Proofs.Assembly.Printing
import WordMachine.Proofs.Assembly.RoundTrip
import WordMachine.Proofs.Assembly.Spelling
import WordMachine.Proofs.Machine.Faults
import WordMachine.Proofs.Machine.Arising
import WordMachine.Proofs.Machine.Safety
import WordMachine.Proofs.Machine.Ports
import WordMachine.Proofs.Machine.Footprint
import WordMachine.Proofs.Machine.Stack
import WordMachine.Proofs.Machine.Operand
import WordMachine.Proofs.Machine.Zero
import WordMachine.Proofs.Machine.Runs
import WordMachine.Proofs.Machine.Limit
import WordMachine.Proofs.Machine.Halting
import WordMachine.Proofs.Machine.Isolation
import WordMachine.Proofs.Machine.Drawing
import WordMachine.Proofs.Machine.Buttons
import WordMachine.Proofs.Machine.Delivery
import WordMachine.Proofs.Isa.Image
import WordMachine.Proofs.Assembly.Blame
import WordMachine.Proofs.Assembly.Bounds
import WordMachine.Proofs.Assembly.Resizing
import WordMachine.Proofs.Loading
import WordMachine.Proofs.Addressing
import WordMachine.Proofs.Machine.Threads
import WordMachine.Proofs.Machine.Progress
import WordMachine.Proofs.Machine.Abort
import WordMachine.Proofs.CommandLine.Path
import WordMachine.Proofs.Ports
import WordMachine.Proofs.Assembly.Lines
import WordMachine.Proofs.Assembly.FailFast
import WordMachine.Proofs.Isa.Storing
import WordMachine.Proofs.Machine.Requests
import WordMachine.Proofs.Assembly.Layout
import WordMachine.Proofs.Assembly.LetterCase
import WordMachine.Proofs.CommandLine.Session
