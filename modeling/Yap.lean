import Yap.Main
import Yap.Tree.Number
import Yap.Tree.Rebuild
import Yap.Value.Text
import Yap.Proofs.Warnings
import Yap.Proofs.Congruence
import Yap.Proofs.Congruence.Evaluation
import Yap.Proofs.Session
import Yap.Proofs.Effects
import Yap.Proofs.Stacks
import Yap.Proofs.Growth
import Yap.Proofs.Parts
import Yap.Proofs.Padding
import Yap.Proofs.Loops
import Yap.Proofs.Log
import Yap.Proofs.Hoisting
import Yap.Proofs.Arrays
import Yap.Proofs.Signals
import Yap.Proofs.Storage
import Yap.Proofs.Shapes
import Yap.Proofs.History
import Yap.Proofs.Landing
import Yap.Proofs.Targets
import Yap.Proofs.Kinds
import Yap.Proofs.Abort
import Yap.Proofs.Records
import Yap.Proofs.Reporting
import Yap.Proofs.Scoping
import Yap.Proofs.Fuel
import Yap.Proofs.CallLimit
import Yap.Proofs.Termination
import Yap.Proofs.Halting
import Yap.Proofs.Constants
import Yap.Proofs.Places
import Yap.Proofs.Redeclaring
import Yap.Proofs.Shadowing
import Yap.Proofs.Brackets
import Yap.Proofs.Isolation
import Yap.Proofs.Binding
import Yap.Proofs.Lookups
import Yap.Proofs.Lines
import Yap.Proofs.Loading
import Yap.Proofs.Registry
import Yap.Proofs.Division
import Yap.Proofs.Integers
import Yap.Proofs.Unsigned
import Yap.Proofs.Slots
import Yap.Proofs.Cells
import Yap.Proofs.Stepping
import Yap.Proofs.Switches
import Yap.Proofs.Writes
import Yap.Proofs.Floats
import Yap.Proofs.Widening
import Yap.Proofs.Documents
import Yap.Proofs.Unnumbered
import Yap.Proofs.RoundTrip
import Yap.Proofs.Unparsing
import Yap.Proofs.Offsets
import Yap.Proofs.IntegerText
import Yap.Proofs.Positional
import Yap.Proofs.Significant
import Yap.Proofs.Arguments
import Yap.Proofs.Decoding
import Yap.Proofs.CharArrays
import Yap.Proofs.InputLines
import Yap.Proofs.Readers
import Yap.Proofs.LineReaders
import Yap.Proofs.LineWrites
