import Keel.Main
import Keel.Proofs.Grammar.Precedence
import Keel.Proofs.Grammar.Recovery
import Keel.Proofs.Grammar.RoundTrip
import Keel.Proofs.Ir.Cycles
import Keel.Proofs.Lowering.Preservation
import Keel.Proofs.Lowering.SingleAssignment
import Keel.Proofs.Lowering.Tables
import Keel.Proofs.Module.Imports
import Keel.Proofs.Source.Lines
import Keel.Proofs.Source.Reports
import Keel.Proofs.Target.Instructions
import Keel.Proofs.Typing.Casts
import Keel.Proofs.Typing.Divergence
import Keel.Proofs.Typing.Keys
import Keel.Proofs.Typing.Ranges
import Keel.Proofs.Typing.Worklist
