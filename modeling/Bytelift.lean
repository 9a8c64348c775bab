import Bytelift.Main
import Bytelift.Proofs.Cache.Serving
import Bytelift.Proofs.Code.Interning
import Bytelift.Proofs.Code.Shadowing
import Bytelift.Proofs.Code.Truncation
import Bytelift.Proofs.Flow.Rejection
import Bytelift.Proofs.Lift.Frames
import Bytelift.Proofs.Lift.Ownership
import Bytelift.Proofs.Lift.Protection
import Bytelift.Proofs.Lift.Returns
import Bytelift.Proofs.Lift.Words
import Bytelift.Proofs.Lift.Worklist
import Bytelift.Proofs.Machine.Elements
import Bytelift.Proofs.Machine.Histories
import Bytelift.Proofs.Machine.Integers
import Bytelift.Proofs.Machine.Subtyping
import Bytelift.Proofs.Settings.Restriction
import Bytelift.Proofs.Simulation.Callees
import Bytelift.Proofs.Source.Bundles
import Bytelift.Proofs.Source.Strings
