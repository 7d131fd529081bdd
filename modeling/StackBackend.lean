import StackBackend.Checksum
import StackBackend.Main
import StackBackend.Proofs.Semantics.Exceptions
import StackBackend.Proofs.Lowering.MemberOperands
import StackBackend.Proofs.Lowering.StackHeights
import StackBackend.Proofs.CompiledAgain
import StackBackend.Proofs.Closure.RecordTables
import StackBackend.Proofs.Semantics.CleanupExits
import StackBackend.Proofs.Stored.RoundTrip
import StackBackend.Proofs.Closure.BlockValues
import StackBackend.Proofs.Closure.ChainValues
import StackBackend.Proofs.Layout.OverrideChains
import StackBackend.Proofs.Closure.Frame
import StackBackend.Proofs.Layout.Subtyping
import StackBackend.Proofs.Lowering.StringPool
import StackBackend.Proofs.Lowering.DraftRuns
import StackBackend.Proofs.Closure.EnumerationOrder
import StackBackend.Proofs.Lowering.Slots
import StackBackend.Proofs.Lowering.BlockOrder
import StackBackend.Proofs.Lowering.Divergence
