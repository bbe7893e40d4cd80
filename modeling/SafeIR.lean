import SafeIR.Binary.Operation
import SafeIR.Command.Directory
import SafeIR.Main
import SafeIR.Platform
import SafeIR.Proofs.Artifact.Constant
import SafeIR.Proofs.Artifact.Refusal
import SafeIR.Proofs.Elision
import SafeIR.Proofs.IR.Expansion
import SafeIR.Proofs.Intrinsic.Lookup
import SafeIR.Proofs.Layout.Data
import SafeIR.Proofs.Layout.Shared
import SafeIR.Proofs.Layout.Slot
import SafeIR.Proofs.Library.Buffer
import SafeIR.Proofs.Library.Reading
import SafeIR.Proofs.Lockstep
import SafeIR.Proofs.Lower.Allocation
import SafeIR.Proofs.Lower.Element
import SafeIR.Proofs.Lower.External
import SafeIR.Proofs.Lower.Promise
import SafeIR.Proofs.Lower.Switch
import SafeIR.Proofs.Memory.Bulk
import SafeIR.Proofs.Memory.Live
import SafeIR.Proofs.Source.BlockLabel
import SafeIR.Proofs.Source.Escape
import SafeIR.Proofs.Source.GlobalText
