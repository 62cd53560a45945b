import HotSwap.Assembly
import HotSwap.ClassFile.Building
import HotSwap.ClassFile.Writing
import HotSwap.Main
import HotSwap.Proofs.Splicing
import HotSwap.Proofs.Unmoved
import HotSwap.Proofs.Building
import HotSwap.Proofs.Reindexing
import HotSwap.Proofs.Return
import HotSwap.Proofs.ClassImage
import HotSwap.Proofs.Exactness
import HotSwap.Proofs.ImageReading
import HotSwap.Proofs.Reencoding
import HotSwap.Proofs.Rewriting
import HotSwap.Proofs.UnchangedReport
import HotSwap.Proofs.SwitchTable
import HotSwap.Proofs.Assembling
import HotSwap.Proofs.Scanning
import HotSwap.Proofs.Subsequence
import HotSwap.Proofs.Trailing
import HotSwap.Proofs.Outcome
import HotSwap.Proofs.Partition
import HotSwap.Proofs.Patching
import HotSwap.Proofs.Interning
import HotSwap.Proofs.PoolRoundTrip
import HotSwap.Proofs.Groups
import HotSwap.Proofs.Descriptor
import HotSwap.Proofs.SlotLayout
import HotSwap.Proofs.TypedValues
import HotSwap.Proofs.Declaring
import HotSwap.Proofs.Capacity
import HotSwap.Proofs.EntrySlots
