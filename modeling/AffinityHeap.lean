import AffinityHeap.Config.Directory
import AffinityHeap.Main
import AffinityHeap.Proofs.Failure
import AffinityHeap.Proofs.Options
import AffinityHeap.Proofs.Overlong
import AffinityHeap.Proofs.PoolSession
import AffinityHeap.Proofs.Program
import AffinityHeap.Proofs.Report
import AffinityHeap.Proofs.Segment.BestFit
import AffinityHeap.Proofs.Segment.Frees
import AffinityHeap.Proofs.Segment.Settled
import AffinityHeap.Proofs.Slot.Capacity
import AffinityHeap.Proofs.Slot.Codec
import AffinityHeap.Proofs.Slot.Fresh
import AffinityHeap.Proofs.Slot.Misread
import AffinityHeap.Proofs.Slot.Overwrite
import AffinityHeap.Proofs.Slot.Walks
import AffinityHeap.Proofs.Sweep
