import PerfectHash.Allocator.Command
import PerfectHash.Hash.Stream
import PerfectHash.Main
import PerfectHash.Placement.Greedy
import PerfectHash.SlotSet.Command
import PerfectHash.Table.Bytes
import PerfectHash.Table.Raw
import PerfectHash.Proofs.Bucket.Deal
import PerfectHash.Proofs.Bucket.Partition
import PerfectHash.Proofs.Bucket.Schedule
import PerfectHash.Proofs.Salt.LeastFit
import PerfectHash.Proofs.Placement.Claims
import PerfectHash.Proofs.Placement.AnyOrder
import PerfectHash.Proofs.Placement.Halting
import PerfectHash.Proofs.Table.Bijection
import PerfectHash.Proofs.Table.Damage
import PerfectHash.Proofs.Table.Valid
import PerfectHash.Proofs.Table.Bytes
import PerfectHash.Proofs.Table.Malformed
import PerfectHash.Proofs.Table.Raw
import PerfectHash.Proofs.Table.Lookup
import PerfectHash.Proofs.Build.Construct
import PerfectHash.Proofs.Build.Correct
import PerfectHash.Proofs.Build.Reorder
import PerfectHash.Proofs.Build.Bound
import PerfectHash.Proofs.Build.Report
import PerfectHash.Proofs.Build.Homes
import PerfectHash.Proofs.Build.Gaps
import PerfectHash.Proofs.Build.DistinctHomes
import PerfectHash.Proofs.Build.Persist
import PerfectHash.Proofs.Dump
import PerfectHash.Proofs.Word.LittleEndian
import PerfectHash.Proofs.Word.Product
import PerfectHash.Proofs.Hash.Mix
import PerfectHash.Proofs.Hash.Stream
import PerfectHash.Proofs.Session
import PerfectHash.Proofs.SlotSet.Answers
import PerfectHash.Proofs.Allocator.Answers
