import ReachableCode.Code.Scripted
import ReachableCode.Code.Toy
import ReachableCode.Expr.Order
import ReachableCode.Graph.Violation
import ReachableCode.Listing.Request
import ReachableCode.Proofs.Exploration.Exits
import ReachableCode.Proofs.Exploration.Finishes
import ReachableCode.Proofs.Exploration.Linked
import ReachableCode.Proofs.Exploration.Reachability
import ReachableCode.Proofs.Exploration.Representation
import ReachableCode.Proofs.Search.Exhaustive
import ReachableCode.Proofs.Exploration.Answers
import ReachableCode.Proofs.Exploration.NoDangling
import ReachableCode.Proofs.Exploration.Explorable
import ReachableCode.Proofs.Exploration.Order
import ReachableCode.Proofs.Exploration.Overlap
import ReachableCode.Proofs.Search.Forward
import ReachableCode.Proofs.Memory.Mapping
import ReachableCode.Proofs.Image.Fields
import ReachableCode.Proofs.Image.Overflow
import ReachableCode.Proofs.Expr.Reduction
import ReachableCode.Proofs.Search.Resolution
import ReachableCode.Proofs.X86.Clobbers
import ReachableCode.Proofs.X86.Rewriting
import ReachableCode.Proofs.Exploration.Splits
import ReachableCode.Proofs.Exploration.Refinement
import ReachableCode.Proofs.X86.Narrow
import ReachableCode.Proofs.Exploration.Repetition
import ReachableCode.Proofs.Exploration.Labels
import ReachableCode.Proofs.Exploration.Termination
import ReachableCode.Proofs.Search.Termination
import ReachableCode.Proofs.Memory.Integers
import ReachableCode.Proofs.Memory.NewLabels
import ReachableCode.Proofs.Image.Labels
import ReachableCode.Proofs.Search.Immediate
import ReachableCode.Proofs.Exploration.Mapped
import ReachableCode.Proofs.Listing.Csv
import ReachableCode.Proofs.Listing.Json
import ReachableCode.Proofs.Listing.Code
import ReachableCode.Proofs.Listing.Entries
