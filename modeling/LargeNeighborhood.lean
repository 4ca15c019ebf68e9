import LargeNeighborhood.Console
import LargeNeighborhood.Proofs.BitSet.Equality
import LargeNeighborhood.Proofs.Config.Formats
import LargeNeighborhood.Proofs.Config.RoundTrip
import LargeNeighborhood.Proofs.Draws.Select
import LargeNeighborhood.Proofs.Model.Checkpoints
import LargeNeighborhood.Proofs.Neighbor.Events
import LargeNeighborhood.Proofs.Neighbor.Hull
import LargeNeighborhood.Proofs.Neighbor.Loop
import LargeNeighborhood.Proofs.Neighbor.Recording
import LargeNeighborhood.Proofs.Neighbor.Target
import LargeNeighborhood.Proofs.Neighbor.Unrecorded
import LargeNeighborhood.Proofs.Policy.OrderType
import LargeNeighborhood.Proofs.Schedule.Proportion
import LargeNeighborhood.Proofs.StoredSolution.History
import LargeNeighborhood.Proofs.Strict.Enumeration
import LargeNeighborhood.Proofs.Strict.Run
import LargeNeighborhood.Proofs.ValueGroups.Conversion
