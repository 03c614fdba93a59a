import BpfLanes.Board.Monitor
import BpfLanes.Main
import BpfLanes.Measure.CoverageRun
import BpfLanes.Measure.Description
import BpfLanes.Measure.Hotspots
import BpfLanes.Measure.Round
import BpfLanes.Measure.SelfCheck
import BpfLanes.Traffic
import BpfLanes.Workload.Catalogue
import BpfLanes.Proofs.EmittedProgram
import BpfLanes.Proofs.MemoryOrder
import BpfLanes.Proofs.FallThrough
import BpfLanes.Proofs.DumpReading
import BpfLanes.Proofs.MemoryListing
import BpfLanes.Proofs.ExitFusion
import BpfLanes.Proofs.RecogniserFaults
import BpfLanes.Proofs.Replacements
import BpfLanes.Proofs.GroupBooks
import BpfLanes.Proofs.ShadowedUses
import BpfLanes.Proofs.NextUseRounds
import BpfLanes.Proofs.CallArguments
import BpfLanes.Proofs.RepeatedReplacement
import BpfLanes.Proofs.LaneChoice
import BpfLanes.Proofs.DefUse
import BpfLanes.Proofs.RangeEnds
