import AtomTransport.Format.Report
import AtomTransport.Main
import AtomTransport.Program.Draft
import AtomTransport.Proofs.Ascending
import AtomTransport.Proofs.Device
import AtomTransport.Proofs.Walk
import AtomTransport.Proofs.Route
import AtomTransport.Proofs.ParallelStep
import AtomTransport.Proofs.Transition
import AtomTransport.Proofs.Schedule
import AtomTransport.Proofs.Placement
import AtomTransport.Proofs.Replay
import AtomTransport.Proofs.Synthesis
import AtomTransport.Proofs.Staging
import AtomTransport.Proofs.Atoms
import AtomTransport.Proofs.StraightLine
import AtomTransport.Proofs.Emission
import AtomTransport.Proofs.Lowering
import AtomTransport.Proofs.Readout
import AtomTransport.Proofs.Compilation
import AtomTransport.Proofs.Agreement
import AtomTransport.Proofs.Shots
import AtomTransport.Proofs.Pairing
import AtomTransport.Proofs.Entangling
import AtomTransport.Proofs.Relocation
import AtomTransport.Proofs.Evaluation
import AtomTransport.Proofs.SingleAssignment
import AtomTransport.Proofs.WorkQueue
import AtomTransport.Proofs.PostFixpoint
import AtomTransport.Proofs.Coverage
import AtomTransport.Proofs.Returned
import AtomTransport.Proofs.Packing
import AtomTransport.Proofs.LaneTables
import AtomTransport.Proofs.AddressSpace
import AtomTransport.Proofs.Reserved
import AtomTransport.Proofs.History
import AtomTransport.Proofs.Lattice
import AtomTransport.Proofs.LayerSequence
import AtomTransport.Proofs.LayerPaths
import AtomTransport.Proofs.SearchLevels
import AtomTransport.Proofs.EdgeCount
import AtomTransport.Proofs.ShortestPaths
import AtomTransport.Proofs.PathChoice
import AtomTransport.Proofs.FreeRouting
import AtomTransport.Proofs.RouterRuns
import AtomTransport.Proofs.Grid
import AtomTransport.Proofs.GridRoutes
import AtomTransport.Proofs.LaneOrder
import AtomTransport.Proofs.SimultaneousMove
import AtomTransport.Proofs.Filling
import AtomTransport.Proofs.TableAccess
import AtomTransport.Proofs.Diagnostics
import AtomTransport.Proofs.ZoneReading
import AtomTransport.Proofs.ResultTrees
import AtomTransport.Proofs.Renaming
import AtomTransport.Proofs.EmptyMoves
import AtomTransport.Proofs.OneBlock
import AtomTransport.Proofs.MoveRemoval
import AtomTransport.Proofs.Normalization
import AtomTransport.Proofs.LostLayouts
import AtomTransport.Proofs.Convergence
import AtomTransport.Proofs.DraftCalls
import AtomTransport.Proofs.LaneLookup
import AtomTransport.Proofs.Threading
import AtomTransport.Proofs.Replacement
