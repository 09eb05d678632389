import LoopMemory.Analysis
import LoopMemory.Console.Program
import LoopMemory.Description.Analysis
import LoopMemory.Main
import LoopMemory.Privatization
import LoopMemory.Region.Builder
import LoopMemory.Proofs.Addresses
import LoopMemory.Proofs.AliasClasses
import LoopMemory.Proofs.AliasClasses.Calls
import LoopMemory.Proofs.AliasClasses.Components
import LoopMemory.Proofs.AliasClasses.Scattered
import LoopMemory.Proofs.Analysis
import LoopMemory.Proofs.Analysis.Complete
import LoopMemory.Proofs.Analysis.Facts
import LoopMemory.Proofs.Analysis.Origins
import LoopMemory.Proofs.Analysis.StandIns
import LoopMemory.Proofs.Analysis.Total
import LoopMemory.Proofs.Apart
import LoopMemory.Proofs.Collapse
import LoopMemory.Proofs.Description.Acceptance
import LoopMemory.Proofs.Description.Analysis
import LoopMemory.Proofs.Description.Calls
import LoopMemory.Proofs.Description.Comparison
import LoopMemory.Proofs.Description.Contents
import LoopMemory.Proofs.Description.Declared
import LoopMemory.Proofs.Description.Edges
import LoopMemory.Proofs.Description.Effects
import LoopMemory.Proofs.Description.Expectations
import LoopMemory.Proofs.Description.Graph
import LoopMemory.Proofs.Description.Legend
import LoopMemory.Proofs.Description.Lowering
import LoopMemory.Proofs.Description.Order
import LoopMemory.Proofs.Description.Overlong
import LoopMemory.Proofs.Description.Reached
import LoopMemory.Proofs.Description.Renumbered
import LoopMemory.Proofs.Description.Reordered
import LoopMemory.Proofs.Description.RoundTrip
import LoopMemory.Proofs.Description.Spelling
import LoopMemory.Proofs.Description.Spots
import LoopMemory.Proofs.Description.Tables
import LoopMemory.Proofs.Description.Variables
import LoopMemory.Proofs.Enumeration
import LoopMemory.Proofs.Exactness
import LoopMemory.Proofs.Except
import LoopMemory.Proofs.Exposure
import LoopMemory.Proofs.Footprint
import LoopMemory.Proofs.Footprint.AccessOrder
import LoopMemory.Proofs.Footprint.Block
import LoopMemory.Proofs.Footprint.ClosedForm
import LoopMemory.Proofs.Footprint.Composed
import LoopMemory.Proofs.Footprint.Covering
import LoopMemory.Proofs.Footprint.Tally
import LoopMemory.Proofs.Footprint.Unknown
import LoopMemory.Proofs.Inline
import LoopMemory.Proofs.Inline.Levels
import LoopMemory.Proofs.Inline.Promises
import LoopMemory.Proofs.Inline.Runs
import LoopMemory.Proofs.Inventory
import LoopMemory.Proofs.Laps
import LoopMemory.Proofs.LoopsExecute
import LoopMemory.Proofs.Nesting
import LoopMemory.Proofs.Privatization
import LoopMemory.Proofs.Privatization.Classes
import LoopMemory.Proofs.Privatization.Listing
import LoopMemory.Proofs.Reaching
import LoopMemory.Proofs.Reaching.Meet
import LoopMemory.Proofs.Region
import LoopMemory.Proofs.Region.Builder
import LoopMemory.Proofs.Region.Built
import LoopMemory.Proofs.Region.PostOrder
import LoopMemory.Proofs.Region.SplitBlock
import LoopMemory.Proofs.Region.Tree
import LoopMemory.Proofs.Region.Valid
import LoopMemory.Proofs.Region.Walk
import LoopMemory.Proofs.Renumbering.Analysis
import LoopMemory.Proofs.Renumbering.Footprint
import LoopMemory.Proofs.Renumbering.Privatization
import LoopMemory.Proofs.Renumbering.Summary
import LoopMemory.Proofs.Solver.Bound
import LoopMemory.Proofs.Solver.Descent
import LoopMemory.Proofs.Solver.Distributive
import LoopMemory.Proofs.Solver.Greatest
import LoopMemory.Proofs.Solver.Halved
import LoopMemory.Proofs.Solver.Paths
import LoopMemory.Proofs.Solver.Sharper
import LoopMemory.Proofs.Solver.Solution
import LoopMemory.Proofs.Solver.Step
import LoopMemory.Proofs.Solver.Unreached
import LoopMemory.Proofs.Solver.Walks
import LoopMemory.Proofs.Soundness
import LoopMemory.Proofs.Splitting
import LoopMemory.Proofs.UnknownCalls
