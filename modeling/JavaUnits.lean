import JavaUnits.Logging
import JavaUnits.Main
import JavaUnits.Proofs.SplitTokens
import JavaUnits.Proofs.Imports
import JavaUnits.Proofs.SelfImports
import JavaUnits.Proofs.EntryPoint
import JavaUnits.Proofs.Heads
import JavaUnits.Proofs.Remerging
import JavaUnits.Proofs.Promotion
import JavaUnits.Proofs.Targets
import JavaUnits.Proofs.Sources
import JavaUnits.Proofs.MergeSplit
import JavaUnits.Proofs.FailedMerge
import JavaUnits.Proofs.Reopening
import JavaUnits.Proofs.Replies
import JavaUnits.Proofs.StoredCycle
import JavaUnits.Proofs.Leaves
import JavaUnits.Proofs.SplitLeaves
import JavaUnits.Proofs.SplitMerges
import JavaUnits.Proofs.RoundTrip
import JavaUnits.Proofs.Sites
import JavaUnits.Proofs.Tiling
import JavaUnits.Proofs.Slices
import JavaUnits.Proofs.Forms
import JavaUnits.Proofs.Members
import JavaUnits.Proofs.Demotion
import JavaUnits.Proofs.Cycles
import JavaUnits.Proofs.Verdicts
import JavaUnits.Proofs.Reordering
import JavaUnits.Proofs.Cuts
import JavaUnits.Proofs.Comments
import JavaUnits.Proofs.Pointwise
import JavaUnits.Proofs.Grouping
import JavaUnits.Proofs.Offsets
import JavaUnits.Proofs.Enumeration
import JavaUnits.Proofs.ImportBlocks
