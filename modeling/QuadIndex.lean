import QuadIndex.Json.Form
import QuadIndex.Tree.Quadtree
import QuadIndex.Page.BoxKeys
import QuadIndex.Page.RangeKeys
import QuadIndex.Proofs.Binary64Order
import QuadIndex.Proofs.Box
import QuadIndex.Proofs.Descent.Cells
import QuadIndex.Proofs.Descent.Level
import QuadIndex.Proofs.Descent.Rescaling
import QuadIndex.Proofs.Descent.Way
import QuadIndex.Proofs.Exact.Basic
import QuadIndex.Proofs.Exact.Box
import QuadIndex.Proofs.Exact.Circle
import QuadIndex.Proofs.Exact.Clip
import QuadIndex.Proofs.Exact.ClippedPart
import QuadIndex.Proofs.Exact.Convex
import QuadIndex.Proofs.Exact.Covering
import QuadIndex.Proofs.Exact.Figures
import QuadIndex.Proofs.Exact.Parity
import QuadIndex.Proofs.Exact.Polygon
import QuadIndex.Proofs.Exact.Relisting
import QuadIndex.Proofs.Exact.Rescaling
import QuadIndex.Proofs.Exact.Segment
import QuadIndex.Proofs.Exact.Sharing
import QuadIndex.Proofs.Grouping
import QuadIndex.Proofs.Order
import QuadIndex.Proofs.Page.Answer
import QuadIndex.Proofs.Page.Centers
import QuadIndex.Proofs.Page.Coordinates
import QuadIndex.Proofs.Page.HandOn
import QuadIndex.Proofs.Page.Hull
import QuadIndex.Proofs.Page.Matching
import QuadIndex.Proofs.Page.Midpoints
import QuadIndex.Proofs.Page.Partition
import QuadIndex.Proofs.Page.Placing
import QuadIndex.Proofs.Page.Proposal
import QuadIndex.Proofs.Page.Questions
import QuadIndex.Proofs.Page.Rescaling
import QuadIndex.Proofs.Page.Spread
import QuadIndex.Proofs.Page.Summaries
import QuadIndex.Proofs.Query.Descent
import QuadIndex.Proofs.Query.Exactness
import QuadIndex.Proofs.Query.Paths
import QuadIndex.Proofs.Query.Pruning
import QuadIndex.Proofs.Query.Refinement
import QuadIndex.Proofs.Sameness
import QuadIndex.Proofs.Success
import QuadIndex.Proofs.Tree.Cells
import QuadIndex.Proofs.Tree.Census
import QuadIndex.Proofs.Tree.Contents
import QuadIndex.Proofs.Tree.Dealing
import QuadIndex.Proofs.Tree.History
import QuadIndex.Proofs.Tree.InPlace
import QuadIndex.Proofs.Tree.Insertion
import QuadIndex.Proofs.Tree.LeafCut
import QuadIndex.Proofs.Tree.Refusal
import QuadIndex.Proofs.Tree.Resplitting
import QuadIndex.Proofs.Tree.Search
import QuadIndex.Proofs.Tree.Shape
