import Sac2c.Trace
import Sac2c.Cuts
import Sac2c.Schedule
import Sac2c.Strides
import Sac2c.Factoring
import Sac2c.Affinity
import Sac2c.AffinityStealing
import Sac2c.Arenas
import Sac2c.DispatchOrder
import Sac2c.Routing
import Sac2c.SelfScheduling
import Sac2c.BinOrder
import Sac2c.TopArena
import Sac2c.SmallOrder
import Sac2c.SizeClasses
import Sac2c.PartitionGeneration
import Sac2c.ModuloPartitioning
import Sac2c.LoopUnrolling
import Sac2c.LutRuns
import Sac2c.UnusedLists
import Sac2c.SyncBarrier
import Sac2c.Reassociation
import Sac2c.TreeOptimisation
import Sac2c.SsiPropagation
import Sac2c.InfiniteGraph
import Sac2c.NameMangling
import Sac2c.CubeTrees
import Sac2c.DagLub
import Sac2c.StringDecoding
import Sac2c.ConstantSerialization
import Sac2c.PriorityQueue
import Sac2c.LinkTable
import Sac2c.ConstantTiles
import Sac2c.OverSelection
import Sac2c.PartialFilter
import Sac2c.IntMatrix
import Sac2c.MinimumGraph
import Sac2c.RangeMinimum
import Sac2c.IndexFolding
import Sac2c.NodeOrder
import Sac2c.SubsetStrides
import Sac2c.BlockTrees
import Sac2c.BlockFitting
import Sac2c.SegmentBoxes
import Sac2c.SharedResults
import Sac2c.RunSets
import Sac2c.StrideDivision
import Sac2c.StrideDisjointness
import Sac2c.RequestQueue
import Sac2c.LinearTransformations
import Sac2c.TokenSubstitution
import Sac2c.TerminatedArrays
import Sac2c.SpecialisationRequests
import Sac2c.StringBuffer
import Sac2c.Tries
import Sac2c.CompatFree
import Sac2c.AlignedChunks
import Sac2c.AdjacentRows
import Sac2c.MeltedChunks
import Sac2c.LivePayloads
import Sac2c.ByteRuns
import Sac2c.Reallocation
import Sac2c.Fragmentation
import Sac2c.HeldChunks
import Sac2c.UnrollingCount
import Sac2c.ModifierNormalisation
import Sac2c.GeneratorComparison
import Sac2c.CacheRefinement
import Sac2c.DataFlowMaskSets
import Sac2c.IndexInfoValues
import Sac2c.MessageWrapping
import Sac2c.ShapeStrings
import Sac2c.ArraySorting
import Sac2c.UnrolledRuns
import Sac2c.WithloopFusion
import Sac2c.KernelCoverage
