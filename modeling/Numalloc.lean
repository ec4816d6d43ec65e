import Numalloc.Concurrent.Rules
import Numalloc.Concurrent.Links
import Numalloc.Concurrent.Bytes
import Numalloc.SizeClass
import Numalloc.FreeList
import Numalloc.Heap
import Numalloc.Invariant
import Numalloc.Sound.Memory
import Numalloc.Sound.Blocks
import Numalloc.Sound.Handles
import Numalloc.Sound.Maps
import Numalloc.Sound.Callers
import Numalloc.Sound.Start
import Numalloc.Ownership
import Numalloc.Sound.Step
import Numalloc.Spec.FreeLists
import Numalloc.Spec.Stacks
import Numalloc.Spec.Small
import Numalloc.Spec.Teardown
import Numalloc.Spec.Binding
import Numalloc.Spec.Large
import Numalloc.Spec.Release
import Numalloc.Spec.Operations
import Numalloc.Spec.Requests
import Numalloc.Runs
import Numalloc.Separation
import Numalloc.Effects
import Numalloc.History
import Numalloc.Partition
import Numalloc.LinkOwnership
import Numalloc.Placement
import Numalloc.Contents
import Numalloc.Lifecycle
import Numalloc.Isolation
import Numalloc.Concurrent.Solo
import Numalloc.CacheRuns
import Numalloc.BagAllocation
import Numalloc.StackRefinement
import Numalloc.Capacity
import Numalloc.Routing
import Numalloc.Locality
import Numalloc.Concurrent.Only
import Numalloc.Footprint
import Numalloc.Beside
import Numalloc.Zeroed
import Numalloc.Exhaustion
import Numalloc.Construction
import Numalloc.Validate
import Numalloc.Validation
import Numalloc.Geometry
import Numalloc.Hiding
import Numalloc.LargePlacement
import Numalloc.ListRefinement
import Numalloc.Occupancy
import Numalloc.CpuList
import Numalloc.Concurrent.Monitor
import Numalloc.Traces
import Numalloc.ClassTrace
import Numalloc.Trails
import Numalloc.ClassRules
import Numalloc.ReuseOrder
import Numalloc.Demands
import Numalloc.Drains
import Numalloc.Sight
import Numalloc.Reallocation
import Numalloc.Supply
import Numalloc.Population
import Numalloc.Growth
import Numalloc.Progress
import Numalloc.Retention
import Numalloc.Sealing
import Numalloc.Carving
import Numalloc.Seating
import Numalloc.Dealing
import Numalloc.Retries
