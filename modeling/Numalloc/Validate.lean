import Numalloc.Machine

/-! The invariant walker (`validate.rs`, with the `validate` methods of `heap.rs` and
`thread_heap.rs`). It reads the metadata of a state that stands still; a failed assertion,
an index out of range and an arithmetic overflow are all `none`. -/
namespace Numalloc

open Concurrent

/-- An assertion of the walker. -/
def require (p : Prop) [Decidable p] : Option Unit := if p then some () else none

/-- `usize::div_ceil` -/
def divCeil (a b : Nat) : Nat := (a + b - 1) / b

/-- The smallest block: what one bit of the occupancy bitmap stands for. -/
def granule : Nat := 8

/-- `u8::MAX`, for bag granules no class has claimed. -/
def unclaimed : Nat := 255

/-- Occupancy bitmaps of all nodes, then the classes of their bag granules, in one buffer. -/
structure Marks where
  buf : Nat → Nat
  bitmapBytes : Nat
  bagEntries : Nat
  numNodes : Nat

namespace Marks

/-- Zeroed bitmaps, and no bag granule claimed. -/
def blank (bitmapBytes bagEntries numNodes : Nat) : Marks :=
  let start := bitmapBytes * numNodes
  ⟨fun i => if start ≤ i ∧ i < start + bagEntries * numNodes then unclaimed else 0,
    bitmapBytes,bagEntries,numNodes⟩

def new (heap : GlobalHeap) (mmapAnonymous : Nat → Option Nat) : Option Marks := do
  let bitmapBytes := divCeil heap.regionSize (granule * 8)
  let bagEntries := divCeil heap.regionSize bagSize
  let bufLen ← checkedMul (bitmapBytes + bagEntries) heap.numNodes
  let _ ← mmapAnonymous bufLen
  some (blank bitmapBytes bagEntries heap.numNodes)

/-- Where byte `i` of a node's bitmap is in the buffer. -/
def bitmap (marks : Marks) (node i : Nat) : Option Nat :=
  if i < marks.bitmapBytes then some (node * marks.bitmapBytes + i) else none

def bagMap (marks : Marks) (node i : Nat) : Option Nat :=
  if i < marks.bagEntries then
    some (marks.bitmapBytes * marks.numNodes + node * marks.bagEntries + i)
  else none

def set (marks : Marks) (i value : Nat) : Marks := { marks with buf := replace marks.buf i value }

/-- One bag granule: unclaimed, or claimed by the same class before. -/
def claim (cls node : Nat) (marks : Marks) (i : Nat) : Option Marks := do
  let entry ← marks.bagMap node i
  require (marks.buf entry = unclaimed ∨ marks.buf entry = cls)
  some (marks.set entry (cls % 2 ^ 8))

/-- One block granule: not marked before. -/
def occupy (node : Nat) (marks : Marks) (g : Nat) : Option Marks := do
  let byte ← marks.bitmap node (g / 8)
  let bit := 1 <<< (g % 8)
  require (marks.buf byte &&& bit = 0)
  some (marks.set byte (marks.buf byte ||| bit))

/-- Record a free block found in the structures of a node. -/
def markBlock (heap : GlobalHeap) (bump : Nat → Nat) (node cls : Nat) (marks : Marks)
    (block : Nat) : Option Marks := do
  let region ← heap.nodes[node]?
  let obj ← sizeClasses[cls]?
  let bag := bagSizeForClass cls
  require (heap.nodeForPtr block = some node)
  let off ← checkedSub block region.base
  let top ← checkedAdd off obj
  require (top ≤ bump node)
  require (block % obj = 0)
  let bagBase ← checkedSub (block &&& bnot64 (bag - 1)) region.base
  let firstGranule := bagBase / bagSize
  let granules := bag / bagSize
  require (firstGranule + granules ≤ marks.bagEntries)
  let marks ← (List.range' firstGranule granules).foldlM (claim cls node) marks
  (List.range' (off / granule) (top / granule - off / granule)).foldlM (occupy node) marks

end Marks

/-- Follow the links from `cursor` over at most `limit` further blocks. The answer counts
the blocks and names the last one. -/
def markChain (s : State) (mark : Marks → Nat → Option Marks) :
    (limit : Nat) → (cursor : Option Nat) → (len : Nat) → (last : Option Nat) → Marks →
      Option (Nat × Option Nat × Marks)
  | _, none, len, last, marks => some (len,last,marks)
  | 0, some _, _, _, _ => none
  | limit + 1, some block, len, _, marks => do
    let marks ← mark marks block
    markChain s mark limit (s.readNext block) (len + 1) (some block) marks

namespace GlobalHeap

/-- The stack of one node and class; the limit rules out a cycle. -/
def validateStack (s : State) (sh : SharedHeap) (region : NodeRegion) (node : Nat) (marks : Marks)
    (cls : Nat) : Option Marks := do
  let obj ← sizeClasses[cls]?
  let maxLen := region.size / obj + 1
  let head := (TreiberStack.unpack (sh.head node cls)).1
  let (_,_,marks) ← markChain s (Marks.markBlock sh.heap sh.bump node cls) maxLen head 0 none marks
  some marks

def validateNode (s : State) (sh : SharedHeap) (marks : Marks) (node : Nat) : Option Marks := do
  let region ← sh.heap.nodes[node]?
  require (sh.bump node ≤ region.size)
  let offset ← checkedMul node sh.heap.regionSize
  let base ← checkedAdd sh.heap.base offset
  require (region.base = base)
  (List.range numSizeClasses).foldlM (validateStack s sh region node) marks

def validateUnused (heap : GlobalHeap) (node : Nat) : Option Unit := do
  let region ← heap.nodes[node]?
  require (region.size = 0)

def validate (s : State) (sh : SharedHeap) (marks : Marks) : Option Marks := do
  let heap := sh.heap
  let total ← checkedMul heap.regionSize heap.numNodes
  require (heap.totalSize = total)
  require (heap.base % minRegionSize = 0)
  let mapEnd ← checkedAdd heap.mapBase heap.mapSize
  let lastBase ← checkedSub mapEnd heap.totalSize
  require (heap.mapBase ≤ heap.base ∧ heap.base ≤ lastBase)
  let marks ← (List.range heap.numNodes).foldlM (validateNode s sh) marks
  (List.range' heap.numNodes (maxNodes - heap.numNodes)).forM heap.validateUnused
  some marks

end GlobalHeap

namespace LargeCache

/-- Two entries do not overlap. -/
def validatePair (entries : List LargeCacheEntry) (entry : LargeCacheEntry) (j : Nat) :
    Option Unit := do
  let other ← entries[j]?
  let entryEnd ← checkedAdd entry.originalPtr entry.allocSize
  if entryEnd ≤ other.originalPtr then some ()
  else
    let otherEnd ← checkedAdd other.originalPtr other.allocSize
    require (otherEnd ≤ entry.originalPtr)

def validateEntry (P : Platform) (heap : GlobalHeap) (entries : List LargeCacheEntry) (total i : Nat) :
    Option Nat := do
  let entry ← entries[i]?
  require (entry.originalPtr % P.pageSize = 0)
  require (entry.allocSize % P.pageSize = 0)
  require (0 < entry.allocSize)
  require (heap.isOwned entry.originalPtr = false)
  (List.range i).forM (validatePair entries entry)
  checkedAdd total entry.allocSize

def validate (P : Platform) (cache : LargeCache) (heap : GlobalHeap) : Option Unit := do
  require (cache.count ≤ largeCacheSlots)
  require (cache.bytes ≤ maxLargeCacheBytes)
  let total ← (List.range cache.count).foldlM (validateEntry P heap cache.entries) 0
  require (total = cache.bytes)

end LargeCache

namespace PerThreadHeap

/-- A block of one of the thread's own chains. -/
def markOwn (th : PerThreadHeap) (sh : SharedHeap) (cls : Nat) (marks : Marks) (block : Nat) :
    Option Marks := do
  require (sh.heap.nodeForPtr block = some th.nodeId)
  Marks.markBlock sh.heap sh.bump th.nodeId cls marks block

/-- The counted list, whose length and tail are known, and the spare chain. -/
def validateClass (s : State) (th : PerThreadHeap) (sh : SharedHeap) (marks : Marks) (cls : Nat) :
    Option Marks := do
  let fl := th.freelists cls
  let (len,last,marks) ← markChain s (th.markOwn sh cls) (fl.count + 1) fl.head 0 none marks
  require (len = fl.count)
  require (last = fl.tail)
  let obj ← sizeClasses[cls]?
  let maxLen := sh.heap.regionSize / obj + 1
  let (_,_,marks) ← markChain s (th.markOwn sh cls) maxLen fl.spare 0 none marks
  some marks

def validate (P : Platform) (s : State) (th : PerThreadHeap) (sh : SharedHeap) (marks : Marks) :
    Option Unit := do
  require (th.nodeId < sh.heap.numNodes)
  let _ ← (List.range numSizeClasses).foldlM (validateClass s th sh) marks
  th.largeCache.validate P sh.heap

end PerThreadHeap

/-- `validate_internal_state` of thread `t`, once the allocator's heap is known. -/
def validateInternalState (P : Platform) (s : State) (t : Nat) (heap : HeapHandle)
    (mmapAnonymous : Nat → Option Nat) : Option Unit := do
  let sh ← s.heaps heap.addr
  let marks ← Marks.new sh.heap mmapAnonymous
  let marks ← GlobalHeap.validate s sh marks
  match s.tls t with
  | .alive th => if th.globalHeap.addr = heap.addr then th.validate P s sh marks else some ()
  | _ => some ()

end Numalloc
