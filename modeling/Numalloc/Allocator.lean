import Numalloc.ThreadHeap

/-! The allocator (`allocator.rs`, with the handle and drop code of `heap.rs` and
`thread_heap.rs`) as programs over its atomic actions. Thread-local fields are read
and written where the source does; link words, head words, bump offsets and reference
counts are accessed one at a time. -/
namespace Numalloc

open Concurrent

/-- The per-class stack of a node of the heap at `heap`. -/
structure StackRef where
  heap : Nat
  node : Nat
  cls : Nat
  deriving DecidableEq

/-- Contents of the thread-local slot. -/
inductive ThreadHeapSlot where
  | empty
  | alive (th : PerThreadHeap)
  | destroyed

/-- A reference obtained from `NumaAlloc::heap`, with the fields that never change. -/
structure HeapRef where
  handle : HeapHandle
  geom : GlobalHeap
  deriving DecidableEq

/-- Atomic actions. `release`, `give` and `finish` mark where an allocation passes
between the caller and the operation; they do nothing in the code. The class given
to `casBump` records what the bag is carved for. -/
inductive Act where
  | heap (inst : Nat)
  | takeHeap
  | slotGet
  | slotTake (destroy : Bool)
  | slotSet (th : PerThreadHeap)
  | thread
  | setFreelist (cls : Nat) (fl : ThreadFreelist)
  | setLargeCache (cache : LargeCache)
  | link (x : LinkOp)
  | loadHead (k : StackRef)
  | casHead (k : StackRef) (current new : Nat)
  | loadBump (heap node : Nat)
  | casBump (heap node cls current new : Nat)
  | fetchAddNode (inst : Nat)
  | fetchAddRefs (h : HeapHandle)
  | fetchSubRefs (h : HeapHandle)
  | extent (h : HeapHandle)
  | sysDealloc (h : HeapHandle)
  | mmap (size : Nat)
  | munmap (ptr size : Nat)
  | bindToNode (ptr size node : Nat)
  | madvise (ptr size : Nat)
  | writeHeader (place original size : Nat)
  | readHeader (place : Nat)
  | writeBytes (ptr size : Nat)
  | copy (src dst size : Nat)
  | release
  | give (ptr : Nat) (layout : Layout)
  | finish
  | abort

@[reducible] def Act.Res : Act → Type
  | heap _ => HeapRef
  | takeHeap => Option HeapHandle
  | slotGet => ThreadHeapSlot
  | slotTake _ => ThreadHeapSlot
  | thread => PerThreadHeap
  | link x => x.Res
  | loadHead _ => Nat
  | casHead _ _ _ => Bool
  | loadBump _ _ => Nat
  | casBump _ _ _ _ _ => Bool
  | fetchAddNode _ => Nat
  | fetchAddRefs _ => Nat
  | fetchSubRefs _ => Nat
  | extent _ => Nat × Nat
  | mmap _ => Option Nat
  | readHeader _ => Nat × Nat
  | abort => Empty
  | slotSet _ | setFreelist _ _ | setLargeCache _ | sysDealloc _ | munmap _ _ | bindToNode _ _ _
  | madvise _ _ | writeHeader _ _ _ | writeBytes _ _ | copy _ _ _ | release | give _ _
  | finish => Unit

@[reducible] def allocI : Interface := ⟨Act,Act.Res⟩

/-- Take one action. -/
def act (x : Act) : Prog allocI x.Res := .call (I := allocI) x

def processAbort {α : Type} : Prog allocI α := .act (I := allocI) .abort (fun e => nomatch e)

def links {α : Type} (p : Prog linkI α) : Prog allocI α := p.lift (J := allocI) .link fun _ r => r

@[reducible] def stackAct (k : StackRef) : TreiberStack.Op → Act
  | .load => .loadHead k
  | .compareExchangeWeak current new => .casHead k current new
  | .writeNext block next => .link (.writeNext block next)

def stackRes (k : StackRef) : (x : TreiberStack.Op) → (stackAct k x).Res → x.Res
  | .load, r => r
  | .compareExchangeWeak _ _, r => r
  | .writeNext _ _, r => r

/-- Run a stack operation on the stack of one node and class. -/
def onStack {α : Type} (k : StackRef) (p : Prog TreiberStack.stackI α) : Prog allocI α :=
  p.lift (J := allocI) (stackAct k) (stackRes k)

@[reducible] def bumpAct (heap node cls : Nat) : NodeRegion.Op → Act
  | .load => .loadBump heap node
  | .compareExchangeWeak current new => .casBump heap node cls current new

def bumpRes (heap node cls : Nat) :
    (x : NodeRegion.Op) → (bumpAct heap node cls x).Res → x.Res
  | .load, r => r
  | .compareExchangeWeak _ _, r => r

def onBump {α : Type} (heap node cls : Nat) (p : Prog NodeRegion.bumpI α) : Prog allocI α :=
  p.lift (J := allocI) (bumpAct heap node cls) (bumpRes heap node cls)

@[reducible] def cacheAct : LargeCache.Op → Act
  | .get => .thread
  | .set cache => .setLargeCache cache
  | .munmap ptr size => .munmap ptr size

def cacheRes : (x : LargeCache.Op) → (cacheAct x).Res → x.Res
  | .get, r => r.largeCache
  | .set _, r => r
  | .munmap _ _, r => r

/-- Run a cache operation on the calling thread's large cache. -/
def onCache {α : Type} (p : Prog LargeCache.cacheI α) : Prog allocI α :=
  p.lift (J := allocI) cacheAct cacheRes

/-- Read a free list of the calling thread. -/
def freelist (cls : Nat) : Prog allocI ThreadFreelist := do
  let th ← act .thread
  pure (th.freelists cls)

/-- Run a list method and store the list it leaves. -/
def freelistMut {α : Type} (cls : Nat) (method : ThreadFreelist → Prog linkI (α × ThreadFreelist)) :
    Prog allocI α := do
  let fl ← freelist cls
  let (result, fl) ← links (method fl)
  act (.setFreelist cls fl)
  pure result

/-- A method without a result. -/
def freelistDo (cls : Nat) (method : ThreadFreelist → Prog linkI ThreadFreelist) :
    Prog allocI Unit :=
  freelistMut cls fun fl => do
    let fl ← method fl
    pure ((), fl)

/-! Handles, thread heaps and their destruction. -/

def cloneHandle (h : HeapHandle) : Prog allocI HeapHandle := do
  let previous ← act (.fetchAddRefs h)
  if isizeMax ≤ previous then processAbort else pure h

def dropHandle (h : HeapHandle) : Prog allocI Unit := do
  let previous ← act (.fetchSubRefs h)
  if previous = 1 then
    let (mapBase, mapSize) ← act (.extent h)
    act (.munmap mapBase mapSize)
    act (.sysDealloc h)
  else
    pure ()

def flush : List LargeCacheEntry → Prog allocI Unit
  | [] => pure ()
  | entry :: rest => do
    act (.munmap entry.originalPtr entry.allocSize)
    flush rest

/-- Walk an owned chain to its last block. -/
def walkTail (head : Nat) : Prog allocI Nat :=
  .iter (fun tail => do
    match ← links (readNext tail) with
    | some next => pure (.inl next)
    | none => pure (.inr tail)) head

/-- Return the counted list and the spare chain of one class. -/
def dropClass (th : PerThreadHeap) (cls : Nat) : Prog allocI Unit := do
  let k : StackRef := ⟨th.globalHeap.addr,th.nodeId,cls⟩
  let (drained, fl) ← links (th.freelists cls).drainAll
  match drained with
  | some (head, tail, _) => onStack k (TreiberStack.pushChain head tail)
  | none => pure ()
  match fl.takeSpare.1 with
  | some head =>
    let tail ← walkTail head
    onStack k (TreiberStack.pushChain head tail)
  | none => pure ()

def dropClasses (th : PerThreadHeap) : List Nat → Prog allocI Unit
  | [] => pure ()
  | cls :: rest => do
    dropClass th cls
    dropClasses th rest

/-- `PerThreadHeap::drop`, then its fields in declaration order: the handle before
the large cache. -/
def dropThreadHeap (th : PerThreadHeap) : Prog allocI Unit := do
  dropClasses th (List.range numSizeClasses)
  dropHandle th.globalHeap
  flush th.largeCache.entries

def initThreadHeap (inst : Nat) (heap : HeapRef) : Prog allocI Unit := do
  match ← act (.slotTake false) with
  | .alive th => dropThreadHeap th
  | _ => pure ()
  let next ← act (.fetchAddNode inst)
  let node := next % heap.geom.numNodes
  let handle ← cloneHandle heap.handle
  act (.slotSet (.new node handle))

/-- Whether the thread has a cache for this allocator afterwards. -/
def threadHeap (inst : Nat) : Prog allocI Bool := do
  match ← act .slotGet with
  | .destroyed => pure false
  | .empty =>
    let heap ← act (.heap inst)
    initThreadHeap inst heap
    pure true
  | .alive th =>
    let heap ← act (.heap inst)
    if th.globalHeap.addr = heap.handle.addr then
      pure true
    else
      initThreadHeap inst heap
      pure true

/-! Large objects. -/

/-- The page size, a power of two. -/
structure Platform where
  pageSize : Nat
  shift : Nat
  pow : pageSize = 2 ^ shift
  low : 12 ≤ shift
  high : shift < 63

def headerSize : Nat := 16
def headerAlign : Nat := 8

variable (P : Platform)

def largeAllocSize (layout : Layout) : Option Nat := do
  let align := max layout.align headerAlign
  let allocSize ← checkedAdd headerSize (align - 1)
  let allocSize ← checkedAdd allocSize layout.size
  let allocSize ← checkedAdd allocSize (P.pageSize - 1)
  let rounded := allocSize &&& bnot64 (P.pageSize - 1)
  if rounded ≤ isizeMax then some rounded else none

def payloadAddr (raw : Nat) (layout : Layout) : Nat :=
  let align := max layout.align headerAlign
  (raw + headerSize + align - 1) &&& bnot64 (align - 1)

def prepareLargePayload (raw allocSize : Nat) (layout : Layout) : Prog allocI Nat := do
  let payload := payloadAddr raw layout
  act (.writeHeader (payload - headerSize) raw allocSize)
  pure payload

/-- The slow path of a large allocation. -/
def mapLarge (allocSize node : Nat) (layout : Layout) : Prog allocI (Option Nat × Bool) := do
  match ← act (.mmap allocSize) with
  | none => pure (none, false)
  | some raw =>
    act (.bindToNode raw allocSize node)
    let payload ← prepareLargePayload raw allocSize layout
    pure (some payload, false)

/-- The second answer tells whether the mapping was reused. -/
def allocLargeTracked (inst : Nat) (layout : Layout) : Prog allocI (Option Nat × Bool) :=
  match largeAllocSize P layout with
  | none => pure (none, false)
  | some allocSize => do
    if ← threadHeap inst then
      let th ← act .thread
      match th.largeCache.take allocSize with
      | (some (raw, mappedSize), cache) =>
        act (.setLargeCache cache)
        let payload ← prepareLargePayload raw mappedSize layout
        pure (some payload, true)
      | (none, _) => mapLarge allocSize th.nodeId layout
    else
      mapLarge allocSize 0 layout

def allocLarge (inst : Nat) (layout : Layout) : Prog allocI (Option Nat) := do
  let (ptr, _) ← allocLargeTracked P inst layout
  pure ptr

def tryCacheLarge (inst original allocSize : Nat) : Prog allocI Bool := do
  match ← act .slotGet with
  | .alive th =>
    let heap ← act (.heap inst)
    if th.globalHeap.addr ≠ heap.handle.addr then
      pure false
    else if ← onCache (LargeCache.put original allocSize) then
      if madviseThreshold ≤ allocSize then
        act (.madvise original allocSize)
      pure true
    else
      pure false
  | _ => pure false

def deallocLarge (inst ptr : Nat) : Prog allocI Unit := do
  let (original, size) ← act (.readHeader (ptr - headerSize))
  if ← tryCacheLarge inst original size then
    pure ()
  else
    act (.munmap original size)

/-! Small objects. -/

/-- Walk at most `refillBatch` blocks of an owned chain; the rest becomes spare. -/
def refillWalk (cls first : Nat) : Prog allocI (Nat × Nat) :=
  .iter (fun (tail, count) => do
    let next ← links (readNext tail)
    if refillBatch ≤ count then
      let fl ← freelist cls
      act (.setFreelist cls (fl.setSpare next))
      links (writeNext tail none)
      pure (.inr (tail, count))
    else
      match next with
      | some n => pure (.inl (n, count + 1))
      | none => pure (.inr (tail, count))) (first, 1)

def popUnwrap (cls : Nat) : Prog allocI Nat := do
  let block ← freelistMut cls ThreadFreelist.pop
  links (unwrap block)

def refill (cls first : Nat) : Prog allocI Nat := do
  let (tail, count) ← refillWalk cls first
  freelistDo cls fun fl => fl.pushChain first tail count
  popUnwrap cls

/-- The parked spare chain, else the whole chain of the node's stack. -/
def takeChain (cls : Nat) (k : StackRef) : Prog allocI (Option Nat) := do
  let fl ← freelist cls
  let (spare, fl) := fl.takeSpare
  act (.setFreelist cls fl)
  match spare with
  | some first => pure (some first)
  | none => onStack k TreiberStack.takeAll

/-- Push the objects `i, i + 1, ...` of a bag. -/
def carve (cls bag objSize : Nat) : Nat → Nat → Prog allocI Unit
  | _, 0 => pure ()
  | i, n + 1 => do
    freelistDo cls fun fl => fl.push (bag + i * objSize)
    carve cls bag objSize (i + 1) n

def allocSmall (inst : Nat) (layout : Layout) (cls : Nat) : Prog allocI (Option Nat) := do
  let th ← act .thread
  let node := th.nodeId
  match ← freelistMut cls ThreadFreelist.pop with
  | some block => pure (some block)
  | none =>
    let heap ← act (.heap inst)
    match ← takeChain cls ⟨heap.handle.addr,node,cls⟩ with
    | some first =>
      let block ← refill cls first
      pure (some block)
    | none =>
      let region := heap.geom.nodeRegion node
      match ← onBump heap.handle.addr node cls (region.allocateBag (bagSizeForClass cls)) with
      | none => allocLarge P inst layout
      | some bag =>
        let objSize := sizeForClass cls
        carve cls bag objSize 0 (bagSizeForClass cls / objSize)
        let block ← popUnwrap cls
        pure (some block)

def alloc (inst : Nat) (layout : Layout) : Prog allocI (Option Nat) :=
  if smallLimit < layout.effective then
    allocLarge P inst layout
  else
    match sizeClassIndex layout.effective with
    | none => pure none
    | some cls => do
      if ← threadHeap inst then
        allocSmall P inst layout cls
      else
        allocLarge P inst layout

/-- The local branch: push, and drain when the cache limit is exceeded. -/
def deallocLocal (k : StackRef) (block : Nat) : Prog allocI Unit := do
  freelistDo k.cls fun fl => fl.push block
  let cacheLimit := maxThreadCache k.cls
  let fl ← freelist k.cls
  if cacheLimit < fl.count then
    match ← freelistMut k.cls fun fl => fl.drain (cacheLimit / 2) with
    | some (head, tail, _) => onStack k (TreiberStack.pushChain head tail)
    | none => pure ()
  else
    pure ()

/-- `dealloc` of a pointer inside node `originNode`'s region. -/
def deallocSmall (inst ptr : Nat) (heap : HeapRef) (originNode cls : Nat) : Prog allocI Unit := do
  let k : StackRef := ⟨heap.handle.addr,originNode,cls⟩
  if ← threadHeap inst then
    let th ← act .thread
    if originNode = th.nodeId then
      deallocLocal k ptr
    else
      onStack k (TreiberStack.push ptr)
  else
    onStack k (TreiberStack.push ptr)

def dealloc (inst ptr : Nat) (layout : Layout) : Prog allocI Unit :=
  if ptr = 0 then
    pure ()
  else if smallLimit < layout.effective then
    deallocLarge inst ptr
  else do
    let heap ← act (.heap inst)
    match heap.geom.nodeForPtr ptr with
    | none => deallocLarge inst ptr
    | some originNode =>
      match sizeClassIndex layout.effective with
      | none => pure ()
      | some cls => deallocSmall inst ptr heap originNode cls

def allocZeroed (inst : Nat) (layout : Layout) : Prog allocI (Option Nat) :=
  if smallLimit < layout.effective then do
    let (ptr, reused) ← allocLargeTracked P inst layout
    match ptr with
    | some p =>
      if reused then act (.writeBytes p layout.size)
      pure (some p)
    | none => pure none
  else do
    match ← alloc P inst layout with
    | some p =>
      act (.writeBytes p layout.size)
      pure (some p)
    | none => pure none

/-- Allocate, copy, deallocate. -/
def reallocMove (inst ptr : Nat) (oldLayout : Layout) (newSize : Nat) :
    Prog allocI (Option Nat) :=
  match oldLayout.resize newSize with
  | none => pure none
  | some newLayout => do
    match ← alloc P inst newLayout with
    | none => pure none
    | some newPtr =>
      act (.copy ptr newPtr (min oldLayout.size newSize))
      act .release
      dealloc inst ptr oldLayout
      pure (some newPtr)

def realloc (inst ptr : Nat) (oldLayout : Layout) (newSize : Nat) : Prog allocI (Option Nat) :=
  let newEffective := max newSize oldLayout.align
  if oldLayout.effective ≤ smallLimit ∧ newEffective ≤ smallLimit ∧
      (sizeClassIndex oldLayout.effective).isSome ∧
      sizeClassIndex oldLayout.effective = sizeClassIndex newEffective ∧ ptr ≠ 0 then do
    let heap ← act (.heap inst)
    if heap.geom.isOwned ptr then
      pure (some ptr)
    else
      reallocMove P inst ptr oldLayout newSize
  else
    reallocMove P inst ptr oldLayout newSize

/-! What callers may ask a thread to run. -/

inductive Request where
  | alloc (inst : Nat) (layout : Layout)
  | allocZeroed (inst : Nat) (layout : Layout)
  | dealloc (inst ptr : Nat) (layout : Layout)
  | realloc (inst ptr : Nat) (layout : Layout) (newSize : Nat)
  | exit
  | drop (inst : Nat)

/-- The TLS destructor marks the slot destroyed before it drops the contents. -/
def exitThread : Prog allocI Unit := do
  match ← act (.slotTake true) with
  | .alive th => dropThreadHeap th
  | _ => pure ()

/-- `NumaAlloc::drop`: the `OnceLock` drops the handle it was initialised with. -/
def dropInstance : Prog allocI Unit := do
  match ← act .takeHeap with
  | some h => dropHandle h
  | none => pure ()

/-- Hand a result to the caller. -/
def answer (layout : Layout) : Option Nat → Prog allocI Unit
  | some ptr => act (.give ptr layout)
  | none => pure ()

def Request.body : Request → Prog allocI Unit
  | .alloc inst layout => do answer layout (← Numalloc.alloc P inst layout)
  | .allocZeroed inst layout => do answer layout (← Numalloc.allocZeroed P inst layout)
  | .dealloc inst ptr layout => do
    act .release
    Numalloc.dealloc inst ptr layout
  | .realloc inst ptr layout newSize => do
    let result ← Numalloc.realloc P inst ptr layout newSize
    match layout.resize newSize with
    | some newLayout => answer newLayout result
    | none => pure ()
  | .exit => exitThread
  | .drop _ => dropInstance

def Request.code (request : Request) : Prog allocI Unit := do
  request.body P
  act .finish

end Numalloc
