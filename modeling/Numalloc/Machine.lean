import Numalloc.Concurrent.Links
import Numalloc.Allocator

/-! The shared state and what one action does to it. Fields marked as history are not
part of the program: they record who holds a block or a mapping, which bags were
carved for which class, and which link or header was written last. No answer of an
action depends on them. -/
namespace Numalloc

open Concurrent

/-- Who holds a small block. -/
inductive Holder where
  | user
  | thread (t : Nat)
  | stack (k : StackRef)
  deriving DecidableEq

/-- A block of a carved bag. -/
structure Slot where
  heap : Nat
  node : Nat
  cls : Nat
  holder : Holder
  deriving DecidableEq

def Slot.ref (s : Slot) : StackRef := ⟨s.heap,s.node,s.cls⟩

structure Bag where
  heap : Nat
  node : Nat
  cls : Nat
  addr : Nat
  deriving DecidableEq

/-- Whether `b` is one of the bag's objects. -/
def Bag.HasSlot (bag : Bag) (b : Nat) : Prop :=
  bag.addr ≤ b ∧ (b - bag.addr) % sizeForClass bag.cls = 0 ∧ b < bag.addr + bagSizeForClass bag.cls

instance (bag : Bag) (b : Nat) : Decidable (bag.HasSlot b) := inferInstanceAs (Decidable (_ ∧ _))

inductive MapHolder where
  | heap
  | user
  | thread (t : Nat)
  deriving DecidableEq

/-- What a mapping was made for, and through which allocator. -/
inductive Use where
  | heap (inst : Nat)
  | large (inst : Nat)
  deriving DecidableEq

/-- One `mmap`. `extent` is what is still mapped of it, `node` the last `mbind`,
`payload` the address behind the last header written into it. -/
structure Mapping where
  base : Nat
  size : Nat
  extent : List (Nat × Nat)
  use : Use
  node : Option Nat
  holder : MapHolder
  payload : Option Nat
  deriving DecidableEq

namespace Mapping

/-- A new anonymous mapping. -/
def fresh (base size : Nat) (use : Use) (holder : MapHolder) : Mapping :=
  ⟨base,size,[(base,base + size)],use,none,holder,none⟩

/-- What `munmap` leaves of the mapping. -/
def cut (ptr size : Nat) (m : Mapping) : Option Mapping :=
  let pieces := m.extent.flatMap fun (lo,hi) =>
    [(lo,min hi ptr),(max lo (ptr + size),hi)].filter fun (a,b) => a < b
  if pieces = [] then none else some { m with extent := pieces }

/-- Whether a mapped byte lies in the range. -/
def meets (ptr size : Nat) (m : Mapping) : Bool :=
  m.extent.any fun (lo,hi) => lo < ptr + size ∧ ptr < hi

/-- Forget the header when a write reaches it. -/
def scrub (a n : Nat) (m : Mapping) : Mapping :=
  match m.payload with
  | none => m
  | some p => if Apart (p - headerSize) headerSize a n then m else { m with payload := none }

end Mapping

inductive Source where
  | slot
  | mapping (id : Nat)
  | stray
  deriving DecidableEq

/-- An allocation the caller owns. `pin` is the thread whose operation it was passed to. -/
structure Alloc where
  ptr : Nat
  layout : Layout
  inst : Nat
  source : Source
  pin : Option Nat

/-- Whoever owns one reference to a shared heap. -/
inductive Ref where
  | inst (i : Nat)
  | slot (t : Nat)
  | op (t : Nat)
  deriving DecidableEq

/-- `SharedHeap` with the atomic cells of its nodes; `refs` is history. -/
structure SharedHeap where
  inst : Nat
  references : Nat
  heap : GlobalHeap
  bump : Nat → Nat
  head : Nat → Nat → Nat
  refs : List Ref

/-- A `NumaAlloc` value; moving it changes nothing here. -/
structure Instance where
  numNodes : Nat
  regionSize : Nat
  heap : Option HeapHandle
  nextNode : Nat

/-- The allocator an operation runs on, and its heap once the operation can name it. -/
structure Call where
  inst : Option Nat
  heap : Option HeapRef

structure State where
  mem : Bytes
  heaps : Nat → Option SharedHeap
  insts : Nat → Option Instance
  nextInst : Nat
  tls : Nat → ThreadHeapSlot
  maps : Nat → Option Mapping
  nextMap : Nat
  live : List Alloc
  /- history -/
  slots : Nat → Option Slot
  bags : List Bag
  lastLink : Nat → Option (Option Nat)
  unmaps : Nat → Nat
  call : Nat → Call
  hand : Nat → Option HeapHandle
  dying : Nat → Option Nat
  threads : List Nat

/-- How the nondeterminism of a step is resolved: a spurious failure or a refusal of
the kernel, the addresses the kernel and the system allocator pick, or the bytes an
`madvise` drops. -/
inductive Choice where
  | go
  | fail
  | addr (raw : Nat)
  | place (raw addr : Nat)
  | pages (dropped : Nat → Bool)

namespace State

/-- Replace the memory after a write to `[a, a + n)`. -/
def store (s : State) (a n : Nat) (mem : Bytes) : State :=
  { s with
    mem := mem
    lastLink := fun b => if Apart b 8 a n then s.lastLink b else none
    maps := fun id => (s.maps id).map (Mapping.scrub a n) }

def mmapOk (P : Platform) (s : State) (raw size : Nat) : Bool :=
  raw ≠ 0 ∧ raw % P.pageSize = 0 ∧ 0 < size ∧ raw + size ≤ 2 ^ 48 ∧
    ((List.range s.nextMap).all fun id => (s.maps id).all fun m => !m.meets raw size)

/-- A fresh mapping is zero-filled. -/
def addMapping (s : State) (m : Mapping) : State :=
  { s.store m.base m.size (fill s.mem m.base m.size 0) with
    maps := replace s.maps s.nextMap (some m)
    nextMap := s.nextMap + 1 }

def setHeap (s : State) (addr : Nat) (sh : SharedHeap) : State :=
  { s with heaps := replace s.heaps addr (some sh) }

/-- Move every block that satisfies `moved` to a holder. -/
def moveSlots (s : State) (moved : Nat → Slot → Bool) (holder : Holder) : State :=
  { s with slots := fun b => (s.slots b).map fun sl =>
      if moved b sl then { sl with holder := holder } else sl }

def moveMap (s : State) (id : Nat) (holder : MapHolder) : State :=
  { s with maps := replace s.maps id ((s.maps id).map fun m => { m with holder := holder }) }

/-- Number of blocks carved so far. -/
def slotCount (s : State) : Nat := (s.bags.map fun bag => objectsPerBag bag.cls).sum

def heldBy (s : State) (t b : Nat) : Bool :=
  match s.slots b with
  | some sl => sl.holder = .thread t
  | none => false

/-- The blocks of thread `t` chained from `first`. -/
def chained (s : State) (t first : Nat) : List Nat :=
  walk (s.heldBy t) s.lastLink s.slotCount (some first)

def decode (w : Nat) : Option Nat := if w = 0 then none else some w

def readNext (s : State) (b : Nat) : Option Nat := decode (readLE s.mem b 8)

def writeNext (s : State) (b : Nat) (next : Option Nat) : State :=
  let s' := s.store b 8 (writeLE s.mem b 8 (next.getD 0))
  { s' with lastLink := replace s'.lastLink b (some next) }

def writeHeader (s : State) (t place original size : Nat) : State :=
  let s' := s.store place headerSize
    (writeLE (writeLE s.mem place 8 original) (place + 8) 8 size)
  { s' with maps := fun id => (s'.maps id).map fun m =>
      if m.holder = .thread t ∧ m.base = original ∧ m.base ≤ place ∧
          place + headerSize ≤ m.base + m.size then
        { m with payload := some (place + headerSize) } else m }

/-- The mapping of thread `t` whose payload starts at `ptr`. -/
def payloadOf (s : State) (t ptr : Nat) : Option Nat :=
  (List.range s.nextMap).find? fun id => match s.maps id with
    | some m => m.holder = .thread t ∧ m.payload = some ptr
    | none => false

def pinned (s : State) (t : Nat) : Option Alloc := s.live.find? fun a => a.pin = some t

/-- The pinned allocation leaves the caller. -/
def release (s : State) (t : Nat) (a : Alloc) : State :=
  let s' := { s with live := s.live.filter fun b => b.pin ≠ some t }
  match a.source with
  | .slot => s'.moveSlots (fun b _ => b = a.ptr) (.thread t)
  | .mapping id => s'.moveMap id (.thread t)
  | .stray => s'

/-- The caller receives `ptr`: a new allocation, or the pinned one with a new layout. -/
def give (s : State) (t ptr : Nat) (layout : Layout) : State :=
  let inst := (s.call t).inst.getD 0
  if (s.pinned t).any fun a => a.ptr = ptr then
    { s with live := s.live.map fun a =>
        if a.pin = some t then { a with layout := layout, pin := none } else a }
  else if s.heldBy t ptr then
    { s.moveSlots (fun b _ => b = ptr) .user with
      live := ⟨ptr,layout,inst,.slot,none⟩ :: s.live }
  else
    match s.payloadOf t ptr with
    | some id => { s.moveMap id .user with live := ⟨ptr,layout,inst,.mapping id,none⟩ :: s.live }
    | none => { s with live := ⟨ptr,layout,inst,.stray,none⟩ :: s.live }

def setThread (s : State) (t : Nat) (th : PerThreadHeap) : State :=
  { s with tls := replace s.tls t (.alive th) }

/-- The last reference is gone: the blocks of the heap cease to exist and its mapping
is up for unmapping. -/
def retire (s : State) (t : Nat) (addr inst : Nat) : State :=
  { s with
    dying := replace s.dying t (some addr)
    slots := fun b => (s.slots b).filter fun sl => sl.heap ≠ addr
    bags := s.bags.filter fun bag => bag.heap ≠ addr
    maps := fun id => (s.maps id).map fun m =>
      if m.use = .heap inst then { m with holder := .thread t } else m }

end State

/-- Whether thread `t`, if it may cache the mapping behind `a`, is on the node the mapping
is bound to. -/
def homeward (s : State) (t : Nat) (a : Alloc) : Bool :=
  match a.source, s.tls t with
  | .mapping id, .alive th =>
    if ((s.insts a.inst).bind fun i => i.heap) = some th.globalHeap then
      (s.maps id).all fun m => maxLargeCacheBytes < m.size ∨ m.node = some th.nodeId
    else true
  | _, _ => true

/-- One action of thread `t`. With `strict`, mappings are only released on their own
node. A state without successor for an action is one where the process has ended. -/
def exec (P : Platform) (strict : Bool) (t : Nat) :
    (x : Act) → Choice → State → Option (x.Res × State)
  | .heap inst, ch, s => do
    let i ← s.insts inst
    match i.heap with
    | some h =>
      let sh ← s.heaps h.addr
      some (⟨h,sh.heap⟩, { s with call := replace s.call t ⟨some inst,some ⟨h,sh.heap⟩⟩ })
    | none =>
      let r ← GlobalHeap.reserve i.numNodes i.regionSize
      match ch with
      | .place raw addr =>
        if s.mmapOk P raw r.mapSize ∧ addr ≠ 0 ∧ (s.heaps addr).isNone then
          let h : HeapHandle := ⟨addr,inst⟩
          let g := GlobalHeap.place r raw
          let s := s.addMapping (.fresh raw r.mapSize (.heap inst) .heap)
          let s := s.setHeap addr ⟨inst,1,g,fun _ => 0,fun _ _ => 0,[.inst inst]⟩
          some (⟨h,g⟩, { s with
            insts := replace s.insts inst (some { i with heap := some h })
            call := replace s.call t ⟨some inst,some ⟨h,g⟩⟩ })
        else none
      | _ => none
  | .takeHeap, _, s => some (s.hand t, s)
  | .slotGet, _, s => some (s.tls t, s)
  | .slotTake destroy, _, s =>
    let rest : ThreadHeapSlot := if destroy then .destroyed else .empty
    match s.tls t with
    | .alive th => do
      let sh ← s.heaps th.globalHeap.addr
      let s := s.setHeap th.globalHeap.addr { sh with refs := .op t :: sh.refs.erase (.slot t) }
      some (.alive th, { s with
        tls := replace s.tls t rest
        hand := replace s.hand t (some th.globalHeap) })
    | old => some (old, { s with tls := replace s.tls t rest })
  | .slotSet th, _, s => do
    let sh ← s.heaps th.globalHeap.addr
    let s := s.setHeap th.globalHeap.addr { sh with refs := .slot t :: sh.refs.erase (.op t) }
    some ((), { s.setThread t th with hand := replace s.hand t none })
  | .thread, _, s =>
    match s.tls t with
    | .alive th => some (th, s)
    | _ => none
  | .setFreelist cls fl, _, s =>
    match s.tls t with
    | .alive th => some ((), s.setThread t { th with freelists := replace th.freelists cls fl })
    | _ => none
  | .setLargeCache cache, _, s =>
    match s.tls t with
    | .alive th => some ((), s.setThread t { th with largeCache := cache })
    | _ => none
  | .link (.readNext b), _, s => some (s.readNext b, s)
  | .link (.writeNext b next), _, s => some ((), s.writeNext b next)
  | .link .panic, _, _ => none
  | .loadHead k, _, s => do
    let sh ← s.heaps k.heap
    some (sh.head k.node k.cls, s)
  | .casHead k current new, ch, s => do
    let sh ← s.heaps k.heap
    match ch with
    | .fail => some (false, s)
    | _ =>
      if sh.head k.node k.cls = current then
        let s' := s.setHeap k.heap
          { sh with head := replace sh.head k.node (replace (sh.head k.node) k.cls new) }
        match (TreiberStack.unpack new).1 with
        | none => some (true, s'.moveSlots (fun _ sl => sl.holder = .stack k) (.thread t))
        | some first =>
          let pushed := s.chained t first
          some (true, s'.moveSlots (fun b _ => b ∈ pushed) (.stack k))
      else some (false, s)
  | .loadBump heap node, _, s => do
    let sh ← s.heaps heap
    some (sh.bump node, s)
  | .casBump heap node cls current new, ch, s => do
    let sh ← s.heaps heap
    match ch with
    | .fail => some (false, s)
    | _ =>
      if sh.bump node = current then
        let addr := (sh.heap.nodeRegion node).base + (new - bagSizeForClass cls)
        let bag : Bag := ⟨heap,node,cls,addr⟩
        some (true, { s.setHeap heap { sh with bump := replace sh.bump node new } with
          bags := bag :: s.bags
          slots := fun b => if bag.HasSlot b then some ⟨heap,node,cls,.thread t⟩ else s.slots b })
      else some (false, s)
  | .fetchAddNode inst, _, s => do
    let i ← s.insts inst
    some (i.nextNode, { s with
      insts := replace s.insts inst (some { i with nextNode := (i.nextNode + 1) % 2 ^ 64 }) })
  | .fetchAddRefs h, _, s => do
    let sh ← s.heaps h.addr
    some (sh.references, { s.setHeap h.addr
        { sh with references := sh.references + 1, refs := .op t :: sh.refs } with
      hand := replace s.hand t (some h) })
  | .fetchSubRefs h, _, s => do
    let sh ← s.heaps h.addr
    let s' := { s.setHeap h.addr
        { sh with references := sh.references - 1, refs := sh.refs.erase (.op t) } with
      hand := replace s.hand t none }
    some (sh.references, if sh.references = 1 then s'.retire t h.addr sh.inst else s')
  | .extent h, _, s => do
    let sh ← s.heaps h.addr
    some ((sh.heap.mapBase, sh.heap.mapSize), s)
  | .sysDealloc h, _, s =>
    some ((), { s with heaps := replace s.heaps h.addr none, dying := replace s.dying t none })
  | .mmap size, ch, s =>
    match ch with
    | .addr raw =>
      if s.mmapOk P raw size then
        some (some raw,
          s.addMapping (.fresh raw size (.large ((s.call t).inst.getD 0)) (.thread t)))
      else none
    | _ => some (none, s)
  | .munmap ptr size, _, s =>
    some ((), { s with
      maps := fun id => (s.maps id).bind (Mapping.cut ptr size)
      unmaps := fun id => if (s.maps id).any (Mapping.meets ptr size) then s.unmaps id + 1
        else s.unmaps id })
  | .bindToNode ptr size node, _, s =>
    some ((), { s with maps := fun id => (s.maps id).map fun m =>
      if m.base = ptr ∧ m.size = size then { m with node := some node } else m })
  | .madvise ptr size, ch, s =>
    let dropped := match ch with
      | .pages f => f
      | _ => fun _ => false
    let s' := s.store ptr size fun x =>
      if (ptr ≤ x ∧ x < ptr + size) ∧ dropped x then 0 else s.mem x
    some ((), s')
  | .writeHeader place original size, _, s => some ((), s.writeHeader t place original size)
  | .readHeader place, _, s => some ((readLE s.mem place 8, readLE s.mem (place + 8) 8), s)
  | .writeBytes ptr size, _, s => some ((), s.store ptr size (fill s.mem ptr size 0))
  | .copy src dst size, _, s => some ((), s.store dst size (copyBytes s.mem src dst size))
  | .release, _, s => do
    let a ← s.pinned t
    if strict ∧ !homeward s t a then none else some ((), s.release t a)
  | .give ptr layout, _, s => some ((), s.give t ptr layout)
  | .finish, _, s =>
    some ((), { s with
      call := replace s.call t ⟨none,none⟩
      live := s.live.map fun a => if a.pin = some t then { a with pin := none } else a })
  | .abort, _, _ => none

/-- Whether `a` is the allocation a caller may free with this pointer and layout. -/
def Alloc.Matches (a : Alloc) (inst ptr : Nat) (layout : Layout) : Prop :=
  a.ptr = ptr ∧ a.layout.size = layout.size ∧ a.layout.align = layout.align ∧ a.inst = inst ∧
    a.pin = none

instance (a : Alloc) (inst ptr : Nat) (layout : Layout) :
    Decidable (a.Matches inst ptr layout) := inferInstanceAs (Decidable (_ ∧ _))

/-- The machine of the allocator. -/
@[reducible] def machine (P : Platform) (strict : Bool) : Machine allocI :=
  ⟨State,Choice,exec P strict⟩

namespace State

def initial (mem : Bytes) : State where
  mem := mem
  heaps := fun _ => none
  insts := fun _ => none
  nextInst := 0
  tls := fun _ => .empty
  maps := fun _ => none
  nextMap := 0
  live := []
  slots := fun _ => none
  bags := []
  lastLink := fun _ => none
  unmaps := fun _ => 0
  call := fun _ => ⟨none,none⟩
  hand := fun _ => none
  dying := fun _ => none
  threads := []

/-- An operation on allocator `inst` begins; a heap that is already initialised is known. -/
def enter (s : State) (t inst : Nat) : Option State := do
  let i ← s.insts inst
  let ref := i.heap.bind fun h => (s.heaps h.addr).map fun sh => (⟨h,sh.heap⟩ : HeapRef)
  some { s with call := replace s.call t ⟨some inst,ref⟩, threads := t :: s.threads }

/-- The caller passes a live allocation to an operation of thread `t`. -/
def pin (s : State) (t inst ptr : Nat) (layout : Layout) : Option State :=
  if s.live.any fun a => a.Matches inst ptr layout then
    some { s with live := s.live.map fun a =>
      if a.Matches inst ptr layout then { a with pin := some t } else a }
  else none

/-- No operation on `inst` is in progress; the owner of the value could not drop it else. -/
def unused (s : State) (inst : Nat) : Bool := s.threads.all fun t => (s.call t).inst ≠ some inst

/-- Dropping the allocator value ends the life of its small allocations. -/
def abandon (s : State) (t inst : Nat) : Option State := do
  let i ← s.insts inst
  let s' := { s with
    insts := replace s.insts inst none
    live := s.live.filter fun a => ¬(a.inst = inst ∧ a.source = .slot) }
  if s.unused inst then
    match i.heap with
    | none => some s'
    | some h => do
      let sh ← s.heaps h.addr
      some { s'.setHeap h.addr { sh with refs := .op t :: sh.refs.erase (.inst inst) } with
        hand := replace s.hand t (some h) }
  else none

/-- What the callers' contract allows, and what is recorded, when thread `t` is asked
to run a request. -/
def start (s : State) (t : Nat) : Request → Option State
  | .alloc inst _ | .allocZeroed inst _ => s.enter t inst
  | .dealloc inst ptr layout => do (← s.enter t inst).pin t inst ptr layout
  | .realloc inst ptr layout _ => do (← s.enter t inst).pin t inst ptr layout
  | .exit => some s
  | .drop inst => s.abandon t inst

end State

/-- Threads run, callers start operations and write their own memory, and allocators
are created. -/
inductive Label where
  | step (t : Nat) (ch : Choice)
  | start (t : Nat) (request : Request)
  | write (addr : Nat) (value : UInt8)
  | create (numNodes regionSize : Nat)

abbrev World (P : Platform) (strict : Bool) := Config (machine P strict)

namespace World

variable {P : Platform} {strict : Bool}

def initial (mem : Bytes) : World P strict := ⟨.initial mem,fun _ => .ret ()⟩

/-- A caller may write any byte of an allocation it has not passed to an operation. -/
def writable (s : State) (addr : Nat) : Bool :=
  s.live.any fun a => a.pin = none ∧ a.ptr ≤ addr ∧ addr < a.ptr + a.layout.size

def advance (c : World P strict) : Label → Option (World P strict)
  | .step t ch => Config.advance t ch c
  | .start t request =>
    match c.prog t with
    | .ret _ => (c.state.start t request).map fun s => ⟨s,replace c.prog t (request.code P)⟩
    | _ => none
  | .write addr value =>
    if writable c.state addr then
      some { c with state := c.state.store addr 1 (fill c.state.mem addr 1 value) }
    else none
  | .create numNodes regionSize =>
    some { c with state := { c.state with
      insts := replace c.state.insts c.state.nextInst (some ⟨numNodes,regionSize,none,0⟩)
      nextInst := c.state.nextInst + 1 } }

def execute (c : World P strict) : List Label → Option (World P strict)
  | [] => some c
  | label :: rest => do (← c.advance label).execute rest

/-- Reached by some schedule from an empty process with arbitrary memory contents. -/
def Reachable (c : World P strict) : Prop :=
  ∃ mem schedule, (initial mem : World P strict).execute schedule = some c

end World

end Numalloc
