import Numalloc.Machine

/-! What one thread can rely on. The view of a thread shows its own thread-local slot,
the blocks and mappings it holds, and the allocation passed to its operation; other
threads and callers cannot change any of it. `allocLogic` states what each action
requires of the view and what it makes of it. -/
namespace Numalloc

open Concurrent

/-- A block held by the thread, with the link it last wrote there. -/
structure Block where
  ref : StackRef
  link : Option (Option Nat)

@[ext] structure View where
  slot : ThreadHeapSlot
  call : Call
  hand : Option HeapHandle
  dying : Option Nat
  pin : Option Alloc
  blocks : Nat → Option Block
  maps : Nat → Option Mapping

namespace State

def blockOf (s : State) (t b : Nat) : Option Block :=
  match s.slots b with
  | some sl => if sl.holder = .thread t then some ⟨sl.ref,s.lastLink b⟩ else none
  | none => none

def mapOf (s : State) (t id : Nat) : Option Mapping :=
  match s.maps id with
  | some m => if m.holder = .thread t then some m else none
  | none => none

def view (t : Nat) (s : State) : View where
  slot := s.tls t
  call := s.call t
  hand := s.hand t
  dying := s.dying t
  pin := s.pinned t
  blocks := s.blockOf t
  maps := s.mapOf t

end State

/-- A word a block address can be written as. -/
def UserAddr (a : Nat) : Prop := 0 < a ∧ a < 2 ^ 48

structure MapOk (P : Platform) (m : Mapping) : Prop where
  base_pos : 0 < m.base
  size_pos : 0 < m.size
  bound : m.base + m.size ≤ 2 ^ 48
  page : P.pageSize ∣ m.base
  whole : m.extent = [(m.base,m.base + m.size)]

/-- The mapping is large enough for the layout, by at most the tolerated slack, and
the payload sits in it behind a header. -/
structure Placed (P : Platform) (m : Mapping) (ptr : Nat) (layout : Layout) : Prop where
  fits : ∃ needed, largeAllocSize P layout = some needed ∧ needed ≤ m.size ∧
    m.size ≤ needed + LargeCache.closeSizeTolerance
  header : m.base + headerSize ≤ ptr
  inside : ptr < m.base + m.size
  room : ptr + layout.size ≤ m.base + m.size
  aligned : layout.align ∣ ptr

namespace View

def link (v : View) (b : Nat) : Option (Option Nat) := (v.blocks b).bind Block.link

def ref (v : View) (b : Nat) : Option StackRef := (v.blocks b).map Block.ref

/-- The thread keeps the heap at this address alive: through the allocator its
operation runs on, through its cache, or through a handle in its hands. -/
def Keeps (v : View) (addr : Nat) : Prop :=
  (∃ r, v.call.heap = some r ∧ r.handle.addr = addr) ∨
  (∃ th, v.slot = .alive th ∧ th.globalHeap.addr = addr) ∨
  (∃ h, v.hand = some h ∧ h.addr = addr)

/-- A thread's blocks belong to heaps it keeps alive. -/
def Rooted (v : View) : Prop := ∀ b B, v.blocks b = some B → v.Keeps B.ref.heap

/-- The thread has a cache for the allocator its operation runs on. -/
def Present (v : View) (th : PerThreadHeap) (r : HeapRef) : Prop :=
  v.slot = .alive th ∧ v.call.heap = some r ∧ th.globalHeap = r.handle

def setLink (v : View) (b : Nat) (link : Option (Option Nat)) : View :=
  { v with blocks := replace v.blocks b ((v.blocks b).map fun B => { B with link := link }) }

/-- The view after blocks left the thread. -/
def without (v : View) (gone : List Nat) : View :=
  { v with blocks := fun b => if b ∈ gone then none else v.blocks b }

def setMap (v : View) (id : Nat) (m : Option Mapping) : View :=
  { v with maps := replace v.maps id m }

/-- The mapping of this view that starts at `base`. -/
structure MapAt (v : View) (base id : Nat) (m : Mapping) : Prop where
  held : v.maps id = some m
  starts : m.base = base
  only : ∀ id' m', v.maps id' = some m' → m'.base = base → id' = id

/-- A chain of blocks of one stack, ready to be published in front of `next`. -/
structure Chain (v : View) (k : StackRef) (first : Nat) (l : List Nat) (next : Option Nat) :
    Prop where
  nonempty : l ≠ []
  nodup : l.Nodup
  links : Links v.link (some first) l next
  ref : ∀ b ∈ l, v.ref b = some k

/-- The view gained the blocks of a detached stack. -/
structure Gained (v v' : View) (k : StackRef) (head : Option Nat) (l : List Nat) : Prop where
  links : Links v'.link head l none
  nodup : l.Nodup
  foreign : ∀ b ∈ l, v.blocks b = none
  ref : ∀ b ∈ l, v'.ref b = some k
  user : ∀ b ∈ l, UserAddr b
  same : v' = { v with blocks := v'.blocks }
  frame : ∀ b, b ∉ l → v'.blocks b = v.blocks b

/-- Bytes the thread may overwrite: inside a block it holds, or behind the header of a
mapping it holds. -/
def Writable (v : View) (ptr size : Nat) : Prop :=
  (∃ b B, v.blocks b = some B ∧ b ≤ ptr ∧ ptr + size ≤ b + sizeForClass B.ref.cls) ∨
  (∃ id m p, v.maps id = some m ∧ m.payload = some p ∧ p ≤ ptr ∧ ptr + size ≤ m.base + m.size)

/-- Such a write can only lose the link of the block it is in. -/
def Overwritten (v v' : View) (ptr size : Nat) : Prop :=
  (∀ b B, v.blocks b = some B → b ≤ ptr → ptr + size ≤ b + sizeForClass B.ref.cls →
    ∃ link, v' = v.setLink b link) ∧
  (∀ id m p, v.maps id = some m → m.payload = some p → p ≤ ptr →
    ptr + size ≤ m.base + m.size → v' = v)

/-- `dealloc` sees a small allocation: the block's node and class are what the pointer
and the layout say. -/
def TakesSlot (v v' : View) (a : Alloc) : Prop :=
  ∃ r n c link, v.call.heap = some r ∧ r.geom.nodeForPtr a.ptr = some n ∧
    sizeClassIndex a.layout.effective = some c ∧ v.blocks a.ptr = none ∧ UserAddr a.ptr ∧
    v' = { v with pin := none, blocks := replace v.blocks a.ptr (some ⟨⟨r.handle.addr,n,c⟩,link⟩) }

/-- `dealloc` sees a mapping whose header is in front of the pointer. -/
def TakesMap (P : Platform) (strict : Bool) (v v' : View) (a : Alloc) (id : Nat) : Prop :=
  ∃ m, v.maps id = none ∧ MapOk P m ∧ m.payload = some a.ptr ∧ m.use = .large a.inst ∧
    Placed P m a.ptr a.layout ∧ 0 < a.ptr ∧
    (strict = true → ∀ th, v.slot = .alive th → th.globalHeap.inst = a.inst →
      maxLargeCacheBytes < m.size ∨ m.node = some th.nodeId) ∧
    v' = { v with pin := none, maps := replace v.maps id (some m) }

/-- What an allocation may hand out. -/
def GivesBlock (v : View) (ptr : Nat) (layout : Layout) : Prop :=
  ∃ B th r, v.blocks ptr = some B ∧ v.Present th r ∧
    B.ref.heap = r.handle.addr ∧ B.ref.node = th.nodeId ∧
    sizeClassIndex layout.effective = some B.ref.cls

def GivesMap (P : Platform) (strict : Bool) (v : View) (ptr : Nat) (layout : Layout) : Prop :=
  ∃ id m inst, v.maps id = some m ∧ m.payload = some ptr ∧ v.call.inst = some inst ∧
    m.use = .large inst ∧ Placed P m ptr layout ∧
    (strict = true → ∀ th, v.slot = .alive th → m.node = some th.nodeId)

/-- The operation returns the very allocation it was given, within its class. -/
def KeepsPinned (v : View) (ptr : Nat) (layout : Layout) : Prop :=
  ∃ a, v.pin = some a ∧ a.ptr = ptr ∧ a.source = .slot ∧
    sizeClassIndex layout.effective = sizeClassIndex a.layout.effective

end View

open View

variable (P : Platform) (strict : Bool)

/-- What an action requires. -/
def safe : Act → View → Prop
  | .heap inst, v => v.call.inst = some inst
  | .takeHeap, _ => True
  | .slotGet, _ => True
  | .slotTake _, v => v.hand = none
  | .slotSet th, v => ∃ r, v.call.heap = some r ∧ th.globalHeap = r.handle ∧
      v.hand = some th.globalHeap ∧ th.nodeId < r.geom.numNodes ∧ (∀ old, v.slot ≠ .alive old) ∧
      (∀ b B, v.blocks b = some B → B.ref.heap = th.globalHeap.addr) ∧
      ∀ id m, v.maps id = some m → m.use = .large th.globalHeap.inst
  | .thread, v => ∃ th r, v.Present th r
  | .setFreelist _ _, v => ∃ th r, v.Present th r
  | .setLargeCache _, v => ∃ th r, v.Present th r
  | .link (.readNext b), v => ∃ n, v.link b = some n
  | .link (.writeNext b next), v => (∃ B, v.blocks b = some B) ∧ ∀ a, next = some a → UserAddr a
  | .link .panic, _ => False
  | .loadHead k, v => v.Keeps k.heap
  | .casHead k current new, v => v.Keeps k.heap ∧
      match (TreiberStack.unpack new).1 with
      | none => ∃ r, v.call.heap = some r ∧ r.handle.addr = k.heap ∧
          k.node < r.geom.numNodes ∧ k.cls < numSizeClasses
      | some first => ∃ l, v.Chain k first l (TreiberStack.unpack current).1
  | .loadBump heap _, v => v.Keeps heap
  | .casBump heap node cls current new, v => ∃ r aligned, v.call.heap = some r ∧
      r.handle.addr = heap ∧ node < r.geom.numNodes ∧ cls < numSizeClasses ∧
      (r.geom.nodeRegion node).nextBag (bagSizeForClass cls) current = some (aligned,new)
  | .fetchAddNode inst, v => v.call.inst = some inst
  | .fetchAddRefs h, v => v.hand = none ∧ ∃ r, v.call.heap = some r ∧ r.handle = h
  | .fetchSubRefs h, v => v.hand = some h ∧ v.dying = none ∧
      ∀ b B, v.blocks b = some B → B.ref.heap = h.addr → ({ v with hand := none } : View).Keeps h.addr
  | .extent h, v => v.dying = some h.addr
  | .sysDealloc h, v => v.dying = some h.addr ∧
      ∀ id m i, v.maps id = some m → m.use ≠ .heap i
  | .mmap _, v => ∃ inst, v.call.inst = some inst
  | .munmap ptr size, v => ∃ id m, v.maps id = some m ∧ m.base = ptr ∧ m.size = size
  | .bindToNode ptr size _, v => ∃ id m, v.maps id = some m ∧ m.base = ptr ∧ m.size = size
  | .madvise ptr size, v => ∃ id m, v.maps id = some m ∧ m.base = ptr ∧ m.size = size
  | .writeHeader place original size, v => ∃ id m, v.maps id = some m ∧ m.base = original ∧
      m.size = size ∧ (∃ i, m.use = .large i) ∧ m.base ≤ place ∧
      place + headerSize < m.base + m.size
  | .readHeader place, v => ∃ id m, v.maps id = some m ∧ m.payload = some (place + headerSize)
  | .writeBytes ptr size, v => v.Writable ptr size
  | .copy _ dst size, v => v.Writable dst size
  | .release, v => ∃ a, v.pin = some a
  | .give ptr layout, v =>
      v.KeepsPinned ptr layout ∨ (v.pin = none ∧ v.GivesBlock ptr layout) ∨
      (v.pin = none ∧ v.GivesMap P strict ptr layout)
  | .finish, v => v.hand = none ∧ v.dying = none
  | .abort, _ => True

/-- What an action may answer and make of the view. -/
def step : (x : Act) → View → x.Res → View → Prop
  | .heap inst, v, r, v' => v' = { v with call := ⟨some inst,some r⟩ } ∧
      (∀ r₀, v.call.heap = some r₀ → r = r₀) ∧ r.geom.Valid ∧ r.handle.inst = inst ∧
      (∀ th, v.slot = .alive th → th.globalHeap.addr = r.handle.addr → th.globalHeap = r.handle) ∧
      (∀ id m i p, v.maps id = some m → m.use = .large i → m.base ≤ p → p < m.base + m.size →
        r.geom.nodeForPtr p = none) ∧
      (∀ a, v.pin = some a → a.source ≠ .slot → r.geom.nodeForPtr a.ptr = none)
  | .takeHeap, v, r, v' => r = v.hand ∧ v' = v
  | .slotGet, v, r, v' => r = v.slot ∧ v' = v
  | .slotTake destroy, v, r, v' => r = v.slot ∧
      v' = { v with
        slot := if destroy then .destroyed else .empty
        hand := match v.slot with
          | .alive th => some th.globalHeap
          | _ => none }
  | .slotSet th, v, _, v' => v' = { v with slot := .alive th, hand := none }
  | .thread, v, th, v' => v' = v ∧ v.slot = .alive th ∧
      ∀ r, v.Present th r → th.nodeId < r.geom.numNodes
  | .setFreelist cls fl, v, _, v' => ∃ th, v.slot = .alive th ∧
      v' = { v with slot := .alive { th with freelists := replace th.freelists cls fl } }
  | .setLargeCache cache, v, _, v' => ∃ th, v.slot = .alive th ∧
      v' = { v with slot := .alive { th with largeCache := cache } }
  | .link (.readNext b), v, r, v' => v' = v ∧ v.link b = some r
  | .link (.writeNext b next), v, _, v' => v' = v.setLink b (some next)
  | .link .panic, _, _, _ => False
  | .loadHead _, v, _, v' => v' = v
  | .casHead k current new, v, r, v' =>
      if r then
        match (TreiberStack.unpack new).1 with
        | none => ∃ l, v.Gained v' k (TreiberStack.unpack current).1 l
        | some first => ∀ l, v.Chain k first l (TreiberStack.unpack current).1 → v' = v.without l
      else v' = v
  | .loadBump _ _, v, _, v' => v' = v
  | .casBump heap node cls _ new, v, r, v' =>
      if r then ∃ ref addr blocks, v.call.heap = some ref ∧
        addr = (ref.geom.nodeRegion node).base + (new - bagSizeForClass cls) ∧
        v' = { v with blocks := blocks } ∧
        (∀ b, (⟨heap,node,cls,addr⟩ : Bag).HasSlot b →
          v.blocks b = none ∧ UserAddr b ∧ (blocks b).map Block.ref = some ⟨heap,node,cls⟩) ∧
        (∀ b, ¬(⟨heap,node,cls,addr⟩ : Bag).HasSlot b → blocks b = v.blocks b)
      else v' = v
  | .fetchAddNode _, v, _, v' => v' = v
  | .fetchAddRefs h, v, _, v' => v' = { v with hand := some h }
  | .fetchSubRefs h, v, r, v' =>
      if r = 1 then (∀ b B, v.blocks b = some B → B.ref.heap ≠ h.addr) ∧
        ∃ id m, v.maps id = none ∧ MapOk P m ∧ m.use = .heap h.inst ∧
          v' = { v with hand := none, dying := some h.addr, maps := replace v.maps id (some m) }
      else v' = { v with hand := none }
  | .extent h, v, r, v' => v' = v ∧
      ∀ id m, v.maps id = some m → m.use = .heap h.inst → m.base = r.1 ∧ m.size = r.2
  | .sysDealloc _, v, _, v' => v' = { v with dying := none }
  | .mmap size, v, r, v' =>
      match r with
      | none => v' = v
      | some raw => ∃ id m inst, v.call.inst = some inst ∧ v.maps id = none ∧ MapOk P m ∧
          m.base = raw ∧ m.size = size ∧ m.use = .large inst ∧ v' = v.setMap id (some m)
  | .munmap ptr size, v, _, v' => ∃ id m, v.MapAt ptr id m ∧ m.size = size ∧
      v' = v.setMap id none
  | .bindToNode ptr size node, v, _, v' => ∃ id m, v.MapAt ptr id m ∧ m.size = size ∧
      v' = v.setMap id (some { m with node := some node })
  | .madvise ptr size, v, _, v' => ∃ id m payload, v.MapAt ptr id m ∧ m.size = size ∧
      v' = v.setMap id (some { m with payload := payload })
  | .writeHeader place original size, v, _, v' => ∃ id m, v.MapAt original id m ∧
      m.size = size ∧ v' = v.setMap id (some { m with payload := some (place + headerSize) })
  | .readHeader place, v, r, v' => v' = v ∧ ∀ id m, v.maps id = some m →
      m.payload = some (place + headerSize) → r = (m.base,m.size)
  | .writeBytes ptr size, v, _, v' => v.Overwritten v' ptr size
  | .copy _ dst size, v, _, v' => v.Overwritten v' dst size
  | .release, v, _, v' => ∃ a, v.pin = some a ∧
      match a.source with
      | .slot => v.TakesSlot v' a
      | .mapping id => v.TakesMap P strict v' a id
      | .stray => False
  | .give ptr layout, v, _, v' =>
      (v.KeepsPinned ptr layout → v' = { v with pin := none }) ∧
      (v.pin = none → ∀ B, v.blocks ptr = some B → v' = v.without [ptr]) ∧
      (v.pin = none → ∀ id m, v.maps id = some m → m.payload = some ptr → v' = v.setMap id none)
  | .finish, v, _, v' => v' = { v with call := ⟨none,none⟩, pin := none }
  | .abort, _, _, _ => False

end Numalloc
