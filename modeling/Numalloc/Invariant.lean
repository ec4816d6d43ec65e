import Numalloc.View
import Mathlib.Data.List.Perm.Subperm

/-! The shared invariant: what holds between any two actions of any threads. It is
split by topic; each part mentions only the fields it speaks about, so an action
that leaves those fields alone leaves the part alone. -/
namespace Numalloc

open Concurrent

/-- Mappings are whole and disjoint; what left the table was unmapped exactly once. -/
structure MapInv (P : Platform) (maps : Nat → Option Mapping) (nextMap : Nat)
    (unmaps : Nat → Nat) : Prop where
  ok : ∀ {id m}, maps id = some m → MapOk P m
  fresh : ∀ {id}, nextMap ≤ id → maps id = none
  apart : ∀ {id id' m m'}, maps id = some m → maps id' = some m' → id ≠ id' →
    Apart m.base m.size m'.base m'.size
  present : ∀ {id}, maps id ≠ none → unmaps id = 0
  unborn : ∀ {id}, nextMap ≤ id → unmaps id = 0
  gone : ∀ {id}, id < nextMap → maps id = none → unmaps id = 1

theorem MapInv.old {P : Platform} {maps : Nat → Option Mapping} {nextMap id : Nat}
    {unmaps : Nat → Nat} {m : Mapping} (inv : MapInv P maps nextMap unmaps) (found : maps id = some m) :
    id < nextMap := by
  by_contra le
  simp [inv.fresh (Nat.le_of_not_lt le)] at found

/-- Heaps, the references to them, and the mapping behind each. -/
structure HeapInv (heaps : Nat → Option SharedHeap) (insts : Nat → Option Instance)
    (nextInst : Nat) (tls : Nat → ThreadHeapSlot) (hand : Nat → Option HeapHandle)
    (dying : Nat → Option Nat) (call : Nat → Call) (threads : List Nat)
    (maps : Nat → Option Mapping) : Prop where
  geom : ∀ {h sh}, heaps h = some sh → sh.heap.Valid
  count : ∀ {h sh}, heaps h = some sh → sh.references = sh.refs.length ∧ sh.refs.Nodup
  refInst : ∀ {h sh i}, heaps h = some sh →
    (Ref.inst i ∈ sh.refs ↔ ∃ I, insts i = some I ∧ I.heap = some ⟨h,i⟩)
  refSlot : ∀ {h sh t}, heaps h = some sh →
    (Ref.slot t ∈ sh.refs ↔ ∃ th, tls t = .alive th ∧ th.globalHeap.addr = h)
  refOp : ∀ {h sh t}, heaps h = some sh →
    (Ref.op t ∈ sh.refs ↔ ∃ x, hand t = some x ∧ x.addr = h)
  one : ∀ {h h' sh sh'}, heaps h = some sh → heaps h' = some sh' → sh.inst = sh'.inst → h = h'
  back : ∀ {h sh I}, heaps h = some sh → insts sh.inst = some I → I.heap = some ⟨h,sh.inst⟩
  instHeap : ∀ {i I x}, insts i = some I → I.heap = some x →
    x.inst = i ∧ ∃ sh, heaps x.addr = some sh ∧ sh.inst = i
  instFresh : ∀ {i}, nextInst ≤ i → insts i = none
  heapOld : ∀ {h sh}, heaps h = some sh → sh.inst < nextInst
  slotOk : ∀ {t th}, tls t = .alive th → ∃ sh, heaps th.globalHeap.addr = some sh ∧
    sh.inst = th.globalHeap.inst ∧ th.nodeId < sh.heap.numNodes
  handOk : ∀ {t x}, hand t = some x → ∃ sh, heaps x.addr = some sh ∧ sh.inst = x.inst
  callHeap : ∀ {t r}, (call t).heap = some r → ∃ i I sh, (call t).inst = some i ∧
    insts i = some I ∧ I.heap = some r.handle ∧ heaps r.handle.addr = some sh ∧ sh.heap = r.geom
  callInst : ∀ {t i}, (call t).inst = some i → (∃ I, insts i = some I) ∧ t ∈ threads
  dyingHeap : ∀ {t h}, dying t = some h → ∃ sh, heaps h = some sh ∧ sh.refs = []
  dyingOne : ∀ {t t' h}, dying t = some h → dying t' = some h → t = t'
  dead : ∀ {h sh}, heaps h = some sh → sh.refs = [] → ∃ t, dying t = some h
  mapLive : ∀ {h sh}, heaps h = some sh → sh.refs ≠ [] → ∃ id m, maps id = some m ∧
    m.use = .heap sh.inst ∧ m.holder = .heap ∧ m.base = sh.heap.mapBase ∧ m.size = sh.heap.mapSize
  mapHeap : ∀ {id m i}, maps id = some m → m.use = .heap i → ∃ h sh, heaps h = some sh ∧
    sh.inst = i ∧ m.base = sh.heap.mapBase ∧ m.size = sh.heap.mapSize ∧
    (sh.refs ≠ [] → m.holder = .heap) ∧ ∀ t, dying t = some h → m.holder = .thread t
  mapOne : ∀ {id id' m m' i}, maps id = some m → maps id' = some m' → m.use = .heap i →
    m'.use = .heap i → id = id'
  mapLarge : ∀ {id m i}, maps id = some m → m.use = .large i → m.holder ≠ .heap ∧ i < nextInst

/-- Blocks lie below the bump offset of their node, aligned and disjoint, and are
exactly the objects of the carved bags. -/
structure SlotInv (heaps : Nat → Option SharedHeap) (slots : Nat → Option Slot)
    (bags : List Bag) : Prop where
  ok : ∀ {b sl}, slots b = some sl → ∃ sh, heaps sl.heap = some sh ∧ sh.refs ≠ [] ∧
    sl.node < sh.heap.numNodes ∧ sl.cls < numSizeClasses ∧
    (sh.heap.nodeRegion sl.node).base ≤ b ∧
    b + sizeForClass sl.cls ≤ (sh.heap.nodeRegion sl.node).base + sh.bump sl.node ∧
    sizeForClass sl.cls ∣ b
  apart : ∀ {b b' sl sl'}, slots b = some sl → slots b' = some sl' → b ≠ b' →
    Apart b (sizeForClass sl.cls) b' (sizeForClass sl'.cls)
  bump : ∀ {h sh n}, heaps h = some sh → n < sh.heap.numNodes → sh.bump n ≤ sh.heap.regionSize
  bag : ∀ {bag b}, bag ∈ bags → bag.HasSlot b →
    ∃ hd, slots b = some ⟨bag.heap,bag.node,bag.cls,hd⟩
  bagOf : ∀ {b sl}, slots b = some sl → ∃ bag ∈ bags, bag.HasSlot b ∧
    bag.heap = sl.heap ∧ bag.node = sl.node ∧ bag.cls = sl.cls
  bagCls : ∀ {bag}, bag ∈ bags → bag.cls < numSizeClasses

/-- The chain from a head word spells exactly the blocks its stack holds. -/
structure StackInv (heaps : Nat → Option SharedHeap) (slots : Nat → Option Slot)
    (lastLink : Nat → Option (Option Nat)) : Prop where
  chain : ∀ {h sh n c}, heaps h = some sh → sh.refs ≠ [] → n < sh.heap.numNodes →
    c < numSizeClasses → ∃ l, Links lastLink (TreiberStack.unpack (sh.head n c)).1 l none ∧
      l.Nodup ∧ ∀ b, b ∈ l ↔ ∃ sl, slots b = some sl ∧ sl.holder = .stack ⟨h,n,c⟩
  ref : ∀ {b sl k}, slots b = some sl → sl.holder = .stack k → sl.ref = k

/-- Recorded links and headers are what memory holds. -/
structure MemInv (mem : Bytes) (lastLink : Nat → Option (Option Nat))
    (maps : Nat → Option Mapping) : Prop where
  link : ∀ {b n}, lastLink b = some n → readLE mem b 8 = n.getD 0 ∧ ∀ a, n = some a → UserAddr a
  header : ∀ {id m p}, maps id = some m → m.payload = some p → (∃ i, m.use = .large i) ∧
    m.base + headerSize ≤ p ∧
    p < m.base + m.size ∧ readLE mem (p - headerSize) 8 = m.base ∧
    readLE mem (p - headerSize + 8) 8 = m.size

/-- What identifies the storage of an allocation. -/
def Alloc.key (a : Alloc) : Source × Nat :=
  match a.source with
  | .slot => (.slot,a.ptr)
  | other => (other,0)

/-- The storage of a live allocation. -/
def Backed (P : Platform) (slots : Nat → Option Slot) (maps : Nat → Option Mapping)
    (insts : Nat → Option Instance) (a : Alloc) : Prop :=
  match a.source with
  | .slot => ∃ sl I x, slots a.ptr = some sl ∧ sl.holder = .user ∧
      sizeClassIndex a.layout.effective = some sl.cls ∧ insts a.inst = some I ∧
      I.heap = some x ∧ x.addr = sl.heap
  | .mapping id => ∃ m, maps id = some m ∧ m.holder = .user ∧ m.use = .large a.inst ∧
      m.payload = some a.ptr ∧ Placed P m a.ptr a.layout
  | .stray => False

/-- Only the caller's own blocks and mappings back its allocations. -/
theorem Backed.mono {P : Platform} {slots slots' : Nat → Option Slot}
    {maps maps' : Nat → Option Mapping} {insts insts' : Nat → Option Instance} {a : Alloc}
    (backed : Backed P slots maps insts a)
    (slot : ∀ {sl I x}, slots a.ptr = some sl → sl.holder = .user → insts a.inst = some I →
      I.heap = some x → x.addr = sl.heap → slots' a.ptr = some sl)
    (map : ∀ {id m}, maps id = some m → m.holder = .user → m.payload = some a.ptr →
      maps' id = some m)
    (inst : ∀ {I x}, insts a.inst = some I → I.heap = some x →
      ∃ I', insts' a.inst = some I' ∧ I'.heap = some x) : Backed P slots' maps' insts' a := by
  unfold Backed at backed ⊢
  cases source : a.source with
  | slot =>
    simp only [source] at backed ⊢
    obtain ⟨sl,I,x,found,user,cls,hi,hx,addr⟩ := backed
    obtain ⟨I',hi',hx'⟩ := inst hi hx
    exact ⟨sl,I',x,slot found user hi hx addr,user,cls,hi',hx',addr⟩
  | mapping id =>
    simp only [source] at backed ⊢
    obtain ⟨m,found,user,use,payload,placed⟩ := backed
    exact ⟨m,map found user payload,user,use,payload,placed⟩
  | stray => simp only [source] at backed

structure LiveInv (P : Platform) (live : List Alloc) (slots : Nat → Option Slot)
    (maps : Nat → Option Mapping) (insts : Nat → Option Instance) (call : Nat → Call) : Prop where
  backed : ∀ {a}, a ∈ live → Backed P slots maps insts a
  distinct : live.Pairwise fun a a' => a.key ≠ a'.key
  ofSlot : ∀ {b sl i I x}, slots b = some sl → sl.holder = .user → insts i = some I →
    I.heap = some x → x.addr = sl.heap → ∃ a ∈ live, a.source = .slot ∧ a.ptr = b
  ofMap : ∀ {id m}, maps id = some m → m.holder = .user → ∃ a ∈ live, a.source = .mapping id
  pin : ∀ {a t}, a ∈ live → a.pin = some t → (call t).inst = some a.inst ∧
    (a.source = .slot → ∃ r, (call t).heap = some r)
  pinOne : ∀ {a a' t}, a ∈ live → a' ∈ live → a.pin = some t → a'.pin = some t → a = a'

structure Inv (P : Platform) (s : State) : Prop where
  maps : MapInv P s.maps s.nextMap s.unmaps
  heaps : HeapInv s.heaps s.insts s.nextInst s.tls s.hand s.dying s.call s.threads s.maps
  slots : SlotInv s.heaps s.slots s.bags
  nodes : StackInv s.heaps s.slots s.lastLink
  mem : MemInv s.mem s.lastLink s.maps
  live : LiveInv P s.live s.slots s.maps s.insts s.call

/-! Geometry that follows. -/

variable {P : Platform} {s : State}

/-- A block lies in its node's region, inside the mapping of its heap. -/
theorem Inv.slot_region (inv : Inv P s) {b : Nat} {sl : Slot} (h : s.slots b = some sl) :
    ∃ sh, s.heaps sl.heap = some sh ∧ sh.refs ≠ [] ∧ sl.node < sh.heap.numNodes ∧
      sl.cls < numSizeClasses ∧ sh.heap.base + sl.node * sh.heap.regionSize ≤ b ∧
      b + sizeForClass sl.cls ≤
        sh.heap.base + sl.node * sh.heap.regionSize + sh.heap.regionSize := by
  obtain ⟨sh,heap,refs,node,cls,low,high,_⟩ := inv.slots.ok h
  have bump := inv.slots.bump heap node
  rw [(inv.heaps.geom heap).node _ node] at low high
  exact ⟨sh,heap,refs,node,cls,low,by simp only at high; omega⟩

theorem Inv.slot_mapping (inv : Inv P s) {b : Nat} {sl : Slot} (h : s.slots b = some sl) :
    ∃ id m i, s.maps id = some m ∧ m.use = .heap i ∧ m.holder = .heap ∧ m.base ≤ b ∧
      b + sizeForClass sl.cls ≤ m.base + m.size := by
  obtain ⟨sh,heap,refs,node,_,low,high⟩ := inv.slot_region h
  obtain ⟨id,m,found,use,holder,base,size⟩ := inv.heaps.mapLive heap refs
  have valid := inv.heaps.geom heap
  have := valid.node_upper node
  have := valid.lower
  have := valid.upper
  exact ⟨id,m,_,found,use,holder,by omega,by omega⟩

theorem Inv.slot_user_addr (inv : Inv P s) {b : Nat} {sl : Slot} (h : s.slots b = some sl) :
    UserAddr b := by
  obtain ⟨id,m,_,found,_,_,low,high⟩ := inv.slot_mapping h
  obtain ⟨sh,_,_,_,cls,_,_⟩ := inv.slot_region h
  have ok := inv.maps.ok found
  have := ok.base_pos
  have := ok.bound
  have := sizeForClass_pos cls
  exact ⟨by omega,by omega⟩

/-- Blocks and large mappings never meet. -/
theorem Inv.slot_apart_map (inv : Inv P s) {b id : Nat} {sl : Slot} {m : Mapping}
    (h : s.slots b = some sl) (found : s.maps id = some m) (other : m.holder ≠ .heap) :
    Apart b (sizeForClass sl.cls) m.base m.size := by
  obtain ⟨id',m',_,found',_,holder,low,high⟩ := inv.slot_mapping h
  have ne : id' ≠ id := by
    rintro rfl
    exact other (Option.some.inj (found.symm.trans found') ▸ holder)
  exact Apart.mono (inv.maps.apart found' found ne) low high le_rfl le_rfl

/-- The link word of a block is inside the block. -/
theorem Inv.slot_eight (inv : Inv P s) {b : Nat} {sl : Slot} (h : s.slots b = some sl) :
    8 ≤ sizeForClass sl.cls := by
  obtain ⟨_,_,_,_,cls,_⟩ := inv.slot_region h
  exact eight_le_sizeForClass cls

/-- Link words of different blocks do not meet. -/
theorem Inv.links_apart (inv : Inv P s) {b b' : Nat} {sl sl' : Slot} (h : s.slots b = some sl)
    (h' : s.slots b' = some sl') (ne : b ≠ b') : Apart b 8 b' 8 := by
  have := inv.slot_eight h
  have := inv.slot_eight h'
  exact Apart.mono (inv.slots.apart h h' ne) le_rfl (by omega) le_rfl (by omega)

/-- The objects of a bag, in order. -/
def Bag.objects (bag : Bag) : List Nat :=
  (List.range (objectsPerBag bag.cls)).map fun i => bag.addr + i * sizeForClass bag.cls

theorem Bag.mem_objects {bag : Bag} {b : Nat} (cls : bag.cls < numSizeClasses) :
    b ∈ bag.objects ↔ bag.HasSlot b := by
  have pos := sizeForClass_pos cls
  have full := objectsPerBag_mul cls
  simp only [objects,List.mem_map,List.mem_range,HasSlot]
  constructor
  · rintro ⟨i,hi,rfl⟩
    have step := Nat.mul_le_mul_right (sizeForClass bag.cls) (Nat.succ_le_of_lt hi)
    rw [Nat.succ_mul,full] at step
    exact ⟨Nat.le_add_right _ _,by simp,by omega⟩
  · rintro ⟨low,multiple,high⟩
    refine ⟨(b - bag.addr) / sizeForClass bag.cls,?_,?_⟩
    · rw [Nat.div_lt_iff_lt_mul pos,full]
      omega
    · rw [Nat.div_mul_cancel (Nat.dvd_of_mod_eq_zero multiple)]
      omega

/-- Distinct blocks are no more than the bags hold. -/
theorem Inv.nodup_length (inv : Inv P s) {l : List Nat} (nodup : l.Nodup)
    (slots : ∀ b ∈ l, ∃ sl, s.slots b = some sl) : l.length ≤ s.slotCount := by
  have sub : l ⊆ s.bags.flatMap Bag.objects := by
    intro b hb
    obtain ⟨sl,h⟩ := slots b hb
    obtain ⟨bag,mem,has,_⟩ := inv.slots.bagOf h
    exact List.mem_flatMap.mpr ⟨bag,mem,(Bag.mem_objects (inv.slots.bagCls mem)).mpr has⟩
  have le := (List.subperm_of_subset nodup sub).length_le
  have total : (s.bags.flatMap Bag.objects).length = s.slotCount := by
    simp [State.slotCount,List.length_flatMap,Bag.objects]
  omega

end Numalloc
