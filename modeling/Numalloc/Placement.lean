import Numalloc.Partition

/-! Small blocks stay on their node: wherever a free block is kept, it lies in the region
of the node it is kept for, in a bag carved for the class it is kept under. -/
namespace Numalloc

open Concurrent View

/-- The block lies in the region of the node, in a bag carved there for the class. -/
structure Native (s : State) (sh : SharedHeap) (k : StackRef) (b : Nat) : Prop where
  region : sh.heap.nodeForPtr b = some k.node
  bag : ∃ bag ∈ s.bags, bag.heap = k.heap ∧ bag.node = k.node ∧ bag.cls = k.cls ∧ bag.HasSlot b

variable {P : Platform} {strict : Bool} {s : State} {c : World P strict} {t b : Nat}

theorem Inv.native (inv : Inv P s) {sl : Slot} (found : s.slots b = some sl) {sh : SharedHeap}
    (heap : s.heaps sl.heap = some sh) : Native s sh sl.ref b := by
  obtain ⟨sh',heap',_,node,small,low,high⟩ := inv.slot_region found
  obtain rfl := Option.some.inj (heap.symm.trans heap')
  obtain ⟨bag,mem,has,eqs⟩ := inv.slots.bagOf found
  have pos := sizeForClass_pos small
  have region : sh.heap.nodeForPtr b = some sl.node :=
    (inv.heaps.geom heap).nodeForPtr_mem node low (by omega)
  exact ⟨region,bag,mem,eqs.1,eqs.2.1,eqs.2.2,has⟩

/-- A block of a node's stack, or of a list of a thread assigned to it, is native there. -/
structure AtHome (s : State) : Prop where
  nodes : ∀ {h sh node cls l b}, s.heaps h = some sh → sh.references ≠ 0 →
    node < sh.heap.numNodes → cls < numSizeClasses →
    s.Spells (TreiberStack.unpack (sh.head node cls)).1 l → b ∈ l → Native s sh ⟨h,node,cls⟩ b
  lists : ∀ {t th cls l b}, s.tls t = .alive th →
    s.Spells (th.freelists cls).head l ∨ s.Spells (th.freelists cls).spare l → b ∈ l →
    ∃ sh, s.heaps th.globalHeap.addr = some sh ∧ Native s sh ⟨th.globalHeap.addr,th.nodeId,cls⟩ b

/-- What thread `t` is about to return as `p`: a block of its own node, the payload of a
mapping outside every region, or the allocation it was asked to resize. -/
def Returns (s : State) (t p : Nat) : Prop :=
  (∃ th sh cls, s.tls t = .alive th ∧ s.heaps th.globalHeap.addr = some sh ∧
    Native s sh ⟨th.globalHeap.addr,th.nodeId,cls⟩ p) ∨
  (∃ id m, s.maps id = some m ∧ m.payload = some p ∧ m.holder = .thread t ∧
    ∀ h sh, s.heaps h = some sh → sh.references ≠ 0 → sh.heap.nodeForPtr p = none) ∨
  ∃ a, s.pinned t = some a ∧ a.ptr = p

theorem World.Fine.atHome (fine : Fine P strict c) : AtHome c.state where
  nodes {h sh node cls l b} heap count nodes small spells mem := by
    have refs := (fine.inv.heaps.count heap).1
    obtain ⟨l',spells',on⟩ := fine.inv.stack heap (fun empty => count (by simp [refs,empty])) nodes small
    obtain rfl := spells.unique spells'
    obtain ⟨sl,found,holder⟩ := (on b).mp mem
    have key := fine.inv.nodes.ref found holder
    have heap' : c.state.heaps sl.heap = some sh := by rw [show sl.heap = h from congrArg StackRef.heap key,heap]
    exact key ▸ fine.inv.native found heap'
  lists {t th cls l b} alive spells mem := by
    obtain ⟨L,S,counted,spare,_,held,_⟩ := World.Fine.lists fine alive
    have listed : b ∈ L cls ++ S cls := by
      rcases spells with spells | spells
      · exact List.mem_append_left _ (spells.unique (counted cls) ▸ mem)
      · exact List.mem_append_right _ (spells.unique (spare cls) ▸ mem)
    obtain ⟨sl,found,_,key⟩ := held cls b listed
    obtain ⟨sh,heap,_⟩ := fine.inv.slots.ok found
    have native := fine.inv.native found heap
    rw [show sl.heap = th.globalHeap.addr from congrArg StackRef.heap key] at heap
    exact ⟨sh,heap,key ▸ native⟩

theorem World.Fine.returns (fine : Fine P strict c) {p : Nat} {layout : Layout}
    (at_ : (c.prog t).next = some (.give p layout)) : Returns c.state t p := by
  rcases fine.safe at_ with ⟨a,pinned,ptr,_⟩ | ⟨_,B,th,r,block,present,heap,node,_⟩ |
    ⟨_,id,m,inst,held,payload,_,use,placed,_⟩
  · exact Or.inr (Or.inr ⟨a,pinned,ptr⟩)
  · obtain ⟨sl,found,_,rfl⟩ := view_block block
    obtain ⟨sh,at_,_⟩ := fine.inv.slots.ok found
    obtain ⟨alive,_,handle⟩ := present
    have addr : sl.heap = th.globalHeap.addr := by rw [handle]; exact heap
    have native := fine.inv.native found at_
    have key : sl.ref = ⟨th.globalHeap.addr,th.nodeId,sl.cls⟩ := by
      rw [← addr,← show sl.node = th.nodeId from node]
      rfl
    rw [key] at native
    exact Or.inl ⟨th,sh,sl.cls,alive,addr ▸ at_,native⟩
  · obtain ⟨found,holder⟩ := view_map.mp held
    refine Or.inr (Or.inl ⟨id,m,found,payload,holder,fun h sh heap count => ?_⟩)
    have refs := (fine.inv.heaps.count heap).1
    obtain ⟨id',m',found',use',_,base,size⟩ :=
      fine.inv.heaps.mapLive heap fun empty => count (by simp [refs,empty])
    have ne : id ≠ id' := by
      rintro rfl
      obtain rfl := Option.some.inj (found.symm.trans found')
      simp [use] at use'
    have apart := fine.inv.maps.apart found found' ne
    rw [base,size] at apart
    have header := placed.header
    exact fine.inv.nodeForPtr_large found (fine.inv.heaps.geom heap) apart (by omega) placed.inside

/-- Free blocks are kept where they belong, so an allocation returns memory of the
thread's own node, or a mapping, and never a block of another node. -/
theorem placement (reachable : c.Reachable) : AtHome c.state ∧
    ∀ t p layout, (c.prog t).next = some (.give p layout) → Returns c.state t p := by
  have fine := World.Reachable.fine reachable
  exact ⟨World.Fine.atHome fine,fun t p layout at_ => World.Fine.returns fine at_⟩

theorem sample_placement : ∃ c : World Sample.platform false,
    (World.initial fun _ => 0).execute Sample.schedule = some c ∧
    c.state.bags.map Bag.addr = [262144] ∧ AtHome c.state ∧
    ∀ t p layout, (c.prog t).next = some (.give p layout) → Returns c.state t p := by
  obtain ⟨c,run,_,bags⟩ := Sample.run
  exact ⟨c,run,bags,placement ⟨_,_,run⟩⟩

end Numalloc
