import Numalloc.Lifecycle
import Numalloc.Placement

/-! Several allocators in one process. A thread's cache is used only by operations of the
allocator it was made for, holds only memory of that allocator, and gives everything back
before it is replaced; the region of an allocator lives as long as the allocator or a
cache refers to it. -/
namespace Numalloc

open Concurrent View

/-- Accesses to the cache of the calling thread. -/
def Act.usesCache : Act → Bool
  | .thread | .setFreelist _ _ | .setLargeCache _ => true
  | _ => false

/-- The heap of allocator `i` is the one behind the handle. -/
def State.OwnHeap (s : State) (i : Nat) (h : HeapHandle) : Prop :=
  h.inst = i ∧ ∃ I, s.insts i = some I ∧ I.heap = some h

/-- Memory at `p` was obtained through allocator `i`: it lies in a region of its heap or
is the payload of one of its mappings. -/
inductive Through (s : State) (i p : Nat) : Prop where
  | region {h : HeapHandle} {sh : SharedHeap} {node : Nat} (own : s.OwnHeap i h)
      (found : s.heaps h.addr = some sh) (inside : sh.heap.nodeForPtr p = some node)
  | mapping {id : Nat} {m : Mapping} (found : s.maps id = some m) (use : m.use = .large i)
      (payload : m.payload = some p)

/-- Allocators keep to themselves, in one state. -/
structure Isolated {P : Platform} {strict : Bool} (c : World P strict) : Prop where
  uses : ∀ {t x}, (c.prog t).next = some x → x.usesCache = true → ∃ th i,
    c.state.tls t = .alive th ∧ (c.state.call t).inst = some i ∧ c.state.OwnHeap i th.globalHeap
  lists : ∀ {t th cls l b}, c.state.tls t = .alive th →
    c.state.Spells (th.freelists cls).head l ∨ c.state.Spells (th.freelists cls).spare l → b ∈ l →
    ∃ sh node, c.state.heaps th.globalHeap.addr = some sh ∧ sh.inst = th.globalHeap.inst ∧
      sh.heap.nodeForPtr b = some node
  entries : ∀ {t th entry}, c.state.tls t = .alive th → entry ∈ th.largeCache.entries → ∃ id m,
    c.state.maps id = some m ∧ m.base = entry.originalPtr ∧ m.size = entry.allocSize ∧
    m.use = .large th.globalHeap.inst
  replaced : ∀ {t th}, (c.prog t).next = some (.slotSet th) →
    (∃ i, (c.state.call t).inst = some i ∧ c.state.OwnHeap i th.globalHeap) ∧
    (∀ {b sl}, c.state.slots b = some sl → sl.holder = .thread t → sl.heap = th.globalHeap.addr) ∧
    ∀ {id m}, c.state.maps id = some m → m.holder = .thread t → m.use = .large th.globalHeap.inst
  rest : ∀ {t}, c.prog t = .ret () → (∀ th, c.state.tls t ≠ .alive th) →
    (∀ b, c.state.heldBy t b = false) ∧ ∀ id m, c.state.maps id = some m → m.holder ≠ .thread t
  gives : ∀ {t p layout}, (c.prog t).next = some (.give p layout) → ∃ i,
    (c.state.call t).inst = some i ∧ Through c.state i p
  live : ∀ a ∈ c.state.live, Through c.state a.inst a.ptr

variable {P : Platform} {strict : Bool} {c c' c₀ : World P strict} {t i : Nat}

theorem Inv.ownHeap {s : State} (inv : Inv P s) {r : HeapRef} (call : (s.call t).heap = some r) :
    ∃ i sh, (s.call t).inst = some i ∧ s.OwnHeap i r.handle ∧ s.heaps r.handle.addr = some sh ∧
      sh.heap = r.geom := by
  obtain ⟨i,I,sh,ci,hi,hx,found,geom⟩ := inv.heaps.callHeap call
  exact ⟨i,sh,ci,⟨(inv.heaps.instHeap hi hx).1,I,hi,hx⟩,found,geom⟩

theorem Inv.through {s : State} (inv : Inv P s) {a : Alloc} (live : a ∈ s.live) :
    Through s a.inst a.ptr := by
  have backed := inv.live.backed live
  cases source : a.source with
  | stray => simp only [Backed,source] at backed
  | slot =>
    simp only [Backed,source] at backed
    obtain ⟨sl,I,x,found,_,_,hi,hx,heap⟩ := backed
    obtain ⟨own,sh,at_,_⟩ := inv.heaps.instHeap hi hx
    exact .region ⟨own,I,hi,hx⟩ at_ (inv.native found (heap ▸ at_)).region
  | mapping id =>
    simp only [Backed,source] at backed
    obtain ⟨m,found,_,use,payload,_⟩ := backed
    exact .mapping found use payload

theorem World.Fine.isolated (fine : Fine P strict c) : Isolated c where
  uses {t x} at_ uses := by
    have present : ∃ th r, (c.state.view t).Present th r := by
      have safe := fine.safe at_
      cases x <;> simp only [Act.usesCache,reduceCtorEq] at uses <;> exact safe
    obtain ⟨th,r,alive,call,handle⟩ := present
    obtain ⟨i,_,ci,own,_⟩ := fine.inv.ownHeap call
    exact ⟨th,i,alive,ci,handle ▸ own⟩
  lists {t th cls l b} alive spells mem := by
    obtain ⟨sh,found,native⟩ := (World.Fine.atHome fine).lists alive spells mem
    obtain ⟨sh',found',inst,_⟩ := fine.inv.heaps.slotOk alive
    obtain rfl := Option.some.inj (found.symm.trans found')
    exact ⟨sh,_,found,inst,native.region⟩
  entries alive mem := by
    obtain ⟨id,m,found,_,base,size,use⟩ := World.Fine.parked fine alive mem
    exact ⟨id,m,found,base,size,use⟩
  replaced {t th} at_ := by
    obtain ⟨r,call,handle,_,_,_,blocks,maps⟩ := fine.safe at_
    obtain ⟨i,_,ci,own,_⟩ := fine.inv.ownHeap call
    exact ⟨⟨i,ci,handle ▸ own⟩,fun found holder => blocks _ _ (view_block_some found holder),
      fun found holder => maps _ _ (view_map.mpr ⟨found,holder⟩)⟩
  rest {t} rest bare := by
    refine ⟨fun b => ?_,fun id m found holder => ?_⟩
    · cases found : c.state.slots b with
      | none => simp [State.heldBy,found]
      | some sl =>
        by_cases holder : sl.holder = .thread t
        · obtain ⟨th,alive⟩ := World.Fine.resting fine rest found holder
          exact absurd alive (bare th)
        · simp [State.heldBy,found,holder]
    · obtain ⟨th,alive,_⟩ := World.Fine.resting_map fine rest found holder
      exact absurd alive (bare th)
  gives {t p layout} at_ := by
    rcases fine.safe at_ with ⟨a,pinned,ptr,_⟩ | ⟨_,B,th,r,block,present,heap,_⟩ |
      ⟨_,id,m,inst,held,payload,call,use,_⟩
    · obtain ⟨live,pin⟩ := pinned_some pinned
      exact ⟨a.inst,(fine.inv.live.pin live pin).1,ptr ▸ fine.inv.through live⟩
    · obtain ⟨sl,found,_,rfl⟩ := view_block block
      obtain ⟨i,sh,ci,own,at_,_⟩ := fine.inv.ownHeap present.2.1
      have same : sl.heap = r.handle.addr := heap
      exact ⟨i,ci,.region own at_ (fine.inv.native found (same ▸ at_)).region⟩
    · exact ⟨inst,call,.mapping (view_map.mp held).1 use payload⟩
  live a mem := fine.inv.through mem

/-! Regions. -/

/-- The allocator itself, or the cache of a thread, refers to the heap of allocator `i`. -/
def State.Refers (s : State) (i : Nat) (h : HeapHandle) : Prop :=
  s.OwnHeap i h ∨ ∃ t th, s.tls t = .alive th ∧ th.globalHeap = h ∧ h.inst = i

/-- The region of allocator `i` is there while anything refers to it, and is unmapped,
whole, when nothing does any more. -/
structure Region (c : World P strict) (i : Nat) : Prop where
  mapped : ∀ {h}, c.state.Refers i h → ∃ id m sh, c.state.heaps h.addr = some sh ∧
    c.state.maps id = some m ∧ m.use = .heap i ∧ m.base = sh.heap.mapBase ∧
    m.size = sh.heap.mapSize ∧ m.extent = [(m.base,m.base + m.size)] ∧ c.state.unmaps id = 0
  last : ∀ {t id m ptr size}, (c.prog t).next = some (.munmap ptr size) →
    c.state.maps id = some m → m.use = .heap i → ¬Apart ptr size m.base m.size →
    ptr = m.base ∧ size = m.size ∧ c.state.insts i = none ∧ ∀ h, ¬c.state.Refers i h
  waits : ∀ {id m}, c.state.maps id = some m → m.use = .heap i → (∀ h, ¬c.state.Refers i h) →
    ∃ t, c.prog t ≠ .ret ()

/-- A heap that is referred to has counted references. -/
theorem Inv.referred {s : State} (inv : Inv P s) {h : HeapHandle} (refers : s.Refers i h) :
    ∃ sh, s.heaps h.addr = some sh ∧ sh.inst = i ∧ sh.refs ≠ [] := by
  rcases refers with ⟨rfl,I,hi,hx⟩ | ⟨t,th,alive,rfl,inst⟩
  · obtain ⟨_,sh,found,inst⟩ := inv.heaps.instHeap hi hx
    refine ⟨sh,found,inst,fun empty => ?_⟩
    have mem := (inv.heaps.refInst found).mpr ⟨I,hi,hx⟩
    simp [empty] at mem
  · obtain ⟨sh,found,own,_⟩ := inv.heaps.slotOk alive
    refine ⟨sh,found,own.trans inst,fun empty => ?_⟩
    have mem := (inv.heaps.refSlot found).mpr ⟨th,alive,rfl⟩
    simp [empty] at mem

/-- Without references nothing refers to a heap. -/
theorem Inv.unreferred {s : State} (inv : Inv P s) {a : Nat} {sh : SharedHeap}
    (found : s.heaps a = some sh) (empty : sh.refs = []) :
    s.insts sh.inst = none ∧ ∀ h, ¬s.Refers sh.inst h := by
  have none_ : ∀ h, ¬s.Refers sh.inst h := by
    intro h refers
    obtain ⟨sh',found',inst,refs⟩ := inv.referred refers
    obtain rfl := inv.heaps.one found' found inst
    exact refs (Option.some.inj (found'.symm.trans found) ▸ empty)
  refine ⟨?_,none_⟩
  cases hi : s.insts sh.inst with
  | none => rfl
  | some I => exact absurd (Or.inl ⟨rfl,I,hi,inv.heaps.back found hi⟩) (none_ ⟨a,sh.inst⟩)

theorem World.Fine.region (fine : Fine P strict c) (i : Nat) : Region c i where
  mapped refers := by
    obtain ⟨sh,found,inst,refs⟩ := fine.inv.referred refers
    obtain ⟨id,m,at_,use,_,base,size⟩ := fine.inv.heaps.mapLive found refs
    exact ⟨id,m,sh,found,at_,inst ▸ use,base,size,(fine.inv.maps.ok at_).whole,
      fine.inv.maps.present (by simp [at_])⟩
  last {t id m ptr size} at_ found use meets := by
    obtain ⟨id',m',held,rfl,rfl⟩ := fine.safe at_
    obtain ⟨found',holder⟩ := view_map.mp held
    obtain rfl : id' = id := by
      by_contra ne
      exact meets (fine.inv.maps.apart found' found ne)
    obtain rfl := Option.some.inj (found.symm.trans found')
    obtain ⟨a,sh,heap,inst,_,_,shared,_⟩ := fine.inv.heaps.mapHeap found use
    have empty : sh.refs = [] := by
      by_contra refs
      rw [shared refs] at holder
      cases holder
    obtain ⟨gone,none_⟩ := fine.inv.unreferred heap empty
    exact ⟨rfl,rfl,inst ▸ gone,inst ▸ none_⟩
  waits {id m} found use none_ := by
    obtain ⟨a,sh,heap,rfl,_⟩ := fine.inv.heaps.mapHeap found use
    by_contra rest
    have idle : ∀ t, Idle P strict (c.state.view t) := fun t =>
      Good.resting fine (not_not.mp (not_exists.mp rest t))
    cases refs : sh.refs with
    | nil =>
      obtain ⟨t,dying⟩ := fine.inv.heaps.dead heap refs
      have := (idle t).dying
      simp only [State.view,dying,reduceCtorEq] at this
    | cons ref refs' =>
      have mem : ref ∈ sh.refs := by simp [refs]
      cases ref with
      | inst j =>
        obtain ⟨I,hi,hx⟩ := (fine.inv.heaps.refInst heap).mp mem
        obtain ⟨_,sh',found',inst⟩ := fine.inv.heaps.instHeap hi hx
        obtain rfl := Option.some.inj (heap.symm.trans found')
        subst inst
        exact none_ ⟨a,sh.inst⟩ (Or.inl ⟨rfl,I,hi,hx⟩)
      | slot t =>
        obtain ⟨th,alive,addr⟩ := (fine.inv.heaps.refSlot heap).mp mem
        obtain ⟨sh',found',inst,_⟩ := fine.inv.heaps.slotOk alive
        rw [addr,heap] at found'
        obtain rfl := Option.some.inj found'
        exact none_ _ (Or.inr ⟨t,th,alive,rfl,inst.symm⟩)
      | op t =>
        obtain ⟨x,hand,_⟩ := (fine.inv.heaps.refOp heap).mp mem
        have := (idle t).hand
        simp only [State.view,hand,reduceCtorEq] at this

/-! A cache that is given up. -/

/-- The address lies in the mapping of the region of allocator `i`. -/
def State.Within (s : State) (i b : Nat) : Prop :=
  ∃ id m, s.maps id = some m ∧ m.use = .heap i ∧ m.base ≤ b ∧ b < m.base + m.size

theorem Inv.within {s : State} (inv : Inv P s) {b : Nat} {sl : Slot} {sh : SharedHeap}
    (found : s.slots b = some sl) (heap : s.heaps sl.heap = some sh) :
    s.Within i b ↔ sh.inst = i := by
  obtain ⟨sh',heap',refs,node,small,low,high⟩ := inv.slot_region found
  obtain rfl := Option.some.inj (heap.symm.trans heap')
  obtain ⟨id,m,at_,use,holder,base,size⟩ := inv.heaps.mapLive heap refs
  have valid := inv.heaps.geom heap
  have := valid.node_upper node
  have := valid.lower
  have := valid.upper
  have := sizeForClass_pos small
  constructor
  · rintro ⟨id',m',at',use',low',high'⟩
    obtain rfl : id' = id := by
      by_contra ne
      have apart := inv.maps.apart at' at_ ne
      unfold Apart at apart
      omega
    obtain rfl := Option.some.inj (at_.symm.trans at')
    exact Use.heap.inj (use.symm.trans use')
  · rintro rfl
    exact ⟨id,m,at_,use,by omega,by omega⟩

/-- Where a block in the hands of a thread may be after one label. -/
theorem World.Fine.block_leaves (fine : Fine P strict c) {label : Label} {b : Nat} {sl : Slot}
    (step : c.advance label = some c') (found : c.state.slots b = some sl)
    (holder : sl.holder = .thread t) : ∃ sl', c'.state.slots b = some sl' ∧ sl'.ref = sl.ref ∧
      (sl'.holder = .thread t ∨ sl'.holder = .stack sl.ref ∨
        ∃ layout, (c.prog t).next = some (.give b layout)) := by
  cases label with
  | step u ch =>
    by_cases same : t = u
    · subst same
      rcases World.Fine.effect fine step with ⟨x,at_,_,effect⟩ | ⟨_,eq⟩
      · obtain ⟨sl',found',ref,left⟩ := effect.slots found holder
        refine ⟨sl',found',ref,?_⟩
        rcases left with own | pushed | ⟨_,layout,rfl⟩
        · exact Or.inl own
        · exact Or.inr (Or.inl pushed)
        · exact Or.inr (Or.inr ⟨layout,at_⟩)
      · exact ⟨sl,by rw [eq]; exact found,rfl,Or.inl holder⟩
    · have seen := congrFun (congrArg View.blocks (World.Fine.frame fine step same).2) b
      rw [view_block_some found holder] at seen
      obtain ⟨sl',found',holder',eq⟩ := view_block seen
      exact ⟨sl',found',(congrArg Block.ref eq).symm,Or.inl holder'⟩
  | start u request =>
    simp only [World.advance] at step
    split at step
    case h_2 => cases step
    obtain ⟨s,run,rfl⟩ := Option.map_eq_some_iff.mp step
    exact ⟨sl,by simp only [(start_begun run).slots,found],rfl,Or.inl holder⟩
  | write addr value =>
    simp only [World.advance,Option.ite_none_right_eq_some,Option.some.injEq] at step
    obtain ⟨_,rfl⟩ := step
    exact ⟨sl,found,rfl,Or.inl holder⟩
  | create numNodes regionSize =>
    obtain rfl := Option.some.inj step
    exact ⟨sl,found,rfl,Or.inl holder⟩

/-- A block is handed out only by an operation of its own allocator. -/
theorem World.Fine.block_given (fine : Fine P strict c) {b : Nat} {sl : Slot} {layout : Layout}
    (found : c.state.slots b = some sl) (at_ : (c.prog t).next = some (.give b layout)) : ∃ i,
      (c.state.call t).inst = some i ∧ c.state.Within i b := by
  obtain ⟨i,call,through⟩ := (World.Fine.isolated fine).gives at_
  refine ⟨i,call,?_⟩
  cases through with
  | mapping at' _ payload =>
    rw [fine.inv.payload_no_slot at' payload] at found
    cases found
  | @region h sh node own heap inside =>
    obtain ⟨sh',heap',inst,refs⟩ := fine.inv.referred (Or.inl own)
    obtain rfl := Option.some.inj (heap.symm.trans heap')
    obtain ⟨id,m,at',use,_,base,size⟩ := fine.inv.heaps.mapLive heap refs
    have valid := fine.inv.heaps.geom heap
    have word := (fine.inv.slot_user_addr found).2
    obtain ⟨small,low,high⟩ := valid.nodeForPtr_inv (by omega) inside
    have := valid.node_upper small
    have := valid.lower
    have := valid.upper
    exact ⟨id,m,at',inst ▸ use,by omega,by omega⟩

/-- A region stays where it is while there are blocks in it. -/
theorem World.Fine.within_step (fine : Fine P strict c) {label : Label} {b : Nat} {sl : Slot}
    (step : c.advance label = some c') (found : c.state.slots b = some sl)
    (within : c.state.Within i b) : c'.state.Within i b := by
  obtain ⟨sh,heap,refs,_⟩ := fine.inv.slots.ok found
  obtain rfl := (fine.inv.within found heap).mp within
  obtain ⟨id,m,at_,use,low,high⟩ := within
  rcases (World.Fine.steady fine step).maps (fine.inv.maps.old at_) with same | ⟨_,m',u,at',holder⟩
  · rw [at_,Option.map_some] at same
    obtain ⟨m',at',shape⟩ := Option.map_eq_some_iff.mp same
    simp only [Mapping.shape,Prod.mk.injEq] at shape
    obtain ⟨base,size,use'⟩ := shape
    exact ⟨id,m',at',use'.trans use,by omega,by omega⟩
  · obtain rfl := Option.some.inj (at_.symm.trans at')
    obtain ⟨a,sh',heap',inst,_,_,shared,_⟩ := fine.inv.heaps.mapHeap at_ use
    obtain rfl := fine.inv.heaps.one heap' heap inst
    obtain rfl := Option.some.inj (heap.symm.trans heap')
    rw [shared refs] at holder
    cases holder

/-- A mapping is handed out only by an operation of its own allocator. -/
theorem World.Fine.map_given (fine : Fine P strict c) {id p : Nat} {m : Mapping} {layout : Layout}
    (found : c.state.maps id = some m) (payload : m.payload = some p)
    (at_ : (c.prog t).next = some (.give p layout)) : ∃ i, (c.state.call t).inst = some i ∧
      m.use = .large i := by
  have empty := fine.inv.payload_no_slot found payload
  rcases fine.safe at_ with ⟨a,pinned,ptr,source,_⟩ | ⟨_,B,_,_,block,_⟩ |
    ⟨_,id',m',inst,held,payload',call,use,_⟩
  · have backed := fine.inv.live.backed (pinned_some pinned).1
    simp only [Backed,source] at backed
    obtain ⟨sl,_,_,slot,_⟩ := backed
    rw [ptr,empty] at slot
    cases slot
  · obtain ⟨sl,slot,_⟩ := view_block block
    rw [empty] at slot
    cases slot
  · obtain ⟨found',_⟩ := view_map.mp held
    obtain rfl := fine.inv.payload_unique found' payload' found payload
    obtain rfl := Option.some.inj (found.symm.trans found')
    exact ⟨inst,call,use⟩

/-- Where a mapping in the hands of a thread may be after one label. -/
theorem World.Fine.map_leaves (fine : Fine P strict c) {label : Label} {id : Nat} {m : Mapping}
    (step : c.advance label = some c') (found : c.state.maps id = some m)
    (holder : m.holder = .thread t) (use : m.use = .large i)
    (away : (c.state.call t).inst ≠ some i) : c'.state.maps id = none ∨
      ∃ m', c'.state.maps id = some m' ∧ m'.holder = .thread t ∧ m'.use = .large i := by
  have shape : ∀ {m'}, c'.state.maps id = some m' → m'.use = .large i := by
    intro m' found'
    rcases (World.Fine.steady fine step).maps (fine.inv.maps.old found) with same | ⟨gone,_⟩
    · rw [found,found'] at same
      simp only [Option.map_some,Option.some.injEq,Mapping.shape,Prod.mk.injEq] at same
      exact same.2.2.trans use
    · simp [gone] at found'
  have held : c'.state.maps id = none ∨ ∃ m', c'.state.maps id = some m' ∧ m'.holder = .thread t := by
    cases label with
    | step u ch =>
      by_cases same : t = u
      · subst same
        rcases World.Fine.effect fine step with ⟨x,at_,_,effect⟩ | ⟨_,eq⟩
        · rcases effect.held found holder with gone | ⟨m',found',own | ⟨_,p,layout,rfl,payload⟩⟩
          · exact Or.inl gone
          · exact Or.inr ⟨m',found',own⟩
          · obtain ⟨j,call,use'⟩ := World.Fine.map_given fine found payload at_
            obtain rfl := Use.large.inj (use.symm.trans use')
            exact absurd call away
        · exact Or.inr ⟨m,by rw [eq]; exact found,holder⟩
      · have seen := congrFun (congrArg View.maps (World.Fine.frame fine step same).2) id
        rw [view_map.mpr ⟨found,holder⟩] at seen
        obtain ⟨found',holder'⟩ := view_map.mp seen
        exact Or.inr ⟨m,found',holder'⟩
    | start u request =>
      simp only [World.advance] at step
      split at step
      case h_2 => cases step
      obtain ⟨s,run,rfl⟩ := Option.map_eq_some_iff.mp step
      exact Or.inr ⟨m,by simp only [(start_begun run).maps,found],holder⟩
    | write addr value =>
      simp only [World.advance,Option.ite_none_right_eq_some,Option.some.injEq] at step
      obtain ⟨_,rfl⟩ := step
      have same := store_same c.state addr 1 (fill c.state.mem addr 1 value)
      obtain ⟨m',found',_,_,_,_,eq⟩ := same.symm.back found
      exact Or.inr ⟨m',found',eq.trans holder⟩
    | create numNodes regionSize =>
      obtain rfl := Option.some.inj step
      exact Or.inr ⟨m,found,holder⟩
  rcases held with gone | ⟨m',found',holder'⟩
  · exact Or.inl gone
  · exact Or.inr ⟨m',found',holder',shape found'⟩

/-- While thread `t` runs no operation of allocator `i`. -/
def World.Away (c : World P strict) (schedule : List Label) (t i : Nat) : Prop :=
  ∀ before after c', schedule = before ++ after → c.execute before = some c' →
    (c'.state.call t).inst ≠ some i

theorem World.Away.tail {label : Label} {schedule : List Label}
    (away : c.Away (label :: schedule) t i) (step : c.advance label = some c') :
    c'.Away schedule t i := by
  intro before after c'' split run
  refine away (label :: before) after c'' (by rw [split]; rfl) ?_
  simp only [World.execute,step,Option.bind_eq_bind,Option.bind_some]
  exact run

theorem World.Away.here {schedule : List Label} (away : c.Away schedule t i) :
    (c.state.call t).inst ≠ some i := away [] schedule c rfl rfl

/-- At some moment of the run the block is in the stack of a node. -/
def World.Pushed (c : World P strict) (schedule : List Label) (b : Nat) (k : StackRef) : Prop :=
  ∃ before after c' sl, schedule = before ++ after ∧ c.execute before = some c' ∧
    c'.state.slots b = some sl ∧ sl.holder = .stack k

theorem World.Pushed.cons {label : Label} {schedule : List Label} {b : Nat} {k : StackRef}
    (step : c.advance label = some c') (pushed : c'.Pushed schedule b k) :
    c.Pushed (label :: schedule) b k := by
  obtain ⟨before,after,c'',sl,split,run,found⟩ := pushed
  refine ⟨label :: before,after,c'',sl,by rw [split]; rfl,?_,found⟩
  simp only [World.execute,step,Option.bind_eq_bind,Option.bind_some]
  exact run

/-- A block that a thread got from an allocator it no longer works for is still in its hands,
or went to the stack it belongs to. -/
theorem World.Fine.block_returned {schedule : List Label} {b : Nat} {sl : Slot}
    (fine : Fine P strict c) (run : c.execute schedule = some c') (away : c.Away schedule t i)
    (found : c.state.slots b = some sl) (holder : sl.holder = .thread t)
    (within : c.state.Within i b) : c.Pushed schedule b sl.ref ∨
      c'.state.Within i b ∧ ∃ sl', c'.state.slots b = some sl' ∧ sl'.holder = .thread t := by
  induction schedule generalizing c sl with
  | nil =>
    obtain rfl := Option.some.inj run
    exact Or.inr ⟨within,sl,found,holder⟩
  | cons label rest ih =>
    obtain ⟨c₁,step,later⟩ := Option.bind_eq_some_iff.mp run
    have within₁ := World.Fine.within_step fine step found within
    obtain ⟨sl₁,found₁,ref,left⟩ := World.Fine.block_leaves fine step found holder
    rcases left with own | pushed | ⟨layout,at_⟩
    · have next := ih (World.Fine.advance fine step) later (away.tail step) found₁ own within₁
      rw [ref] at next
      exact next.imp (World.Pushed.cons step) fun kept => kept
    · exact Or.inl (.cons step ⟨[],rest,c₁,sl₁,rfl,rfl,found₁,pushed⟩)
    · obtain ⟨j,call,within'⟩ := World.Fine.block_given fine found at_
      obtain ⟨sh,heap,_⟩ := fine.inv.slots.ok found
      have own := (fine.inv.within found heap).mp within
      have own' := (fine.inv.within found heap).mp within'
      exact absurd (own.symm.trans own' ▸ call) away.here

theorem World.Fine.map_returned {schedule : List Label} {id : Nat} {m : Mapping}
    (fine : Fine P strict c) (run : c.execute schedule = some c') (away : c.Away schedule t i)
    (found : c.state.maps id = some m) (holder : m.holder = .thread t) (use : m.use = .large i) :
    c'.state.maps id = none ∨
      ∃ m', c'.state.maps id = some m' ∧ m'.holder = .thread t ∧ m'.use = .large i := by
  induction schedule generalizing c m with
  | nil =>
    obtain rfl := Option.some.inj run
    exact Or.inr ⟨m,found,holder,use⟩
  | cons label rest ih =>
    obtain ⟨c₁,step,later⟩ := Option.bind_eq_some_iff.mp run
    have fine₁ := World.Fine.advance fine step
    have old := lt_of_lt_of_le (fine.inv.maps.old found) (World.Fine.steady fine step).nextMap
    rcases World.Fine.map_leaves fine step found holder use away.here with gone | ⟨m₁,found₁,own,use₁⟩
    · rcases (World.Fine.shape_run fine₁ later old).2 with same | gone'
      · rw [gone] at same
        exact Or.inl (Option.map_eq_none_iff.mp same)
      · exact Or.inl gone'
    · exact ih fine₁ later (away.tail step) found₁ own use₁

/-- Thread `t` is about to install a cache for another allocator, or rests without one. -/
def World.Parted (c : World P strict) (t i : Nat) : Prop :=
  (∃ th, (c.prog t).next = some (.slotSet th) ∧ th.globalHeap.inst ≠ i) ∨
    c.prog t = .ret () ∧ ∀ th, c.state.tls t ≠ .alive th

/-- Then it holds no memory of allocator `i`. -/
theorem World.Fine.parted (fine : Fine P strict c) (parted : c.Parted t i) :
    (∀ {b sl}, c.state.slots b = some sl → sl.holder = .thread t → ¬c.state.Within i b) ∧
      ∀ {id m}, c.state.maps id = some m → m.holder = .thread t → m.use ≠ .large i := by
  have isolated := World.Fine.isolated fine
  rcases parted with ⟨th,at_,other⟩ | ⟨rest,bare⟩
  · obtain ⟨⟨j,_,inst,I,hi,hx⟩,blocks,maps⟩ := isolated.replaced at_
    refine ⟨fun {b sl} found holder within => other ?_,fun found holder use => other ?_⟩
    · obtain ⟨_,sh,heap,own⟩ := fine.inv.heaps.instHeap hi hx
      rw [← blocks found holder] at heap
      rw [inst,← own]
      exact (fine.inv.within found heap).mp within
    · exact Use.large.inj ((maps found holder).symm.trans use)
  · obtain ⟨blocks,maps⟩ := isolated.rest rest bare
    refine ⟨fun {b sl} found holder _ => ?_,fun found holder _ => maps _ _ found holder⟩
    have none_ := blocks b
    simp [State.heldBy,found,holder] at none_

/-- The region mapping of an allocator is the only one it ever has. -/
def State.Sole (s : State) (i id : Nat) : Prop :=
  (∀ id' m', s.maps id' = some m' → m'.use = .heap i → id' = id) ∧ i < s.nextInst ∧
    ∀ I, s.insts i = some I → ∃ h, I.heap = some h

theorem World.Fine.sole (fine : Fine P strict c) {id : Nat} {m : Mapping}
    (found : c.state.maps id = some m) (use : m.use = .heap i) : c.state.Sole i id := by
  obtain ⟨a,sh,heap,rfl,_⟩ := fine.inv.heaps.mapHeap found use
  exact ⟨fun id' m' found' use' => fine.inv.heaps.mapOne found' found use' use,
    fine.inv.heaps.heapOld heap,fun I hi => ⟨_,fine.inv.heaps.back heap hi⟩⟩

theorem World.Fine.sole_step (fine : Fine P strict c) {label : Label} {id : Nat}
    (step : c.advance label = some c') (sole : c.state.Sole i id) : c'.state.Sole i id := by
  have steady := World.Fine.steady fine step
  obtain ⟨only,old,begun⟩ := sole
  refine ⟨fun id' m' found' use' => ?_,lt_of_lt_of_le old steady.nextInst,fun I' hi' => ?_⟩
  · cases found : c.state.maps id' with
    | none =>
      obtain ⟨I,hi,none_⟩ := steady.born found found' use'
      obtain ⟨h,hx⟩ := begun I hi
      rw [none_] at hx
      cases hx
    | some m =>
      rcases steady.maps (fine.inv.maps.old found) with same | ⟨gone,_⟩
      · rw [found,found'] at same
        simp only [Option.map_some,Option.some.injEq,Mapping.shape,Prod.mk.injEq] at same
        exact only id' m found (same.2.2.symm.trans use')
      · simp [gone] at found'
  · obtain ⟨I,hi⟩ := Option.isSome_iff_exists.mp (steady.insts old (by simp [hi']))
    obtain ⟨h,hx⟩ := begun I hi
    rcases steady.heaps hi hx with gone | ⟨I'',hi'',hx''⟩
    · simp [gone] at hi'
    · obtain rfl := Option.some.inj (hi'.symm.trans hi'')
      exact ⟨h,hx''⟩

theorem World.Fine.sole_run {schedule : List Label} {id : Nat} (fine : Fine P strict c)
    (run : c.execute schedule = some c') (sole : c.state.Sole i id) : c'.state.Sole i id := by
  induction schedule generalizing c with
  | nil => exact Option.some.inj run ▸ sole
  | cons label rest ih =>
    obtain ⟨c₁,step,later⟩ := Option.bind_eq_some_iff.mp run
    exact ih (World.Fine.advance fine step) later (World.Fine.sole_step fine step sole)

/-- Allocators keep to themselves, over a run. -/
structure KeepsApart (c₀ c : World P strict) (schedule : List Label) : Prop where
  returned : ∀ {t th}, c₀.state.tls t = .alive th → c₀.Away schedule t th.globalHeap.inst →
    c.Parted t th.globalHeap.inst →
    (∀ cls l b, c₀.state.Spells (th.freelists cls).head l ∨
      c₀.state.Spells (th.freelists cls).spare l → b ∈ l →
      c₀.Pushed schedule b ⟨th.globalHeap.addr,th.nodeId,cls⟩) ∧
    ∀ entry ∈ th.largeCache.entries, ∃ id m, c₀.state.maps id = some m ∧
      m.base = entry.originalPtr ∧ m.size = entry.allocSize ∧ c.state.maps id = none ∧
      c.state.unmaps id = 1
  once : ∀ {i id m}, c₀.state.maps id = some m → m.use = .heap i →
    ((∃ m', c.state.maps id = some m' ∧ m'.shape = m.shape) ∧ c.state.unmaps id = 0 ∨
      c.state.maps id = none ∧ c.state.unmaps id = 1) ∧
    ∀ id' m', c.state.maps id' = some m' → m'.use = .heap i → id' = id

theorem World.Fine.keepsApart {schedule : List Label} (fine₀ : Fine P strict c₀)
    (run : c₀.execute schedule = some c) : KeepsApart c₀ c schedule where
  returned {t th} alive away parted := by
    have fine := World.Fine.execute fine₀ run
    obtain ⟨noBlock,noMap⟩ := World.Fine.parted fine parted
    refine ⟨fun cls l b spells mem => ?_,fun entry mem => ?_⟩
    · obtain ⟨L,S,counted,spare,_,held,_⟩ := World.Fine.lists fine₀ alive
      have listed : b ∈ L cls ++ S cls := by
        rcases spells with spells | spells
        · exact List.mem_append_left _ (spells.unique (counted cls) ▸ mem)
        · exact List.mem_append_right _ (spells.unique (spare cls) ▸ mem)
      obtain ⟨sl,found,holder,ref⟩ := held cls b listed
      obtain ⟨sh,heap,inst,_⟩ := fine₀.inv.heaps.slotOk alive
      have home : sl.heap = th.globalHeap.addr := congrArg StackRef.heap ref
      rw [← home] at heap
      have within := (fine₀.inv.within found heap).mpr inst
      rw [← ref]
      rcases World.Fine.block_returned fine₀ run away found holder within with pushed |
        ⟨within',sl',found',holder'⟩
      · exact pushed
      · exact absurd within' (noBlock found' holder')
    · obtain ⟨id,m,found,holder,base,size,use⟩ := World.Fine.parked fine₀ alive mem
      have old := (World.Fine.shape_run fine₀ run (fine₀.inv.maps.old found)).1
      have gone : c.state.maps id = none := by
        rcases World.Fine.map_returned fine₀ run away found holder use with gone |
          ⟨m',found',holder',use'⟩
        · exact gone
        · exact absurd use' (noMap found' holder')
      exact ⟨id,m,found,base,size,gone,fine.inv.maps.gone old gone⟩
  once {i id m} found use := by
    have fine := World.Fine.execute fine₀ run
    refine ⟨?_,(World.Fine.sole_run fine₀ run (World.Fine.sole fine₀ found use)).1⟩
    obtain ⟨old,same | gone⟩ := World.Fine.shape_run fine₀ run (fine₀.inv.maps.old found)
    · rw [found,Option.map_some] at same
      obtain ⟨m',found',shape⟩ := Option.map_eq_some_iff.mp same
      exact Or.inl ⟨⟨m',found',shape⟩,fine.inv.maps.present (by simp [found'])⟩
    · exact Or.inr ⟨gone,fine.inv.maps.gone old gone⟩

/-- However threads switch between allocators, and whenever allocators and threads come and
go: each cache serves its own allocator, everything in it goes back or is unmapped before
it is replaced, and a region is unmapped once, after the last reference to it. -/
theorem instances_isolated {schedule : List Label} (reachable : c₀.Reachable)
    (run : c₀.execute schedule = some c) :
    Isolated c ∧ (∀ i, Region c i) ∧ KeepsApart c₀ c schedule := by
  have fine₀ := World.Reachable.fine reachable
  have fine := World.Fine.execute fine₀ run
  exact ⟨World.Fine.isolated fine,World.Fine.region fine,World.Fine.keepsApart fine₀ run⟩

set_option maxRecDepth 4000 in
theorem sample_instances_isolated : ∃ c₀ c : World Sample.platform false,
    (World.initial fun _ => 0).execute (Sample.schedule.take 28) = some c₀ ∧
    c₀.execute (Sample.schedule.drop 28) = some c ∧
    c.state.live.map Alloc.ptr = [8192016,278528] ∧ Isolated c ∧ (∀ i, Region c i) ∧
    KeepsApart c₀ c (Sample.schedule.drop 28) := by
  have ends : ((World.initial fun _ => 0 : World Sample.platform false).execute
      (Sample.schedule.take 28)).bind (fun c₀ => (c₀.execute (Sample.schedule.drop 28)).map
        fun c => c.state.live.map Alloc.ptr) = some [8192016,278528] := by decide +kernel
  obtain ⟨c₀,run₀,eq⟩ := Option.bind_eq_some_iff.mp ends
  obtain ⟨c,run,live⟩ := Option.map_eq_some_iff.mp eq
  exact ⟨c₀,c,run₀,run,live,instances_isolated ⟨_,_,run₀⟩ run⟩

end Numalloc
