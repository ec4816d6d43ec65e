import Numalloc.History

/-! No block is lost or duplicated. A place is read off the state the program works on:
the caller's allocations, the lists of the threads, the words of the stacks and the
links in memory. -/
namespace Numalloc

open Concurrent View

/-- The links in memory lead from `head` through the blocks of `l`, no block comes twice,
and the last link is null. -/
def State.Spells (s : State) (head : Option Nat) (l : List Nat) : Prop :=
  Links (fun b => some (s.readNext b)) head l none ∧ l.Nodup

inductive Place where
  | user
  | counted (t : Nat)
  | spare (t : Nat)
  | stack
  | operation (t : Nat)

namespace World

variable {P : Platform} {strict : Bool}

/-- Block `b` of the bag is in this place. An operation holds what its thread has and
keeps in neither list. -/
def At (c : World P strict) (bag : Bag) (b : Nat) : Place → Prop
  | .user => ∃ a ∈ c.state.live, a.source = .slot ∧ a.ptr = b
  | .counted t => ∃ th l, c.state.tls t = .alive th ∧
      c.state.Spells (th.freelists bag.cls).head l ∧ b ∈ l
  | .spare t => ∃ th l, c.state.tls t = .alive th ∧
      c.state.Spells (th.freelists bag.cls).spare l ∧ b ∈ l
  | .stack => ∃ sh l, c.state.heaps bag.heap = some sh ∧
      c.state.Spells (TreiberStack.unpack (sh.head bag.node bag.cls)).1 l ∧ b ∈ l
  | .operation t => c.prog t ≠ .ret () ∧ c.state.heldBy t b = true ∧
      ∀ th l, c.state.tls t = .alive th → b ∈ l → ¬c.state.Spells (th.freelists bag.cls).head l ∧
        ¬c.state.Spells (th.freelists bag.cls).spare l

end World

/-- The allocator `i` exists and the bag was carved from its heap. -/
def State.Owns (s : State) (i : Nat) (bag : Bag) : Prop :=
  ∃ I h, s.insts i = some I ∧ I.heap = some h ∧ h.addr = bag.heap

variable {P : Platform} {strict : Bool} {s : State} {t : Nat} {c c' : World P strict} {bag : Bag}
  {b : Nat}

/-! Chains in memory are the chains the invariant speaks of. -/

theorem Inv.spells (inv : Inv P s) {head : Option Nat} {l : List Nat}
    (chain : Links s.lastLink head l none) (nodup : l.Nodup) : s.Spells head l := by
  refine ⟨(links_congr fun b mem => ?_).mp chain,nodup⟩
  obtain ⟨n,link⟩ := chain.linked mem
  rw [link,inv.link_value link]

theorem Inv.spells_view (inv : Inv P s) {head : Option Nat} {l : List Nat}
    (chain : Links (s.view t).link head l none) (nodup : l.Nodup) : s.Spells head l := by
  refine inv.spells ((links_congr fun b mem => ?_).mp chain) nodup
  obtain ⟨n,link⟩ := chain.linked mem
  rw [link,view_link link]

/-- The lists of a cache in memory, and the records of their blocks. -/
theorem Inv.cached (inv : Inv P s) {th : PerThreadHeap} {L S : Nat → List Nat} {C : List Nat}
    (cached : Cached strict (s.view t) th L S C) (cls : Nat) :
    s.Spells (th.freelists cls).head (L cls) ∧ s.Spells (th.freelists cls).spare (S cls) ∧
      ∀ b ∈ L cls ++ S cls, ∃ sl, s.slots b = some sl ∧ sl.holder = .thread t ∧
        sl.ref = ⟨th.globalHeap.addr,th.nodeId,cls⟩ := by
  have parts := List.nodup_append.mp (cached.nodup cls)
  refine ⟨inv.spells_view (cached.counted cls) parts.1,inv.spells_view (cached.spare cls) parts.2.1,
    fun b mem => ?_⟩
  obtain ⟨B,block,ref⟩ := block_of_ref (cached.ref mem)
  obtain ⟨sl,found,holder,rfl⟩ := view_block block
  exact ⟨sl,found,holder,ref⟩

theorem State.Spells.unique {head : Option Nat} {l m : List Nat} (left : s.Spells head l)
    (right : s.Spells head m) : l = m := left.1.unique right.1

/-- A thread at rest keeps all its blocks in the lists of its cache. -/
theorem World.Fine.resting (fine : Fine P strict c) (rest : c.prog t = .ret ()) {sl : Slot}
    (found : c.state.slots b = some sl) (holder : sl.holder = .thread t) :
    ∃ th, c.state.tls t = .alive th := by
  rcases (Good.resting fine rest).holds with ⟨th,_,_,_,alive,_⟩ | bare
  · exact ⟨th,alive⟩
  · exact (bare.loose.mpr ⟨_,view_block_some found holder⟩).elim

/-- The lists of a thread's cache, with the blocks in them. -/
theorem World.Fine.lists (fine : Fine P strict c) {th : PerThreadHeap}
    (alive : c.state.tls t = .alive th) : ∃ L S : Nat → List Nat,
      (∀ cls, c.state.Spells (th.freelists cls).head (L cls)) ∧
      (∀ cls, c.state.Spells (th.freelists cls).spare (S cls)) ∧
      (∀ cls, (L cls ++ S cls).Nodup) ∧
      (∀ cls, ∀ b ∈ L cls ++ S cls, ∃ sl, c.state.slots b = some sl ∧ sl.holder = .thread t ∧
        sl.ref = ⟨th.globalHeap.addr,th.nodeId,cls⟩) ∧
      (c.prog t = .ret () → ∀ b sl, c.state.slots b = some sl → sl.holder = .thread t →
        b ∈ L sl.cls ++ S sl.cls) := by
  obtain ⟨L,S,C,cached,all⟩ : ∃ L S C, Cached strict (c.state.view t) th L S C ∧
      (c.prog t = .ret () → ∀ b, (∃ B, (c.state.view t).blocks b = some B) →
        ∃ cls, b ∈ L cls ++ S cls) := by
    by_cases rest : c.prog t = .ret ()
    · rcases (Good.resting fine rest).holds with ⟨th',L,S,C,alive',stock⟩ | bare
      · obtain rfl := ThreadHeapSlot.alive.inj (alive.symm.trans alive')
        refine ⟨L,S,C,stock.cached,fun _ b held => ?_⟩
        by_contra out
        exact (stock.loose.mpr ⟨held,not_exists.mp out⟩).elim
      · exact absurd alive (bare.slot th)
    · obtain ⟨L,S,C,cached⟩ := (fine.always t).2 th alive
      exact ⟨L,S,C,cached,fun now => absurd now rest⟩
  have facts := fine.inv.cached cached
  refine ⟨L,S,fun cls => (facts cls).1,fun cls => (facts cls).2.1,cached.nodup,
    fun cls => (facts cls).2.2,fun rest b sl found holder => ?_⟩
  obtain ⟨cls,mem⟩ := all rest b ⟨_,view_block_some found holder⟩
  obtain ⟨sl',found',_,ref⟩ := (facts cls).2.2 b mem
  obtain rfl := Option.some.inj (found.symm.trans found')
  obtain rfl : sl.cls = cls := congrArg StackRef.cls ref
  exact mem

/-- The stack of a node and class spells the blocks it holds. -/
theorem Inv.stack (inv : Inv P s) {h : Nat} {sh : SharedHeap} (found : s.heaps h = some sh)
    (refs : sh.refs ≠ []) {n cls : Nat} (node : n < sh.heap.numNodes) (small : cls < numSizeClasses) :
    ∃ l, s.Spells (TreiberStack.unpack (sh.head n cls)).1 l ∧
      ∀ b, b ∈ l ↔ ∃ sl, s.slots b = some sl ∧ sl.holder = .stack ⟨h,n,cls⟩ := by
  obtain ⟨l,chain,nodup,mem⟩ := inv.nodes.chain found refs node small
  exact ⟨l,inv.spells chain nodup,mem⟩

/-! Where a block is, by who holds it. -/

/-- The place of a block of a bag, given its record. -/
structure Filed (c : World P strict) (bag : Bag) (b : Nat) (sl : Slot) : Prop where
  fine : Fine P strict c
  found : c.state.slots b = some sl
  ref : sl.ref = ⟨bag.heap,bag.node,bag.cls⟩

namespace Filed

variable {sl : Slot} {place : Place}

/-- A thread's block is in one of its places. -/
theorem kept (filed : Filed c bag b sl) {t : Nat} (holder : sl.holder = .thread t) :
    c.At bag b (.counted t) ∨ c.At bag b (.spare t) ∨ c.At bag b (.operation t) := by
  obtain ⟨fine,found,ref⟩ := filed
  have cls : sl.cls = bag.cls := congrArg StackRef.cls ref
  have held : c.state.heldBy t b = true := by simp [State.heldBy,found,holder]
  by_cases listed : ∃ th l, c.state.tls t = .alive th ∧ b ∈ l ∧
      (c.state.Spells (th.freelists bag.cls).head l ∨ c.state.Spells (th.freelists bag.cls).spare l)
  · obtain ⟨th,l,alive,mem,spells | spells⟩ := listed
    · exact Or.inl ⟨th,l,alive,spells,mem⟩
    · exact Or.inr (Or.inl ⟨th,l,alive,spells,mem⟩)
  · refine Or.inr (Or.inr ⟨fun rest => listed ?_,held,fun th l alive mem => ?_⟩)
    · obtain ⟨th,alive⟩ := World.Fine.resting fine rest found holder
      obtain ⟨L,S,counted,spare,_,_,all⟩ := World.Fine.lists fine alive
      have mem := all rest b sl found holder
      rw [cls] at mem
      rcases List.mem_append.mp mem with mem | mem
      · exact ⟨th,_,alive,mem,Or.inl (counted bag.cls)⟩
      · exact ⟨th,_,alive,mem,Or.inr (spare bag.cls)⟩
    · exact ⟨fun spells => listed ⟨th,l,alive,mem,Or.inl spells⟩,
        fun spells => listed ⟨th,l,alive,mem,Or.inr spells⟩⟩

theorem placed (filed : Filed c bag b sl) {i : Nat} (owns : c.state.Owns i bag) :
    ∃ place, c.At bag b place := by
  obtain ⟨fine,found,ref⟩ := filed
  obtain ⟨I,x,hi,hx,addr⟩ := owns
  simp only [Slot.ref,StackRef.mk.injEq] at ref
  obtain ⟨heap,node,cls⟩ := ref
  cases holder : sl.holder with
  | user => exact ⟨.user,fine.inv.live.ofSlot found holder hi hx (addr.trans heap.symm)⟩
  | stack k =>
    have key := fine.inv.nodes.ref found holder
    obtain ⟨sh,at_,refs,nodes,small,_⟩ := fine.inv.slots.ok found
    obtain ⟨l,spells,mem⟩ := fine.inv.stack at_ refs nodes small
    refine ⟨.stack,sh,l,heap ▸ at_,node ▸ cls ▸ spells,(mem b).mpr ⟨sl,found,?_⟩⟩
    rw [holder,← key,Slot.ref]
  | thread t =>
    have filed : Filed c bag b sl := ⟨fine,found,by simp only [Slot.ref,heap,node,cls]⟩
    rcases filed.kept holder with at_ | at_ | at_
    · exact ⟨_,at_⟩
    · exact ⟨_,at_⟩
    · exact ⟨_,at_⟩

/-- What being in a place says about the record of the block. -/
theorem holder (filed : Filed c bag b sl) (at_ : c.At bag b place) : match place with
    | .user => sl.holder = .user
    | .counted t => sl.holder = .thread t
    | .spare t => sl.holder = .thread t
    | .stack => sl.holder = .stack sl.ref
    | .operation t => sl.holder = .thread t := by
  obtain ⟨fine,found,ref⟩ := filed
  cases place with
  | user =>
    obtain ⟨a,live,source,rfl⟩ := at_
    have backed := fine.inv.live.backed live
    simp only [Backed,source] at backed
    obtain ⟨sl',_,_,found',user,_⟩ := backed
    obtain rfl := Option.some.inj (found.symm.trans found')
    exact user
  | counted t =>
    obtain ⟨th,l,alive,spells,mem⟩ := at_
    obtain ⟨L,S,counted,_,_,held,_⟩ := World.Fine.lists fine alive
    obtain rfl := spells.unique (counted bag.cls)
    obtain ⟨sl',found',holder,_⟩ := held bag.cls b (List.mem_append_left _ mem)
    obtain rfl := Option.some.inj (found.symm.trans found')
    exact holder
  | spare t =>
    obtain ⟨th,l,alive,spells,mem⟩ := at_
    obtain ⟨L,S,_,spare,_,held,_⟩ := World.Fine.lists fine alive
    obtain rfl := spells.unique (spare bag.cls)
    obtain ⟨sl',found',holder,_⟩ := held bag.cls b (List.mem_append_right _ mem)
    obtain rfl := Option.some.inj (found.symm.trans found')
    exact holder
  | stack =>
    obtain ⟨sh,l,at_,spells,mem⟩ := at_
    obtain ⟨sh',at',refs,nodes,small,_⟩ := fine.inv.slots.ok found
    simp only [Slot.ref,StackRef.mk.injEq] at ref
    obtain ⟨heap,node,cls⟩ := ref
    rw [heap] at at'
    rw [node] at nodes
    rw [cls] at small
    obtain rfl := Option.some.inj (at_.symm.trans at')
    obtain ⟨l',spells',mem'⟩ := fine.inv.stack at_ refs nodes small
    obtain rfl := spells.unique spells'
    obtain ⟨sl',found',holder⟩ := (mem' b).mp mem
    obtain rfl := Option.some.inj (found.symm.trans found')
    simp only [holder,Slot.ref,heap,node,cls]
  | operation t =>
    obtain ⟨_,held,_⟩ := at_
    simpa [State.heldBy,found] using held

theorem unique (filed : Filed c bag b sl) {place' : Place} (at_ : c.At bag b place)
    (at' : c.At bag b place') : place = place' := by
  have left := filed.holder at_
  have right := filed.holder at'
  -- the two lists of a thread share no block
  have apart : ∀ {t}, c.At bag b (.counted t) → ¬c.At bag b (.spare t) := by
    rintro t ⟨th,l,alive,spells,mem⟩ ⟨th',l',alive',spells',mem'⟩
    obtain rfl := ThreadHeapSlot.alive.inj (alive.symm.trans alive')
    obtain ⟨L,S,counted,spare,nodup,_⟩ := World.Fine.lists filed.fine alive
    obtain rfl := spells.unique (counted bag.cls)
    obtain rfl := spells'.unique (spare bag.cls)
    exact (List.nodup_append.mp (nodup bag.cls)).2.2 b mem b mem' rfl
  cases place <;> cases place' <;> simp only [left,Holder.thread.injEq,reduceCtorEq] at right <;>
    try subst right
  case user.user | stack.stack | counted.counted | spare.spare | operation.operation => rfl
  case counted.spare => exact absurd at' (apart at_)
  case spare.counted => exact absurd at_ (apart at')
  case counted.operation =>
    obtain ⟨th,l,alive,spells,mem⟩ := at_
    exact absurd spells (at'.2.2 th l alive mem).1
  case spare.operation =>
    obtain ⟨th,l,alive,spells,mem⟩ := at_
    exact absurd spells (at'.2.2 th l alive mem).2
  case operation.counted =>
    obtain ⟨th,l,alive,spells,mem⟩ := at'
    exact absurd spells (at_.2.2 th l alive mem).1
  case operation.spare =>
    obtain ⟨th,l,alive,spells,mem⟩ := at'
    exact absurd spells (at_.2.2 th l alive mem).2

end Filed

/-! Bags stay carved while their allocator exists. -/

theorem World.Fine.owns_step {label : Label} {i : Nat} (fine : Fine P strict c)
    (step : c.advance label = some c') (mem : bag ∈ c.state.bags) (owns : c.state.Owns i bag)
    (exists_ : (c'.state.insts i).isSome) : bag ∈ c'.state.bags ∧ c'.state.Owns i bag := by
  have steady := World.Fine.steady fine step
  have inv := (World.Fine.advance fine step).inv
  obtain ⟨I,x,hi,hx,addr⟩ := owns
  have after : c'.state.Owns i bag := by
    rcases steady.heaps hi hx with gone | ⟨I',hi',hx'⟩
    · simp [gone] at exists_
    · exact ⟨I',x,hi',hx',addr⟩
  refine ⟨?_,after⟩
  rcases steady.bags mem with kept | ⟨t,dying⟩
  · exact kept
  · obtain ⟨I',x',hi',hx',addr'⟩ := after
    obtain ⟨own,sh,found,_⟩ := inv.heaps.instHeap hi' hx'
    obtain ⟨sh',found',empty⟩ := inv.heaps.dyingHeap dying
    rw [addr'] at found
    obtain rfl := Option.some.inj (found.symm.trans found')
    have ref : Ref.inst i ∈ sh.refs := (inv.heaps.refInst found).mpr ⟨I',hi',by rw [hx',← addr',← own]⟩
    simp [empty] at ref

theorem World.Fine.owns_run {schedule : List Label} {i : Nat} (fine : Fine P strict c)
    (run : c.execute schedule = some c') (mem : bag ∈ c.state.bags) (owns : c.state.Owns i bag)
    (exists_ : (c'.state.insts i).isSome) : bag ∈ c'.state.bags ∧ c'.state.Owns i bag := by
  induction schedule generalizing c with
  | nil =>
    obtain rfl := Option.some.inj run
    exact ⟨mem,owns⟩
  | cons label rest ih =>
    obtain ⟨c₁,step,run⟩ := Option.bind_eq_some_iff.mp run
    have fine₁ := World.Fine.advance fine step
    obtain ⟨I,x,hi,_⟩ := owns
    have old : i < c₁.state.nextInst := by
      refine lt_of_lt_of_le ?_ (World.Fine.steady fine step).nextInst
      by_contra le
      simp [fine.inv.heaps.instFresh (Nat.le_of_not_lt le)] at hi
    have before := World.Fine.inst_run fine₁ run old exists_
    obtain ⟨mem₁,owns₁⟩ := World.Fine.owns_step fine step mem ⟨I,x,hi,by assumption⟩ before
    exact ih fine₁ run mem₁ owns₁

/-- Every chain the program follows is terminated and visits no block twice. -/
structure WellChained (s : State) : Prop where
  nodes : ∀ {h sh}, s.heaps h = some sh → sh.references ≠ 0 → ∀ node < sh.heap.numNodes,
    ∀ cls < numSizeClasses, ∃ l, s.Spells (TreiberStack.unpack (sh.head node cls)).1 l
  counted : ∀ {t th}, s.tls t = .alive th → ∀ cls, ∃ l, s.Spells (th.freelists cls).head l
  spare : ∀ {t th}, s.tls t = .alive th → ∀ cls, ∃ l, s.Spells (th.freelists cls).spare l

theorem World.Fine.wellChained (fine : Fine P strict c) : WellChained c.state where
  nodes found count node nodes cls small := by
    have refs := (fine.inv.heaps.count found).1
    obtain ⟨l,spells,_⟩ := fine.inv.stack found (fun empty => count (by simp [refs,empty])) nodes small
    exact ⟨l,spells⟩
  counted alive cls := by
    obtain ⟨L,_,counted,_⟩ := World.Fine.lists fine alive
    exact ⟨_,counted cls⟩
  spare alive cls := by
    obtain ⟨_,S,_,spare,_⟩ := World.Fine.lists fine alive
    exact ⟨_,spare cls⟩

/-- At every step of every run, each object of each bag that was ever carved is in exactly
one place for as long as its allocator exists, and no chain is broken. -/
theorem blocks_partitioned {c₀ : World P strict} (reachable : c₀.Reachable) {schedule : List Label}
    (run : c₀.execute schedule = some c) :
    (∀ bag ∈ c₀.state.bags, ∀ inst, c₀.state.Owns inst bag → (c.state.insts inst).isSome →
      ∀ i < objectsPerBag bag.cls, ∃! place, c.At bag (bag.addr + i * sizeForClass bag.cls) place) ∧
    WellChained c.state := by
  have fine₀ := World.Reachable.fine reachable
  have fine := World.Fine.execute fine₀ run
  refine ⟨fun bag carved inst owns exists_ i object => ?_,World.Fine.wellChained fine⟩
  obtain ⟨mem,owns'⟩ := World.Fine.owns_run fine₀ run carved owns exists_
  have small := fine.inv.slots.bagCls mem
  have has : bag.HasSlot (bag.addr + i * sizeForClass bag.cls) := by
    rw [← Bag.mem_objects small]
    exact List.mem_map.mpr ⟨i,List.mem_range.mpr object,rfl⟩
  obtain ⟨holder,found⟩ := fine.inv.slots.bag mem has
  have filed : Filed c bag _ _ := ⟨fine,found,rfl⟩
  obtain ⟨place,at_⟩ := filed.placed owns'
  exact ⟨place,at_,fun place' at' => filed.unique at' at_⟩

theorem sample_partitioned : ∃ c : World Sample.platform false,
    (World.initial fun _ => 0).execute Sample.schedule = some c ∧
    c.state.bags.map Bag.addr = [262144] ∧
    (∀ bag ∈ c.state.bags, ∀ inst, c.state.Owns inst bag → (c.state.insts inst).isSome →
      ∀ i < objectsPerBag bag.cls, ∃! place, c.At bag (bag.addr + i * sizeForClass bag.cls) place) ∧
    WellChained c.state := by
  obtain ⟨c,run,_,bags⟩ := Sample.run
  have runs : c.execute [] = some c := rfl
  exact ⟨c,run,bags,blocks_partitioned ⟨_,_,run⟩ runs⟩

end Numalloc
