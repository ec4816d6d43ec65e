import Numalloc.Growth
import Numalloc.Isolation
import Mathlib.Algebra.BigOperators.Group.Finset.Basic
import Mathlib.Algebra.Order.BigOperators.Group.Finset

/-! What stays mapped between operations: the reservations of the allocators, the mappings
behind large objects in use, and what the caches keep. Once every thread is gone and
everything is freed, that is the reservations alone. -/
namespace Numalloc

open Concurrent View

variable {P : Platform} {strict : Bool} {c : World P strict} {s : State} {t : Nat}

/-! No leak. -/

/-- Nothing is lost: each mapping was unmapped exactly once or is the reservation of an
allocator, each heap is referred to by its allocator only, and each object of each bag is
on the stack of its node and class. -/
structure Recovered (c : World P strict) : Prop where
  maps : ∀ id < c.state.nextMap, (c.state.maps id = none ∧ c.state.unmaps id = 1) ∨
    ∃ m i h, c.state.maps id = some m ∧ m.use = .heap i ∧ c.state.OwnHeap i h
  heaps : ∀ {h sh}, c.state.heaps h = some sh →
    sh.references = 1 ∧ c.state.OwnHeap sh.inst ⟨h,sh.inst⟩
  lists : ∀ {h sh n cls}, c.state.heaps h = some sh → n < sh.heap.numNodes →
    cls < numSizeClasses → ∃ l, c.state.Spells (TreiberStack.unpack (sh.head n cls)).1 l ∧
      ∀ b, b ∈ l ↔ ∃ bag ∈ c.state.bags, bag.heap = h ∧ bag.node = n ∧ bag.cls = cls ∧ bag.HasSlot b
  ended : (∀ i, c.state.insts i = none) →
    (∀ id, c.state.maps id = none) ∧ ∀ h, c.state.heaps h = none

namespace World.Fine

/-- Between operations, without caches, a heap is referred to by its allocator alone. -/
theorem sole_reference (fine : Fine P strict c) (rest : ∀ t, c.prog t = .ret ())
    (exited : ∀ t th, c.state.tls t ≠ .alive th) {h : Nat} {sh : SharedHeap}
    (found : c.state.heaps h = some sh) :
    sh.refs = [.inst sh.inst] ∧ c.state.OwnHeap sh.inst ⟨h,sh.inst⟩ := by
  have idle : ∀ t, Idle P strict (c.state.view t) := fun t => Good.resting fine (rest t)
  have only : ∀ ref ∈ sh.refs, ref = .inst sh.inst ∧ c.state.OwnHeap sh.inst ⟨h,sh.inst⟩ := by
    intro ref mem
    cases ref with
    | inst i =>
      obtain ⟨I,known,named⟩ := (fine.inv.heaps.refInst found).mp mem
      obtain ⟨_,sh',found',inst⟩ := fine.inv.heaps.instHeap known named
      obtain rfl := Option.some.inj (found.symm.trans found')
      subst inst
      exact ⟨rfl,rfl,I,known,named⟩
    | slot t =>
      obtain ⟨th,alive,_⟩ := (fine.inv.heaps.refSlot found).mp mem
      exact absurd alive (exited t th)
    | op t =>
      obtain ⟨x,hand,_⟩ := (fine.inv.heaps.refOp found).mp mem
      have free := (idle t).hand
      simp only [State.view,hand,reduceCtorEq] at free
  have distinct := (fine.inv.heaps.count found).2
  cases refs : sh.refs with
  | nil =>
    obtain ⟨t,dying⟩ := fine.inv.heaps.dead found refs
    have none_ := (idle t).dying
    simp only [State.view,dying,reduceCtorEq] at none_
  | cons ref rest' =>
    rw [refs] at only distinct
    obtain ⟨same,own⟩ := only ref List.mem_cons_self
    have last : rest' = [] := by
      refine List.eq_nil_iff_forall_not_mem.mpr fun ref' mem => ?_
      have again := (only ref' (List.mem_cons_of_mem _ mem)).1
      exact (List.nodup_cons.mp distinct).1 (same.trans again.symm ▸ mem)
    exact ⟨by rw [same,last],own⟩

/-- Between operations, without caches and with nothing in use, a block is on its stack. -/
theorem block_stacked (fine : Fine P strict c) (rest : ∀ t, c.prog t = .ret ())
    (exited : ∀ t th, c.state.tls t ≠ .alive th) (freed : c.state.live = []) {b : Nat} {sl : Slot}
    (found : c.state.slots b = some sl) : sl.holder = .stack sl.ref := by
  cases holder : sl.holder with
  | stack k => rw [fine.inv.nodes.ref found holder]
  | thread t =>
    obtain ⟨th,alive⟩ := World.Fine.resting fine (rest t) found holder
    exact absurd alive (exited t th)
  | user =>
    obtain ⟨sh,heap,_⟩ := fine.inv.slots.ok found
    obtain ⟨_,_,I,known,named⟩ := sole_reference fine rest exited heap
    obtain ⟨a,live,_⟩ := fine.inv.live.ofSlot found holder known named rfl
    simp [freed] at live

/-- A mapping that is left is the reservation of an allocator. -/
theorem map_reserved (fine : Fine P strict c) (rest : ∀ t, c.prog t = .ret ())
    (exited : ∀ t th, c.state.tls t ≠ .alive th) (freed : c.state.live = []) {id : Nat} {m : Mapping}
    (found : c.state.maps id = some m) : ∃ i h, m.use = .heap i ∧ c.state.OwnHeap i h := by
  cases use : m.use with
  | heap i =>
    obtain ⟨h,sh,heap,rfl,_⟩ := fine.inv.heaps.mapHeap found use
    exact ⟨_,_,rfl,(sole_reference fine rest exited heap).2⟩
  | large i =>
    cases holder : m.holder with
    | heap => exact absurd holder (fine.inv.heaps.mapLarge found use).1
    | user =>
      obtain ⟨a,live,_⟩ := fine.inv.live.ofMap found holder
      simp [freed] at live
    | thread t =>
      obtain ⟨th,alive,_⟩ := resting_map fine (rest t) found holder
      exact absurd alive (exited t th)

end World.Fine

/-- When all threads are through and gone and everything is freed, nothing is lost. -/
theorem nothing_leaks (reachable : c.Reachable) (rest : ∀ t, c.prog t = .ret ())
    (exited : ∀ t th, c.state.tls t ≠ .alive th) (freed : c.state.live = []) : Recovered c := by
  have fine := World.Reachable.fine reachable
  have inv := fine.inv
  refine ⟨fun id old => ?_,fun {h sh} found => ?_,fun {h sh n cls} found node small => ?_,fun gone => ?_⟩
  · cases found : c.state.maps id with
    | none => exact Or.inl ⟨rfl,inv.maps.gone old found⟩
    | some m =>
      obtain ⟨i,h,use,own⟩ := World.Fine.map_reserved fine rest exited freed found
      exact Or.inr ⟨m,i,h,rfl,use,own⟩
  · obtain ⟨refs,own⟩ := World.Fine.sole_reference fine rest exited found
    exact ⟨by rw [(inv.heaps.count found).1,refs]; rfl,own⟩
  · have refs : sh.refs ≠ [] := by simp [(World.Fine.sole_reference fine rest exited found).1]
    obtain ⟨l,spells,mem⟩ := inv.stack found refs node small
    refine ⟨l,spells,fun b => (mem b).trans ⟨?_,?_⟩⟩
    · rintro ⟨sl,slot,holder⟩
      have ref := inv.nodes.ref slot holder
      obtain ⟨bag,carved,has,heap,node',cls'⟩ := inv.slots.bagOf slot
      exact ⟨bag,carved,heap.trans (congrArg StackRef.heap ref),node'.trans (congrArg StackRef.node ref),
        cls'.trans (congrArg StackRef.cls ref),has⟩
    · rintro ⟨bag,carved,rfl,rfl,rfl,has⟩
      obtain ⟨hd,slot⟩ := inv.slots.bag carved has
      exact ⟨_,slot,World.Fine.block_stacked fine rest exited freed slot⟩
  · refine ⟨fun id => ?_,fun h => ?_⟩
    · cases found : c.state.maps id with
      | none => rfl
      | some m =>
        obtain ⟨i,h,_,_,I,known,_⟩ := World.Fine.map_reserved fine rest exited freed found
        simp [gone i] at known
    · cases found : c.state.heaps h with
      | none => rfl
      | some sh =>
        obtain ⟨_,_,I,known,_⟩ := World.Fine.sole_reference fine rest exited found
        simp [gone sh.inst] at known

/-- A thread that takes no part in a run sees nothing of it. -/
theorem World.Fine.view_run {c' : World P strict} {schedule : List Label} (fine : Fine P strict c)
    (run : c.execute schedule = some c') (silent : ∀ label ∈ schedule, label.thread ≠ some t) :
    c'.state.view t = c.state.view t := by
  induction schedule generalizing c with
  | nil => exact Option.some.inj run ▸ rfl
  | cons label rest ih =>
    obtain ⟨c₁,step,run⟩ := Option.bind_eq_some_iff.mp run
    have first := silent label List.mem_cons_self
    rw [ih (World.Fine.advance fine step) run fun label mem => silent label (List.mem_cons_of_mem _ mem)]
    clear ih silent run
    cases label with
    | step u ch => exact (World.Fine.frame fine step fun same => first (same ▸ rfl)).2
    | start u request =>
      have ne : t ≠ u := fun same => first (same ▸ rfl)
      cases ready : c.prog u with
      | ret a =>
        simp only [World.advance,ready,Option.map_eq_some_iff] at step
        obtain ⟨s,run,rfl⟩ := step
        have idle := Good.resting fine ready
        exact (fine.inv.start idle.pin idle.hand run).2.2 t ne
      | act x k => simp [World.advance,ready] at step
      | loop body i k => simp [World.advance,ready] at step
    | write addr value =>
      simp only [World.advance,Option.ite_none_right_eq_some,Option.some.injEq] at step
      obtain ⟨writable,rfl⟩ := step
      exact (callerWrite_kept value fine.inv writable).2 t
    | create numNodes regionSize =>
      obtain rfl := Option.some.inj step
      rfl

namespace Sample

/-- After its two allocations thread 1 frees both, and exits. -/
def leaving : List Label :=
  schedule ++ [.start 1 (.dealloc 0 278528 (layout 16384 small_bound))] ++ go 1 10 ++
    [.start 1 (.dealloc 0 8192016 (layout 262145 large_bound))] ++ go 1 9 ++ [.start 1 .exit] ++ go 1 8

/-- Where only thread 1 takes part, the others are at rest and have no cache. -/
theorem others_idle {c : World platform false} {schedule : List Label}
    (run : (World.initial fun _ => 0).execute schedule = some c)
    (alone : ∀ label ∈ schedule, label.thread = none ∨ label.thread = some 1)
    (through : idle (c.prog 1) = true) :
    (∀ t, c.prog t = .ret ()) ∧ ∀ t, t ≠ 1 → c.state.tls t = .empty := by
  have silent : ∀ {t}, t ≠ 1 → ∀ label ∈ schedule, label.thread ≠ some t := by
    intro t ne label mem same
    rcases alone label mem with none_ | one
    · simp [none_] at same
    · exact ne (Option.some.inj (same.symm.trans one))
  refine ⟨fun t => ?_,fun t ne => ?_⟩
  · by_cases one : t = 1
    · exact one ▸ idle_ret through
    · exact World.prog_run run (silent one)
  · exact congrArg View.slot (World.Fine.view_run (World.initial_fine _) run (silent ne))

def bare : ThreadHeapSlot → Bool
  | .alive _ => false
  | _ => true

theorem bare_ne {slot : ThreadHeapSlot} (h : bare slot = true) (th : PerThreadHeap) :
    slot ≠ .alive th := by
  rintro rfl
  cases h

end Sample

set_option maxRecDepth 8000 in
theorem sample_nothing_leaks : ∃ c : World Sample.platform false,
    (World.initial fun _ => 0).execute Sample.leaving = some c ∧ c.state.nextMap = 2 ∧
    c.state.bags.map Bag.addr = [262144] ∧ Recovered c := by
  have ends : ((World.initial fun _ => 0 : World Sample.platform false).execute Sample.leaving).map
      (fun c => ((Sample.idle (c.prog 1),Sample.bare (c.state.tls 1),c.state.live.length),
        c.state.nextMap,c.state.bags.map Bag.addr)) = some ((true,true,0),2,[262144]) := by decide +kernel
  obtain ⟨c,run,eq⟩ := Option.map_eq_some_iff.mp ends
  obtain ⟨first,made,bags⟩ := Prod.mk.inj eq |>.imp_right Prod.mk.inj
  obtain ⟨idle,bare,freed⟩ := Prod.mk.inj first |>.imp_right Prod.mk.inj
  obtain ⟨rest,empty⟩ := Sample.others_idle run (by decide) idle
  have exited : ∀ t th, c.state.tls t ≠ .alive th := by
    intro t th
    by_cases one : t = 1
    · exact one ▸ Sample.bare_ne bare th
    · simp [empty t one]
  exact ⟨c,run,made,bags,nothing_leaks ⟨_,_,run⟩ rest exited (List.length_eq_zero_iff.mp freed)⟩

/-! Retained memory. -/

/-- Bytes of mapping `id`, if it was made for a large object. -/
def State.largeSize (s : State) (id : Nat) : Nat :=
  match s.maps id with
  | some m => match m.use with
    | .large _ => m.size
    | .heap _ => 0
  | none => 0

/-- All that is mapped for large objects. -/
def State.largeBytes (s : State) : Nat := ∑ id ∈ Finset.range s.nextMap, s.largeSize id

/-- The part of it in the hands of `holder`. -/
def State.heldSize (s : State) (holder : MapHolder) (id : Nat) : Nat :=
  if (s.maps id).map Mapping.holder = some holder then s.largeSize id else 0

def Alloc.mapping (a : Alloc) : Option Nat :=
  match a.source with
  | .mapping id => some id
  | _ => none

/-- Bytes mapped behind an allocation of its own mapping. -/
def State.backing (s : State) (a : Alloc) : Nat := a.mapping.elim 0 s.largeSize

/-- What a mapping of its own may take for the layout of an allocation. -/
def Alloc.allowance (P : Platform) (a : Alloc) : Nat :=
  a.mapping.elim 0 fun _ => (largeAllocSize P a.layout).getD 0 + LargeCache.closeSizeTolerance

def ThreadHeapSlot.cachedBytes : ThreadHeapSlot → Nat
  | .alive th => th.largeCache.bytes
  | _ => 0

/-- A sum over a range, by a list of all that counts in it. -/
theorem sum_range_list {f : Nat → Nat} {n : Nat} {l : List Nat} (nodup : l.Nodup)
    (below : ∀ i ∈ l, i < n) (out : ∀ i, i ∉ l → f i = 0) : ∑ i ∈ Finset.range n, f i = (l.map f).sum := by
  rw [← List.sum_toFinset f nodup]
  symm
  refine Finset.sum_subset (fun i mem => ?_) fun i _ absent => ?_
  · exact Finset.mem_range.mpr (below i (List.mem_toFinset.mp mem))
  · exact out i fun mem => absent (List.mem_toFinset.mpr mem)

theorem sum_elim {α : Type} {f : Nat → Nat} {g : α → Option Nat} (l : List α) :
    (l.map fun a => (g a).elim 0 f).sum = ((l.filterMap g).map f).sum := by
  induction l with
  | nil => rfl
  | cons a l ih =>
    cases at_ : g a with
    | none => simp [at_,ih]
    | some i => simp [at_,ih]

theorem mapping_source {a : Alloc} {id : Nat} (at_ : a.mapping = some id) : a.source = .mapping id := by
  unfold Alloc.mapping at at_
  split at at_
  case h_1 source => rw [source,Option.some.inj at_]
  case h_2 => cases at_

theorem Inv.mapping_backed (inv : Inv P s) {a : Alloc} (live : a ∈ s.live) {id : Nat}
    (at_ : a.mapping = some id) : ∃ m, s.maps id = some m ∧ m.holder = .user ∧
      m.use = .large a.inst ∧ Placed P m a.ptr a.layout := by
  have backed := inv.live.backed live
  simp only [Backed,mapping_source at_] at backed
  obtain ⟨m,found,holder,use,_,placed⟩ := backed
  exact ⟨m,found,holder,use,placed⟩

/-- The caller's part is what backs its allocations. -/
theorem Inv.user_bytes (inv : Inv P s) :
    ∑ id ∈ Finset.range s.nextMap, s.heldSize .user id = (s.live.map s.backing).sum := by
  have distinct : (s.live.filterMap Alloc.mapping).Nodup := by
    refine List.pairwise_filterMap.mpr (inv.live.distinct.imp fun {a a'} keys id at_ id' at' same => ?_)
    subst same
    exact keys (by simp [Alloc.key,mapping_source at_,mapping_source at'])
  have held : ∀ id ∈ s.live.filterMap Alloc.mapping, s.heldSize .user id = s.largeSize id ∧ id < s.nextMap := by
    intro id mem
    obtain ⟨a,live,at_⟩ := List.mem_filterMap.mp mem
    obtain ⟨m,found,holder,_⟩ := inv.mapping_backed live at_
    exact ⟨by simp [State.heldSize,found,holder],inv.maps.old found⟩
  rw [sum_range_list distinct (fun id mem => (held id mem).2) fun id out => ?_]
  · rw [show s.live.map s.backing = s.live.map fun a => a.mapping.elim 0 s.largeSize from rfl,sum_elim]
    exact congrArg List.sum (List.map_congr_left fun id mem => (held id mem).1)
  · refine if_neg fun at_ => ?_
    obtain ⟨m,found,holder⟩ := Option.map_eq_some_iff.mp at_
    obtain ⟨a,live,source⟩ := inv.live.ofMap found holder
    exact out (List.mem_filterMap.mpr ⟨a,live,by simp [Alloc.mapping,source]⟩)

namespace World.Fine

/-- The part of a thread between operations is what its cache keeps. -/
theorem cached_bytes (fine : Fine P strict c) (rest : c.prog t = .ret ()) :
    ∑ id ∈ Finset.range c.state.nextMap, c.state.heldSize (.thread t) id =
      (c.state.tls t).cachedBytes := by
  rcases (Good.resting fine rest).holds with ⟨th,L,S,C,alive,stock⟩ | bare
  · have alive : c.state.tls t = .alive th := alive
    have sizes : C.map (c.state.heldSize (.thread t)) = th.largeCache.entries.map LargeCacheEntry.allocSize := by
      have large := stock.cached.large
      clear stock
      generalize th.largeCache.entries = entries at large
      induction large with
      | nil => rfl
      | cons parked _ ih =>
        obtain ⟨m,held,_,size,use,_⟩ := parked
        obtain ⟨found,holder⟩ := view_map.mp held
        rw [List.map_cons,List.map_cons,ih]
        simp [State.heldSize,State.largeSize,found,holder,use,size]
    rw [sum_range_list stock.cached.ids (fun id mem => ?_) fun id out => ?_,sizes,alive]
    · exact stock.cached.cache.bytes.symm
    · obtain ⟨_,_,m,held,_⟩ := stock.cached.parked mem
      exact fine.inv.maps.old (view_map.mp held).1
    · refine if_neg fun at_ => ?_
      obtain ⟨m,found,holder⟩ := Option.map_eq_some_iff.mp at_
      exact (stock.looseMap.mpr ⟨⟨m,view_map.mpr ⟨found,holder⟩⟩,out⟩).elim
  · have none_ : (c.state.tls t).cachedBytes = 0 := by
      cases slot : c.state.tls t with
      | alive th => exact absurd slot (bare.slot th)
      | empty => rfl
      | destroyed => rfl
    rw [none_]
    refine Finset.sum_eq_zero fun id _ => if_neg fun at_ => ?_
    obtain ⟨m,found,holder⟩ := Option.map_eq_some_iff.mp at_
    exact (bare.looseMap.mpr ⟨m,view_map.mpr ⟨found,holder⟩⟩).elim

/-- Each large mapping is in one part. -/
theorem large_parts (fine : Fine P strict c) (rest : ∀ t, c.prog t = .ret ()) {T : Finset Nat}
    (all : ∀ t th, c.state.tls t = .alive th → t ∈ T) (id : Nat) : c.state.largeSize id =
      c.state.heldSize .user id + ∑ t ∈ T, c.state.heldSize (.thread t) id := by
  cases found : c.state.maps id with
  | none => simp [State.largeSize,State.heldSize,found]
  | some m =>
    cases use : m.use with
    | heap i => simp [State.largeSize,State.heldSize,found,use]
    | large i =>
      cases holder : m.holder with
      | heap => exact absurd holder (fine.inv.heaps.mapLarge found use).1
      | user => simp [State.heldSize,found,holder]
      | thread u =>
        obtain ⟨th,alive,_⟩ := resting_map fine (rest u) found holder
        have only : ∑ t ∈ T, c.state.heldSize (.thread t) id = c.state.heldSize (.thread u) id :=
          Finset.sum_eq_single_of_mem u (all u th alive) fun t _ ne => by
            simp [State.heldSize,found,holder,ne.symm]
        rw [only]
        simp [State.heldSize,found,holder]

end World.Fine

/-- Between operations, what is mapped for large objects is what backs those in use and
what the caches keep: no more than the caller's objects need, a fixed slack for each, and a
fixed amount for each cache. -/
theorem retained_bytes (reachable : c.Reachable) (rest : ∀ t, c.prog t = .ret ()) {T : Finset Nat}
    (all : ∀ t th, c.state.tls t = .alive th → t ∈ T) :
    c.state.largeBytes =
      (c.state.live.map c.state.backing).sum + ∑ t ∈ T, (c.state.tls t).cachedBytes ∧
    c.state.largeBytes ≤ (c.state.live.map (Alloc.allowance P)).sum + T.card * maxLargeCacheBytes := by
  have fine := World.Reachable.fine reachable
  have parts : c.state.largeBytes =
      (c.state.live.map c.state.backing).sum + ∑ t ∈ T, (c.state.tls t).cachedBytes := by
    calc c.state.largeBytes
        = ∑ id ∈ Finset.range c.state.nextMap, (c.state.heldSize .user id +
            ∑ t ∈ T, c.state.heldSize (.thread t) id) :=
          Finset.sum_congr rfl fun id _ => World.Fine.large_parts fine rest all id
      _ = (c.state.live.map c.state.backing).sum +
            ∑ t ∈ T, ∑ id ∈ Finset.range c.state.nextMap, c.state.heldSize (.thread t) id := by
          rw [Finset.sum_add_distrib,Finset.sum_comm,fine.inv.user_bytes]
      _ = _ := by rw [Finset.sum_congr rfl fun t _ => World.Fine.cached_bytes fine (rest t)]
  refine ⟨parts,parts.le.trans (Nat.add_le_add ?_ ?_)⟩
  · refine List.sum_le_sum fun a live => ?_
    cases at_ : a.mapping with
    | none => simp [State.backing,Alloc.allowance,at_]
    | some id =>
      obtain ⟨m,found,_,use,placed⟩ := fine.inv.mapping_backed live at_
      obtain ⟨needed,fits,_,slack⟩ := placed.fits
      simpa [State.backing,Alloc.allowance,State.largeSize,at_,found,use,fits] using slack
  · refine (Finset.sum_le_card_nsmul T _ maxLargeCacheBytes fun t _ => ?_).trans (by rw [smul_eq_mul])
    cases slot : c.state.tls t with
    | alive th =>
      obtain ⟨_,_,_,cached⟩ := (fine.always t).2 th slot
      exact cached.cache.limit
    | empty => exact Nat.zero_le _
    | destroyed => exact Nat.zero_le _

theorem sample_retained_bytes : ∃ c : World Sample.platform false,
    (World.initial fun _ => 0).execute Sample.schedule = some c ∧ c.state.largeBytes = 266240 ∧
    c.state.largeBytes ≤ (c.state.live.map (Alloc.allowance Sample.platform)).sum + maxLargeCacheBytes := by
  have ends : ((World.initial fun _ => 0 : World Sample.platform false).execute Sample.schedule).map
      (fun c => (Sample.idle (c.prog 1),c.state.largeBytes)) = some (true,266240) := by decide +kernel
  obtain ⟨c,run,eq⟩ := Option.map_eq_some_iff.mp ends
  obtain ⟨idle,bytes⟩ := Prod.mk.inj eq
  obtain ⟨rest,empty⟩ := Sample.others_idle run (by decide) idle
  have all : ∀ t th, c.state.tls t = .alive th → t ∈ ({1} : Finset Nat) := by
    intro t th alive
    by_cases one : t = 1
    · exact Finset.mem_singleton.mpr one
    · simp [empty t one] at alive
  have bound := (retained_bytes ⟨_,_,run⟩ rest all).2
  rw [Finset.card_singleton,Nat.one_mul] at bound
  exact ⟨c,run,bytes,bound⟩

end Numalloc
