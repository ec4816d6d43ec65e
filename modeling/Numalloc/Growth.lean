import Mathlib.Algebra.Order.Floor.Div
import Numalloc.Population
import Numalloc.ReuseOrder

/-! What a process with one thread and one allocator has carved: as many bags of a class as
the most blocks of it that were ever live at once need. -/
namespace Numalloc

open Concurrent View

/-- The slot, but for the lists and the large cache. -/
def ThreadHeapSlot.place : ThreadHeapSlot → ThreadHeapSlot
  | .alive th => .alive (.new th.nodeId th.globalHeap)
  | slot => slot

def Act.carves : Act → Bool
  | .casBump _ _ _ _ _ | .fetchSubRefs _ => true
  | _ => false

def Act.passes : Act → Bool
  | .release | .give _ _ => true
  | _ => false

def Act.rehouses : Act → Bool
  | .slotTake _ | .slotSet _ => true
  | _ => false

def Act.swaps : Act → Bool
  | .casHead _ _ _ => true
  | _ => false

theorem excluded {p : Prop} (h : true = false) : p := absurd h.symm Bool.false_ne_true
theorem unset {p : Prop} (h : false = true) : p := absurd h Bool.false_ne_true

/-- What one action leaves alone of the heaps, the bags, the live blocks of a class, the
thread's place and its operation. -/
structure Leaves (t cls : Nat) (x : Act) (s s' : State) : Prop where
  heaps : ∀ {h sh'}, s'.heaps h = some sh' →
    (∃ sh, s.heaps h = some sh ∧ sh.inst = sh'.inst ∧
      (x.swaps = false → sh'.head = sh.head)) ∨
    s.heaps h = none ∧ x = .heap sh'.inst
  bags : x.carves = false → s'.bags = s.bags
  live : x.passes = false → s'.resident cls = s.resident cls
  slot : x.rehouses = false → (s'.tls t).place = (s.tls t).place
  call : ∀ {i}, (s'.call t).inst = some i → (s.call t).inst = some i ∨ x = .heap i

variable {P : Platform} {strict : Bool} {s s' : State} {t cls inst top top' : Nat} {ch : Choice}
  {x : Act} {k k' : Supply} {c c' : World P strict}

namespace Leaves

theorem same (heaps : s'.heaps = s.heaps) (bags : s'.bags = s.bags) (live : s'.live = s.live)
    (tls : s'.tls = s.tls) (call : s'.call = s.call) : Leaves t cls x s s' where
  heaps found := Or.inl ⟨_,heaps ▸ found,rfl,fun _ => rfl⟩
  bags _ := bags
  live _ := by rw [State.resident,State.resident,live]
  slot _ := by rw [tls]
  call called := Or.inl (call ▸ called)

/-- One heap was given new cells or references. -/
theorem setHeap {addr : Nat} {sh sh₁ : SharedHeap} (found : s.heaps addr = some sh)
    (heaps : s'.heaps = replace s.heaps addr (some sh₁)) (same : sh.inst = sh₁.inst)
    (head : x.swaps = false → sh₁.head = sh.head)
    (bags : x.carves = false → s'.bags = s.bags) (live : s'.live = s.live)
    (slot : x.rehouses = false → s'.tls = s.tls) (call : s'.call = s.call) :
    Leaves t cls x s s' where
  heaps {h sh'} found' := by
    rw [heaps] at found'
    by_cases here : h = addr
    · subst here
      rw [replace_same] at found'
      obtain rfl := Option.some.inj found'
      exact Or.inl ⟨sh,found,same,head⟩
    · rw [replace_other here] at found'
      exact Or.inl ⟨sh',found',rfl,fun _ => rfl⟩
  bags := bags
  live _ := by rw [State.resident,State.resident,live]
  slot plain := by rw [slot plain]
  call called := Or.inl (call ▸ called)

end Leaves

theorem resident_map {f : Alloc → Alloc} (same : ∀ a ∈ s.live, (f a).resides cls = a.resides cls) :
    (s.live.map f).countP (Alloc.resides cls) = s.resident cls := by
  rw [List.countP_map]
  exact List.countP_congr fun a mem => by simp [same a mem]

theorem exec_leaves {r : x.Res} (run : exec P strict t x ch s = some (r,s')) :
    Leaves t cls x s s' := by
  cases x with
  | heap inst =>
    simp only [exec,Option.bind_eq_bind,Option.bind_eq_some_iff] at run
    obtain ⟨I,known,run⟩ := run
    have named : ∀ {call : Call} {i}, call.inst = some inst →
        (replace s.call t call t).inst = some i →
        (s.call t).inst = some i ∨ Act.heap inst = .heap i := fun own called => by
      rw [replace_same] at called
      exact Or.inr (congrArg Act.heap (Option.some.inj (own.symm.trans called)))
    cases heap : I.heap with
    | some x =>
      simp only [heap,Option.bind_eq_some_iff,Option.some.injEq,Prod.mk.injEq] at run
      obtain ⟨sh,_,_,rfl⟩ := run
      exact ⟨fun found => Or.inl ⟨_,found,rfl,fun _ => rfl⟩,fun _ => rfl,fun _ => rfl,fun _ => rfl,named rfl⟩
    | none =>
      simp only [heap,Option.bind_eq_some_iff] at run
      obtain ⟨res,reserved,run⟩ := run
      cases ch with
      | place raw addr =>
        simp only at run
        split at run
        case isFalse => cases run
        rename_i ok
        obtain ⟨_,rfl⟩ := Prod.mk.inj (Option.some.inj run)
        refine ⟨fun {h sh'} found => ?_,fun _ => rfl,fun _ => rfl,fun _ => rfl,named rfl⟩
        by_cases here : h = addr
        · subst here
          obtain rfl := Option.some.inj (replace_same.symm.trans found)
          exact Or.inr ⟨Option.isNone_iff_eq_none.mp ok.2.2,rfl⟩
        · exact Or.inl ⟨sh',(replace_other here).symm.trans found,rfl,fun _ => rfl⟩
      | _ => cases run
  | takeHeap | slotGet | readHeader place | munmap ptr size | bindToNode ptr size node
  | madvise ptr size | writeHeader place original size | writeBytes ptr size
  | copy src dst size =>
    all_goals
      simp only [exec,Option.some.injEq,Prod.mk.injEq] at run
      obtain ⟨_,rfl⟩ := run
      exact .same rfl rfl rfl rfl rfl
  | finish =>
    simp only [exec,Option.some.injEq,Prod.mk.injEq] at run
    obtain ⟨_,rfl⟩ := run
    refine ⟨fun found => Or.inl ⟨_,found,rfl,fun _ => rfl⟩,fun _ => rfl,fun _ => ?_,fun _ => rfl,
      fun called => ?_⟩
    · refine resident_map fun a _ => ?_
      split <;> rfl
    · dsimp only at called
      rw [replace_same] at called
      cases called
  | extent h | loadHead k | loadBump heap node | fetchAddNode inst =>
    all_goals
      simp only [exec,Option.bind_eq_bind,Option.bind_eq_some_iff,Option.some.injEq,
        Prod.mk.injEq] at run
      obtain ⟨sh,_,_,rfl⟩ := run
      exact .same rfl rfl rfl rfl rfl
  | slotTake destroy =>
    cases alive : s.tls t with
    | alive th =>
      simp only [exec,alive,Option.bind_eq_bind,Option.bind_eq_some_iff,Option.some.injEq,
        Prod.mk.injEq] at run
      obtain ⟨sh,found,_,rfl⟩ := run
      exact .setHeap found rfl rfl (fun _ => rfl) (fun _ => rfl) rfl excluded rfl
    | _ =>
      simp only [exec,alive,Option.some.injEq,Prod.mk.injEq] at run
      obtain ⟨_,rfl⟩ := run
      exact ⟨fun found => Or.inl ⟨_,found,rfl,fun _ => rfl⟩,fun _ => rfl,fun _ => rfl,excluded,Or.inl⟩
  | slotSet th =>
    simp only [exec,Option.bind_eq_bind,Option.bind_eq_some_iff,Option.some.injEq,
      Prod.mk.injEq] at run
    obtain ⟨sh,found,_,rfl⟩ := run
    exact .setHeap found rfl rfl (fun _ => rfl) (fun _ => rfl) rfl excluded rfl
  | fetchAddRefs h =>
    simp only [exec,Option.bind_eq_bind,Option.bind_eq_some_iff,Option.some.injEq,
      Prod.mk.injEq] at run
    obtain ⟨sh,found,_,rfl⟩ := run
    exact .setHeap found rfl rfl (fun _ => rfl) (fun _ => rfl) rfl (fun _ => rfl) rfl
  | thread =>
    simp only [exec] at run
    split at run
    case h_2 => cases run
    obtain ⟨_,rfl⟩ := Prod.mk.inj (Option.some.inj run)
    exact .same rfl rfl rfl rfl rfl
  | setFreelist cls fl | setLargeCache cache =>
    all_goals
      simp only [exec] at run
      split at run
      case h_2 => cases run
      rename_i th alive
      obtain ⟨_,rfl⟩ := Prod.mk.inj (Option.some.inj run)
      refine ⟨fun found => Or.inl ⟨_,found,rfl,fun _ => rfl⟩,fun _ => rfl,fun _ => rfl,fun _ => ?_,
        Or.inl⟩
      exact (congrArg ThreadHeapSlot.place replace_same).trans (by rw [alive]; rfl)
  | link op =>
    cases op with
    | readNext b =>
      simp only [exec,Option.some.injEq,Prod.mk.injEq] at run
      obtain ⟨_,rfl⟩ := run
      exact .same rfl rfl rfl rfl rfl
    | writeNext b next =>
      simp only [exec,Option.some.injEq,Prod.mk.injEq,true_and] at run
      subst run
      exact .same rfl rfl rfl rfl rfl
    | panic => cases run
  | casHead k current new =>
    simp only [exec,Option.bind_eq_bind,Option.bind_eq_some_iff] at run
    obtain ⟨sh,found,run⟩ := run
    split at run
    case h_1 =>
      obtain ⟨_,rfl⟩ := Prod.mk.inj (Option.some.inj run)
      exact .same rfl rfl rfl rfl rfl
    case h_2 =>
    split at run
    case isFalse =>
      obtain ⟨_,rfl⟩ := Prod.mk.inj (Option.some.inj run)
      exact .same rfl rfl rfl rfl rfl
    case isTrue =>
      split at run <;>
      · obtain ⟨_,rfl⟩ := Prod.mk.inj (Option.some.inj run)
        exact .setHeap found rfl rfl excluded (fun _ => rfl) rfl
          (fun _ => rfl) rfl
  | casBump h n d current new =>
    simp only [exec,Option.bind_eq_bind,Option.bind_eq_some_iff] at run
    obtain ⟨sh,found,run⟩ := run
    split at run
    case h_1 =>
      obtain ⟨_,rfl⟩ := Prod.mk.inj (Option.some.inj run)
      exact .same rfl rfl rfl rfl rfl
    case h_2 =>
    split at run
    case isFalse =>
      obtain ⟨_,rfl⟩ := Prod.mk.inj (Option.some.inj run)
      exact .same rfl rfl rfl rfl rfl
    case isTrue =>
      obtain ⟨_,rfl⟩ := Prod.mk.inj (Option.some.inj run)
      exact .setHeap found rfl rfl (fun _ => rfl) excluded rfl (fun _ => rfl) rfl
  | fetchSubRefs h =>
    simp only [exec,Option.bind_eq_bind,Option.bind_eq_some_iff,Option.some.injEq,
      Prod.mk.injEq] at run
    obtain ⟨sh,found,_,rfl⟩ := run
    split
    · exact .setHeap found rfl rfl (fun _ => rfl) excluded rfl (fun _ => rfl) rfl
    · exact .setHeap found rfl rfl (fun _ => rfl) excluded rfl (fun _ => rfl) rfl
  | sysDealloc h =>
    simp only [exec,Option.some.injEq,Prod.mk.injEq,true_and] at run
    subst run
    refine ⟨fun {h' sh'} found => ?_,fun _ => rfl,fun _ => rfl,fun _ => rfl,Or.inl⟩
    by_cases here : h' = h.addr
    · subst here
      simp at found
    · exact Or.inl ⟨sh',(replace_other here).symm.trans found,rfl,fun _ => rfl⟩
  | mmap size =>
    cases ch with
    | addr raw =>
      simp only [exec] at run
      split at run
      case isFalse => cases run
      obtain ⟨_,rfl⟩ := Prod.mk.inj (Option.some.inj run)
      exact .same rfl rfl rfl rfl rfl
    | _ =>
      obtain ⟨_,rfl⟩ := Prod.mk.inj (Option.some.inj run)
      exact .same rfl rfl rfl rfl rfl
  | release =>
    simp only [exec,Option.bind_eq_bind,Option.bind_eq_some_iff] at run
    obtain ⟨a,_,run⟩ := run
    split at run
    case isTrue => cases run
    simp only [Option.some.injEq,Prod.mk.injEq,true_and] at run
    subst run
    unfold State.release
    cases a.source <;>
      exact ⟨fun found => Or.inl ⟨_,found,rfl,fun _ => rfl⟩,fun _ => rfl,excluded,fun _ => rfl,Or.inl⟩
  | give ptr layout =>
    simp only [exec,Option.some.injEq,Prod.mk.injEq,true_and] at run
    subst run
    unfold State.give
    dsimp only
    split
    · exact ⟨fun found => Or.inl ⟨_,found,rfl,fun _ => rfl⟩,fun _ => rfl,excluded,fun _ => rfl,Or.inl⟩
    · split
      · exact ⟨fun found => Or.inl ⟨_,found,rfl,fun _ => rfl⟩,fun _ => rfl,excluded,fun _ => rfl,Or.inl⟩
      · split <;>
          exact ⟨fun found => Or.inl ⟨_,found,rfl,fun _ => rfl⟩,fun _ => rfl,excluded,fun _ => rfl,Or.inl⟩
  | abort => exact r.elim

/-! The state of a process in which only thread `t` works, and only with allocator `inst`. -/

structure Sole (t inst : Nat) (s : State) : Prop where
  heap : ∀ {h sh}, s.heaps h = some sh → sh.inst = inst ∧ s.insts sh.inst ≠ none
  call : ∀ {i}, (s.call t).inst = some i → i = inst
  others : ∀ {b sl u}, s.slots b = some sl → sl.holder = .thread u → u = t

theorem Sole.one (sole : Sole t inst s) (inv : Inv P s) {h h' : Nat} {sh sh' : SharedHeap}
    (found : s.heaps h = some sh) (found' : s.heaps h' = some sh') : h = h' :=
  inv.heaps.one found found' ((sole.heap found).1.trans (sole.heap found').1.symm)

/-- The allocator itself keeps its heap alive. -/
theorem Sole.owned (sole : Sole t inst s) (inv : Inv P s) {h : Nat} {sh : SharedHeap}
    (found : s.heaps h = some sh) : Ref.inst sh.inst ∈ sh.refs := by
  obtain ⟨I,known⟩ := Option.ne_none_iff_exists'.mp (sole.heap found).2
  exact (inv.heaps.refInst found).mpr ⟨I,known,inv.heaps.back found known⟩

/-- So a handle given up is never the last one. -/
theorem Sole.shared (sole : Sole t inst s) (inv : Inv P s) {h : HeapHandle} {sh : SharedHeap}
    (found : s.heaps h.addr = some sh) (hand : s.hand t = some h) : sh.references ≠ 1 := by
  have op : Ref.op t ∈ sh.refs := (inv.heaps.refOp found).mpr ⟨h,hand,rfl⟩
  have two : [Ref.inst sh.inst,Ref.op t].Subperm sh.refs :=
    List.subperm_of_subset (by simp) (by simp [sole.owned inv found,op])
  have := two.length_le
  have := (inv.heaps.count found).1
  simp only [List.length_cons,List.length_nil] at *
  omega

/-- All bags of the class are on the node of the thread, and a thread without a node has
none. -/
structure Sited (t cls : Nat) (s : State) : Prop where
  apart : s.bags.Pairwise Bag.Apart
  node : ∀ {bag th}, bag ∈ s.bags → bag.cls = cls → s.tls t = .alive th → bag.node = th.nodeId
  homeless : s.tls t = .empty → s.bagCount cls = 0

/-- There is nothing on the stack of the thread's node. -/
def Vacated (t cls : Nat) (s : State) : Prop := ∀ th sh, s.tls t = .alive th →
  s.heaps th.globalHeap.addr = some sh → (TreiberStack.unpack (sh.head th.nodeId cls)).1 = none

/-- All bags of the class but one were needed at the peak; with a block due, all but one are
needed now. -/
structure Stocked (t cls top : Nat) (k : Supply) (s : State) : Prop where
  site : Sited t cls s
  drained : k.dry = true → Vacated t cls s
  full : k.owing = false → s.bagCount cls = 0 ∨ objectsPerBag cls * (s.bagCount cls - 1) < top
  owed : k.owing = true →
    0 < s.bagCount cls ∧ s.resident cls = objectsPerBag cls * (s.bagCount cls - 1)

theorem State.bagCount_pos {bag : Bag} (mem : bag ∈ s.bags) (same : bag.cls = cls) :
    0 < s.bagCount cls := List.countP_pos_iff.mpr ⟨bag,mem,by simpa using same⟩

theorem place_alive {th' : PerThreadHeap} {slot : ThreadHeapSlot}
    (same : (ThreadHeapSlot.alive th').place = slot.place) :
    ∃ th, slot = .alive th ∧ th.nodeId = th'.nodeId ∧ th.globalHeap = th'.globalHeap := by
  cases slot with
  | alive th =>
    obtain ⟨node,heap,_⟩ := PerThreadHeap.mk.inj (ThreadHeapSlot.alive.inj same)
    exact ⟨th,rfl,node.symm,heap.symm⟩
  | empty => cases same
  | destroyed => cases same

theorem place_empty {slot : ThreadHeapSlot} (same : ThreadHeapSlot.empty.place = slot.place) :
    slot = .empty := by
  cases slot with
  | empty => rfl
  | alive th => cases same
  | destroyed => cases same

theorem Sited.same (sited : Sited t cls s) (bags : s'.bags = s.bags)
    (slot : (s'.tls t).place = (s.tls t).place) : Sited t cls s' where
  apart := bags ▸ sited.apart
  node {bag th'} mem same alive' := by
    rw [alive'] at slot
    obtain ⟨th,alive,node,_⟩ := place_alive slot
    exact (sited.node (bags ▸ mem) same alive).trans node
  homeless empty := by
    rw [empty] at slot
    rw [State.bagCount,bags]
    exact sited.homeless (place_empty slot)

theorem Vacated.same (drained : Vacated t cls s) (inv : Inv P s) (leaves : Leaves t cls x s s')
    (plain : x.swaps = false) (slot : (s'.tls t).place = (s.tls t).place) :
    Vacated t cls s' := by
  intro th' sh' alive' found'
  rw [alive'] at slot
  obtain ⟨th,alive,node,heap⟩ := place_alive slot
  rw [← heap] at found'
  rcases leaves.heaps found' with ⟨sh,found,_,head⟩ | ⟨gone,_⟩
  · rw [head plain,← node]
    exact drained th sh alive found
  · obtain ⟨_,found,_⟩ := inv.heaps.slotOk alive
    cases gone.symm.trans found

/-- Actions that the class does not notice, but for a look at the stack. -/
theorem Stocked.same (stocked : Stocked t cls top k s) (bags : s'.bags = s.bags)
    (live : s'.resident cls = s.resident cls) (site : Sited t cls s')
    (drained : k'.dry = true → Vacated t cls s') (owing : k'.owing = k.owing) :
    Stocked t cls top k' s' where
  site := site
  drained := drained
  full none_ := by
    rw [State.bagCount,bags]
    exact stocked.full (owing ▸ none_)
  owed some_ := by
    rw [live,State.bagCount,bags]
    exact stocked.owed (owing ▸ some_)

/-- Actions that the class does not notice. -/
theorem Stocked.leave (stocked : Stocked t cls top k s) (inv : Inv P s)
    (leaves : Leaves t cls x s s') (bags : s'.bags = s.bags)
    (live : s'.resident cls = s.resident cls) (slot : (s'.tls t).place = (s.tls t).place)
    (plain : x.swaps = false) : Stocked t cls top k s' :=
  stocked.same bags live (stocked.site.same bags slot)
    (fun dry => (stocked.drained dry).same inv leaves plain slot) rfl

theorem Stocked.raise (stocked : Stocked t cls top k s) (le : top ≤ top') :
    Stocked t cls top' k s where
  site := stocked.site
  drained := stocked.drained
  full none_ := (stocked.full none_).imp id fun lt => Nat.lt_of_lt_of_le lt le
  owed := stocked.owed

section Actions

variable {r : x.Res}

theorem slotTake_stocked {destroy : Bool} {r : ThreadHeapSlot} (inv : Inv P s) (sole : Sole t inst s)
    (run : exec P strict t (.slotTake destroy) ch s = some (r,s'))
    (accepted : Supply.monitor.run k
      ((supplyScribe cls).note (.slotTake destroy) (s.view t) r (s'.view t)) = some k')
    (stocked : Stocked t cls top k s) : Stocked t cls top k' s' := by
  have leaves : Leaves t cls (.slotTake destroy) s s' := exec_leaves run
  have bags := leaves.bags rfl
  have gone : s'.tls t = if destroy then .destroyed else .empty := by
    cases alive : s.tls t with
    | alive th =>
      simp only [exec,alive,Option.bind_eq_bind,Option.bind_eq_some_iff,Option.some.injEq,
        Prod.mk.injEq] at run
      obtain ⟨sh,_,_,rfl⟩ := run
      exact replace_same
    | _ =>
      simp only [exec,alive,Option.some.injEq,Prod.mk.injEq] at run
      obtain ⟨_,rfl⟩ := run
      exact replace_same
  have bare : ∀ th, s'.tls t ≠ .alive th := fun th alive => by
    rw [gone] at alive
    split at alive <;> cases alive
  have vacant : destroy = true ∨ (s.view t).Vacant := by
    by_contra out
    simp [supplyScribe,out,Supply.monitor,Supply.after] at accepted
  obtain rfl : k' = ⟨false,k.owing⟩ := by
    simp only [supplyScribe,if_pos vacant,Monitor.run_single,Supply.monitor,Supply.after,
      Option.some.injEq] at accepted
    exact accepted.symm
  refine stocked.same bags (leaves.live rfl) ⟨bags ▸ stocked.site.apart,fun _ _ alive =>
    absurd alive (bare _),fun empty => ?_⟩ unset rfl
  rw [State.bagCount,bags]
  cases destroy with
  | true => simp [gone] at empty
  | false =>
    rcases vacant.resolve_left Bool.false_ne_true with bare | ⟨th,r,alive,call,other⟩
    · exact stocked.site.homeless bare
    · obtain ⟨sh,found,_⟩ := inv.heaps.slotOk alive
      obtain ⟨_,_,sh',_,_,_,found',_⟩ := inv.heaps.callHeap call
      exact absurd (sole.one inv found found') other

theorem slotSet_stocked {th : PerThreadHeap}
    (run : exec P strict t (.slotSet th) ch s = some ((),s'))
    (accepted : Supply.monitor.run k
      ((supplyScribe cls).note (.slotSet th) (s.view t) () (s'.view t)) = some k')
    (stocked : Stocked t cls top k s) : Stocked t cls top k' s' := by
  have leaves : Leaves t cls (.slotSet th) s s' := exec_leaves run
  have bags := leaves.bags rfl
  simp only [exec,Option.bind_eq_bind,Option.bind_eq_some_iff,Option.some.injEq,
    Prod.mk.injEq] at run
  obtain ⟨sh,_,_,rfl⟩ := run
  have empty : (s.view t).slot = .empty := by
    by_contra out
    simp [supplyScribe,out,Supply.monitor,Supply.after] at accepted
  obtain rfl : k' = ⟨false,k.owing⟩ := by
    simp only [supplyScribe,if_pos empty,Monitor.run_single,Supply.monitor,Supply.after,
      Option.some.injEq] at accepted
    exact accepted.symm
  have none_ := stocked.site.homeless empty
  refine stocked.same bags (leaves.live rfl) ⟨bags ▸ stocked.site.apart,fun mem same _ => ?_,
    fun _ => none_⟩ unset rfl
  exact absurd none_ (State.bagCount_pos mem same).ne'

theorem loadHead_stocked {k₀ : StackRef} {word : Nat}
    (run : exec P strict t (.loadHead k₀) ch s = some (word,s'))
    (accepted : Supply.monitor.run k
      ((supplyScribe cls).note (.loadHead k₀) (s.view t) word (s'.view t)) = some k')
    (stocked : Stocked t cls top k s) : Stocked t cls top k' s' := by
  simp only [exec,Option.bind_eq_bind,Option.bind_eq_some_iff,Option.some.injEq,Prod.mk.injEq] at run
  obtain ⟨sh,found,rfl,rfl⟩ := run
  simp only [supplyScribe] at accepted
  split at accepted
  · rename_i home
    split at accepted
    · rename_i empty
      obtain rfl := Option.some.inj accepted
      refine stocked.same rfl rfl stocked.site (fun _ th sh' alive found' => ?_) rfl
      rw [View.home,show (s.view t).slot = _ from alive] at home
      obtain rfl := Option.some.inj home
      obtain rfl := Option.some.inj (found.symm.trans found')
      exact empty
    · obtain rfl := Option.some.inj accepted
      exact stocked.same rfl rfl stocked.site unset rfl
  · obtain rfl := Option.some.inj accepted
    exact stocked

/-- A take leaves the stack empty, and a push elsewhere leaves it alone. -/
theorem casHead_stocked {k₀ : StackRef} {current new : Nat} {done : Bool}
    (run : exec P strict t (.casHead k₀ current new) ch s = some (done,s'))
    (accepted : Supply.monitor.run k
      ((supplyScribe cls).note (.casHead k₀ current new) (s.view t) done (s'.view t)) = some k')
    (stocked : Stocked t cls top k s) : Stocked t cls top k' s' := by
  have leaves : Leaves t cls (.casHead k₀ current new) s s' := exec_leaves run
  have still : done = false → s' = s → Stocked t cls top k' s' := by
    rintro rfl rfl
    obtain rfl : k' = k := by simpa [supplyScribe] using accepted.symm
    exact stocked
  have moved : ∀ {sh}, done = true → s.heaps k₀.heap = some sh → s'.tls = s.tls →
      s'.heaps = replace s.heaps k₀.heap (some (sh.setHead k₀.node k₀.cls new)) →
      Stocked t cls top k' s' := by
    intro sh rfl found tls heaps
    refine stocked.same (leaves.bags rfl) (leaves.live rfl)
      (stocked.site.same (leaves.bags rfl) (leaves.slot rfl)) ?_ ?_
    · intro dry th sh' alive found'
      rw [tls] at alive
      by_cases pushed : k₀.cls = cls ∧ (TreiberStack.unpack new).1 ≠ none
      · obtain rfl : k' = ⟨false,k.owing⟩ := by
          simpa [supplyScribe,pushed,Supply.monitor,Supply.after] using accepted.symm
        cases dry
      obtain rfl : k' = k := by
        simp only [supplyScribe,true_and,if_neg pushed] at accepted
        exact (Option.some.inj accepted).symm
      have before := stocked.drained dry th
      rw [heaps] at found'
      by_cases here : th.globalHeap.addr = k₀.heap
      · rw [here,replace_same] at found'
        rw [here] at before
        have before := before sh alive found
        obtain rfl := Option.some.inj found'
        by_cases same : th.nodeId = k₀.node ∧ cls = k₀.cls
        · obtain ⟨node,rfl⟩ := same
          rw [node,SharedHeap.setHead_same]
          by_contra full
          exact pushed ⟨rfl,full⟩
        · rw [SharedHeap.setHead_other new same]
          exact before
      · rw [replace_other here] at found'
        exact before sh' alive found'
    · simp only [supplyScribe] at accepted
      split at accepted
      · obtain rfl := Option.some.inj accepted
        rfl
      · obtain rfl := Option.some.inj accepted
        rfl
  simp only [exec,Option.bind_eq_bind,Option.bind_eq_some_iff] at run
  obtain ⟨sh,found,run⟩ := run
  split at run
  case h_1 =>
    obtain ⟨rfl,rfl⟩ := Prod.mk.inj (Option.some.inj run)
    exact still rfl rfl
  case h_2 =>
  split at run
  case isFalse =>
    obtain ⟨rfl,rfl⟩ := Prod.mk.inj (Option.some.inj run)
    exact still rfl rfl
  case isTrue =>
    split at run <;>
    · obtain ⟨rfl,rfl⟩ := Prod.mk.inj (Option.some.inj run)
      exact moved rfl found rfl rfl

theorem fetchSubRefs_stocked {h : HeapHandle} {before : Nat} (inv : Inv P s) (sole : Sole t inst s)
    (hand : s.hand t = some h) (run : exec P strict t (.fetchSubRefs h) ch s = some (before,s'))
    (stocked : Stocked t cls top k s) : Stocked t cls top k s' := by
  have leaves : Leaves t cls (.fetchSubRefs h) s s' := exec_leaves run
  have bags : s'.bags = s.bags := by
    simp only [exec,Option.bind_eq_bind,Option.bind_eq_some_iff,Option.some.injEq,
      Prod.mk.injEq] at run
    obtain ⟨sh,found,_,rfl⟩ := run
    rw [if_neg (sole.shared inv found hand)]
    rfl
  exact stocked.leave inv leaves bags (leaves.live rfl) (leaves.slot rfl) rfl

/-- What the copy goes to is the block that was due. -/
theorem copy_stocked {src dst n : Nat} (inv : Inv P s)
    (run : exec P strict t (.copy src dst n) ch s = some ((),s'))
    (accepted : Supply.monitor.run k
      ((supplyScribe cls).note (.copy src dst n) (s.view t) () (s'.view t)) = some k')
    (counted : (s.view t).Holding cls dst → s.resident cls < top)
    (stocked : Stocked t cls top k s) : Stocked t cls top k' s' := by
  have leaves : Leaves t cls (.copy src dst n) s s' := exec_leaves run
  have same := stocked.leave inv leaves (leaves.bags rfl) (leaves.live rfl) (leaves.slot rfl) rfl
  simp only [supplyScribe] at accepted
  split at accepted
  · rename_i holding
    obtain rfl := Option.some.inj accepted
    refine ⟨same.site,same.drained,fun _ => ?_,unset⟩
    cases owing : k.owing with
    | false => exact same.full owing
    | true =>
      obtain ⟨_,all⟩ := same.owed owing
      rw [← all,leaves.live rfl]
      exact Or.inr (counted holding)
  · obtain rfl := Option.some.inj accepted
    exact same

theorem release_stocked (inv : Inv P s) (run : exec P strict t .release ch s = some ((),s'))
    (accepted : Supply.monitor.run k
      ((supplyScribe cls).note .release (s.view t) () (s'.view t)) = some k')
    (stocked : Stocked t cls top k s) : Stocked t cls top k' s' := by
  have leaves : Leaves t cls .release s s' := exec_leaves run
  have none_ : k.owing = false := by
    by_contra owing
    simp [supplyScribe,Supply.monitor,Supply.after,owing] at accepted
  obtain rfl : k' = k := by
    simpa [supplyScribe,Supply.monitor,Supply.after,none_] using accepted.symm
  have bags := leaves.bags rfl
  refine ⟨stocked.site.same bags (leaves.slot rfl),
    fun dry => (stocked.drained dry).same inv leaves rfl (leaves.slot rfl),fun _ => ?_,
    fun owing => unset (none_.symm.trans owing)⟩
  rw [State.bagCount,bags]
  exact stocked.full none_

/-- Handing a block of the class over makes one more live. -/
theorem give_resident {ptr : Nat} {layout : Layout} (inv : Inv P s)
    (ok : safe P strict (.give ptr layout) (s.view t)) (pin : (s.view t).pin = none)
    (holding : (s.view t).Holding cls ptr) : (s.give t ptr layout).resident cls = s.resident cls + 1 := by
  obtain ⟨B,block,same⟩ := holding
  obtain ⟨sl,found,holder,seen⟩ := view_block block
  rw [give_eq_block pin found holder]
  have index : sizeClassIndex layout.effective = some cls := by
    rcases ok with ⟨a,pinned,_⟩ | ⟨_,B',_,_,block',_,_,_,index⟩ | ⟨_,id,m,_,held,payload,_⟩
    · cases pin.symm.trans pinned
    · obtain rfl := Option.some.inj (block.symm.trans block')
      rw [index,same]
    · cases (inv.payload_no_slot (view_map.mp held).1 payload).symm.trans found
  simp [State.resident,Alloc.resides,index]

theorem give_stocked {ptr : Nat} {layout : Layout} (inv : Inv P s)
    (ok : safe P strict (.give ptr layout) (s.view t))
    (run : exec P strict t (.give ptr layout) ch s = some ((),s'))
    (accepted : Supply.monitor.run k
      ((supplyScribe cls).note (.give ptr layout) (s.view t) () (s'.view t)) = some k')
    (le : top ≤ top') (now : s'.resident cls ≤ top') (stocked : Stocked t cls top k s) :
    Stocked t cls top' k' s' := by
  have leaves : Leaves t cls (.give ptr layout) s s' := exec_leaves run
  have bags := leaves.bags rfl
  have raised := stocked.raise le
  have count : s'.bagCount cls = s.bagCount cls := by rw [State.bagCount,bags,State.bagCount]
  have rest : Stocked t cls top' ⟨k.dry,false⟩ s' ∨ k.owing = true ∧ s'.resident cls ≤ s.resident cls := by
    by_cases short : k.owing = true ∧ s'.resident cls ≤ s.resident cls
    · exact Or.inr short
    refine Or.inl ⟨stocked.site.same bags (leaves.slot rfl),
      fun dry => (stocked.drained dry).same inv leaves rfl (leaves.slot rfl),fun _ => ?_,unset⟩
    rw [count]
    cases owing : k.owing with
    | false => exact raised.full owing
    | true =>
      obtain ⟨_,all⟩ := raised.owed owing
      have more : ¬s'.resident cls ≤ s.resident cls := fun le => short ⟨owing,le⟩
      exact Or.inr (by omega)
  by_cases given : (s.view t).pin = none ∧ (s.view t).Holding cls ptr
  · obtain rfl : k' = ⟨k.dry,false⟩ := by
      simpa [supplyScribe,given,Supply.monitor,Supply.after] using accepted.symm
    simp only [exec,Option.some.injEq,Prod.mk.injEq,true_and] at run
    subst run
    refine rest.resolve_right fun short => ?_
    have := give_resident inv ok given.1 given.2
    omega
  · have none_ : k.owing = false := by
      by_contra owing
      simp [supplyScribe,given,Supply.monitor,Supply.after,owing] at accepted
    obtain rfl : k' = k := by
      simpa [supplyScribe,given,Supply.monitor,Supply.after,none_] using accepted.symm
    rw [← none_] at rest
    exact rest.resolve_right fun short => unset (none_.symm.trans short.1)

/-- With nothing of the class in the thread's hands and nothing on the stack of its node, all
blocks of the class are the callers'. -/
theorem Sited.user (sited : Sited t cls s) (inv : Inv P s) (sole : Sole t inst s)
    {th : PerThreadHeap} (alive : s.tls t = .alive th) (dry : (s.view t).Dry cls)
    (drained : Vacated t cls s) {b : Nat} {sl : Slot} (found : s.slots b = some sl)
    (same : sl.cls = cls) : sl.holder = .user := by
  cases holder : sl.holder with
  | user => rfl
  | thread u =>
    obtain rfl := sole.others found holder
    exact absurd same (dry b _ (view_block_some found holder))
  | stack k =>
    obtain ⟨sh,heap,refs,node,small,_⟩ := inv.slots.ok found
    obtain ⟨bag,mem,_,_,bagNode,bagCls⟩ := inv.slots.bagOf found
    have here := sited.node mem (bagCls.trans same) alive
    obtain ⟨sh',own,_⟩ := inv.heaps.slotOk alive
    have one := sole.one inv own heap
    rw [← one] at heap
    obtain ⟨l,links,_,mem⟩ := inv.nodes.chain heap refs node small
    have empty := drained th sh alive heap
    rw [← here,bagNode,← same] at empty
    rw [empty] at links
    obtain rfl := links.unique (m := []) rfl
    have ref := inv.nodes.ref found holder
    exact absurd ((mem b).mpr ⟨sl,found,by rw [holder,← ref,one]; rfl⟩) List.not_mem_nil

section Carving

variable {sh : SharedHeap} {new : Nat} {bag : Bag}

theorem carve_apart (inv : Inv P s) (carved : Carved sh bag.node new bag)
    (found : s.heaps bag.heap = some sh) (refs : sh.refs ≠ []) (apart : s.bags.Pairwise Bag.Apart) :
    (s.carve t bag.node new bag sh).bags.Pairwise Bag.Apart := by
  refine List.pairwise_cons.mpr ⟨fun old mem b has has' => ?_,apart⟩
  obtain ⟨hd,there⟩ := inv.slots.bag mem has'
  cases (inv.carved_fresh carved found refs has).symm.trans there

/-- A bag of another class. -/
theorem carve_other (inv : Inv P s) (carved : Carved sh bag.node new bag)
    (found : s.heaps bag.heap = some sh) (refs : sh.refs ≠ []) (other : bag.cls ≠ cls)
    (drained : k.dry = true → Vacated t cls (s.carve t bag.node new bag sh))
    (stocked : Stocked t cls top k s) : Stocked t cls top k (s.carve t bag.node new bag sh) := by
  have count : (s.carve t bag.node new bag sh).bagCount cls = s.bagCount cls :=
    List.countP_cons_of_neg (by simpa using other)
  refine ⟨⟨carve_apart inv carved found refs stocked.site.apart,fun {old th} mem same alive => ?_,
    fun empty => count.trans (stocked.site.homeless empty)⟩,drained,
    fun none_ => by rw [count]; exact stocked.full none_,
    fun owing => by rw [count]; exact stocked.owed owing⟩
  rcases List.mem_cons.mp mem with rfl | mem
  · exact absurd same other
  · exact stocked.site.node mem same alive

/-- One of the class itself, carved when all its blocks are live. -/
theorem carve_own (inv : Inv P s) (sole : Sole t inst s) (carved : Carved sh bag.node new bag)
    (found : s.heaps bag.heap = some sh) (refs : sh.refs ≠ []) {th : PerThreadHeap}
    (alive : s.tls t = .alive th) (here : bag.node = th.nodeId) (same : bag.cls = cls)
    (dry : (s.view t).Dry cls) (looked : k.dry = true)
    (drained : Vacated t cls (s.carve t bag.node new bag sh)) (stocked : Stocked t cls top k s) :
    Stocked t cls top ⟨true,true⟩ (s.carve t bag.node new bag sh) := by
  have count : (s.carve t bag.node new bag sh).bagCount cls = s.bagCount cls + 1 :=
    List.countP_cons_of_pos (by simpa using same)
  have full := inv.resident_full stocked.site.apart (fun h => (sole.heap h).2)
    (stocked.site.user inv sole alive dry (stocked.drained looked))
  refine ⟨⟨carve_apart inv carved found refs stocked.site.apart,fun {old th'} mem same alive' => ?_,
    fun empty => ?_⟩,fun _ => drained,excluded,fun _ => ?_⟩
  · obtain rfl := ThreadHeapSlot.alive.inj (alive.symm.trans alive')
    rcases List.mem_cons.mp mem with rfl | mem
    · exact here
    · exact stocked.site.node mem same alive
  · cases alive.symm.trans empty
  · rw [count]
    exact ⟨Nat.succ_pos _,full⟩

end Carving

/-- A bag is only carved when all blocks of its class are live. -/
theorem casBump_stocked {h n d current new : Nat} {done : Bool} (inv : Inv P s)
    (sole : Sole t inst s) (ok : safe P strict (.casBump h n d current new) (s.view t))
    (run : exec P strict t (.casBump h n d current new) ch s = some (done,s'))
    (accepted : Supply.monitor.run k
      ((supplyScribe cls).note (.casBump h n d current new) (s.view t) done (s'.view t)) = some k')
    (stocked : Stocked t cls top k s) :
    Stocked t cls top k' s' ∧ s.bagCount cls ≤ s'.bagCount cls := by
  have leaves : Leaves t cls (.casBump h n d current new) s s' := exec_leaves run
  have still : done = false → s' = s →
      Stocked t cls top k' s' ∧ s.bagCount cls ≤ s'.bagCount cls := by
    rintro rfl rfl
    obtain rfl : k' = k := by simpa [supplyScribe] using accepted.symm
    exact ⟨stocked,le_rfl⟩
  have carves : ∀ {sh aligned} {ref : HeapRef}, done = true → s.heaps h = some sh →
      ref.handle.addr = h → (s.call t).heap = some ref → n < ref.geom.numNodes → d < numSizeClasses →
      (ref.geom.nodeRegion n).nextBag (bagSizeForClass d) (sh.bump n) = some (aligned,new) →
      s' = s.carve t n new ⟨h,n,d,(sh.heap.nodeRegion n).base + (new - bagSizeForClass d)⟩ sh →
      Stocked t cls top k' s' ∧ s.bagCount cls ≤ s'.bagCount cls := by
    intro sh aligned ref did found addr has node small fits eq
    subst did addr
    obtain ⟨refs,geom⟩ := inv.heaps.call_refs has found
    rw [← geom] at node fits
    have carved := Carved.of_nextBag ref.handle.addr (inv.heaps.geom found) node small fits
    have drained : k.dry = true → Vacated t cls s' := fun dry =>
      (stocked.drained dry).same inv leaves rfl (leaves.slot rfl)
    have more : s.bagCount cls ≤ s'.bagCount cls := by
      rw [eq]
      exact (List.sublist_cons_self _ s.bags).countP_le
    by_cases mine : d = cls
    · have due : ((s.view t).home cls = some ⟨ref.handle.addr,n,cls⟩ ∧ (s.view t).Dry cls) ∧
          k.dry = true ∧ k.owing = false := by
        by_contra other
        by_cases home : (s.view t).home cls = some ⟨ref.handle.addr,n,cls⟩ ∧ (s.view t).Dry cls
        · have kept : ¬(k.dry = true ∧ k.owing = false) := fun h => other ⟨home,h⟩
          simp [supplyScribe,mine,home,kept,Supply.monitor,Supply.after] at accepted
        · simp [supplyScribe,mine,home,Supply.monitor,Supply.after] at accepted
      obtain ⟨⟨home,dry⟩,looked,none_⟩ := due
      obtain rfl : k' = ⟨true,true⟩ := by
        simpa [supplyScribe,mine,home,dry,looked,none_,Supply.monitor,Supply.after] using accepted.symm
      unfold View.home at home
      split at home
      case h_2 => cases home
      rename_i th alive
      have here : n = th.nodeId := (congrArg StackRef.node (Option.some.inj home)).symm
      have drained := drained looked
      subst eq
      exact ⟨carve_own inv sole carved found refs alive here mine dry looked drained stocked,more⟩
    · obtain rfl : k' = k := by simpa [supplyScribe,mine] using accepted.symm
      subst eq
      exact ⟨carve_other inv carved found refs mine drained stocked,more⟩
  simp only [exec,Option.bind_eq_bind,Option.bind_eq_some_iff] at run
  obtain ⟨sh,found,run⟩ := run
  split at run
  case h_1 =>
    obtain ⟨rfl,rfl⟩ := Prod.mk.inj (Option.some.inj run)
    exact still rfl rfl
  case h_2 =>
  split at run
  case isFalse =>
    obtain ⟨rfl,rfl⟩ := Prod.mk.inj (Option.some.inj run)
    exact still rfl rfl
  case isTrue current_eq =>
  subst current_eq
  obtain ⟨rfl,rfl⟩ := Prod.mk.inj (Option.some.inj run)
  obtain ⟨ref,aligned,has,addr,node,small,fits⟩ := ok
  exact carves rfl found addr has node small fits rfl

/-- One action, whichever it is. -/
theorem exec_stocked (inv : Inv P s) (sole : Sole t inst s) (ok : safe P strict x (s.view t))
    (run : exec P strict t x ch s = some (r,s'))
    (accepted : Supply.monitor.run k ((supplyScribe cls).note x (s.view t) r (s'.view t)) = some k')
    (counted : ∀ src dst n, x = .copy src dst n → (s.view t).Holding cls dst → s.resident cls < top)
    (le : top ≤ top') (now : s'.resident cls ≤ top') (stocked : Stocked t cls top k s) :
    Stocked t cls top' k' s' ∧ s.bagCount cls ≤ s'.bagCount cls := by
  have leaves : Leaves t cls x s s' := exec_leaves run
  have same : ∀ {s₁ : State}, s₁.bags = s.bags → s.bagCount cls ≤ s₁.bagCount cls := fun bags => by
    rw [State.bagCount,State.bagCount,bags]
  cases x with
  | slotTake destroy => exact ⟨(slotTake_stocked inv sole run accepted stocked).raise le,same (leaves.bags rfl)⟩
  | slotSet th => exact ⟨(slotSet_stocked run accepted stocked).raise le,same (leaves.bags rfl)⟩
  | loadHead k₀ => exact ⟨(loadHead_stocked run accepted stocked).raise le,same (leaves.bags rfl)⟩
  | casHead k₀ current new =>
    exact ⟨(casHead_stocked run accepted stocked).raise le,same (leaves.bags rfl)⟩
  | casBump h n d current new =>
    obtain ⟨stocked',more⟩ := casBump_stocked inv sole ok run accepted stocked
    exact ⟨stocked'.raise le,more⟩
  | fetchSubRefs h =>
    obtain rfl := Option.some.inj accepted
    have kept := fetchSubRefs_stocked inv sole ok.1 run stocked
    refine ⟨kept.raise le,same ?_⟩
    simp only [exec,Option.bind_eq_bind,Option.bind_eq_some_iff,Option.some.injEq,
      Prod.mk.injEq] at run
    obtain ⟨sh,found,_,rfl⟩ := run
    rw [if_neg (sole.shared inv found ok.1)]
    rfl
  | copy src dst n =>
    exact ⟨(copy_stocked inv run accepted (counted src dst n rfl) stocked).raise le,same (leaves.bags rfl)⟩
  | release => exact ⟨(release_stocked inv run accepted stocked).raise le,same (leaves.bags rfl)⟩
  | give ptr layout => exact ⟨give_stocked inv ok run accepted le now stocked,same (leaves.bags rfl)⟩
  | _ =>
    obtain rfl := Option.some.inj accepted
    exact ⟨(stocked.leave inv leaves (leaves.bags rfl) (leaves.live rfl) (leaves.slot rfl) rfl).raise le,
      same (leaves.bags rfl)⟩

end Actions

/-- The same bags and live blocks, heaps and slots. -/
theorem Stocked.still (stocked : Stocked t cls top k s) (bags : s'.bags = s.bags)
    (live : s'.resident cls = s.resident cls) (heaps : s'.heaps = s.heaps) (tls : s'.tls = s.tls) :
    Stocked t cls top k s' :=
  stocked.same bags live (stocked.site.same bags (by rw [tls]))
    (fun dry th sh alive found => stocked.drained dry th sh (tls ▸ alive) (heaps ▸ found)) rfl

/-! Whole runs. -/

/-- A request to the allocator that does not end its life. -/
def Request.uses (inst : Nat) : Request → Bool
  | .alloc i _ | .allocZeroed i _ | .dealloc i _ _ | .realloc i _ _ _ => i = inst
  | .exit => true
  | .drop _ => false

/-- No thread but `t` is asked for anything, and `t` only uses the allocator `inst`. -/
def Label.alone (t inst : Nat) : Label → Bool
  | .start u request => u = t && request.uses inst
  | _ => true

/-- Such a request begins with nothing changed that the supply depends on. -/
structure Opened (t inst cls : Nat) (s s' : State) : Prop where
  heaps : s'.heaps = s.heaps
  insts : s'.insts = s.insts
  tls : s'.tls = s.tls
  bags : s'.bags = s.bags
  live : s'.resident cls = s.resident cls
  call : ∀ {i}, (s'.call t).inst = some i → (s.call t).inst = some i ∨ i = inst

theorem start_opened {request : Request} (uses : request.uses inst = true)
    (run : s.start t request = some s') : Opened t inst cls s s' := by
  have entered : ∀ {i s'}, i = inst → s.enter t i = some s' → Opened t inst cls s s' := by
    rintro i s' rfl run
    simp only [State.enter,Option.bind_eq_bind,Option.bind_eq_some_iff,Option.some.injEq] at run
    obtain ⟨I,_,rfl⟩ := run
    refine ⟨rfl,rfl,rfl,rfl,rfl,fun called => ?_⟩
    dsimp only at called
    rw [replace_same] at called
    exact Or.inr (Option.some.inj called).symm
  have passed : ∀ {i ptr layout s'}, i = inst →
      ((s.enter t i).bind fun s => s.pin t i ptr layout) = some s' → Opened t inst cls s s' := by
    intro i ptr layout s' same run
    obtain ⟨s₁,enter,pin⟩ := Option.bind_eq_some_iff.mp run
    obtain ⟨heaps,insts,tls,bags,live,call⟩ := entered same enter
    simp only [State.pin] at pin
    split at pin
    case isFalse => cases pin
    obtain rfl := Option.some.inj pin
    refine ⟨heaps,insts,tls,bags,Eq.trans (resident_map fun a _ => ?_) live,call⟩
    split <;> rfl
  cases request with
  | alloc i layout => exact entered (of_decide_eq_true uses) run
  | allocZeroed i layout => exact entered (of_decide_eq_true uses) run
  | dealloc i ptr layout => exact passed (of_decide_eq_true uses) run
  | realloc i ptr layout size => exact passed (of_decide_eq_true uses) run
  | exit =>
    obtain rfl := Option.some.inj run
    exact ⟨rfl,rfl,rfl,rfl,rfl,Or.inl⟩
  | drop i => cases uses

namespace World

/-- Whether the thread is about to copy into a block of the class that it has just obtained. -/
def copies (c : World P strict) (t cls : Nat) : Bool :=
  match (c.prog t).next with
  | some (.copy _ dst _) => (c.state.blockOf t dst).any fun B => B.ref.cls = cls
  | _ => false

/-- The live blocks of a class, with the new one while a reallocation has both. -/
def population (c : World P strict) (t cls : Nat) : Nat :=
  c.state.resident cls + if c.copies t cls then 1 else 0

/-- The most blocks of a class that were live at any moment of a run. -/
def peak (c : World P strict) (t cls : Nat) : List Label → Nat
  | [] => c.population t cls
  | label :: rest => match c.advance label with
    | some c' => max (c.population t cls) (c'.peak t cls rest)
    | none => c.population t cls

theorem peak_cons {label : Label} {rest : List Label} (step : c.advance label = some c') :
    c.peak t cls (label :: rest) = max (c.population t cls) (c'.peak t cls rest) := by
  simp only [peak,step]

theorem copies_iff : c.copies t cls = true ↔ ∃ src dst n, (c.prog t).next = some (.copy src dst n) ∧
    (c.state.view t).Holding cls dst := by
  have holding : ∀ dst, ((c.state.blockOf t dst).any fun B => B.ref.cls = cls) = true ↔
      (c.state.view t).Holding cls dst := fun dst => by
    rw [Option.any_eq_true]
    simp only [decide_eq_true_eq]
    rfl
  unfold copies
  split
  · rename_i src dst n at_
    rw [holding]
    refine ⟨fun held => ⟨src,dst,n,at_,held⟩,?_⟩
    rintro ⟨src',dst',n',same,held⟩
    obtain ⟨_,rfl,_⟩ := Act.copy.inj (Option.some.inj (at_.symm.trans same))
    exact held
  · rename_i other
    refine ⟨unset,?_⟩
    rintro ⟨src,dst,n,same,_⟩
    exact absurd same (other src dst n)

theorem population_le (fine : Fine P strict c) :
    c.population t cls ≤ objectsPerBag cls * c.state.bagCount cls := by
  unfold population
  split
  · rename_i copies
    obtain ⟨_,dst,_,_,B,block,same⟩ := copies_iff.mp copies
    obtain ⟨sl,found,holder,seen⟩ := view_block block
    have small : sl.cls = cls := by rw [← same,seen]; rfl
    have := fine.inv.resident_lt found small (by simp [holder])
    omega
  · exact fine.inv.resident_le

/-- Other threads have never done anything, and all heaps are of the one allocator, which still
exists. -/
structure Solitary (t inst : Nat) (c : World P strict) : Prop where
  prog : ∀ u, u ≠ t → c.prog u = .ret ()
  slot : ∀ u, u ≠ t → ∀ th, c.state.tls u ≠ .alive th
  heap : ∀ {h sh}, c.state.heaps h = some sh → sh.inst = inst ∧ c.state.insts sh.inst ≠ none
  call : ∀ {i}, (c.state.call t).inst = some i → i = inst

theorem Solitary.sole (solitary : Solitary t inst c) (fine : Fine P strict c) :
    Sole t inst c.state where
  heap := solitary.heap
  call := solitary.call
  others {b sl u} found holder := by
    by_contra other
    have idle := Good.resting fine (solitary.prog u other)
    rcases idle.holds with ⟨th,_,_,_,alive,_⟩ | bare
    · exact solitary.slot u other th alive
    · exact (bare.loose.mpr ⟨_,view_block_some found holder⟩).elim

theorem Solitary.advance {label : Label} (solitary : Solitary t inst c) (fine : Fine P strict c)
    (alone : label.alone t inst = true) (step : c.advance label = some c') : Solitary t inst c' := by
  have prog : ∀ u, u ≠ t → c'.prog u = .ret () := fun u other => by
    rw [prog_same step _ _,solitary.prog u other]
    · rintro ch rfl
      simp [World.advance,Config.advance,solitary.prog u other] at step
    · rintro request rfl
      simp only [Label.alone,Bool.and_eq_true,decide_eq_true_eq] at alone
      exact other alone.1
  have slot : ∀ u, u ≠ t → ∀ th, c'.state.tls u ≠ .alive th := fun u other th alive => by
    have same := Fine.others (t := u) fine step ?_ ?_
    · refine solitary.slot u other th ?_
      exact (congrArg View.slot same.view).symm.trans alive
    · rintro ch rfl
      simp [World.advance,Config.advance,solitary.prog u other] at step
    · rintro request rfl
      simp only [Label.alone,Bool.and_eq_true,decide_eq_true_eq] at alone
      exact other alone.1
  cases label with
  | step u ch =>
    simp only [World.advance,Config.advance] at step
    cases at_ : c.prog u with
    | ret a => simp [at_] at step
    | act x f =>
      have mine : u = t := by
        by_contra other
        cases at_.symm.trans (solitary.prog u other)
      subst mine
      simp only [at_,Option.map_eq_some_iff] at step
      obtain ⟨⟨r,s'⟩,run,rfl⟩ := step
      have ok := fine.safe (t := u) (x := x) (by rw [at_]; rfl)
      have leaves : Leaves u 0 x c.state s' := exec_leaves run
      have insts := (exec_effect fine.inv fine.always ok run).insts
      have known : ∀ {i}, c.state.insts i ≠ none → s'.insts i ≠ none := fun {i} there =>
        Option.isSome_iff_ne_none.mp ((insts i).trans (Option.isSome_iff_ne_none.mpr there))
      refine ⟨prog,slot,fun {h sh'} found => ?_,fun {i} called => ?_⟩
      · rcases leaves.heaps found with ⟨sh,old,same,_⟩ | ⟨_,rfl⟩
        · obtain ⟨own,there⟩ := solitary.heap old
          rw [same] at own there
          exact ⟨own,known there⟩
        · have called : (c.state.call u).inst = some sh'.inst := ok
          obtain ⟨⟨I,there⟩,_⟩ := fine.inv.heaps.callInst called
          exact ⟨solitary.call called,known (by simp [there])⟩
      · rcases leaves.call called with old | rfl
        · exact solitary.call old
        · exact solitary.call ok
    | loop body i f =>
      simp only [at_,Option.some.injEq] at step
      subst step
      exact ⟨prog,slot,solitary.heap,solitary.call⟩
  | start u request =>
    simp only [Label.alone,Bool.and_eq_true,decide_eq_true_eq] at alone
    obtain ⟨rfl,uses⟩ := alone
    cases rest : c.prog u with
    | ret a =>
      simp only [World.advance,rest,Option.map_eq_some_iff] at step
      obtain ⟨s',run,rfl⟩ := step
      have opened : Opened u inst 0 c.state s' := start_opened uses run
      obtain ⟨heaps,insts,_,_,_,call⟩ := opened
      refine ⟨prog,slot,fun found => ?_,fun called => ?_⟩
      · obtain ⟨own,there⟩ := solitary.heap (heaps ▸ found)
        exact ⟨own,by rw [insts]; exact there⟩
      · rcases call called with old | rfl
        · exact solitary.call old
        · rfl
    | act x f => simp [World.advance,rest] at step
    | loop body i f => simp [World.advance,rest] at step
  | write addr value =>
    simp only [World.advance,Option.ite_none_right_eq_some,Option.some.injEq] at step
    obtain ⟨_,rfl⟩ := step
    exact ⟨prog,slot,solitary.heap,solitary.call⟩
  | create numNodes regionSize =>
    obtain rfl := Option.some.inj step
    refine ⟨prog,slot,fun {h sh} found => ?_,solitary.call⟩
    obtain ⟨own,there⟩ := solitary.heap found
    refine ⟨own,fun gone => ?_⟩
    by_cases fresh : sh.inst = c.state.nextInst
    · rw [fresh] at there
      exact there (fine.inv.heaps.instFresh le_rfl)
    · exact there ((replace_other fresh).symm.trans gone)

/-- What holds at every moment of such a run, with the peak so far. -/
structure Grown (t inst cls top : Nat) (c : World P strict) : Prop where
  solitary : Solitary t inst c
  supply : ∃ k, (supplyLogic cls P strict).wp (c.prog t) (AtRest fun _ s => s.owing = false)
    (c.state.view t,some k) ∧ Stocked t cls top k c.state
  bound : top ≤ objectsPerBag cls * c.state.bagCount cls
  now : c.population t cls ≤ top

theorem Grown.initial (mem : Bytes) (t inst cls : Nat) :
    Grown t inst cls 0 (World.initial mem : World P strict) where
  solitary := ⟨fun _ _ => rfl,fun _ _ _ alive => (by cases alive),fun found => (by cases found),
    fun called => (by cases called)⟩
  supply := by
    have idle : Idle P strict ((State.initial mem).view t) :=
      Good.resting (t := t) (World.initial_fine mem) rfl
    refine ⟨⟨false,false⟩,⟨⟨idle.holds.always,_,rfl⟩,_,rfl,rfl⟩,?_⟩
    exact ⟨⟨List.Pairwise.nil,fun mem => absurd mem List.not_mem_nil,fun _ => rfl⟩,unset,
      fun _ => Or.inl rfl,unset⟩
  bound := Nat.zero_le _
  now := le_rfl

/-- What one label makes of the supply and the bags. -/
theorem Grown.stocked {label : Label} (solitary : Solitary t inst c) (fine : Fine P strict c)
    (alone : label.alone t inst = true) (step : c.advance label = some c')
    (accepted : Supply.monitor.run k (c.event (supplyScribe cls) c' t label) = some k')
    (stocked : Stocked t cls top k c.state) (now : c.population t cls ≤ top) :
    Stocked t cls (max top (c'.population t cls)) k' c'.state ∧
      c.state.bagCount cls ≤ c'.state.bagCount cls := by
  have still : ∀ {s : State}, c'.state = s → k' = k → s.bags = c.state.bags →
      s.resident cls = c.state.resident cls → s.heaps = c.state.heaps → s.tls = c.state.tls →
      Stocked t cls (max top (c'.population t cls)) k' c'.state ∧
        c.state.bagCount cls ≤ c'.state.bagCount cls := by
    rintro _ rfl rfl bags live heaps tls
    exact ⟨(stocked.still bags live heaps tls).raise (le_max_left _ _),by
      rw [State.bagCount,State.bagCount,bags]⟩
  cases label with
  | step u ch =>
    cases at_ : c.prog u with
    | ret a => simp [World.advance,Config.advance,at_] at step
    | act x f =>
      have mine : u = t := by
        by_contra other
        cases at_.symm.trans (solitary.prog u other)
      subst mine
      simp only [World.advance,Config.advance,at_,Option.map_eq_some_iff] at step
      obtain ⟨⟨r,s'⟩,run,rfl⟩ := step
      have ok := fine.safe (t := u) (x := x) (by rw [at_]; rfl)
      have run : exec P strict u x ch c.state = some (r,s') := run
      simp only [event,if_pos,at_,run] at accepted
      refine exec_stocked fine.inv (solitary.sole fine) ok run accepted ?_ (le_max_left _ _) ?_ stocked
      · rintro src dst n rfl holding
        have copying : c.copies u cls = true := copies_iff.mpr ⟨src,dst,n,by rw [at_]; rfl,holding⟩
        rw [population,if_pos copying] at now
        exact now
      · exact (Nat.le_add_right _ _).trans (le_max_right _ _)
    | loop body i f =>
      have mine : u = t := by
        by_contra other
        cases at_.symm.trans (solitary.prog u other)
      subst mine
      simp only [World.advance,Config.advance,at_,Option.some.injEq] at step
      subst step
      refine still rfl ?_ rfl rfl rfl rfl
      have silent : c.event (supplyScribe cls) ⟨c.state,replace c.prog u (Prog.unroll body i f)⟩ u
          (.step u ch) = [] := by
        simp only [event,if_pos,at_]
      rw [silent] at accepted
      exact (Option.some.inj accepted).symm
  | start u request =>
    simp only [Label.alone,Bool.and_eq_true,decide_eq_true_eq] at alone
    obtain ⟨rfl,uses⟩ := alone
    cases rest : c.prog u with
    | ret a =>
      simp only [World.advance,rest,Option.map_eq_some_iff] at step
      obtain ⟨s',run,rfl⟩ := step
      have opened : Opened u inst cls c.state s' := start_opened uses run
      obtain ⟨heaps,_,tls,bags,live,_⟩ := opened
      refine still rfl ?_ bags live heaps tls
      simp only [event,if_pos,supplyScribe] at accepted
      exact (Option.some.inj accepted).symm
    | act x f => simp [World.advance,rest] at step
    | loop body i f => simp [World.advance,rest] at step
  | write addr value =>
    simp only [World.advance,Option.ite_none_right_eq_some,Option.some.injEq] at step
    obtain ⟨_,rfl⟩ := step
    exact still rfl (Option.some.inj accepted).symm rfl rfl rfl rfl
  | create numNodes regionSize =>
    obtain rfl := Option.some.inj step
    exact still rfl (Option.some.inj accepted).symm rfl rfl rfl rfl

theorem Grown.advance {label : Label} (grown : Grown t inst cls top c) (fine : Fine P strict c)
    (alone : label.alone t inst = true) (step : c.advance label = some c') :
    Grown t inst cls (max top (c'.population t cls)) c' := by
  obtain ⟨k,pre,stocked⟩ := grown.supply
  obtain ⟨k',accepted,next⟩ := Fine.watch_step (supply_sustains cls P strict) fine step pre
  obtain ⟨stocked',more⟩ := Grown.stocked grown.solitary fine alone step accepted stocked grown.now
  refine ⟨grown.solitary.advance fine alone step,⟨k',next,stocked'⟩,max_le ?_ ?_,le_max_right _ _⟩
  · exact grown.bound.trans (Nat.mul_le_mul_left _ more)
  · exact population_le (Fine.advance fine step)

theorem Grown.execute {schedule : List Label} (grown : Grown t inst cls top c)
    (fine : Fine P strict c) (run : c.execute schedule = some c')
    (alone : ∀ label ∈ schedule, label.alone t inst = true) :
    Grown t inst cls (max top (c.peak t cls schedule)) c' := by
  induction schedule generalizing c top with
  | nil =>
    obtain rfl := Option.some.inj run
    rw [peak,max_eq_left grown.now]
    exact grown
  | cons label rest ih =>
    obtain ⟨c₁,step,later⟩ := Option.bind_eq_some_iff.mp run
    have first := grown.advance fine (alone label List.mem_cons_self) step
    have whole := ih first (Fine.advance fine step) later fun label mem =>
      alone label (List.mem_cons_of_mem _ mem)
    have at_ : c₁.population t cls ≤ c₁.peak t cls rest := by
      cases rest with
      | nil => exact le_rfl
      | cons label rest =>
        unfold peak
        split
        · exact le_max_left _ _
        · exact le_rfl
    rw [max_assoc,max_eq_right at_] at whole
    rwa [peak_cons step,← max_assoc,max_eq_left grown.now]

/-- No blow-up: whatever a lone thread asks of its allocator, between operations the bags
carved for a class are as many as the most blocks of it that were ever live at once need. -/
theorem bags_of_peak {mem : Bytes} {schedule : List Label}
    (run : (World.initial mem : World P strict).execute schedule = some c)
    (alone : ∀ label ∈ schedule, label.alone t inst = true) (rest : c.prog t = .ret ())
    (small : cls < numSizeClasses) : c.state.bagCount cls =
      (World.initial mem : World P strict).peak t cls schedule ⌈/⌉ objectsPerBag cls := by
  have grown := (Grown.initial mem t inst cls).execute (World.initial_fine mem) run alone
  obtain ⟨k,pre,stocked⟩ := grown.supply
  rw [rest] at pre
  obtain ⟨_,k',same,none_⟩ := pre
  obtain rfl := Option.some.inj same
  have bound := grown.bound
  have full := stocked.full none_
  rw [max_eq_right (Nat.zero_le _)] at bound full
  have pos := objectsPerBag_pos small
  refine le_antisymm ?_ ((ceilDiv_le_iff_le_mul pos).mpr bound)
  by_contra fewer
  have enough := (ceilDiv_le_iff_le_mul pos).mp (Nat.le_sub_one_of_lt (not_le.mp fewer))
  omega

end World

namespace Sample

def idle : Prog allocI Unit → Bool
  | .ret _ => true
  | _ => false

theorem idle_ret {p : Prog allocI Unit} (h : idle p = true) : p = .ret () := by
  cases p with
  | ret a => rfl
  | act x k => cases h
  | loop body i k => cases h

/-- Both objects of a bag are in use; one is freed, and asked for again. -/
def reusing : List Label :=
  twoBlocks ++ [.start 1 (.dealloc 0 262144 (layout 16384 small_bound))] ++ go 1 10 ++ asking 1

end Sample

set_option maxRecDepth 8000 in
theorem sample_bags_of_peak : ∃ c : World Sample.platform false,
    (World.initial fun _ => 0).execute Sample.reusing = some c ∧ c.state.bagCount 11 =
      (World.initial fun _ => 0 : World Sample.platform false).peak 1 11 Sample.reusing ⌈/⌉
        objectsPerBag 11 := by
  have ends : ((World.initial fun _ => 0 : World Sample.platform false).execute
      Sample.reusing).map (fun c => Sample.idle (c.prog 1)) = some true := by decide +kernel
  obtain ⟨c,run,rest⟩ := Option.map_eq_some_iff.mp ends
  have alone : ∀ label ∈ Sample.reusing, label.alone 1 0 = true := by decide
  exact ⟨c,run,World.bags_of_peak run alone (Sample.idle_ret rest) (by decide)⟩

end Numalloc
