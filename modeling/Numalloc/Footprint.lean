import Numalloc.Concurrent.Only
import Numalloc.Spec.Operations

/-! The actions each operation may take: an allocation never touches what callers own, a
deallocation obtains no memory. -/
namespace Numalloc

open Concurrent Prog

/-- What both directions need: the thread's own data, the stacks, and the heaps. -/
def Act.upkeep : Act → Bool
  | .heap _ | .slotGet | .slotTake _ | .slotSet _ | .thread | .setFreelist _ _ | .setLargeCache _
  | .link _ | .loadHead _ | .casHead _ _ _ | .fetchAddNode _ | .fetchAddRefs _ | .fetchSubRefs _
  | .extent _ | .sysDealloc _ | .munmap _ _ | .abort => true
  | _ => false

/-- What the list methods need. -/
def Act.lists : Act → Bool
  | .thread | .setFreelist _ _ | .link _ => true
  | _ => false

/-- What it takes to dissolve a cache that is out of its slot. -/
def Act.sheds : Act → Bool
  | .link _ | .loadHead _ | .casHead _ _ _ | .fetchSubRefs _ | .extent _ | .sysDealloc _
  | .munmap _ _ => true
  | _ => false

/-- Memory is mapped in whole pages. -/
def Act.allocates (P : Platform) : Act → Bool
  | .mmap size => size % P.pageSize = 0
  | .loadBump _ _ | .casBump _ _ _ _ _ | .bindToNode _ _ _ | .writeHeader _ _ _ => true
  | x => x.upkeep

def Act.frees : Act → Bool
  | .readHeader _ | .madvise _ _ => true
  | x => x.upkeep

/-- What changes neither a link nor a list, nor which cache is in the slot. -/
def Act.aside : Act → Bool
  | .heap _ | .takeHeap | .slotGet | .thread | .setLargeCache _ | .loadBump _ _ | .fetchAddNode _
  | .fetchAddRefs _ | .fetchSubRefs _ | .extent _ | .sysDealloc _ | .mmap _ | .munmap _ _
  | .bindToNode _ _ _ | .madvise _ _ | .writeHeader _ _ _ | .readHeader _ | .finish | .abort => true
  | _ => false

/-- What it takes to give up a large mapping, or to keep it for later. -/
def Act.recycles : Act → Bool
  | .heap _ | .slotGet | .thread | .setLargeCache _ | .munmap _ _ | .madvise _ _
  | .readHeader _ => true
  | _ => false

abbrev Recycles (x : allocI.Op) : Prop := Act.recycles x = true
abbrev Aside (x : allocI.Op) : Prop := Act.aside x = true
abbrev Lists (x : allocI.Op) : Prop := Act.lists x = true
abbrev Sheds (x : allocI.Op) : Prop := Act.sheds x = true
abbrev Upkeep (x : allocI.Op) : Prop := Act.upkeep x = true
abbrev Allocates (P : Platform) (x : allocI.Op) : Prop := Act.allocates P x = true
abbrev Frees (x : allocI.Op) : Prop := Act.frees x = true

variable {P : Platform} {α : Type} {inst : Nat} {layout : Layout}

theorem Upkeep.allocates (x : allocI.Op) (h : Upkeep x) : Allocates P x := by
  cases x <;> first | rfl | exact h | cases h

theorem Upkeep.frees (x : allocI.Op) (h : Upkeep x) : Frees x := by
  cases x <;> first | rfl | exact h

theorem Recycles.frees (x : allocI.Op) (h : Recycles x) : Frees x := by
  cases x <;> first | rfl | cases h

theorem Recycles.aside (x : allocI.Op) (h : Recycles x) : Aside x := by
  cases x <;> first | rfl | cases h

theorem Lists.upkeep (x : allocI.Op) (h : Lists x) : Upkeep x := by
  cases x <;> first | rfl | cases h

theorem Sheds.upkeep (x : allocI.Op) (h : Sheds x) : Upkeep x := by
  cases x <;> first | rfl | cases h

/-! List methods. -/

theorem links_lists (p : Prog linkI α) : (links p).Only Lists := Only.lift fun _ => rfl

theorem freelist_lists (cls : Nat) : (freelist cls).Only Lists :=
  .bind (.call rfl) fun _ => trivial

theorem freelistMut_lists (cls : Nat)
    (method : ThreadFreelist → Prog linkI (α × ThreadFreelist)) :
    (freelistMut cls method).Only Lists :=
  .bind (freelist_lists cls) fun _ => .bind (links_lists _) fun _ => .bind (.call rfl) fun _ => trivial

theorem freelistDo_lists (cls : Nat) (method : ThreadFreelist → Prog linkI ThreadFreelist) :
    (freelistDo cls method).Only Lists := freelistMut_lists cls _

theorem refillWalk_lists (cls first : Nat) : (refillWalk cls first).Only Lists := by
  refine .iter fun x => .bind (links_lists _) fun next => ?_
  split
  · exact .bind (freelist_lists cls) fun _ => .bind (.call rfl) fun _ =>
      .bind (links_lists _) fun _ => trivial
  · cases next <;> trivial

theorem popUnwrap_lists (cls : Nat) : (popUnwrap cls).Only Lists :=
  .bind (freelistMut_lists cls _) fun _ => links_lists _

theorem refill_lists (cls first : Nat) : (refill cls first).Only Lists :=
  .bind (refillWalk_lists cls first) fun _ =>
    .bind (freelistDo_lists cls _) fun _ => popUnwrap_lists cls

theorem carve_lists (cls bag objSize n : Nat) : ∀ i, (carve cls bag objSize i n).Only Lists := by
  induction n with
  | zero => exact fun _ => trivial
  | succ n ih => exact fun i => .bind (freelistDo_lists cls _) fun _ => ih (i + 1)

/-! Large objects and handles. -/

theorem onCache_recycles (p : Prog LargeCache.cacheI α) : (onCache p).Only Recycles :=
  Only.lift fun x => by cases x <;> rfl

theorem mapLarge_aside (size node : Nat) (layout : Layout) :
    (mapLarge size node layout).Only Aside := by
  rw [mapLarge_eq]
  refine .bind (.call rfl) fun raw => ?_
  cases raw with
  | none => trivial
  | some raw => exact .bind (.call rfl) fun _ => .bind (.bind (.call rfl) fun _ => trivial) fun _ => trivial

theorem tryCacheLarge_recycles (inst original size : Nat) :
    (tryCacheLarge inst original size).Only Recycles := by
  rw [tryCacheLarge_eq]
  refine .bind (.call rfl) fun slot => ?_
  split
  · refine .bind (.call rfl) fun heap => ?_
    split
    · trivial
    · refine .bind (onCache_recycles _) fun ok => ?_
      split
      · refine .bind ?_ fun _ => trivial
        split
        · exact .call rfl
        · trivial
      · trivial
  · trivial

theorem deallocLarge_recycles (inst ptr : Nat) : (deallocLarge inst ptr).Only Recycles := by
  rw [deallocLarge_eq]
  refine .bind (.call rfl) fun x => .bind (tryCacheLarge_recycles inst _ _) fun ok => ?_
  split
  · trivial
  · exact .call rfl

theorem dropHandle_aside (h : HeapHandle) : (dropHandle h).Only Aside := by
  refine .bind (.call rfl) fun previous => ?_
  split
  · exact .bind (.call rfl) fun _ => .bind (.call rfl) fun _ => .call rfl
  · trivial

theorem dropInstance_aside : dropInstance.Only Aside := by
  refine .bind (.call rfl) fun h => ?_
  cases h with
  | none => trivial
  | some h => exact dropHandle_aside h

/-! Dissolving a cache. -/

theorem onStack_sheds (k : StackRef) (p : Prog TreiberStack.stackI α) :
    (onStack k p).Only Sheds := Only.lift fun x => by cases x <;> rfl

theorem dropHandle_sheds (h : HeapHandle) : (dropHandle h).Only Sheds := by
  refine .bind (.call rfl) fun previous => ?_
  split
  · exact .bind (.call rfl) fun _ => .bind (.call rfl) fun _ => .call rfl
  · trivial

theorem flush_sheds (entries : List LargeCacheEntry) : (flush entries).Only Sheds := by
  induction entries with
  | nil => trivial
  | cons entry rest ih => exact .bind (.call rfl) fun _ => ih

theorem walkTail_sheds (head : Nat) : (walkTail head).Only Sheds :=
  .iter fun tail => .bind (Only.lift fun _ => rfl) fun next => by cases next <;> trivial

theorem dropClass_sheds (th : PerThreadHeap) (cls : Nat) : (dropClass th cls).Only Sheds := by
  rw [dropClass_eq]
  refine .bind (Only.lift fun _ => rfl) fun x => .bind ?_ fun _ => ?_
  · split
    · exact onStack_sheds _ _
    · trivial
  · split
    · exact .bind (walkTail_sheds _) fun _ => onStack_sheds _ _
    · trivial

theorem dropClasses_sheds (th : PerThreadHeap) (classes : List Nat) :
    (dropClasses th classes).Only Sheds := by
  induction classes with
  | nil => trivial
  | cons cls rest ih => exact .bind (dropClass_sheds th cls) fun _ => ih

theorem dropThreadHeap_sheds (th : PerThreadHeap) : (dropThreadHeap th).Only Sheds :=
  .bind (dropClasses_sheds th _) fun _ => .bind (dropHandle_sheds _) fun _ => flush_sheds _

section Upkeep

theorem onStack_only (k : StackRef) (p : Prog TreiberStack.stackI α) :
    (onStack k p).Only Upkeep := (onStack_sheds k p).mono Sheds.upkeep

theorem freelistMut_only (cls : Nat)
    (method : ThreadFreelist → Prog linkI (α × ThreadFreelist)) :
    (freelistMut cls method).Only Upkeep := (freelistMut_lists cls method).mono Lists.upkeep

theorem freelistDo_only (cls : Nat) (method : ThreadFreelist → Prog linkI ThreadFreelist) :
    (freelistDo cls method).Only Upkeep := freelistMut_only cls _

theorem dropHandle_only (h : HeapHandle) : (dropHandle h).Only Upkeep :=
  (dropHandle_sheds h).mono Sheds.upkeep

theorem dropThreadHeap_only (th : PerThreadHeap) : (dropThreadHeap th).Only Upkeep :=
  (dropThreadHeap_sheds th).mono Sheds.upkeep

theorem initThreadHeap_only (inst : Nat) (heap : HeapRef) :
    (initThreadHeap inst heap).Only Upkeep := by
  rw [initThreadHeap_eq]
  refine .bind (.call rfl) fun old => .bind ?_ fun _ => .bind (.call rfl) fun _ =>
    .bind (.call rfl) fun previous => .bind ?_ fun _ => .call rfl
  · split
    · exact dropThreadHeap_only _
    · trivial
  · split
    · exact ⟨rfl,fun e => nomatch e⟩
    · trivial

theorem threadHeap_only (inst : Nat) : (threadHeap inst).Only Upkeep := by
  rw [threadHeap_eq]
  refine .bind (.call rfl) fun slot => ?_
  cases slot with
  | destroyed => trivial
  | empty => exact .bind (.call rfl) fun _ => .bind (initThreadHeap_only inst _) fun _ => trivial
  | alive th =>
    refine .bind (.call rfl) fun heap => ?_
    split
    · trivial
    · exact .bind (initThreadHeap_only inst _) fun _ => trivial

end Upkeep

/-! Allocation. -/

theorem mapLarge_only {needed : Nat} (node : Nat) (fits : largeAllocSize P layout = some needed) :
    (mapLarge needed node layout).Only (Allocates P) := by
  rw [mapLarge_eq]
  refine .bind (.call ?_) fun raw => ?_
  · obtain ⟨_,page,_⟩ := largeAllocSize_spec fits
    exact decide_eq_true (Nat.mod_eq_zero_of_dvd page)
  cases raw with
  | none => trivial
  | some raw => exact .bind (.call rfl) fun _ => .bind (.bind (.call rfl) fun _ => trivial) fun _ => trivial

theorem allocLargeTracked_only (inst : Nat) (layout : Layout) :
    (allocLargeTracked P inst layout).Only (Allocates P) := by
  cases fits : largeAllocSize P layout with
  | none =>
    unfold allocLargeTracked
    rw [fits]
    trivial
  | some needed =>
    rw [allocLargeTracked_eq fits]
    refine .bind ((threadHeap_only inst).mono Upkeep.allocates) fun ok => ?_
    split
    · refine .bind (.call rfl) fun th => ?_
      split
      · exact .bind (.call rfl) fun _ => .bind (.bind (.call rfl) fun _ => trivial) fun _ => trivial
      · exact mapLarge_only _ fits
    · exact mapLarge_only 0 fits

theorem allocLarge_only (inst : Nat) (layout : Layout) :
    (allocLarge P inst layout).Only (Allocates P) :=
  .bind (allocLargeTracked_only inst layout) fun _ => trivial

theorem popUnwrap_only (cls : Nat) : (popUnwrap cls).Only Upkeep :=
  (popUnwrap_lists cls).mono Lists.upkeep

theorem refill_only (cls first : Nat) : (refill cls first).Only Upkeep :=
  (refill_lists cls first).mono Lists.upkeep

theorem takeChain_only (cls : Nat) (k : StackRef) : (takeChain cls k).Only Upkeep := by
  rw [takeChain_eq]
  refine .bind (.call rfl) fun th => .bind (.call rfl) fun _ => ?_
  split
  · trivial
  · exact onStack_only _ _

theorem carve_only (cls bag objSize n i : Nat) : (carve cls bag objSize i n).Only Upkeep :=
  (carve_lists cls bag objSize n i).mono Lists.upkeep

theorem allocSmall_only (inst : Nat) (layout : Layout) (cls : Nat) :
    (allocSmall P inst layout cls).Only (Allocates P) := by
  rw [allocSmall_eq]
  refine .bind (.call rfl) fun th => .bind ((freelistMut_only cls _).mono Upkeep.allocates) fun x => ?_
  cases x with
  | some block => trivial
  | none =>
    refine .bind (.call rfl) fun heap => .bind ((takeChain_only cls _).mono Upkeep.allocates) fun x => ?_
    cases x with
    | some first => exact .bind ((refill_only cls first).mono Upkeep.allocates) fun _ => trivial
    | none =>
      refine .bind (Only.lift fun x => by cases x <;> rfl) fun bag => ?_
      cases bag with
      | none => exact allocLarge_only inst layout
      | some bag =>
        exact .bind ((carve_only cls bag _ _ 0).mono Upkeep.allocates) fun _ =>
          .bind ((popUnwrap_only cls).mono Upkeep.allocates) fun _ => trivial

theorem alloc_only (inst : Nat) (layout : Layout) : (alloc P inst layout).Only (Allocates P) := by
  unfold alloc
  split
  · exact allocLarge_only inst layout
  · split
    · trivial
    · refine .bind ((threadHeap_only inst).mono Upkeep.allocates) fun ok => ?_
      split
      · exact allocSmall_only inst layout _
      · exact allocLarge_only inst layout

/-! Deallocation. -/

theorem deallocLarge_only (inst ptr : Nat) : (deallocLarge inst ptr).Only Frees :=
  (deallocLarge_recycles inst ptr).mono Recycles.frees

theorem deallocLocal_only (k : StackRef) (block : Nat) : (deallocLocal k block).Only Upkeep := by
  rw [deallocLocal_eq]
  refine .bind (freelistDo_only _ _) fun _ => .bind (.call rfl) fun th => ?_
  split
  · refine .bind (freelistMut_only _ _) fun x => ?_
    split
    · exact onStack_only _ _
    · trivial
  · trivial

theorem deallocSmall_only (inst ptr : Nat) (heap : HeapRef) (n cls : Nat) :
    (deallocSmall inst ptr heap n cls).Only Upkeep := by
  rw [deallocSmall_eq]
  refine .bind (threadHeap_only inst) fun ok => ?_
  split
  · refine .bind (.call rfl) fun th => ?_
    split
    · exact deallocLocal_only _ _
    · exact onStack_only _ _
  · exact onStack_only _ _

theorem dealloc_only (inst ptr : Nat) (layout : Layout) : (dealloc inst ptr layout).Only Frees := by
  unfold dealloc
  split
  · trivial
  · split
    · exact deallocLarge_only inst ptr
    · refine .bind (.call rfl) fun heap => ?_
      split
      · exact deallocLarge_only inst ptr
      · split
        · trivial
        · exact (deallocSmall_only inst ptr heap _ _).mono Upkeep.frees

/-! Whole requests. -/

/-- Memory is only ever mapped in whole pages. -/
def Paged (P : Platform) (x : allocI.Op) : Prop := ∀ size, x = .mmap size → P.pageSize ∣ size

theorem Allocates.paged (x : allocI.Op) (h : Allocates P x) : Paged P x := by
  rintro size rfl
  exact Nat.dvd_of_mod_eq_zero (of_decide_eq_true h)

theorem Frees.paged (x : allocI.Op) (h : Frees x) : Paged P x := by
  rintro size rfl
  cases h

theorem Upkeep.paged (x : allocI.Op) (h : Upkeep x) : Paged P x := Frees.paged x (Upkeep.frees x h)

/-- Zeroing writes what it has allocated. -/
theorem allocZeroed_writes (inst : Nat) (layout : Layout) :
    (allocZeroed P inst layout).Only fun x => Allocates P x ∨ ∃ p n, x = .writeBytes p n := by
  have write : ∀ p, ((act (.writeBytes p layout.size)).bind fun _ => .ret (some p)).Only fun x =>
      Allocates P x ∨ ∃ p n, x = .writeBytes p n :=
    fun p => .bind (.call (Or.inr ⟨p,_,rfl⟩)) fun _ => trivial
  rw [allocZeroed_eq]
  split
  · refine .bind ((allocLargeTracked_only inst layout).mono fun _ => Or.inl) fun x => ?_
    split
    · split
      · exact write _
      · trivial
    · trivial
  · refine .bind ((alloc_only inst layout).mono fun _ => Or.inl) fun x => ?_
    cases x with
    | none => trivial
    | some p => exact write p

theorem allocZeroed_only (inst : Nat) (layout : Layout) :
    (allocZeroed P inst layout).Only (Paged P) := by
  refine (allocZeroed_writes inst layout).mono fun x h => ?_
  rcases h with h | ⟨p,n,rfl⟩
  · exact Allocates.paged x h
  · exact nofun

theorem reallocMove_only (inst ptr newSize : Nat) :
    (reallocMove P inst ptr layout newSize).Only (Paged P) := by
  cases resized : layout.resize newSize with
  | none =>
    unfold reallocMove
    rw [resized]
    trivial
  | some newLayout =>
    rw [reallocMove_eq resized]
    refine .bind ((alloc_only inst newLayout).mono Allocates.paged) fun x => ?_
    cases x with
    | none => trivial
    | some newPtr =>
      exact .bind (.call nofun) fun _ => .bind (.call nofun) fun _ =>
        .bind ((dealloc_only inst ptr layout).mono Frees.paged) fun _ => trivial

theorem realloc_only (inst ptr newSize : Nat) :
    (realloc P inst ptr layout newSize).Only (Paged P) := by
  unfold realloc
  dsimp only
  split
  · refine .bind (.call nofun) fun heap => ?_
    split
    · trivial
    · exact reallocMove_only inst ptr newSize
  · exact reallocMove_only inst ptr newSize

theorem answer_only (layout : Layout) (x : Option Nat) : (answer layout x).Only (Paged P) := by
  cases x with
  | none => trivial
  | some p => exact .call nofun

theorem exitThread_only : exitThread.Only Upkeep := by
  refine .bind (.call rfl) fun slot => ?_
  cases slot with
  | alive th => exact dropThreadHeap_only th
  | _ => trivial

theorem code_only (request : Request) : (request.code P).Only (Paged P) := by
  refine .bind ?_ fun _ => .call nofun
  cases request with
  | alloc inst layout =>
    exact .bind ((alloc_only inst layout).mono Allocates.paged) fun x => answer_only layout x
  | allocZeroed inst layout =>
    exact .bind (allocZeroed_only inst layout) fun x => answer_only layout x
  | dealloc inst ptr layout =>
    exact .bind (.call nofun) fun _ => (dealloc_only inst ptr layout).mono Frees.paged
  | realloc inst ptr layout newSize =>
    refine .bind (realloc_only inst ptr newSize) fun x => ?_
    split
    · exact answer_only _ x
    · trivial
  | exit => exact exitThread_only.mono Upkeep.paged
  | drop inst =>
    refine .bind (.call nofun) fun h => ?_
    cases h with
    | none => trivial
    | some h => exact (dropHandle_only h).mono Upkeep.paged

end Numalloc
