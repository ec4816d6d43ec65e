import Numalloc.FreeList
import Numalloc.Heap
import Mathlib.Data.List.Forall2

/-! Per-thread state (`thread_heap.rs`): free lists of every class and the cache of
large mappings. -/
namespace Numalloc

open Concurrent

def largeCacheSlots : Nat := 1024
def maxLargeCacheBytes : Nat := 512 * 1024 * 1024
def madviseThreshold : Nat := 512 * 1024
def refillBatch : Nat := 64

structure LargeCacheEntry where
  originalPtr : Nat
  allocSize : Nat
  deriving DecidableEq

/-- The initialised prefix of the entry array; its length is the source's `count`. -/
structure LargeCache where
  entries : List LargeCacheEntry
  bytes : Nat
  deriving DecidableEq

namespace LargeCache

def closeSizeTolerance : Nat := 8 * 1024

def empty : LargeCache := ⟨[],0⟩

def count (cache : LargeCache) : Nat := cache.entries.length

/-- Scan for an exact match, else the closest fit; `usizeMax` when there is none. -/
def bestIdx (allocSize : Nat) : List LargeCacheEntry → Nat → Nat → Nat → Nat
  | [], _, best, _ => best
  | entry :: rest, i, best, bestWaste =>
    if entry.allocSize = allocSize then i
    else
      let waste := wrappingSub entry.allocSize allocSize
      if allocSize ≤ entry.allocSize ∧ waste ≤ closeSizeTolerance ∧ waste < bestWaste then
        bestIdx allocSize rest (i + 1) i waste
      else
        bestIdx allocSize rest (i + 1) best bestWaste

/-- `entries[i] = entries[count - 1]`, then one entry less. -/
def swapRemove {α : Type} (entries : List α) (i : Nat) : List α :=
  match entries.getLast? with
  | some last => (entries.set i last).dropLast
  | none => []

def take (cache : LargeCache) (allocSize : Nat) : Option (Nat × Nat) × LargeCache :=
  match cache.entries[bestIdx allocSize cache.entries 0 usizeMax usizeMax]? with
  | some entry =>
    (some (entry.originalPtr, entry.allocSize),
      ⟨swapRemove cache.entries (bestIdx allocSize cache.entries 0 usizeMax usizeMax),
        cache.bytes - entry.allocSize⟩)
  | none => (none, cache)

/-- The condition of the eviction loop. -/
def full (cache : LargeCache) (allocSize : Nat) : Bool :=
  0 < cache.count ∧
    (largeCacheSlots ≤ cache.count ∨ maxLargeCacheBytes < saturatingAdd cache.bytes allocSize)

/-- The cache in place, and the mappings it gives up. -/
inductive Op where
  | get
  | set (cache : LargeCache)
  | munmap (ptr : Nat) (size : Nat)

@[reducible] def Op.Res : Op → Type
  | get => LargeCache
  | set _ => Unit
  | munmap _ _ => Unit

@[reducible] def cacheI : Interface := ⟨Op,Op.Res⟩

/-- One eviction: the last entry leaves the array and is unmapped. -/
def evict (cache : LargeCache) : Prog cacheI Unit :=
  match cache.entries.getLast? with
  | none => pure ()
  | some evicted => do
    .call (I := cacheI) (.set ⟨cache.entries.dropLast,cache.bytes - evicted.allocSize⟩)
    .call (I := cacheI) (.munmap evicted.originalPtr evicted.allocSize)

def put (originalPtr : Nat) (allocSize : Nat) : Prog cacheI Bool := do
  Prog.iter (fun _ => do
    let cache ← .call (I := cacheI) .get
    if cache.full allocSize then
      evict cache
      pure (.inl ())
    else
      pure (.inr ())) ()
  let cache ← .call (I := cacheI) .get
  if maxLargeCacheBytes < saturatingAdd cache.bytes allocSize then
    pure false
  else
    .call (I := cacheI)
      (.set ⟨cache.entries ++ [⟨originalPtr,allocSize⟩],cache.bytes + allocSize⟩)
    pure true

def unmapEach : List LargeCacheEntry → Prog cacheI Unit
  | [] => pure ()
  | entry :: rest => do
    .call (I := cacheI) (.munmap entry.originalPtr entry.allocSize)
    unmapEach rest

/-- Unmap every entry, then forget them all. -/
def flush : Prog cacheI Unit := do
  let cache ← .call (I := cacheI) .get
  unmapEach cache.entries
  .call (I := cacheI) (.set .empty)

/-- Slot and byte accounting. -/
structure Ok (cache : LargeCache) : Prop where
  slots : cache.count ≤ largeCacheSlots
  bytes : cache.bytes = (cache.entries.map LargeCacheEntry.allocSize).sum
  limit : cache.bytes ≤ maxLargeCacheBytes

theorem empty_ok : empty.Ok := ⟨by decide,rfl,by decide⟩

variable {α β : Type} {R : α → β → Prop} {l : List α} {ids : List β} {i : Nat} {a : α}
  {cache : LargeCache} {entry : LargeCacheEntry} {entries : List LargeCacheEntry}

theorem swapRemove_perm (at_ : l[i]? = some a) : l.Perm (a :: swapRemove l i) := by
  obtain ⟨bound,rfl⟩ := List.getElem?_eq_some_iff.mp at_
  obtain ⟨front,last,rfl⟩ : ∃ front last, l = front ++ [last] :=
    ⟨_,_,(List.dropLast_append_getLast (List.ne_nil_of_length_pos (by omega))).symm⟩
  simp only [swapRemove,List.getLast?_concat]
  rcases Nat.lt_or_ge i front.length with inside | last_
  · obtain ⟨before,after,split,length⟩ : ∃ before after, front = before ++ front[i] :: after ∧
        before.length = i :=
      ⟨front.take i,front.drop (i + 1),by simp,by simp [List.length_take]; omega⟩
    rw [List.getElem_append_left inside,List.set_append_left _ _ inside,List.dropLast_concat]
    generalize front[i] = b at split
    subst split length
    simp only [List.append_assoc,List.cons_append,List.set_append_right _ _ (le_refl _),
      Nat.sub_self,List.set_cons_zero]
    refine List.perm_middle.trans (.cons b (List.Perm.append_left before ?_))
    exact List.perm_append_singleton last after
  · have at_last : i = front.length := by simp at bound; omega
    subst at_last
    simp

theorem forall₂_set (all : List.Forall₂ R l ids) {b : β} (rel : R a b) (i : Nat) :
    List.Forall₂ R (l.set i a) (ids.set i b) := by
  induction all generalizing i with
  | nil => exact .nil
  | cons head tail ih =>
    cases i with
    | zero => exact .cons rel tail
    | succ i => exact .cons head (ih i)

theorem forall₂_dropLast (all : List.Forall₂ R l ids) :
    List.Forall₂ R l.dropLast ids.dropLast := by
  rw [List.dropLast_eq_take,List.dropLast_eq_take,all.length_eq]
  exact List.forall₂_take _ all

theorem forall₂_getLast? (all : List.Forall₂ R l ids) (last : l.getLast? = some a) :
    ∃ b, ids.getLast? = some b ∧ R a b := by
  have back := List.rel_reverse all
  rw [List.getLast?_eq_head?_reverse] at last
  rw [List.getLast?_eq_head?_reverse]
  generalize l.reverse = front at back last
  generalize ids.reverse = front' at back
  cases back with
  | nil => simp at last
  | cons rel _ =>
    obtain rfl := Option.some.inj last
    exact ⟨_,rfl,rel⟩

/-- What leaves the array leaves the list alongside at the same place. -/
theorem forall₂_swapRemove (all : List.Forall₂ R l ids) (at_ : l[i]? = some a) :
    ∃ b, R a b ∧ ids.Perm (b :: swapRemove ids i) ∧
      List.Forall₂ R (swapRemove l i) (swapRemove ids i) := by
  obtain ⟨length,each⟩ := List.forall₂_iff_get.mp all
  obtain ⟨bound,rfl⟩ := List.getElem?_eq_some_iff.mp at_
  have bound' : i < ids.length := by omega
  obtain ⟨last,end_⟩ : ∃ last, l.getLast? = some last := by
    refine Option.ne_none_iff_exists'.mp fun none_ => ?_
    rw [List.getLast?_eq_none_iff.mp none_] at bound
    simp at bound
  obtain ⟨last',end',rel⟩ := forall₂_getLast? all end_
  refine ⟨ids[i],each i bound bound',swapRemove_perm (List.getElem?_eq_getElem bound'),?_⟩
  simp only [swapRemove,end_,end']
  exact forall₂_dropLast (forall₂_set all rel i)

theorem wrappingSub_of_le {a b : Nat} (le : b ≤ a) (word : a < 2 ^ 64) :
    wrappingSub a b = a - b := by
  unfold wrappingSub
  rw [show a + 2 ^ 64 - b = (a - b) + 2 ^ 64 by omega,Nat.add_mod_right]
  exact Nat.mod_eq_of_lt (by omega)

/-- A scan answers what it was given when nothing fits better, else the place of the
smallest entry that fits. -/
theorem bestIdx_spec {n : Nat} (word : ∀ e ∈ entries, e.allocSize < 2 ^ 64) :
    ∀ i best bestWaste, (bestIdx n entries i best bestWaste = best ∧
      ∀ e ∈ entries, n ≤ e.allocSize → e.allocSize ≤ n + closeSizeTolerance →
        bestWaste ≤ e.allocSize - n) ∨
      ∃ d e, bestIdx n entries i best bestWaste = i + d ∧ entries[d]? = some e ∧
        n ≤ e.allocSize ∧ e.allocSize ≤ n + closeSizeTolerance ∧
        (e.allocSize = n ∨ e.allocSize - n < bestWaste) ∧
        ∀ e' ∈ entries, n ≤ e'.allocSize → e.allocSize ≤ e'.allocSize := by
  induction entries with
  | nil => exact fun _ _ _ => Or.inl ⟨rfl,fun e mem => absurd mem List.not_mem_nil⟩
  | cons entry rest ih =>
    intro i best bestWaste
    have tail := ih (fun e h => word e (List.mem_cons_of_mem _ h)) (i + 1)
    have bound := word entry List.mem_cons_self
    unfold bestIdx
    split
    case isTrue exact_ =>
      exact Or.inr ⟨0,entry,rfl,rfl,by omega,by omega,Or.inl exact_,fun e' _ le => by omega⟩
    case isFalse other =>
    simp only
    split
    case isTrue close =>
      obtain ⟨above,waste,better⟩ := close
      rw [wrappingSub_of_le above bound] at waste better ⊢
      rcases tail i (entry.allocSize - n) with ⟨same,worse⟩ |
        ⟨d,e,found,at_,low,high,less,least⟩
      · refine Or.inr ⟨0,entry,by simpa using same,rfl,above,by omega,Or.inr better,?_⟩
        intro e' mem le
        rcases List.mem_cons.mp mem with rfl | mem
        · exact le_rfl
        · by_cases fits : e'.allocSize ≤ n + closeSizeTolerance
          · have := worse e' mem le fits
            omega
          · omega
      · refine Or.inr ⟨d + 1,e,by omega,by simpa using at_,low,high,by omega,?_⟩
        intro e' mem le
        rcases List.mem_cons.mp mem with rfl | mem
        · omega
        · exact least e' mem le
    case isFalse far =>
      rcases tail best bestWaste with ⟨same,worse⟩ | ⟨d,e,found,at_,low,high,less,least⟩
      · refine Or.inl ⟨same,fun e mem le fits => ?_⟩
        rcases List.mem_cons.mp mem with rfl | mem
        · rw [wrappingSub_of_le le bound] at far
          omega
        · exact worse e mem le fits
      · refine Or.inr ⟨d + 1,e,by omega,by simpa using at_,low,high,less,?_⟩
        intro e' mem le
        rcases List.mem_cons.mp mem with rfl | mem
        · by_contra closer
          rw [wrappingSub_of_le le bound] at far
          omega
        · exact least e' mem le

/-- One entry less, wherever it was. -/
theorem Ok.remove (ok : cache.Ok) (perm : cache.entries.Perm (entry :: entries)) :
    Ok ⟨entries,cache.bytes - entry.allocSize⟩ := by
  have length := perm.length_eq
  have sum := (perm.map LargeCacheEntry.allocSize).sum_nat
  have bytes := ok.bytes
  have slots := ok.slots
  have limit := ok.limit
  simp only [List.length_cons,List.map_cons,List.sum_cons,count] at length sum slots
  exact ⟨by simp only [count]; omega,by simp only; omega,by simp only; omega⟩

/-- One entry more, when there is a slot and the byte limit allows it. -/
theorem Ok.add (ok : cache.Ok) (entry : LargeCacheEntry) (slots : cache.count < largeCacheSlots)
    (limit : saturatingAdd cache.bytes entry.allocSize ≤ maxLargeCacheBytes) :
    Ok ⟨cache.entries ++ [entry],cache.bytes + entry.allocSize⟩ := by
  have bytes := ok.bytes
  have small : maxLargeCacheBytes < usizeMax := by decide
  simp only [saturatingAdd] at limit
  refine ⟨?_,?_,?_⟩
  · simp only [count,List.length_append,List.length_singleton] at slots ⊢
    omega
  · simp [bytes]
  · simp only
    omega

theorem Ok.size_le (ok : cache.Ok) (mem : entry ∈ cache.entries) :
    entry.allocSize ≤ maxLargeCacheBytes := by
  obtain ⟨i,at_⟩ := List.mem_iff_getElem?.mp mem
  have sum := ((swapRemove_perm at_).map LargeCacheEntry.allocSize).sum_nat
  have bytes := ok.bytes
  have limit := ok.limit
  simp only [List.map_cons,List.sum_cons] at sum
  omega

/-- `take` misses when no entry fits, and finds the smallest one that fits otherwise. -/
theorem take_cases (ok : cache.Ok) (n : Nat) :
    (cache.take n = (none,cache) ∧
      ∀ e ∈ cache.entries, ¬(n ≤ e.allocSize ∧ e.allocSize ≤ n + closeSizeTolerance)) ∨
    ∃ e, cache.entries[bestIdx n cache.entries 0 usizeMax usizeMax]? = some e ∧
      cache.take n = (some (e.originalPtr,e.allocSize),
        ⟨swapRemove cache.entries (bestIdx n cache.entries 0 usizeMax usizeMax),
          cache.bytes - e.allocSize⟩) ∧
      n ≤ e.allocSize ∧ e.allocSize ≤ n + closeSizeTolerance ∧
      ∀ e' ∈ cache.entries, n ≤ e'.allocSize → e.allocSize ≤ e'.allocSize := by
  have word : ∀ e ∈ cache.entries, e.allocSize < 2 ^ 64 := fun e mem =>
    lt_of_le_of_lt (ok.size_le mem) (by decide)
  rcases bestIdx_spec (n := n) word 0 usizeMax usizeMax with ⟨same,worse⟩ |
    ⟨d,e,found,at_,low,high,_,least⟩
  · have out : cache.entries[usizeMax]? = none := by
      have slots := ok.slots
      simp only [count,largeCacheSlots] at slots
      exact List.getElem?_eq_none (by simp only [usizeMax]; omega)
    refine Or.inl ⟨by simp only [take,same,out],fun e mem fits => ?_⟩
    have := worse e mem fits.1 fits.2
    have : closeSizeTolerance < usizeMax := by decide
    omega
  · rw [Nat.zero_add] at found
    rw [← found] at at_
    exact Or.inr ⟨e,at_,by simp only [take,at_],low,high,least⟩

/-- What `take` answers is the extent of an entry that fits, and that entry is gone. -/
theorem take_spec {allocSize raw size : Nat} {cache' : LargeCache} (ok : cache.Ok)
    (taken : cache.take allocSize = (some (raw,size),cache')) :
    ∃ i, cache.entries[i]? = some ⟨raw,size⟩ ∧ allocSize ≤ size ∧
      size ≤ allocSize + closeSizeTolerance ∧
      cache'.entries = swapRemove cache.entries i ∧ cache'.Ok := by
  rcases take_cases ok allocSize with ⟨missed,_⟩ | ⟨e,at_,hit,low,high,_⟩
  · rw [missed] at taken
    cases taken
  · rw [hit] at taken
    simp only [Prod.mk.injEq,Option.some.injEq] at taken
    obtain ⟨⟨rfl,rfl⟩,rfl⟩ := taken
    exact ⟨_,at_,low,high,rfl,ok.remove (swapRemove_perm at_)⟩

end LargeCache

/-- `HeapHandle`: the address of the shared heap. `inst` names the allocator the heap
was created for; the code never looks at it. -/
structure HeapHandle where
  addr : Nat
  inst : Nat
  deriving DecidableEq

structure PerThreadHeap where
  nodeId : Nat
  globalHeap : HeapHandle
  freelists : Nat → ThreadFreelist
  largeCache : LargeCache

def PerThreadHeap.new (nodeId : Nat) (globalHeap : HeapHandle) : PerThreadHeap :=
  ⟨nodeId,globalHeap,fun _ => .new,.empty⟩

/-- Two bags' worth, clamped to `[64, 2048]`. -/
def maxThreadCache (classIdx : Nat) : Nat :=
  let raw := objectsPerBag classIdx * 2
  if raw < 64 then 64 else if 2048 < raw then 2048 else raw

end Numalloc
