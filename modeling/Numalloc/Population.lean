import Numalloc.Supply

/-! How many blocks of a class were carved, and how many of them the callers have. -/
namespace Numalloc

open Concurrent View

variable {P : Platform} {s : State} {cls t b : Nat} {sl : Slot} {a : Alloc} {bag : Bag}

/-- Whether the allocation is a block of the class. -/
def Alloc.resides (cls : Nat) (a : Alloc) : Bool :=
  a.source = .slot ∧ sizeClassIndex a.layout.effective = some cls

/-- No block is an object of both. -/
def Bag.Apart (bag bag' : Bag) : Prop := ∀ b, bag.HasSlot b → ¬bag'.HasSlot b

namespace State

/-- The bags carved for a class. -/
def bagCount (s : State) (cls : Nat) : Nat := s.bags.countP fun bag => bag.cls = cls

/-- The live allocations that are blocks of a class. -/
def resident (s : State) (cls : Nat) : Nat := s.live.countP (Alloc.resides cls)

def residents (s : State) (cls : Nat) : List Nat := (s.live.filter (Alloc.resides cls)).map Alloc.ptr

def objects (s : State) (cls : Nat) : List Nat :=
  (s.bags.filter fun bag => bag.cls = cls).flatMap Bag.objects

theorem length_residents : (s.residents cls).length = s.resident cls := by
  rw [residents,List.length_map,← List.countP_eq_length_filter,resident]

theorem length_objects : (s.objects cls).length = objectsPerBag cls * s.bagCount cls := by
  unfold objects bagCount
  generalize s.bags = bags
  induction bags with
  | nil => rfl
  | cons bag bags ih =>
    by_cases same : bag.cls = cls
    · rw [List.filter_cons_of_pos (by simpa using same),List.countP_cons_of_pos (by simpa using same),
        List.flatMap_cons,List.length_append,ih,Nat.mul_succ,Bag.objects,List.length_map,
        List.length_range,same,Nat.add_comm]
    · rwa [List.filter_cons_of_neg (by simpa using same),List.countP_cons_of_neg (by simpa using same)]

end State

theorem Alloc.resides_iff :
    a.resides cls = true ↔ a.source = .slot ∧ sizeClassIndex a.layout.effective = some cls := by
  simp [resides]

theorem State.mem_residents :
    b ∈ s.residents cls ↔ ∃ a ∈ s.live, a.resides cls = true ∧ a.ptr = b := by
  simp [residents,and_assoc]

theorem Inv.mem_objects (inv : Inv P s) : b ∈ s.objects cls ↔
    ∃ bag ∈ s.bags, bag.cls = cls ∧ bag.HasSlot b := by
  simp only [State.objects,List.mem_flatMap,List.mem_filter,decide_eq_true_eq,and_assoc]
  refine exists_congr fun bag => and_congr_right fun mem => and_congr_right fun _ => ?_
  exact Bag.mem_objects (inv.slots.bagCls mem)

theorem Inv.slot_object (inv : Inv P s) (found : s.slots b = some sl) (same : sl.cls = cls) :
    b ∈ s.objects cls := by
  obtain ⟨bag,mem,has,_,_,cls'⟩ := inv.slots.bagOf found
  exact inv.mem_objects.mpr ⟨bag,mem,cls'.trans same,has⟩

/-- A block is live at most once. -/
theorem Inv.residents_nodup (inv : Inv P s) : (s.residents cls).Nodup := by
  refine List.pairwise_map.mpr ((inv.live.distinct.filter _).imp_of_mem fun {a a'} mem mem' ne same => ?_)
  have slot := (Alloc.resides_iff.mp (List.mem_filter.mp mem).2).1
  have slot' := (Alloc.resides_iff.mp (List.mem_filter.mp mem').2).1
  exact ne (by simp only [Alloc.key,slot,slot',same])

/-- A live block is the caller's. -/
theorem Inv.resident_slot (inv : Inv P s) (mem : b ∈ s.residents cls) :
    ∃ sl, s.slots b = some sl ∧ sl.holder = .user ∧ sl.cls = cls := by
  obtain ⟨a,live,resides,rfl⟩ := State.mem_residents.mp mem
  obtain ⟨source,index⟩ := Alloc.resides_iff.mp resides
  have backed := inv.live.backed live
  simp only [Backed,source] at backed
  obtain ⟨sl,_,_,found,user,index',_⟩ := backed
  exact ⟨sl,found,user,Option.some.inj (index'.symm.trans index)⟩

theorem Inv.residents_objects (inv : Inv P s) : s.residents cls ⊆ s.objects cls := by
  intro b mem
  obtain ⟨sl,found,_,same⟩ := inv.resident_slot mem
  exact inv.slot_object found same

/-- No more blocks are live than were carved. -/
theorem Inv.resident_le (inv : Inv P s) : s.resident cls ≤ objectsPerBag cls * s.bagCount cls := by
  rw [← State.length_residents,← State.length_objects]
  exact (List.subperm_of_subset inv.residents_nodup inv.residents_objects).length_le

/-- A block in a thread's hands is not among them. -/
theorem Inv.resident_lt (inv : Inv P s) (found : s.slots b = some sl) (same : sl.cls = cls)
    (held : sl.holder ≠ .user) : s.resident cls < objectsPerBag cls * s.bagCount cls := by
  have out : b ∉ s.residents cls := fun mem => by
    obtain ⟨sl',found',user,_⟩ := inv.resident_slot mem
    obtain rfl := Option.some.inj (found.symm.trans found')
    exact held user
  have sub : b :: s.residents cls ⊆ s.objects cls :=
    List.cons_subset.mpr ⟨inv.slot_object found same,inv.residents_objects⟩
  have le := (List.subperm_of_subset (List.nodup_cons.mpr ⟨out,inv.residents_nodup⟩) sub).length_le
  rwa [List.length_cons,State.length_residents,State.length_objects] at le

theorem Bag.objects_nodup (small : bag.cls < numSizeClasses) : bag.objects.Nodup := by
  have pos := sizeForClass_pos small
  refine List.Nodup.map_on (fun i _ j _ same => ?_) List.nodup_range
  exact Nat.eq_of_mul_eq_mul_right pos (Nat.add_left_cancel same)

theorem Inv.objects_nodup (inv : Inv P s) (apart : s.bags.Pairwise Bag.Apart) :
    (s.objects cls).Nodup := by
  refine List.nodup_flatMap.mpr ⟨fun bag mem => ?_,?_⟩
  · exact Bag.objects_nodup (inv.slots.bagCls (List.mem_of_mem_filter mem))
  · refine (apart.filter _).imp_of_mem fun {bag bag'} mem mem' apart b has has' => ?_
    have small := inv.slots.bagCls (List.mem_of_mem_filter mem)
    have small' := inv.slots.bagCls (List.mem_of_mem_filter mem')
    exact apart b ((Bag.mem_objects small).mp has) ((Bag.mem_objects small').mp has')

/-- When all blocks of the class are the callers', as many are live as were carved. -/
theorem Inv.resident_full (inv : Inv P s) (apart : s.bags.Pairwise Bag.Apart)
    (known : ∀ {h sh}, s.heaps h = some sh → s.insts sh.inst ≠ none)
    (user : ∀ {b sl}, s.slots b = some sl → sl.cls = cls → sl.holder = .user) :
    s.resident cls = objectsPerBag cls * s.bagCount cls := by
  refine le_antisymm inv.resident_le ?_
  rw [← State.length_residents,← State.length_objects]
  refine (List.subperm_of_subset (inv.objects_nodup apart) fun b mem => ?_).length_le
  obtain ⟨bag,carved,same,has⟩ := inv.mem_objects.mp mem
  obtain ⟨hd,found⟩ := inv.slots.bag carved has
  have owned := user found same
  obtain ⟨sh,heap,_⟩ := inv.slots.ok found
  obtain ⟨I,inst⟩ := Option.ne_none_iff_exists'.mp (known heap)
  obtain ⟨a,live,source,ptr⟩ := inv.live.ofSlot found owned inst (inv.heaps.back heap inst) rfl
  have backed := inv.live.backed live
  simp only [Backed,source,ptr,found] at backed
  obtain ⟨sl',_,_,found',_,index,_⟩ := backed
  obtain rfl := Option.some.inj found'
  exact State.mem_residents.mpr ⟨a,live,Alloc.resides_iff.mpr ⟨source,by rw [index,← same]⟩,ptr⟩

end Numalloc
