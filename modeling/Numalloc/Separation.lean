import Numalloc.Runs

/-! Where allocations lie. The storage of a live allocation is its whole block, or its
whole mapping with the header in front of the payload; storages never meet each other,
nor any block that is not live. -/
namespace Numalloc

open Concurrent View

/-- The block or the mapping behind an allocation. -/
inductive Extent (s : State) (a : Alloc) : Nat → Nat → Prop where
  | block {sl : Slot} (source : a.source = .slot) (found : s.slots a.ptr = some sl)
      (user : sl.holder = .user) : Extent s a a.ptr (sizeForClass sl.cls)
  | mapping {id : Nat} {m : Mapping} (source : a.source = .mapping id)
      (found : s.maps id = some m) (user : m.holder = .user) : Extent s a m.base m.size

/-- A block of a carved bag that backs no live allocation. -/
def State.Free (s : State) (b : Nat) : Prop :=
  (∃ sl, s.slots b = some sl) ∧ ∀ a ∈ s.live, ¬(a.source = .slot ∧ a.ptr = b)

/-- Live ranges meet neither each other, nor the link word of a free block, nor the
header of a live large allocation. -/
structure Separated (s : State) : Prop where
  ranges : s.live.Pairwise fun a a' => Apart a.ptr a.layout.size a'.ptr a'.layout.size
  links : ∀ a ∈ s.live, ∀ b, s.Free b → Apart a.ptr a.layout.size b 8
  headers : ∀ a ∈ s.live, ∀ a' ∈ s.live, ∀ id, a'.source = .mapping id →
    Apart a.ptr a.layout.size (a'.ptr - headerSize) headerSize

variable {P : Platform} {strict : Bool} {s : State} {c : World P strict} {a a' : Alloc}
  {lo n lo' n' b : Nat}

/-- A small request fits into a block of its class. -/
theorem Layout.size_le_class {layout : Layout} {cls : Nat}
    (index : sizeClassIndex layout.effective = some cls) : layout.size ≤ sizeForClass cls := by
  obtain ⟨_,_,_,fits,_⟩ := sizeClassIndex_spec index
  exact (Nat.le_max_left _ _).trans fits

theorem Inv.extent (inv : Inv P s) (live : a ∈ s.live) :
    ∃ lo n, Extent s a lo n ∧ lo ≤ a.ptr ∧ a.ptr + a.layout.size ≤ lo + n ∧
      ∀ id, a.source = .mapping id → lo + headerSize ≤ a.ptr ∧ a.ptr < lo + n := by
  have backed := inv.live.backed live
  unfold Backed at backed
  cases source : a.source with
  | slot =>
    simp only [source] at backed
    obtain ⟨sl,I,x,found,user,index,_⟩ := backed
    have fits := Layout.size_le_class index
    exact ⟨_,_,.block source found user,le_rfl,by omega,by simp⟩
  | mapping id =>
    simp only [source] at backed
    obtain ⟨m,found,user,_,_,placed⟩ := backed
    have header := placed.header
    refine ⟨_,_,.mapping source found user,by omega,placed.room,fun _ _ => ?_⟩
    exact ⟨header,placed.inside⟩
  | stray => simp only [source] at backed

/-- Different allocations have disjoint storages. -/
theorem Extent.apart (inv : Inv P s) (left : Extent s a lo n) (right : Extent s a' lo' n')
    (ne : a.key ≠ a'.key) : Apart lo n lo' n' := by
  cases left with
  | block source found user =>
    cases right with
    | block source' found' user' =>
      refine inv.slots.apart found found' fun same => ne ?_
      simp [Alloc.key,source,source',same]
    | mapping source' found' user' =>
      exact inv.slot_apart_map found found' (by simp [user'])
  | mapping source found user =>
    cases right with
    | block source' found' user' =>
      exact (inv.slot_apart_map found' found (by simp [user])).symm
    | mapping source' found' user' =>
      refine inv.maps.apart found found' ?_
      rintro rfl
      exact ne (by simp [Alloc.key,source,source'])

/-- The whole of a block that is not the allocation's own lies outside its storage. -/
theorem Extent.apart_block (inv : Inv P s) (extent : Extent s a lo n) {sl : Slot}
    (found : s.slots b = some sl) (other : ¬(a.source = .slot ∧ a.ptr = b)) :
    Apart lo n b (sizeForClass sl.cls) := by
  cases extent with
  | block source found' user =>
    exact inv.slots.apart found' found fun same => other ⟨source,same⟩
  | mapping source found' user => exact (inv.slot_apart_map found found' (by simp [user])).symm

theorem Inv.separated (inv : Inv P s) : Separated s where
  ranges := by
    refine inv.live.distinct.imp_of_mem fun {a a'} live live' ne => ?_
    obtain ⟨lo,n,extent,low,high,_⟩ := inv.extent live
    obtain ⟨lo',n',extent',low',high',_⟩ := inv.extent live'
    exact Apart.mono (extent.apart inv extent' ne) low high low' high'
  links a live b free := by
    obtain ⟨⟨sl,found⟩,unused⟩ := free
    obtain ⟨lo,n,extent,low,high,_⟩ := inv.extent live
    have word := inv.slot_eight found
    exact Apart.mono (extent.apart_block inv found (unused a live)) low high le_rfl (by omega)
  headers a live a' live' id source := by
    obtain ⟨lo,n,extent,low,high,_⟩ := inv.extent live
    obtain ⟨lo',n',extent',low',high',header⟩ := inv.extent live'
    obtain ⟨front,inside⟩ := header id source
    by_cases same : a = a'
    · subst same
      exact Or.inr (by omega)
    · exact Apart.mono (extent.apart inv extent' (inv.live.keys live live' same)) low high
        (by omega) (by omega)

/-- However the operations of any threads interleave, live ranges are disjoint from one
another, from every free block's link word, and from every live header. -/
theorem reachable_separated (reachable : c.Reachable) : Separated c.state :=
  (World.Reachable.fine reachable).inv.separated

theorem sample_separated : ∃ c : World Sample.platform false,
    (World.initial fun _ => 0).execute Sample.schedule = some c ∧
    c.state.live.map Alloc.ptr = [8192016,278528] ∧ Separated c.state := by
  obtain ⟨c,run,live,_⟩ := Sample.run
  exact ⟨c,run,live,reachable_separated ⟨_,_,run⟩⟩

end Numalloc
