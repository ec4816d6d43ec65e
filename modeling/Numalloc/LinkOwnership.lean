import Numalloc.Partition
import Numalloc.Separation

/-! Links are read and written by the owner of the block only. -/
namespace Numalloc

open Concurrent View

namespace World

variable {P : Platform} {strict : Bool}

/-- Block `b` is in a list of thread `t` or in the hands of its operation, and nowhere
else: no live range meets its link, no stack and no list of another thread leads to it. -/
structure Exclusive (c : World P strict) (t b : Nat) : Prop where
  own : ∃ bag ∈ c.state.bags, bag.HasSlot b ∧
    (c.At bag b (.counted t) ∨ c.At bag b (.spare t) ∨ c.At bag b (.operation t))
  caller : ∀ a ∈ c.state.live, Apart a.ptr a.layout.size b 8
  nodes : ∀ {h sh node cls l}, c.state.heaps h = some sh → sh.references ≠ 0 →
    node < sh.heap.numNodes → cls < numSizeClasses →
    c.state.Spells (TreiberStack.unpack (sh.head node cls)).1 l → b ∉ l
  others : ∀ {u}, u ≠ t → c.state.heldBy u b = false ∧ ∀ {th cls l}, c.state.tls u = .alive th →
    c.state.Spells (th.freelists cls).head l ∨ c.state.Spells (th.freelists cls).spare l → b ∉ l

variable {c : World P strict} {t b : Nat}

/-- What the invariant records as held by a thread is its own. -/
theorem Fine.exclusive (fine : Fine P strict c) {sl : Slot} (found : c.state.slots b = some sl)
    (holder : sl.holder = .thread t) : c.Exclusive t b where
  own := by
    obtain ⟨bag,mem,has,heap,node,cls⟩ := fine.inv.slots.bagOf found
    have filed : Filed c bag b sl := ⟨fine,found,by rw [heap,node,cls]; rfl⟩
    exact ⟨bag,mem,has,filed.kept holder⟩
  caller a live := by
    obtain ⟨lo,n,extent,low,high,_⟩ := fine.inv.extent live
    have word := fine.inv.slot_eight found
    refine Apart.mono (extent.apart_block fine.inv found ?_) low high le_rfl (by omega)
    rintro ⟨source,rfl⟩
    have backed := fine.inv.live.backed live
    simp only [Backed,source] at backed
    obtain ⟨sl',_,_,found',user,_⟩ := backed
    obtain rfl := Option.some.inj (found.symm.trans found')
    simp [holder] at user
  nodes heap count node small spells mem := by
    have refs := (fine.inv.heaps.count heap).1
    obtain ⟨l',spells',on⟩ := fine.inv.stack heap (fun empty => count (by simp [refs,empty])) node small
    obtain rfl := spells.unique spells'
    obtain ⟨sl',found',holder'⟩ := (on b).mp mem
    obtain rfl := Option.some.inj (found.symm.trans found')
    simp [holder] at holder'
  others {u} ne := by
    refine ⟨by simp [State.heldBy,found,holder,ne.symm],fun {th cls l} alive spells mem => ?_⟩
    obtain ⟨L,S,counted,spare,_,held,_⟩ := Fine.lists fine alive
    have listed : b ∈ L cls ++ S cls := by
      rcases spells with spells | spells
      · exact List.mem_append_left _ (spells.unique (counted cls) ▸ mem)
      · exact List.mem_append_right _ (spells.unique (spare cls) ▸ mem)
    obtain ⟨sl',found',holder',_⟩ := held cls b listed
    obtain rfl := Option.some.inj (found.symm.trans found')
    exact ne (Holder.thread.inj (holder'.symm.trans holder))

end World

variable {P : Platform} {strict : Bool} {c : World P strict} {t : Nat}

/-- Whenever a thread is about to access a link, it owns the block exclusively; a value it
reads is the last one the allocator wrote there; no unwrap of a link fails. -/
theorem links_exclusive (reachable : c.Reachable) {op : LinkOp}
    (at_ : (c.prog t).next = some (.link op)) : match op with
      | .readNext b => c.Exclusive t b ∧ c.state.lastLink b = some (c.state.readNext b)
      | .writeNext b _ => c.Exclusive t b
      | .panic => False := by
  have fine := World.Reachable.fine reachable
  have safe := fine.safe at_
  cases op with
  | readNext b =>
    obtain ⟨n,link⟩ := safe
    obtain ⟨B,block⟩ := block_of_link link
    obtain ⟨sl,found,holder,_⟩ := view_block block
    have last := view_link link
    exact ⟨World.Fine.exclusive fine found holder,by rw [last,fine.inv.link_value last]⟩
  | writeNext b next =>
    obtain ⟨⟨B,block⟩,_⟩ := safe
    obtain ⟨sl,found,holder,_⟩ := view_block block
    exact World.Fine.exclusive fine found holder
  | panic => exact safe

/-- The block whose link a program reads next. -/
def reading (p : Prog allocI Unit) : Option Nat :=
  match p.next with
  | some (.link (.readNext b)) => some b
  | _ => none

theorem reading_some {p : Prog allocI Unit} {b : Nat} (h : reading p = some b) :
    p.next = some (.link (.readNext b)) := by
  unfold reading at h
  split at h
  · rename_i b' at_
    rw [at_,Option.some.inj h]
  · cases h

set_option maxRecDepth 4000 in
theorem sample_links_exclusive : ∃ c : World Sample.platform false,
    (World.initial fun _ => 0).execute (Sample.schedule.take 26) = some c ∧
    c.Exclusive 1 278528 ∧ c.state.lastLink 278528 = some (c.state.readNext 278528) := by
  have ends : ((World.initial fun _ => 0 : World Sample.platform false).execute
      (Sample.schedule.take 26)).map (fun c => reading (c.prog 1)) = some (some 278528) := by
    decide +kernel
  obtain ⟨c,run,at_⟩ := Option.map_eq_some_iff.mp ends
  exact ⟨c,run,links_exclusive ⟨_,_,run⟩ (reading_some at_)⟩

end Numalloc
