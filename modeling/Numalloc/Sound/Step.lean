import Numalloc.Ownership
import Numalloc.Sound.Start

/-! Every action of the machine obeys the program logic. -/
namespace Numalloc

open Concurrent View

variable {P : Platform} {strict : Bool}

theorem Kept.done (strict : Bool) {t : Nat} {s s' : State} {x : Act} {r : x.Res}
    (kept : Kept P t s s' (step P strict x (s.view t) r (s'.view t))) :
    Inv P s' ∧ step P strict x (s.view t) r (s'.view t) ∧ ∀ u, u ≠ t → s'.view u = s.view u :=
  ⟨kept.inv,kept.seen,kept.others⟩

/-- One action keeps the invariant, does to the acting thread's view what the logic
says, and is invisible to the others. -/
theorem exec_sound : Sound (machine P strict) (allocLogic P strict) State.view (Inv P) where
  keep {t x ch s r s'} inv always safe run := by
    have run : exec P strict t x ch s = some (r,s') := run
    cases x with
    | heap inst => exact Kept.done strict (heap_kept inv safe run)
    | takeHeap => exact Kept.done strict (takeHeap_kept inv run)
    | slotGet => exact Kept.done strict (slotGet_kept inv run)
    | slotTake destroy => exact Kept.done strict (slotTake_kept inv safe run)
    | slotSet th => exact Kept.done strict (slotSet_kept inv safe run)
    | thread => exact Kept.done strict (thread_kept inv run)
    | setFreelist cls fl => exact Kept.done strict (setFreelist_kept inv run)
    | setLargeCache cache => exact Kept.done strict (setLargeCache_kept inv run)
    | link op =>
      cases op with
      | readNext b => exact Kept.done strict (readNext_kept inv safe run)
      | writeNext b next => exact Kept.done strict (writeNext_kept inv safe run)
      | panic => exact absurd safe id
    | loadHead k => exact Kept.done strict (loadHead_kept inv run)
    | casHead k current new => exact Kept.done strict (casHead_kept inv safe run)
    | loadBump heap node => exact Kept.done strict (loadBump_kept inv run)
    | casBump heap node cls current new => exact Kept.done strict (casBump_kept inv safe run)
    | fetchAddNode inst => exact Kept.done strict (fetchAddNode_kept inv run)
    | fetchAddRefs h => exact Kept.done strict (fetchAddRefs_kept inv safe run)
    | fetchSubRefs h =>
      exact Kept.done strict (fetchSubRefs_kept inv (fun u => (always u).1.rooted) safe run)
    | extent h => exact Kept.done strict (extent_kept inv safe run)
    | sysDealloc h => exact Kept.done strict (sysDealloc_kept inv safe run)
    | mmap size => exact Kept.done strict (mmap_kept inv safe run)
    | munmap ptr size => exact Kept.done strict (munmap_kept inv safe run)
    | bindToNode ptr size node => exact Kept.done strict (bindToNode_kept inv safe run)
    | madvise ptr size => exact Kept.done strict (madvise_kept inv safe run)
    | writeHeader place original size => exact Kept.done strict (writeHeader_kept inv safe run)
    | readHeader place => exact Kept.done strict (readHeader_kept inv run)
    | writeBytes ptr size => exact Kept.done strict (writeBytes_kept inv safe run)
    | copy src dst size => exact Kept.done strict (copy_kept inv safe run)
    | release => exact Kept.done strict (release_kept inv run)
    | give ptr layout => exact Kept.done strict (give_kept inv safe run)
    | finish => exact Kept.done strict (finish_kept inv run)
    | abort => exact r.elim

end Numalloc
