import Numalloc.Runs

/-! What an allocation returns is aligned as requested and has the room requested, in one
object of a carved bag or behind the header of one mapping. -/
namespace Numalloc

open Concurrent View

variable {P : Platform} {strict : Bool} {s : State} {c : World P strict} {t p : Nat}
  {layout : Layout} {sl : Slot}

/-- An object does not reach beyond its bag. -/
theorem Bag.HasSlot.inside {bag : Bag} {b : Nat} (has : bag.HasSlot b)
    (cls : bag.cls < numSizeClasses) :
    b + sizeForClass bag.cls ≤ bag.addr + bagSizeForClass bag.cls := by
  obtain ⟨low,multiple,high⟩ := has
  obtain ⟨q,whole⟩ := Nat.dvd_of_mod_eq_zero multiple
  have full := objectsPerBag_mul cls
  have pos := sizeForClass_pos cls
  have below : q < objectsPerBag bag.cls := by
    by_contra beyond
    have := Nat.mul_le_mul_left (sizeForClass bag.cls) (Nat.le_of_not_lt beyond)
    rw [Nat.mul_comm _ (objectsPerBag bag.cls),full] at this
    omega
  have step := Nat.mul_le_mul_left (sizeForClass bag.cls) (Nat.succ_le_of_lt below)
  rw [Nat.mul_succ,Nat.mul_comm _ (objectsPerBag bag.cls),full] at step
  omega

/-- The pointer a thread is about to hand to its caller. -/
def giving : Prog allocI Unit → Option Nat
  | .act (.give p _) _ => some p
  | _ => none

theorem giving_some {prog : Prog allocI Unit} (h : giving prog = some p) :
    ∃ layout, prog.next = some (.give p layout) := by
  unfold giving at h
  split at h
  case h_1 p' layout _ =>
    obtain rfl := Option.some.inj h
    exact ⟨layout,rfl⟩
  case h_2 => cases h

end Numalloc
