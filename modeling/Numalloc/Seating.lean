import Numalloc.Sealing

/-! Which node a thread is assigned to. Each new cache draws a number from the counter of its
allocator, and is put on the node that is the number modulo the number of nodes. -/
namespace Numalloc

open Concurrent View Logic

variable {P : Platform} {strict : Bool} {inst : Nat} {v v' : View} {α : Type}
  {p : Prog allocI α}

/-- A number is drawn; a cache for an allocator comes into the slot, on a node out of so
many. -/
inductive SeatEvent where
  | drawn (inst n : Nat)
  | seated (inst node nodes : Nat)
  deriving DecidableEq

def seatScribe : Scribe SeatEvent where
  note
    | .fetchAddNode inst, _, n, _ => [.drawn inst n]
    | .slotSet th, v, _, _ =>
      [.seated th.globalHeap.inst th.nodeId ((v.call.heap.map fun r => r.geom.numNodes).getD 0)]
    | _, _, _, _ => []
  asks _ _ := []

namespace Seating

/-- What was drawn last, until the cache is in the slot. -/
def after : Option (Nat × Nat) → SeatEvent → Option (Option (Nat × Nat))
  | none, .drawn i n => some (some (i,n))
  | some (i,n), .seated j node nodes => if j = i ∧ node = n % nodes then some none else none
  | _, _ => none

def monitor : Monitor SeatEvent (Option (Nat × Nat)) := ⟨after⟩

theorem last_drawn {es : List SeatEvent} {i n : Nat} (run : monitor.run none es = some (some (i,n))) :
    ∃ front, es = front ++ [.drawn i n] := by
  rcases List.eq_nil_or_concat es with rfl | ⟨front,e,rfl⟩
  · cases run
  rw [List.concat_eq_append,Monitor.run_append] at run
  obtain ⟨k,_,last⟩ := Option.bind_eq_some_iff.mp run
  rw [Monitor.run_single] at last
  refine ⟨front,?_⟩
  cases k with
  | none =>
    cases e with
    | drawn j m =>
      obtain ⟨rfl,rfl⟩ := Prod.mk.inj (Option.some.inj (Option.some.inj last))
      rw [List.concat_eq_append]
    | seated j node nodes => cases last
  | some pair =>
    cases e with
    | drawn j m => cases last
    | seated j node nodes =>
      simp only [monitor,after] at last
      split at last <;> cases last

/-- A cache comes into the slot right after its number was drawn. -/
theorem seat_drawn {before rest : List SeatEvent} {j node nodes : Nat} {k : Option (Nat × Nat)}
    (run : monitor.run none (before ++ .seated j node nodes :: rest) = some k) :
    ∃ front n, before = front ++ [.drawn j n] ∧ node = n % nodes := by
  rw [Monitor.run_append] at run
  obtain ⟨k₁,first,run⟩ := Option.bind_eq_some_iff.mp run
  obtain ⟨k₂,seat,_⟩ := Option.bind_eq_some_iff.mp run
  cases k₁ with
  | none => cases seat
  | some pair =>
    obtain ⟨i,n⟩ := pair
    simp only [monitor,after,Option.ite_none_right_eq_some] at seat
    obtain ⟨⟨rfl,eq⟩,_⟩ := seat
    obtain ⟨front,same⟩ := last_drawn first
    exact ⟨front,n,same,eq⟩

end Seating

abbrev seatTrail (P : Platform) (strict : Bool) : Logic allocI (View × Option (Option (Nat × Nat))) :=
  seatScribe.trail Seating.monitor P strict

theorem seat_silent {x : Act} (stays : Stays x) (v : View) (r : x.Res) (v' : View) :
    seatScribe.note x v r v' = [] := by
  cases x <;> first | rfl | cases stays

theorem call_moves {x : Act} {r : x.Res} (moves : Moves x) (ok : safe P strict x v)
    (st : step P strict x v r v') : v'.call = v.call := by
  cases x with
  | link x =>
    cases x with
    | readNext b =>
      obtain ⟨rfl,_⟩ := st
      rfl
    | writeNext b next =>
      obtain rfl : v' = _ := st
      rfl
    | panic => exact ok.elim
  | loadHead k =>
    obtain rfl : v' = v := st
    rfl
  | casHead k current new =>
    obtain ⟨_,ok⟩ := ok
    simp only [step] at st
    split at st
    · split at st
      · obtain ⟨l,gained⟩ := st
        rw [gained.same]
      · rename_i first head
        simp only [head] at ok
        obtain ⟨l,chain⟩ := ok
        rw [st l chain]
        rfl
    · rw [st]
  | fetchAddNode inst =>
    obtain rfl : v' = v := st
    rfl
  | fetchAddRefs h =>
    obtain rfl : v' = _ := st
    rfl
  | fetchSubRefs h =>
    simp only [step] at st
    split at st
    · obtain ⟨_,_,_,_,_,_,rfl⟩ := st
      rfl
    · obtain rfl := st
      rfl
  | extent h =>
    obtain ⟨rfl,_⟩ := st
    rfl
  | sysDealloc h =>
    obtain rfl : v' = _ := st
    rfl
  | munmap ptr size =>
    obtain ⟨_,_,_,_,rfl⟩ := st
    rfl
  | abort => exact Empty.elim r
  | _ => cases moves

/-- The operation's heap stays named meanwhile, and nothing is drawn. -/
theorem wp_unseated {heap : HeapRef} {k : Option (Nat × Nat)}
    (only : p.Only fun x => Moves x ∧ Stays x) (call : v.call.heap = some heap) :
    (seatTrail P strict).wp p (fun _ w => w.1.call.heap = some heap ∧ w.2 = some k) (v,some k) :=
  wp_silent (L := residentLogic P strict) (fun v : View => v.call.heap = some heap) only call
    fun x v r v' ok named safe st => by
      rw [call_moves ok.1 safe st.1,seat_silent ok.2]
      exact ⟨named,rfl⟩

theorem wp_initThreadHeap_seats {heap : HeapRef} (call : v.call.heap = some heap)
    (own : heap.handle.inst = inst) :
    (seatTrail P strict).wp (initThreadHeap inst heap) (fun _ w => w.2 = some none) (v,some none) := by
  rw [initThreadHeap_eq]
  refine ⟨⟨trivial,none,rfl⟩,trivial,fun old w st => ?_⟩
  obtain ⟨⟨_,⟨_,taken⟩,_⟩,moved⟩ := st
  obtain ⟨v₁,o⟩ := w
  obtain rfl : o = some none := moved
  have call₁ : v₁.call.heap = some heap := by rw [show v₁ = _ from taken]; exact call
  simp only [Prog.bind_ret]
  refine wp_seq (wp_unseated ?_ call₁) fun _ w _ post => ?_
  · cases old with
    | alive th => exact (dropThreadHeap_sheds th).mono fun x h => ⟨Sheds.moves x h,Sheds.stays x h⟩
    | _ => trivial
  obtain ⟨v₂,o⟩ := w
  obtain ⟨call₂,rfl⟩ := post
  refine ⟨⟨trivial,none,rfl⟩,trivial,fun next w st => ?_⟩
  obtain ⟨⟨_,same,_⟩,moved⟩ := st
  obtain ⟨v₃,o⟩ := w
  obtain rfl : v₃ = v₂ := same
  obtain rfl : o = some (some (inst,next)) := moved
  simp only [Prog.bind_ret]
  refine wp_seq (wp_unseated (.call ⟨rfl,rfl⟩) call₂) fun previous w _ post => ?_
  obtain ⟨v₄,o⟩ := w
  obtain ⟨call₄,rfl⟩ := post
  split
  · exact ⟨⟨trivial,_,rfl⟩,trivial,fun e => Empty.elim e⟩
  · refine ⟨⟨trivial,_,rfl⟩,trivial,fun _ w st => ?_⟩
    obtain ⟨v₅,o⟩ := w
    have call₄ : v₄.call.heap = some heap := call₄
    obtain rfl : o = some none := by
      refine st.2.trans ?_
      simp [seatScribe,call₄,own,Seating.monitor,Seating.after,PerThreadHeap.new]
    exact ⟨⟨trivial,none,rfl⟩,rfl⟩

theorem threadHeap_seats (inst : Nat) :
    Lasting (seatTrail P strict) (fun w => w.2 = some none) (threadHeap inst) := by
  intro w known
  obtain ⟨v,o⟩ := w
  obtain rfl : o = some none := known
  rw [threadHeap_eq]
  refine ⟨⟨trivial,none,rfl⟩,trivial,fun slot w st => ?_⟩
  obtain ⟨v₁,o⟩ := w
  obtain rfl : o = some none := st.2
  have made : ∀ {heap : HeapRef} {w : View × Option (Option (Nat × Nat))},
      (seatTrail P strict).step (.heap inst) (v₁,some none) heap w → (seatTrail P strict).wp
        ((initThreadHeap inst heap).bind fun _ => .ret true) (fun _ w => w.2 = some none) w := by
    intro heap w st
    obtain ⟨⟨_,⟨named,_,_,own,_⟩,_⟩,moved⟩ := st
    obtain ⟨v₂,o⟩ := w
    obtain rfl : o = some none := moved
    have call₂ : v₂.call.heap = some heap := by rw [show v₂ = _ from named]
    exact wp_seq (wp_initThreadHeap_seats call₂ own) fun _ w always post => ⟨always,post⟩
  cases slot with
  | destroyed => exact ⟨⟨trivial,none,rfl⟩,rfl⟩
  | empty => exact ⟨⟨trivial,none,rfl⟩,trivial,fun heap w st => made st⟩
  | alive th =>
    refine ⟨⟨trivial,none,rfl⟩,trivial,fun heap w st => ?_⟩
    have still : w.2 = some none := st.2
    simp only [Prog.bind_ret]
    split
    · exact ⟨⟨trivial,none,still⟩,still⟩
    · exact made st

theorem seats_tended : Tended (seatTrail P strict) fun w => w.2 = some none where
  always w known := ⟨trivial,none,known⟩
  still {x w} stays known := ⟨trivial,fun r w' st => by rw [st.2,known,seat_silent stays]; rfl⟩
  heap := threadHeap_seats
  exit w known := by
    obtain ⟨v,o⟩ := w
    obtain rfl : o = some none := known
    rw [exitThread_eq]
    refine ⟨⟨trivial,none,rfl⟩,trivial,fun old w st => ?_⟩
    have still : w.2 = some none := st.2
    cases old with
    | alive th =>
      refine wp_only (L := seatTrail P strict) (fun w => w.2 = some none) (dropThreadHeap_sheds th)
        (fun w known => ⟨trivial,none,known⟩) (fun x w sheds known => ⟨trivial,fun r w' st => ?_⟩) still
      rw [st.2,known,seat_silent (Sheds.stays x sheds)]
      rfl
    | _ => exact ⟨⟨trivial,none,still⟩,still⟩

theorem seat_sustains (P : Platform) (strict : Bool) :
    seatScribe.Sustains Seating.monitor P strict fun _ k => k = none := by
  intro v v' request k idle none_ started
  subst none_
  exact ⟨none,rfl,Scribe.wp_last (wp_request idle started) (seats_tended.code request (v',some none) rfl)
    fun _ _ k₁ _ _ known => ⟨k₁,rfl,Option.some.inj known⟩⟩

end Numalloc
