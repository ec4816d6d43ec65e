import Numalloc.Capacity
import Numalloc.Custody
import Numalloc.Footprint

/-! `alloc_zeroed`: what it hands out is zero, also where the code does not write a byte of
it because the mapping is fresh. -/
namespace Numalloc

open Concurrent View Logic

/-- Bytes of thread `t` that are zero. -/
def State.zeros (t : Nat) (s : State) : Set Nat := {y | s.mem y = 0 ∧ (s.view t).Owns y}

/-- What is known to be zero. An operation that zeroes may only hand out such bytes. -/
def zeroLogic (layout : Layout) : Logic allocI (Set Nat) where
  always _ := True
  safe x Z := match x with
    | .give p l => l = layout ∧ ∀ y, p ≤ y → y < p + layout.size → y ∈ Z
    | _ => True
  step x Z r Z' := match x, r with
    | .mmap size, some raw => raw + size ≤ 2 ^ 48 ∧ ∀ y, raw ≤ y → y < raw + size → y ∈ Z'
    | .bindToNode _ _ _, _ => Z ⊆ Z'
    | .writeHeader place _ _, _ => ∀ y ∈ Z, y < place ∨ place + headerSize ≤ y → y ∈ Z'
    | .writeBytes p n, _ => ∀ y, p ≤ y → y < p + n → y ∈ Z'
    | _, _ => True

variable {P : Platform} {strict : Bool} {s s' : State} {c c' : World P strict} {t y : Nat}
  {layout : Layout} {Z : Set Nat} {α : Type} {x : Act} {ch : Choice}

theorem zero_beside (layout : Layout) : Beside P strict (zeroLogic layout) State.zeros where
  own {t x ch s r s'} inv always safe _ run := by
    have seen := (exec_sound.keep inv always safe run).2.1
    cases x with
    | mmap size =>
      cases r with
      | none => trivial
      | some raw =>
        obtain ⟨id,m,_,_,_,ok,base,extent,_,seen⟩ := seen
        have bound := ok.bound
        refine ⟨by omega,fun y low high => ⟨?_,Or.inr ⟨id,m,?_,by omega,by omega⟩⟩⟩
        · cases ch with
          | addr raw' =>
            simp only [exec] at run
            split at run
            case isFalse => cases run
            obtain ⟨same,rfl⟩ := Prod.mk.inj (Option.some.inj run)
            obtain rfl := Option.some.inj same
            exact if_pos ⟨low,high⟩
          | _ => simp [exec] at run
        · rw [seen]
          exact setMap_at _ id _
    | bindToNode ptr size node =>
      obtain ⟨_,rfl⟩ := Prod.mk.inj (Option.some.inj run)
      exact fun y held => ⟨held.1,held.2.same rfl (bind_same s.maps ptr size node)⟩
    | writeHeader place original size =>
      obtain ⟨_,rfl⟩ := Prod.mk.inj (Option.some.inj run)
      exact fun y held out => ⟨(writeHeader_outside t original size out).trans held.1,
        held.2.same rfl (writeHeader_same s t place original size)⟩
    | writeBytes p n =>
      obtain ⟨_,rfl⟩ := Prod.mk.inj (Option.some.inj run)
      exact fun y low high => ⟨if_pos ⟨low,high⟩,
        (inv.writable_owns safe low high).same rfl (store_same s p n (fill s.mem p n 0))⟩
    | _ => trivial
  others {c c' label t} fine step other fresh := by
    obtain ⟨view,mem⟩ := World.Fine.owned_bytes fine step other fresh
    ext y
    simp only [State.zeros,Set.mem_ofPred_eq,view]
    refine and_congr_left fun owns => ?_
    rw [mem y owns]

/-! The operation in this logic. -/

/-- Whatever hands nothing out is allowed. -/
theorem zero_any {p : Prog allocI α} (only : p.Only (Allocates P)) :
    (zeroLogic layout).wp p (fun _ _ => True) Z := by
  refine wp_only (fun _ => True) only (fun _ _ => trivial) (fun x Z ok _ => ⟨?_,fun _ _ _ => trivial⟩)
    trivial
  cases x <;> trivial

/-- The header is in front of the payload. -/
theorem zero_mapLarge {needed : Nat} (node : Nat) (fits : largeAllocSize P layout = some needed) :
    (zeroLogic layout).wp (mapLarge needed node layout) (fun x Z' => ∀ p, x.1 = some p →
      ∀ y, p ≤ y → y < p + layout.size → y ∈ Z') Z := by
  rw [mapLarge_eq]
  refine ⟨trivial,trivial,fun raw Z₁ mapped => ?_⟩
  cases raw with
  | none => exact ⟨trivial,fun _ h => nomatch h⟩
  | some raw =>
    obtain ⟨bound,zero⟩ := mapped
    refine ⟨trivial,trivial,fun _ Z₂ bind => ⟨trivial,trivial,fun _ Z₃ header => ⟨trivial,?_⟩⟩⟩
    intro p same y low high
    obtain rfl := Option.some.inj same
    obtain ⟨front,_,room,_⟩ := payloadAddr_spec fits le_rfl bound
    exact header y (bind (zero y (by omega) (by omega))) (by omega)

/-- A mapping that was not reused is still zero. -/
theorem zero_allocLargeTracked (inst : Nat) :
    (zeroLogic layout).wp (allocLargeTracked P inst layout) (fun x Z' => x.2 = false → ∀ p,
      x.1 = some p → ∀ y, p ≤ y → y < p + layout.size → y ∈ Z') Z := by
  cases fits : largeAllocSize P layout with
  | none =>
    unfold allocLargeTracked
    rw [fits]
    exact ⟨trivial,fun _ _ h => nomatch h⟩
  | some needed =>
    rw [allocLargeTracked_eq fits]
    refine wp_seq (zero_any (P := P) ((threadHeap_only inst).mono Upkeep.allocates)) fun ok Z₁ _ _ => ?_
    have fresh : ∀ node Z₁, (zeroLogic layout).wp (mapLarge needed node layout) (fun x Z' =>
        x.2 = false → ∀ p, x.1 = some p → ∀ y, p ≤ y → y < p + layout.size → y ∈ Z') Z₁ :=
      fun node Z₁ => wp_mono (zero_mapLarge node fits) fun _ _ _ post _ => post
    split
    · refine ⟨trivial,trivial,fun th Z₂ _ => ?_⟩
      simp only [Prog.bind_ret]
      split
      · exact ⟨trivial,trivial,fun _ _ _ => ⟨trivial,trivial,fun _ _ _ => ⟨trivial,fun h => nomatch h⟩⟩⟩
      · exact fresh _ Z₂
    · exact fresh 0 Z₁

theorem zero_allocZeroed (inst : Nat) :
    (zeroLogic layout).wp (allocZeroed P inst layout) (fun x Z' => ∀ p, x = some p →
      ∀ y, p ≤ y → y < p + layout.size → y ∈ Z') Z := by
  rw [allocZeroed_eq]
  have write : ∀ p Z, (zeroLogic layout).wp ((act (.writeBytes p layout.size)).bind fun _ =>
      .ret (some p)) (fun x Z' => ∀ p, x = some p → ∀ y, p ≤ y → y < p + layout.size → y ∈ Z') Z := by
    intro p Z
    refine ⟨trivial,trivial,fun _ Z' zero => ⟨trivial,fun p' same => ?_⟩⟩
    obtain rfl := Option.some.inj same
    exact zero
  split
  · refine wp_seq (zero_allocLargeTracked inst) fun x Z₁ _ post => ?_
    obtain ⟨x,reused⟩ := x
    cases x with
    | none => exact ⟨trivial,fun _ h => nomatch h⟩
    | some p =>
      cases reused with
      | true => exact write p Z₁
      | false =>
        refine ⟨trivial,fun p' same => ?_⟩
        obtain rfl := Option.some.inj same
        exact post rfl p rfl
  · refine wp_seq (zero_any (alloc_only inst layout)) fun x Z₁ _ _ => ?_
    cases x with
    | none => exact ⟨trivial,fun _ h => nomatch h⟩
    | some p => exact write p Z₁

theorem zero_request (inst : Nat) : (zeroLogic layout).wp
    ((Request.allocZeroed inst layout).code P) (fun _ _ => True) Z := by
  have steps : (Request.allocZeroed inst layout).code P = (allocZeroed P inst layout).bind fun x =>
      (answer layout x).bind fun _ => act .finish := Prog.bind_assoc _ _ _
  rw [steps]
  refine wp_seq (zero_allocZeroed inst) fun x Z₁ _ post => ?_
  cases x with
  | none => exact ⟨trivial,trivial,fun _ _ _ => ⟨trivial,trivial⟩⟩
  | some p => exact ⟨trivial,⟨rfl,post p rfl⟩,fun _ _ _ => ⟨trivial,trivial,fun _ _ _ => ⟨trivial,trivial⟩⟩⟩

/-- Whatever happened to the memory before, and whatever other threads do meanwhile: a pointer
that `alloc_zeroed` hands out points to zeroes, and allocations that stay live keep the
bytes their callers gave them. -/
theorem alloc_zeroed_zero {c₀ : World P strict} {schedule : List Label} {inst p : Nat}
    {given : Layout} (reachable : c.Reachable)
    (start : c.advance (.start t (.allocZeroed inst layout)) = some c₀)
    (run : c₀.execute schedule = some c') (fresh : ∀ request, .start t request ∉ schedule)
    (at_ : (c'.prog t).next = some (.give p given)) :
    given = layout ∧ (∀ y, p ≤ y → y < p + layout.size → c'.state.mem y = 0) ∧
    ∀ b, c₀.Lasting schedule b → ∀ y, b.ptr ≤ y → y < b.ptr + b.layout.size →
      (∀ value, .write y value ∉ schedule) → c'.state.mem y = c.state.mem y := by
  have fine := World.Reachable.fine reachable
  have fine₀ := World.Fine.advance fine start
  have pre := (zero_beside layout).run fine₀ run fresh (Q := fun _ _ => True)
    (by rw [World.started start]; exact zero_request inst)
  obtain ⟨same,zero⟩ := wp_next pre at_
  refine ⟨same,fun y low high => (zero y low high).1,fun b lasting y low high other => ?_⟩
  rw [World.Fine.contents_run fine₀ run lasting low high other]
  simp only [World.advance] at start
  split at start
  case h_2 => cases start
  obtain ⟨s,begun,rfl⟩ := Option.map_eq_some_iff.mp start
  exact congrFun (start_begun begun).mem y

namespace Sample

/-- From the start of a large request of thread 1 to the point where it is answered. -/
def zeroing : List Label :=
  go 1 1 ++ [.step 1 (.place 4096 64)] ++ go 1 5 ++ [.step 1 (.addr 8192000)] ++ go 1 2

end Sample

set_option maxRecDepth 4000 in
theorem sample_alloc_zeroed_zero : ∃ c c₀ c' : World Sample.platform false,
    (World.initial fun _ => 7).execute [.create 1 262144] = some c ∧
    c.advance (.start 1 (.allocZeroed 0 (Sample.layout 262145 (by decide)))) = some c₀ ∧
    c₀.execute Sample.zeroing = some c' ∧
    ∀ y, 8192016 ≤ y → y < 8192016 + 262145 → c'.state.mem y = 0 := by
  have ends : ((World.initial fun _ => 7 : World Sample.platform false).execute
      [.create 1 262144]).bind (fun c => (c.advance (.start 1 (.allocZeroed 0
        (Sample.layout 262145 (by decide))))).bind fun c₀ => (c₀.execute Sample.zeroing).map
          fun c' => giving (c'.prog 1)) = some (some 8192016) := by decide +kernel
  obtain ⟨c,run,eq⟩ := Option.bind_eq_some_iff.mp ends
  obtain ⟨c₀,start,eq⟩ := Option.bind_eq_some_iff.mp eq
  obtain ⟨c',run',gives⟩ := Option.map_eq_some_iff.mp eq
  obtain ⟨given,at_⟩ := giving_some gives
  exact ⟨c,c₀,c',run,start,run',(alloc_zeroed_zero ⟨_,_,run⟩ start run'
    (by simp [Sample.zeroing,Sample.go]) at_).2.1⟩

end Numalloc
