import Numalloc.ClassRules

/-! When a bag is carved: by a thread that has nothing left of the class, once it found the
stack of its node empty, and to hand out one of its blocks. -/
namespace Numalloc

open Concurrent View Logic

variable {P : Platform} {strict : Bool} {v v' : View} {th : PerThreadHeap} {r : HeapRef}
  {L S : Nat → List Nat} {C : List Nat} {H M : Set Nat} {inst cls d b : Nat} {layout : Layout}
  {α β : Type}

/-- The thread holds no block of the class. -/
def View.Dry (v : View) (cls : Nat) : Prop := ∀ b B, v.blocks b = some B → B.ref.cls ≠ cls

/-- The address is that of a block of the class in the thread's hands. -/
def View.Holding (v : View) (cls b : Nat) : Prop := ∃ B, v.blocks b = some B ∧ B.ref.cls = cls

/-- The thread has no cache, or one for another heap than the operation runs on. -/
def View.Vacant (v : View) : Prop := v.slot = .empty ∨
  ∃ th r, v.slot = .alive th ∧ v.call.heap = some r ∧ th.globalHeap.addr ≠ r.handle.addr

/-- What concerns the supply of one class: the stack of the node was found empty, or blocks may
be there again; a bag was carved with nothing left of the class, or though something was; a
block of the class was obtained, or another allocation changed hands; a thread was assigned
to a node though it had a cache for the heap, or had given it up for good. -/
inductive SupplyEvent where
  | dry
  | filled
  | carved
  | hoarded
  | delivered
  | passed
  | spurned

open Classical in
noncomputable def supplyScribe (cls : Nat) : Scribe SupplyEvent where
  note
    | .loadHead k, v, word, _ =>
      if v.home cls = some k then
        if (TreiberStack.unpack word).1 = none then [.dry] else [.filled]
      else []
    | .casHead k _ new, _, done, _ =>
      if done = true ∧ k.cls = cls ∧ (TreiberStack.unpack new).1 ≠ none then [.filled] else []
    | .slotTake destroy, v, _, _ => if destroy = true ∨ v.Vacant then [.filled] else [.spurned]
    | .slotSet _, v, _, _ => if v.slot = .empty then [.filled] else [.spurned]
    | .casBump heap node d _ _, v, done, _ =>
      if done = true ∧ d = cls then
        if v.home cls = some ⟨heap,node,cls⟩ ∧ v.Dry cls then [.carved] else [.hoarded]
      else []
    | .copy _ dst _, v, _, _ => if v.Holding cls dst then [.delivered] else []
    | .give ptr _, v, _, _ => if v.pin = none ∧ v.Holding cls ptr then [.delivered] else [.passed]
    | .release, _, _, _ => [.passed]
    | _, _, _, _ => []
  asks _ _ := []

/-- Whether the stack of the node was empty when the thread last looked and has put nothing
there since, and whether a bag was carved for a block that is still to come. -/
structure Supply where
  dry : Bool
  owing : Bool

namespace Supply

def after (s : Supply) : SupplyEvent → Option Supply
  | .dry => some ⟨true,s.owing⟩
  | .filled => some ⟨false,s.owing⟩
  | .carved => if s.dry = true ∧ s.owing = false then some ⟨true,true⟩ else none
  | .delivered => some ⟨s.dry,false⟩
  | .passed => if s.owing = true then none else some s
  | .hoarded | .spurned => none

def monitor : Monitor SupplyEvent Supply := ⟨after⟩

end Supply

noncomputable abbrev supplyLogic (cls : Nat) (P : Platform) (strict : Bool) :
    Logic allocI (View × Option Supply) :=
  (supplyScribe cls).logic Supply.monitor P strict

noncomputable abbrev supplyTrail (cls : Nat) (P : Platform) (strict : Bool) :
    Logic allocI (View × Option Supply) :=
  (supplyScribe cls).trail Supply.monitor P strict

/-- The monitor waits for a block, or it does not. -/
def Owing (o : Bool) (w : View × Option Supply) : Prop := ∃ dry, w.2 = some ⟨dry,o⟩

/-! Parts that carve nothing and hand out nothing. -/

/-- Actions that neither carve, nor hand anything over, nor change which cache is in the slot. -/
def Act.tame : Act → Bool
  | .slotTake _ | .slotSet _ | .casBump _ _ _ _ _ | .copy _ _ _ | .give _ _ | .release => false
  | _ => true

abbrev Tame (x : allocI.Op) : Prop := Act.tame x = true

theorem Aside.tame (x : allocI.Op) (h : Aside x) : Tame x := by
  cases x <;> first | rfl | cases h

theorem Lists.tame (x : allocI.Op) (h : Lists x) : Tame x := by
  cases x <;> first | rfl | cases h

theorem Sheds.tame (x : allocI.Op) (h : Sheds x) : Tame x := by
  cases x <;> first | rfl | cases h

/-- All they can change is what is known of the stack. -/
theorem supply_tame {x : Act} (cls : Nat) (v : View) (res : x.Res) (v' : View) (s : Supply)
    (tame : Tame x) :
    ∃ dry, Supply.monitor.run s ((supplyScribe cls).note x v res v') = some ⟨dry,s.owing⟩ := by
  cases x with
  | loadHead k =>
    simp only [supplyScribe]
    split
    · split
      · exact ⟨true,rfl⟩
      · exact ⟨false,rfl⟩
    · exact ⟨s.dry,rfl⟩
  | casHead k current new =>
    simp only [supplyScribe]
    split
    · exact ⟨false,rfl⟩
    · exact ⟨s.dry,rfl⟩
  | slotTake _ | slotSet _ | casBump _ _ _ _ _ | copy _ _ _ | give _ _ | release => cases tame
  | _ => exact ⟨s.dry,rfl⟩

theorem wp_tame {p : Prog allocI α} {s : Supply} (only : p.Only Tame) :
    (supplyTrail cls P strict).wp p (fun _ => Owing s.owing) (v,some s) := by
  refine wp_only (L := supplyTrail cls P strict) (Owing s.owing) only ?_ (fun x w tame owing => ?_)
    ⟨s.dry,rfl⟩
  · rintro w ⟨dry,same⟩
    exact ⟨trivial,_,same⟩
  · refine ⟨trivial,fun res w' st => ?_⟩
    obtain ⟨dry,same⟩ := owing
    obtain ⟨dry',moved⟩ := supply_tame cls w.1 res w'.1 ⟨dry,s.owing⟩ tame
    refine ⟨dry',?_⟩
    rw [st.2,same]
    exact moved

theorem wp_owing_seq {p : Prog allocI α} {f : α → Prog allocI β} {o : Bool} {s : Supply}
    (first : (supplyTrail cls P strict).wp p (fun _ => Owing o) (v,some s))
    (rest : ∀ a v' s', s'.owing = o →
      (supplyTrail cls P strict).wp (f a) (fun _ => Owing o) (v',some s')) :
    (supplyTrail cls P strict).wp (p.bind f) (fun _ => Owing o) (v,some s) := by
  refine wp_seq first fun a w _ post => ?_
  obtain ⟨v',_⟩ := w
  obtain ⟨dry,rfl⟩ := post
  exact rest a v' ⟨dry,o⟩ rfl

/-- What happens between taking a cache out of the slot and putting the next one there. -/
def Act.moves : Act → Bool
  | .fetchAddNode _ | .fetchAddRefs _ | .abort => true
  | x => x.sheds

abbrev Moves (x : allocI.Op) : Prop := Act.moves x = true

theorem Sheds.moves (x : allocI.Op) (h : Sheds x) : Moves x := by
  cases x <;> first | rfl | cases h

theorem Moves.tame (x : allocI.Op) (h : Moves x) : Tame x := by
  cases x <;> first | rfl | cases h

theorem slot_moves {x : Act} {r : x.Res} (moves : Moves x) (ok : safe P strict x v)
    (st : step P strict x v r v') : v'.slot = v.slot := by
  cases x with
  | link x =>
    have within : Within ⟨0,0,0⟩ (.link x) := trivial
    exact slot_within within ok st
  | loadHead k =>
    have within : Within k (.loadHead k) := rfl
    exact slot_within within ok st
  | casHead k current new =>
    have within : Within k (.casHead k current new) := rfl
    exact slot_within within ok st
  | fetchAddNode inst =>
    obtain rfl : v' = v := st
    rfl
  | fetchAddRefs h =>
    obtain rfl : v' = _ := st
    rfl
  | fetchSubRefs h =>
    simp only [step] at st
    split at st
    · obtain ⟨_,_,_,_,_,_,rfl⟩ := st
      rfl
    · obtain rfl := st
      rfl
  | extent h =>
    obtain ⟨rfl,_⟩ := st
    rfl
  | sysDealloc h =>
    obtain rfl : v' = _ := st
    rfl
  | munmap ptr size =>
    obtain ⟨_,_,_,_,rfl⟩ := st
    rfl
  | abort => exact Empty.elim r
  | _ => cases moves

/-- The slot stays empty meanwhile. -/
theorem wp_moves {p : Prog allocI α} {s : Supply} (only : p.Only Moves) (empty : v.slot = .empty) :
    (supplyTrail cls P strict).wp p (fun _ w => w.1.slot = .empty ∧ Owing s.owing w) (v,some s) := by
  refine wp_only (L := supplyTrail cls P strict) (fun w => w.1.slot = .empty ∧ Owing s.owing w) only
    ?_ (fun x w moves inv => ?_) ⟨empty,s.dry,rfl⟩
  · rintro w ⟨_,dry,same⟩
    exact ⟨trivial,_,same⟩
  · obtain ⟨empty,dry,same⟩ := inv
    refine ⟨trivial,fun res w' st => ⟨(slot_moves moves st.1.1 st.1.2.1).trans empty,?_⟩⟩
    obtain ⟨dry',moved⟩ := supply_tame cls w.1 res w'.1 ⟨dry,s.owing⟩ (Moves.tame x moves)
    refine ⟨dry',?_⟩
    rw [st.2,same]
    exact moved

/-- A cache is only given up for one of another heap. -/
theorem wp_initThreadHeap_supply (inst : Nat) (heap : HeapRef) {s : Supply} (vacant : v.Vacant) :
    (supplyTrail cls P strict).wp (initThreadHeap inst heap) (fun _ => Owing s.owing) (v,some s) := by
  rw [initThreadHeap_eq]
  refine ⟨⟨trivial,s,rfl⟩,trivial,fun old w st => ?_⟩
  obtain ⟨⟨_,⟨_,taken⟩,_⟩,moved⟩ := st
  obtain ⟨v₁,o⟩ := w
  obtain rfl : o = some ⟨false,s.owing⟩ := by
    refine moved.trans ?_
    simp [supplyScribe,vacant,Supply.monitor,Supply.after]
  have empty : v₁.slot = .empty := by
    rw [show v₁ = _ from taken]
    rfl
  simp only [Prog.bind_ret]
  refine wp_seq (wp_moves (s := ⟨false,s.owing⟩) ?_ empty) fun _ w _ post => ?_
  · cases old with
    | alive th => exact (dropThreadHeap_sheds th).mono Sheds.moves
    | _ => trivial
  obtain ⟨v₂,o⟩ := w
  obtain ⟨empty₂,dry₂,rfl⟩ := post
  refine wp_seq (wp_moves (s := ⟨dry₂,s.owing⟩) (.call rfl) empty₂) fun next w _ post => ?_
  obtain ⟨v₃,o⟩ := w
  obtain ⟨empty₃,dry₃,rfl⟩ := post
  refine wp_seq (wp_moves (s := ⟨dry₃,s.owing⟩) (.call rfl) empty₃) fun previous w _ post => ?_
  obtain ⟨v₄,o⟩ := w
  obtain ⟨empty₄,dry₄,rfl⟩ := post
  split
  · exact ⟨⟨trivial,_,rfl⟩,trivial,fun e => nomatch e⟩
  · refine ⟨⟨trivial,_,rfl⟩,trivial,fun _ w st => ?_⟩
    obtain ⟨v₅,o⟩ := w
    obtain rfl : o = some ⟨false,s.owing⟩ := by
      refine st.2.trans ?_
      simp [supplyScribe,show v₄.slot = .empty from empty₄,Supply.monitor,Supply.after]
    exact ⟨⟨trivial,_,rfl⟩,false,rfl⟩

theorem wp_threadHeap_supply (inst : Nat) {s : Supply} :
    (supplyTrail cls P strict).wp (threadHeap inst) (fun _ => Owing s.owing) (v,some s) := by
  rw [threadHeap_eq]
  refine ⟨⟨trivial,s,rfl⟩,trivial,fun slot w st => ?_⟩
  obtain ⟨⟨_,⟨same,kept⟩,_⟩,moved⟩ := st
  obtain ⟨v₁,o⟩ := w
  obtain rfl : v₁ = v := kept
  obtain rfl : slot = v₁.slot := same
  obtain rfl : o = some s := moved
  have made : ∀ {v' : View} {heap : HeapRef}, v'.Vacant → (supplyTrail cls P strict).wp
      ((initThreadHeap inst heap).bind fun _ => .ret true) (fun _ => Owing s.owing) (v',some s) :=
    fun vacant => wp_owing_seq (wp_initThreadHeap_supply inst _ vacant) fun _ _ s' same =>
      same ▸ wp_tame trivial
  cases slot : v₁.slot with
  | destroyed => exact wp_tame trivial
  | empty =>
    refine ⟨⟨trivial,s,rfl⟩,trivial,fun heap w st => ?_⟩
    obtain ⟨⟨_,⟨known,_⟩,_⟩,moved⟩ := st
    obtain ⟨v₂,o⟩ := w
    obtain rfl : v₂ = _ := known
    obtain rfl : o = some s := moved
    exact made (Or.inl slot)
  | alive th =>
    refine ⟨⟨trivial,s,rfl⟩,trivial,fun heap w st => ?_⟩
    obtain ⟨⟨_,⟨known,_⟩,_⟩,moved⟩ := st
    obtain ⟨v₂,o⟩ := w
    obtain rfl : v₂ = _ := known
    obtain rfl : o = some s := moved
    simp only [Prog.bind_ret]
    split
    · exact wp_tame trivial
    · rename_i other
      exact made (Or.inr ⟨th,heap,slot,rfl,other⟩)

theorem wp_allocLargeTracked_supply (inst : Nat) (layout : Layout) {s : Supply} :
    (supplyTrail cls P strict).wp (allocLargeTracked P inst layout) (fun _ => Owing s.owing)
      (v,some s) := by
  cases fits : largeAllocSize P layout with
  | none =>
    unfold allocLargeTracked
    rw [fits]
    exact wp_tame trivial
  | some needed =>
    rw [allocLargeTracked_eq fits]
    refine wp_owing_seq (wp_threadHeap_supply inst) fun ok v₁ s₁ same => same ▸ wp_tame ?_
    split
    · refine .bind (.call rfl) fun th => ?_
      split
      · exact .bind (.call rfl) fun _ => .bind (.bind (.call rfl) fun _ => trivial) fun _ => trivial
      · exact (mapLarge_aside _ _ layout).mono Aside.tame
    · exact (mapLarge_aside _ 0 layout).mono Aside.tame

theorem wp_allocLarge_supply (inst : Nat) (layout : Layout) {s : Supply} :
    (supplyTrail cls P strict).wp (allocLarge P inst layout) (fun _ => Owing s.owing) (v,some s) := by
  rw [allocLarge_eq]
  exact wp_owing_seq (wp_allocLargeTracked_supply inst layout) fun _ _ _ same => same ▸ wp_tame trivial

theorem deallocLocal_tame (k : StackRef) (block : Nat) : (deallocLocal k block).Only Tame := by
  rw [deallocLocal_eq]
  refine .bind ((freelistDo_lists _ _).mono Lists.tame) fun _ => .bind (.call rfl) fun th => ?_
  split
  · refine .bind ((freelistMut_lists _ _).mono Lists.tame) fun x => ?_
    split
    · exact (onStack_sheds _ _).mono Sheds.tame
    · trivial
  · trivial

theorem wp_deallocSmall_supply (inst ptr : Nat) (heap : HeapRef) (n d : Nat) {s : Supply} :
    (supplyTrail cls P strict).wp (deallocSmall inst ptr heap n d) (fun _ => Owing s.owing)
      (v,some s) := by
  rw [deallocSmall_eq]
  refine wp_owing_seq (wp_threadHeap_supply inst) fun ok v₁ s₁ same => same ▸ wp_tame ?_
  split
  · refine .bind (.call rfl) fun th => ?_
    split
    · exact deallocLocal_tame _ _
    · exact (onStack_sheds _ _).mono Sheds.tame
  · exact (onStack_sheds _ _).mono Sheds.tame

theorem wp_dealloc_supply (inst ptr : Nat) (layout : Layout) {s : Supply} :
    (supplyTrail cls P strict).wp (dealloc inst ptr layout) (fun _ => Owing s.owing) (v,some s) := by
  have large := ((deallocLarge_recycles inst ptr).mono Recycles.aside).mono Aside.tame
  unfold dealloc
  split
  · exact wp_tame trivial
  · split
    · exact wp_tame large
    · refine wp_owing_seq (p := act (.heap inst)) (wp_tame (.call rfl)) fun heap v₁ s₁ same => ?_
      rw [← same]
      split
      · exact wp_tame large
      · split
        · exact wp_tame trivial
        · exact wp_deallocSmall_supply inst ptr heap _ _

/-! Allocation. -/

/-- A block of the class that is still to come is what the allocation answers. -/
def Due (cls : Nat) (x : Option Nat) (w : View × Option Supply) : Prop :=
  ∃ s, w.2 = some s ∧ (s.owing = true → ∃ p, x = some p ∧ w.1.Holding cls p)

theorem Owing.due {w : View × Option Supply} {x : Option Nat} (owing : Owing false w) :
    Due cls x w := by
  obtain ⟨dry,same⟩ := owing
  exact ⟨_,same,nofun⟩

/-- A thread whose lists of the class are empty, and that has nothing in hand, holds no block
of the class. -/
theorem Own.dry (own : Own P strict v th r L S C ∅ M) (counted : L d = []) (spare : S d = []) :
    v.Dry d := by
  intro b B held same
  by_cases listed : ∃ c, b ∈ L c ++ S c
  · obtain ⟨c,mem⟩ := listed
    have ref := own.ref mem
    rw [View.ref,held] at ref
    obtain rfl : c = d := by
      rw [← same]
      exact (congrArg StackRef.cls (Option.some.inj ref)).symm
    rw [counted,spare] at mem
    cases mem
  · exact own.stock.loose.mpr ⟨⟨B,held⟩,not_exists.mp listed⟩

/-- The stack was empty when nothing was taken from it. -/
theorem wp_takeAll_supply {k : StackRef} {s : Supply} (home : v.home k.cls = some k) :
    (supplyTrail cls P strict).wp (onStack k TreiberStack.takeAll) (fun x w => ∃ dry,
      w.2 = some ⟨dry,s.owing⟩ ∧ (x = none → k.cls = cls → dry = true)) (v,some s) := by
  rw [onStack_takeAll]
  refine wp_iter (L := supplyTrail cls P strict) (fun _ w => w.1 = v ∧ Owing s.owing w)
    ⟨trivial,s,rfl⟩ ⟨rfl,s.dry,rfl⟩ fun _ w inv => ?_
  obtain ⟨v₁,o⟩ := w
  obtain ⟨rfl,dry,rfl⟩ := inv
  refine ⟨⟨trivial,_,rfl⟩,trivial,fun word w st => ?_⟩
  obtain ⟨⟨_,same,_⟩,moved⟩ := st
  obtain ⟨v₂,o⟩ := w
  obtain rfl : v₂ = v₁ := same
  obtain ⟨dry',rfl⟩ : ∃ dry, o = some ⟨dry,s.owing⟩ := by
    obtain ⟨dry',noted⟩ := supply_tame (x := .loadHead k) cls v₂ word v₂ ⟨dry,s.owing⟩ rfl
    exact ⟨dry',moved.trans noted⟩
  simp only [Prog.bind_ret]
  cases head : (TreiberStack.unpack word).1 with
  | none =>
    refine ⟨⟨trivial,_,rfl⟩,dry',rfl,fun _ mine => ?_⟩
    subst mine
    simp only [supplyScribe,home,head,if_true,Option.bind_some,Monitor.run_single,Supply.monitor,
      Supply.after,Option.some.injEq,Supply.mk.injEq,and_true] at moved
    exact moved
  | some head' =>
    refine ⟨⟨trivial,_,rfl⟩,trivial,fun done w st => ?_⟩
    obtain ⟨⟨_,step_,_⟩,moved'⟩ := st
    obtain ⟨v₃,o⟩ := w
    obtain ⟨dry₃,noted⟩ := supply_tame (x := .casHead k word (TreiberStack.pack none
      (TreiberStack.nextTag (TreiberStack.unpack word).2))) cls v₂ done v₃ ⟨dry',s.owing⟩ rfl
    obtain rfl : o = some ⟨dry₃,s.owing⟩ := moved'.trans noted
    cases done with
    | false =>
      obtain rfl : v₃ = v₂ := step_
      exact ⟨⟨trivial,_,rfl⟩,rfl,dry₃,rfl⟩
    | true => exact ⟨⟨trivial,_,rfl⟩,dry₃,rfl,fun none_ => by cases none_⟩

theorem wp_takeChain_supply (own : Own P strict v th r L S C H M) {s : Supply} :
    (supplyTrail cls P strict).wp (takeChain d ⟨r.handle.addr,th.nodeId,d⟩) (fun x w => ∃ dry,
      w.2 = some ⟨dry,s.owing⟩ ∧ (x = none → d = cls → dry = true)) (v,some s) := by
  rw [takeChain_eq]
  refine ⟨⟨trivial,s,rfl⟩,trivial,fun th₁ w st => ?_⟩
  obtain ⟨⟨_,⟨same,_⟩,_⟩,moved⟩ := st
  obtain ⟨v₁,o⟩ := w
  obtain rfl : v₁ = v := same
  obtain rfl : o = some s := moved
  refine ⟨⟨trivial,s,rfl⟩,trivial,fun _ w st => ?_⟩
  obtain ⟨⟨_,⟨th₂,alive,stored⟩,_⟩,moved⟩ := st
  obtain ⟨v₂,o⟩ := w
  obtain rfl : o = some s := moved
  obtain rfl : v₂ = _ := stored
  obtain rfl := ThreadHeapSlot.alive.inj (own.present.1.symm.trans alive)
  simp only [Prog.bind_ret]
  split
  · exact ⟨⟨trivial,s,rfl⟩,s.dry,rfl,fun none_ => by cases none_⟩
  · exact wp_takeAll_supply (k := ⟨r.handle.addr,th.nodeId,d⟩) (by simp only [View.home,own.present.2.2])

/-- A bag is carved with nothing left of the class, and a block of it is then due. -/
theorem wp_allocateBag_supply (own : Own P strict v th r L S C ∅ M) (counted : L d = [])
    (spare : S d = []) {s : Supply} (looked : d = cls → s.dry = true) (none_ : s.owing = false) :
    (supplyTrail cls P strict).wp (onBump r.handle.addr th.nodeId d
      ((r.geom.nodeRegion th.nodeId).allocateBag (bagSizeForClass d)))
      (fun x w => ∃ s', w.2 = some s' ∧ (s'.owing = true → x ≠ none ∧ d = cls)) (v,some s) := by
  rw [onBump_allocateBag]
  refine wp_iter (L := supplyTrail cls P strict) (fun _ w => w = (v,some s)) ⟨trivial,s,rfl⟩ rfl
    fun _ w inv => ?_
  subst inv
  refine ⟨⟨trivial,s,rfl⟩,trivial,fun offset w st => ?_⟩
  obtain ⟨⟨_,same,_⟩,moved⟩ := st
  obtain ⟨v₁,o⟩ := w
  obtain rfl : v₁ = v := same
  obtain rfl : o = some s := moved
  simp only [Prog.bind_ret]
  cases bag : (r.geom.nodeRegion th.nodeId).nextBag (bagSizeForClass d) offset with
  | none => exact ⟨⟨trivial,s,rfl⟩,s,rfl,fun owing => nomatch none_.symm.trans owing⟩
  | some bag' =>
    obtain ⟨aligned,newOffset⟩ := bag'
    refine ⟨⟨trivial,s,rfl⟩,trivial,fun done w st => ?_⟩
    obtain ⟨⟨_,step_,_⟩,moved⟩ := st
    obtain ⟨v₂,o⟩ := w
    cases done with
    | false =>
      obtain rfl : v₂ = v₁ := step_
      obtain rfl : o = some s := moved.trans (by simp [supplyScribe])
      exact ⟨⟨trivial,s,rfl⟩,rfl⟩
    | true =>
      by_cases mine : d = cls
      · subst mine
        have dry : v₁.home d = some ⟨r.handle.addr,th.nodeId,d⟩ ∧ v₁.Dry d :=
          ⟨own.home d,own.dry counted spare⟩
        obtain rfl : o = some ⟨true,true⟩ := by
          refine moved.trans ?_
          simp [supplyScribe,dry,Supply.monitor,Supply.after,looked rfl,none_]
        exact ⟨⟨trivial,_,rfl⟩,_,rfl,fun _ => ⟨nofun,rfl⟩⟩
      · obtain rfl : o = some s := moved.trans (by simp [supplyScribe,mine])
        exact ⟨⟨trivial,s,rfl⟩,s,rfl,fun owing => nomatch none_.symm.trans owing⟩

theorem Owing.eq {o : Bool} {s : Supply} (owing : Owing o (v,some s)) : s.owing = o := by
  obtain ⟨dry,same⟩ := owing
  rw [Option.some.inj same]

theorem wp_allocSmall_supply (ready : Ready P strict v inst ∅ M)
    (own : Own P strict v th r L S C ∅ M) (index : sizeClassIndex layout.effective = some d)
    {s : Supply} (none_ : s.owing = false) :
    (supplyLogic cls P strict).wp (allocSmall P inst layout d) (Due cls) (v,some s) := by
  have small := (sizeClassIndex_spec index).1
  rw [allocSmall_eq]
  refine Scribe.wp_seq (wp_thread_call own) (wp_tame (.call rfl)) fun th₁ v₁ s₁ _ post owing => ?_
  obtain ⟨rfl,rfl,inside⟩ := post
  have none₁ := owing.eq.trans none_
  refine Scribe.wp_seq (wp_pop own d) (wp_tame ((freelistMut_lists d _).mono Lists.tame))
    fun x v₂ s₂ always post owing₂ => ?_
  rw [none₁] at owing₂
  cases x with
  | some block => exact ⟨⟨always,s₂,rfl⟩,owing₂.due⟩
  | none =>
    obtain ⟨rfl,empty⟩ := post
    refine Scribe.wp_seq (wp_heap_call ready own) (wp_tame (.call rfl)) fun r₃ v₃ s₃ _ post owing₃ => ?_
    obtain ⟨rfl,rfl⟩ := post
    have none₃ := owing₃.eq.trans owing₂.eq
    refine Scribe.wp_seq (wp_takeChain own small) (wp_takeChain_supply own)
      fun x v₄ s₄ _ post looked => ?_
    obtain ⟨dry,same,looked⟩ := looked
    obtain rfl := Option.some.inj same
    cases x with
    | some first =>
      obtain ⟨l,S',parked,nonempty,chain,fresh,left⟩ := post
      obtain ⟨th₄,own₄,node⟩ := left.own
      have chain₄ : Detached v₄ ⟨r₃.handle.addr,th₄.nodeId,d⟩ first l (∅ ∪ {b | b ∈ l}) := by
        rw [node]
        exact ⟨chain.links,chain.nodup,chain.ref,fun b h => Or.inr h⟩
      refine Scribe.wp_seq (wp_refill own₄ parked nonempty chain₄)
        (wp_tame ((refill_lists d first).mono Lists.tame)) fun block v₅ s₅ always _ owing₅ => ?_
      rw [none₃] at owing₅
      exact ⟨⟨always,s₅,rfl⟩,owing₅.due⟩
    | none =>
      obtain ⟨left,spare⟩ := post
      obtain ⟨th₄,own₄,node⟩ := left.own
      rw [← node] at inside ⊢
      refine Scribe.wp_seq (wp_allocateBag own₄ inside small)
        (wp_allocateBag_supply own₄ empty spare (looked rfl) none₃) fun bag v₅ s₅ always taken due => ?_
      obtain ⟨_,same,due⟩ := due
      obtain rfl := Option.some.inj same
      cases bag with
      | none =>
        obtain rfl : v₅ = v₄ := taken
        have ready₅ := ready.next left.frame own₄.holds (left.frame.carried ready.carried)
        refine Scribe.wp_last (wp_allocLarge ready₅) (wp_allocLarge_supply inst layout)
          fun x v₆ s₆ _ _ owing₆ => ?_
        rw [Bool.eq_false_iff.mpr fun owing => (due owing).1 rfl] at owing₆
        exact owing₆.due
      | some bag =>
        obtain ⟨objects,left₅⟩ := taken
        obtain ⟨th₅,own₅,node₅⟩ := left₅.own
        have bagOf : {b | (⟨r₃.handle.addr,th₄.nodeId,d,bag⟩ : Bag).HasSlot b} =
            rest bag (sizeForClass d) 0 (bagSizeForClass d / sizeForClass d) := by
          ext b
          exact (mem_rest small).symm
        rw [bagOf] at own₅
        refine Scribe.wp_seq (wp_carve (sizeForClass_pos small) own₅ fun b mem => ⟨Or.inr mem,?_⟩)
          (wp_tame ((carve_lists d bag _ _ 0).mono Lists.tame)) fun _ v₆ s₆ _ carved owing₆ => ?_
        · rw [(objects b ((mem_rest small).mp mem)).2,node₅]
        obtain ⟨L',full,left₆⟩ := carved
        obtain ⟨th₆,own₆,_⟩ := left₆.own
        refine Scribe.wp_seq (wp_popUnwrap own₆ (full (Or.inr (objectsPerBag_pos small))))
          (wp_tame ((popUnwrap_lists d).mono Lists.tame)) fun block v₇ s₇ always popped owing₇ => ?_
        obtain ⟨_,_,ref,_⟩ := popped
        refine ⟨⟨always,s₇,rfl⟩,s₇,rfl,fun owing => ⟨block,rfl,?_⟩⟩
        rw [owing₇.eq,owing₆.eq] at owing
        obtain ⟨B,held,same⟩ := block_of_ref ref
        exact ⟨B,held,by rw [same]; exact (due owing).2⟩

theorem wp_alloc_supply (ready : Ready P strict v inst ∅ M) {s : Supply} (none_ : s.owing = false) :
    (supplyLogic cls P strict).wp (alloc P inst layout) (Due cls) (v,some s) := by
  have large : ∀ {v' : View} {s' : Supply}, Ready P strict v' inst ∅ M → s'.owing = false →
      (supplyLogic cls P strict).wp (allocLarge P inst layout) (Due cls) (v',some s') := by
    intro v' s' ready' none'
    refine Scribe.wp_last (wp_allocLarge ready') (wp_allocLarge_supply inst layout)
      fun x v₁ s₁ _ _ owing => ?_
    rw [none'] at owing
    exact owing.due
  unfold alloc
  split
  · exact large ready none_
  · cases index : sizeClassIndex layout.effective with
    | none => exact ⟨⟨ready.holds.always,s,rfl⟩,s,rfl,fun owing => nomatch none_.symm.trans owing⟩
    | some d =>
      refine Scribe.wp_seq (wp_threadHeap ready) (wp_threadHeap_supply inst)
        fun ok v₁ s₁ _ post owing => ?_
      obtain ⟨frame,found⟩ := post
      have none₁ := owing.eq.trans none_
      cases ok with
      | false =>
        obtain ⟨rfl,_⟩ := found
        exact large ready none₁
      | true =>
        obtain ⟨th,r,L,S,C,own,_⟩ := found
        exact wp_allocSmall_supply (ready.next frame own.holds (frame.carried ready.carried)) own index none₁

/-! Whole requests. -/

/-- A write into what was just obtained leaves the blocks in hand what they are. -/
theorem View.Holding.overwritten {H' M' : Set Nat} {p n : Nat} (holding : v.Holding cls b)
    (got : Obtained P strict v layout p H M H' M') (le : n ≤ layout.size)
    (wrote : v.Overwritten v' p n) : v'.Holding cls b := by
  obtain ⟨B,block,same⟩ := holding
  cases got with
  | @block th r c fresh present ref index =>
    obtain ⟨B',block',ref'⟩ := block_of_ref ref
    have fits := (sizeClassIndex_spec index).2.2.2.1
    have effective : layout.size ≤ layout.effective := Nat.le_max_left _ _
    obtain ⟨link,rfl⟩ := wrote.1 p B' block' le_rfl (by rw [ref']; simp only; omega)
    have kept := setLink_ref v p b link
    rw [View.ref,View.ref,block] at kept
    obtain ⟨B'',block'',ref''⟩ := Option.map_eq_some_iff.mp kept
    exact ⟨B'',block'',(congrArg StackRef.cls ref'').trans same⟩
  | @mapping id m inst fresh found payload called use placed fixed =>
    have := placed.room
    obtain rfl := wrote.2 id m p found payload le_rfl (by omega)
    exact ⟨B,block,same⟩

theorem Due.overwritten {H' M' : Set Nat} {p n : Nat} {x : Option Nat} {s : Supply}
    (due : Due cls x (v,some s)) (got : Obtained P strict v layout p H M H' M')
    (le : n ≤ layout.size) (wrote : v.Overwritten v' p n) : Due cls x (v',some s) := by
  obtain ⟨s',same,due⟩ := due
  obtain rfl := Option.some.inj same
  refine ⟨s,rfl,fun owing => ?_⟩
  obtain ⟨p',rfl,holding⟩ := due owing
  exact ⟨p',rfl,holding.overwritten got le wrote⟩

/-- Zeroing what was obtained. -/
theorem wp_zero_supply {H' M' : Set Nat} {p : Nat} {s : Supply} (holds : Holds P strict v H' M')
    (got : Obtained P strict v layout p H M H' M') (due : Due cls (some p) (v,some s)) :
    (supplyLogic cls P strict).wp ((act (.writeBytes p layout.size)).bind fun _ => .ret (some p))
      (Due cls) (v,some s) := by
  have spec : (allocLogic P strict).wp (act (.writeBytes p layout.size))
      (fun _ v' => v.Overwritten v' p layout.size) v :=
    wp_call holds.always (got.writable le_rfl) fun _ v' wrote =>
      ⟨(got.overwritten holds le_rfl wrote).2.always,wrote⟩
  have trail : (supplyTrail cls P strict).wp (act (.writeBytes p layout.size))
      (fun _ w => w.2 = some s) (v,some s) :=
    ⟨⟨trivial,s,rfl⟩,trivial,fun _ _ st => ⟨⟨trivial,s,st.2⟩,st.2⟩⟩
  refine Scribe.wp_seq spec trail fun _ v₁ s₁ always wrote same => ?_
  obtain rfl := Option.some.inj same
  exact ⟨⟨always,s₁,rfl⟩,due.overwritten got le_rfl wrote⟩

theorem wp_allocZeroed_supply (ready : Ready P strict v inst ∅ M) {s : Supply}
    (none_ : s.owing = false) :
    (supplyLogic cls P strict).wp (allocZeroed P inst layout) (Due cls) (v,some s) := by
  rw [allocZeroed_eq]
  split
  · refine Scribe.wp_seq (wp_allocLargeTracked ready) (wp_allocLargeTracked_supply inst layout)
      fun x v₁ s₁ always post owing => ?_
    rw [none_] at owing
    obtain ⟨x,reused⟩ := x
    cases x with
    | none => exact ⟨⟨always,s₁,rfl⟩,owing.due⟩
    | some p =>
      obtain ⟨frame,H',M',holds,got⟩ := post
      cases reused with
      | false => exact ⟨⟨always,s₁,rfl⟩,owing.due⟩
      | true => exact wp_zero_supply holds got owing.due
  · refine Scribe.wp_both (wp_alloc ready) (wp_alloc_supply ready none_)
      fun x v₁ s₁ always post due => ?_
    cases x with
    | none => exact ⟨⟨always,s₁,rfl⟩,due⟩
    | some p =>
      obtain ⟨frame,H',M',holds,got⟩ := post
      exact wp_zero_supply holds got due

theorem wp_release_supply {s : Supply} (none_ : s.owing = false) :
    (supplyTrail cls P strict).wp (act .release) (fun _ => Owing false) (v,some s) := by
  refine ⟨⟨trivial,s,rfl⟩,trivial,fun _ w st => ?_⟩
  obtain ⟨v₁,o⟩ := w
  obtain rfl : o = some s := st.2.trans (by simp [supplyScribe,Supply.monitor,Supply.after,none_])
  exact ⟨⟨trivial,s,rfl⟩,s.dry,by rw [← none_]⟩

theorem Due.settled {s : Supply} (due : Due cls none (v,some s)) : s.owing = false := by
  obtain ⟨s',same,due⟩ := due
  obtain rfl := Option.some.inj same
  refine Bool.eq_false_iff.mpr fun owing => ?_
  obtain ⟨p,none_,_⟩ := due owing
  cases none_

theorem Due.holding {p : Nat} {s : Supply} (due : Due cls (some p) (v,some s))
    (owing : s.owing = true) : v.Holding cls p := by
  obtain ⟨s',same,due⟩ := due
  obtain rfl := Option.some.inj same
  obtain ⟨p',given,holding⟩ := due owing
  obtain rfl := Option.some.inj given
  exact holding

/-- The copy into the new block stands for handing it over. -/
theorem wp_copy_supply {src dst n : Nat} {s : Supply} (due : Due cls (some dst) (v,some s)) :
    (supplyTrail cls P strict).wp (act (.copy src dst n)) (fun _ => Owing false) (v,some s) := by
  refine ⟨⟨trivial,s,rfl⟩,trivial,fun _ w st => ?_⟩
  obtain ⟨v₁,o⟩ := w
  have settled : Owing false (v₁,o) := by
    refine ⟨s.dry,st.2.trans ?_⟩
    by_cases holding : v.Holding cls dst
    · simp [supplyScribe,holding,Supply.monitor,Supply.after]
    · have none_ : s.owing = false := Bool.eq_false_iff.mpr fun owing => holding (due.holding owing)
      simp [supplyScribe,holding,← none_]
  obtain ⟨dry,rfl⟩ := settled
  exact ⟨⟨trivial,_,rfl⟩,dry,rfl⟩

theorem wp_reallocMove_supply {ptr newSize : Nat} {a : Alloc} {newLayout : Layout}
    (ready : Ready P strict v inst ∅ M) (operand : Operand v inst ptr layout a)
    (resized : layout.resize newSize = some newLayout) {s : Supply} (none_ : s.owing = false) :
    (supplyLogic cls P strict).wp (reallocMove P inst ptr layout newSize) (fun _ => Owing false)
      (v,some s) := by
  rw [reallocMove_eq resized]
  refine Scribe.wp_both (wp_alloc ready) (wp_alloc_supply ready none_)
    fun x v₁ s₁ always answered due => ?_
  cases x with
  | none => exact ⟨⟨always,s₁,rfl⟩,s₁.dry,by rw [← due.settled]⟩
  | some p =>
    obtain ⟨frame,H',M',holds,got⟩ := answered
    obtain ⟨size,_⟩ := Layout.resize_size resized
    have le : min layout.size newSize ≤ newLayout.size := by omega
    have copied : (allocLogic P strict).wp (act (.copy ptr p (min layout.size newSize)))
        (fun _ v₂ => Frame v₁ v₂ H' M' ∧ Holds P strict v₂ H' M') v₁ :=
      wp_call holds.always (got.writable le) fun _ v₂ wrote =>
        ⟨(got.overwritten holds le wrote).2.always,got.overwritten holds le wrote⟩
    refine Scribe.wp_seq copied (wp_copy_supply due) fun _ v₂ s₂ _ post owing₂ => ?_
    obtain ⟨frame₂,holds₂⟩ := post
    have sub := got.grown
    have whole := frame.trans (frame₂.mono sub.1 sub.2)
    have ready₂ := ready.next whole holds₂
      ((got.carry frame₂).carried (whole.carried ready.carried))
    have operand₂ : Operand v₂ inst ptr layout a :=
      ⟨whole.pin.trans operand.pin,operand.ptr,operand.layout,operand.inst⟩
    have taken : (allocLogic P strict).wp (act .release) (fun _ v₃ => ∃ H₁ M₁,
        Ready P strict v₃ inst H₁ M₁ ∧ Returned strict v₃ inst ptr layout H₁ M₁ H' M') v₂ :=
      wp_release (k := .ret) ready₂ operand₂ fun v₃ H₁ M₁ _ _ ready₃ returned =>
        ⟨ready₃.holds.always,H₁,M₁,ready₃,returned⟩
    refine Scribe.wp_seq taken (wp_release_supply owing₂.eq) fun _ v₃ s₃ _ post owing₃ => ?_
    obtain ⟨H₁,M₁,ready₃,returned⟩ := post
    refine Scribe.wp_seq (wp_dealloc ready₃ returned) (wp_dealloc_supply inst ptr layout)
      fun _ v₄ s₄ always _ owing₄ => ?_
    rw [owing₃.eq] at owing₄
    exact ⟨⟨always,s₄,rfl⟩,owing₄⟩

theorem wp_realloc_supply {ptr newSize : Nat} {a : Alloc} (ready : Ready P strict v inst ∅ M)
    (operand : Operand v inst ptr layout a) {s : Supply} (none_ : s.owing = false) :
    (supplyLogic cls P strict).wp (realloc P inst ptr layout newSize) (fun _ => Owing false)
      (v,some s) := by
  have moved : ∀ {v' : View} {s' : Supply}, Ready P strict v' inst ∅ M →
      Operand v' inst ptr layout a → s'.owing = false →
      (supplyLogic cls P strict).wp (reallocMove P inst ptr layout newSize) (fun _ => Owing false)
        (v',some s') := by
    intro v' s' ready' operand' none'
    cases resized : layout.resize newSize with
    | none =>
      unfold reallocMove
      rw [resized]
      exact ⟨⟨ready'.holds.always,s',rfl⟩,s'.dry,by rw [← none']⟩
    | some newLayout => exact wp_reallocMove_supply ready' operand' resized none'
  unfold realloc
  simp only
  split
  · have named : (allocLogic P strict).wp (act (.heap inst)) (fun _ v' =>
        Ready P strict v' inst ∅ M ∧ Operand v' inst ptr layout a) v :=
      wp_heap (k := .ret) ready fun r v' _ ready' frame _ => ⟨ready'.holds.always,ready',
        ⟨frame.pin.trans operand.pin,operand.ptr,operand.layout,operand.inst⟩⟩
    refine Scribe.wp_seq named (wp_tame (.call rfl)) fun r v₁ s₁ always post owing => ?_
    rw [none_] at owing
    split
    · exact ⟨⟨always,s₁,rfl⟩,owing⟩
    · exact moved post.1 post.2 owing.eq
  · exact moved ready operand none_

/-- Handing over a block that is due, or anything when none is. -/
theorem wp_answer_supply {x : Option Nat} {s : Supply} (due : Due cls x (v,some s))
    (pin : s.owing = true → v.pin = none) :
    (supplyTrail cls P strict).wp (answer layout x) (fun _ => Owing false) (v,some s) := by
  cases x with
  | none => exact ⟨⟨trivial,s,rfl⟩,s.dry,by rw [← due.settled]⟩
  | some p =>
    refine ⟨⟨trivial,s,rfl⟩,trivial,fun _ w st => ?_⟩
    obtain ⟨v₁,o⟩ := w
    have settled : Owing false (v₁,o) := by
      refine ⟨s.dry,st.2.trans ?_⟩
      by_cases given : v.pin = none ∧ v.Holding cls p
      · simp [supplyScribe,given,Supply.monitor,Supply.after]
      · have none_ : s.owing = false :=
          Bool.eq_false_iff.mpr fun owing => given ⟨pin owing,due.holding owing⟩
        simp [supplyScribe,given,Supply.monitor,Supply.after,← none_]
    obtain ⟨dry,rfl⟩ := settled
    exact ⟨⟨trivial,_,rfl⟩,dry,rfl⟩

theorem wp_answer_finish_supply {x : Option Nat} {s : Supply}
    (settled : Settled P strict v inst layout ∅ ∅ x) (due : Due cls x (v,some s))
    (pin : s.owing = true → v.pin = none) :
    (supplyLogic cls P strict).wp ((answer layout x).bind fun _ => act .finish)
      (AtRest fun _ s => s.owing = false) (v,some s) := by
  refine Scribe.wp_seq (wp_answer settled) (wp_answer_supply due pin)
    fun _ v₁ s₁ _ ready owing => ?_
  refine Scribe.wp_last ready.finish (wp_tame (.call rfl)) fun _ v₂ s₂ _ _ owing₂ => ?_
  exact ⟨s₂,rfl,owing₂.eq.trans owing.eq⟩

/-- Whatever is asked of a thread, a bag is carved only when nothing of its class is left to
it, and for a block that it then hands over. -/
theorem supply_sustains (cls : Nat) (P : Platform) (strict : Bool) :
    (supplyScribe cls).Sustains Supply.monitor P strict fun _ s => s.owing = false := by
  intro v v' request s idle none_ started
  refine ⟨s,rfl,?_⟩
  have rest : ∀ {v₁ : View} {s₁ : Supply}, (allocLogic P strict).wp (act .finish)
      (fun _ => Idle P strict) v₁ → s₁.owing = false →
      (supplyLogic cls P strict).wp (act .finish) (AtRest fun _ s => s.owing = false)
        (v₁,some s₁) := fun finish none₁ =>
    Scribe.wp_last finish (wp_tame (.call rfl)) fun _ v₂ s₂ _ _ owing =>
      ⟨s₂,rfl,owing.eq.trans none₁⟩
  cases request with
  | alloc inst layout =>
    obtain ⟨known,same⟩ := started
    have ready : Ready P strict v' inst ∅ ∅ := idle.ready v.pin same
    have pin : v'.pin = none := by rw [same]; exact idle.pin
    have steps : (Request.alloc inst layout).code P = (Numalloc.alloc P inst layout).bind fun x =>
        (answer layout x).bind fun _ => act .finish := Prog.bind_assoc _ _ _
    rw [steps]
    refine Scribe.wp_both (wp_alloc ready) (wp_alloc_supply ready none_) fun x v₁ s₁ _ post due => ?_
    refine wp_answer_finish_supply (post.settled ready pin) due fun owing => ?_
    cases x with
    | none => exact nomatch due.settled.symm.trans owing
    | some p => exact post.1.pin.trans pin
  | allocZeroed inst layout =>
    obtain ⟨known,same⟩ := started
    have ready : Ready P strict v' inst ∅ ∅ := idle.ready v.pin same
    have pin : v'.pin = none := by rw [same]; exact idle.pin
    have steps : (Request.allocZeroed inst layout).code P =
        (Numalloc.allocZeroed P inst layout).bind fun x =>
          (answer layout x).bind fun _ => act .finish := Prog.bind_assoc _ _ _
    rw [steps]
    refine Scribe.wp_both (wp_allocZeroed ready) (wp_allocZeroed_supply ready none_)
      fun x v₁ s₁ _ post due => ?_
    refine wp_answer_finish_supply (post.settled ready pin) due fun owing => ?_
    cases x with
    | none => exact nomatch due.settled.symm.trans owing
    | some p => exact post.1.pin.trans pin
  | dealloc inst ptr layout =>
    obtain ⟨known,a,ptr',layout',inst',same⟩ := started
    have ready : Ready P strict v' inst ∅ ∅ := idle.ready _ same
    have operand : Operand v' inst ptr layout a := ⟨by rw [same],ptr',layout',inst'⟩
    have steps : (Request.dealloc inst ptr layout).code P = (act .release).bind fun _ =>
        (Numalloc.dealloc inst ptr layout).bind fun _ => act .finish := rfl
    rw [steps]
    have taken : (allocLogic P strict).wp (act .release) (fun _ v₁ => ∃ H₁ M₁,
        Ready P strict v₁ inst H₁ M₁ ∧ Returned strict v₁ inst ptr layout H₁ M₁ ∅ ∅) v' :=
      wp_release (k := .ret) ready operand fun v₁ H₁ M₁ _ _ ready₁ returned =>
        ⟨ready₁.holds.always,H₁,M₁,ready₁,returned⟩
    refine Scribe.wp_seq taken (wp_release_supply none_) fun _ v₁ s₁ _ post owing => ?_
    obtain ⟨H₁,M₁,ready₁,returned⟩ := post
    refine Scribe.wp_seq (wp_dealloc ready₁ returned) (wp_dealloc_supply inst ptr layout)
      fun _ v₂ s₂ _ post owing₂ => ?_
    exact rest (wp_finish post.2 (post.1.hand.trans ready₁.hand) (post.1.dying.trans ready₁.dying))
      (owing₂.eq.trans owing.eq)
  | realloc inst ptr layout newSize =>
    obtain ⟨known,a,ptr',layout',inst',same⟩ := started
    have ready : Ready P strict v' inst ∅ ∅ := idle.ready _ same
    have operand : Operand v' inst ptr layout a := ⟨by rw [same],ptr',layout',inst'⟩
    rw [realloc_code]
    refine Scribe.wp_both (wp_realloc ready operand) (wp_realloc_supply ready operand none_)
      fun x v₁ s₁ _ post owing => ?_
    cases resized : layout.resize newSize with
    | none =>
      rw [resized] at post
      exact rest post.finish owing.eq
    | some newLayout =>
      rw [resized] at post
      exact wp_answer_finish_supply post owing.due fun owed => nomatch owing.eq.symm.trans owed
  | exit =>
    obtain rfl : v' = v := started
    have trail : (supplyTrail cls P strict).wp exitThread (fun _ => Owing false) (v',some s) := by
      rw [exitThread_eq]
      refine ⟨⟨trivial,s,rfl⟩,trivial,fun old w st => ?_⟩
      obtain ⟨v₁,o⟩ := w
      obtain rfl : o = some ⟨false,s.owing⟩ := st.2
      rw [none_]
      refine wp_tame (s := ⟨false,false⟩) ?_
      cases old with
      | alive th => exact (dropThreadHeap_sheds th).mono Sheds.tame
      | _ => trivial
    refine Scribe.wp_seq (wp_exitThread idle) trail fun _ v₁ s₁ _ post owing => ?_
    exact rest (wp_finish post.1 post.2.1 post.2.2) owing.eq
  | drop inst =>
    have holds : Holds P strict v' ∅ ∅ ∧ v'.dying = none := by
      rcases started with rfl | ⟨h,_,rfl⟩
      · exact ⟨idle.holds,idle.dying⟩
      · exact ⟨idle.holds.uncall (some h) v.call v.pin,idle.dying⟩
    refine Scribe.wp_seq (wp_dropInstance holds.1 holds.2) (wp_tame (dropInstance_aside.mono Aside.tame))
      fun _ v₁ s₁ _ post owing => ?_
    exact rest (wp_finish post.1 post.2.1 post.2.2) (owing.eq.trans none_)

end Numalloc
