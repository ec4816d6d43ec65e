import Numalloc.Spec.Operations
import Numalloc.Sound.Start

/-! Whole requests, from what the caller passes in to the thread at rest again. -/
namespace Numalloc

open Concurrent View Logic

variable {P : Platform} {strict : Bool} {v v' : View} {H H' M M' : Set Nat} {inst : Nat}
  {layout : Layout} {α : Type}

/-- A thread between operations owns its cache and nothing else. -/
structure Idle (P : Platform) (strict : Bool) (v : View) : Prop where
  holds : Holds P strict v ∅ ∅
  hand : v.hand = none
  dying : v.dying = none
  pin : v.pin = none
  call : v.call = ⟨none,none⟩

/-- Without blocks in hand the operation's heap keeps none of the thread's blocks alive. -/
theorem Holds.uncall (holds : Holds P strict v ∅ M) (hand : Option HeapHandle) (call : Call)
    (pin : Option Alloc) :
    Holds P strict { v with hand := hand, call := call, pin := pin } ∅ M := by
  rcases holds with ⟨th,L,S,C,alive,stock⟩ | bare
  · refine Or.inl ⟨th,L,S,C,alive,stock.retake ⟨stock.sane.user,stock.sane.cls,fun b B block => ?_,
      stock.sane.maps⟩ (fun _ => rfl) rfl stock.loose⟩
    refine Or.inr (Or.inl ⟨th,alive,?_⟩)
    have cached : ∃ c, b ∈ L c ++ S c := by
      by_contra none_
      exact (stock.loose.mpr ⟨⟨B,block⟩,not_exists.mp none_⟩).elim
    obtain ⟨c,mem⟩ := cached
    obtain ⟨B',block',ref⟩ := block_of_ref (stock.cached.ref mem)
    obtain rfl := Option.some.inj (block'.symm.trans block)
    rw [ref]
  · refine Or.inr ⟨bare.slot,⟨bare.sane.user,bare.sane.cls,fun b B block => ?_,bare.sane.maps⟩,
      bare.loose,bare.looseMap,bare.uses⟩
    exact (bare.loose.mpr ⟨B,block⟩).elim

theorem Idle.ready (idle : Idle P strict v) {known : Option HeapRef} (pin : Option Alloc)
    (same : v' = { v with call := ⟨some inst,known⟩, pin := pin }) :
    Ready P strict v' inst ∅ ∅ := by
  subst same
  exact ⟨idle.holds.uncall v.hand _ pin,rfl,idle.hand,idle.dying,fun b mem => mem.elim,
    fun id mem => mem.elim⟩

/-- The mark at the end of an operation. -/
theorem wp_finish (holds : Holds P strict v ∅ ∅) (hand : v.hand = none) (dying : v.dying = none) :
    (allocLogic P strict).wp (act .finish) (fun _ => Idle P strict) v := by
  refine wp_call holds.always ⟨hand,dying⟩ fun _ v' st => ?_
  obtain rfl : v' = _ := st
  have rest := holds.uncall v.hand ⟨none,none⟩ none
  exact ⟨rest.always,rest,hand,dying,rfl,rfl⟩

theorem Obtained.gives {p : Nat} (got : Obtained P strict v layout p H M H' M') :
    v.GivesBlock p layout ∨ v.GivesMap P strict p layout := by
  cases got with
  | @block th r c fresh present ref cls =>
    obtain ⟨B,block,ref'⟩ := block_of_ref ref
    exact Or.inl ⟨B,th,r,block,present,by rw [ref'],by rw [ref'],by rw [ref']; exact cls⟩
  | @mapping id m inst fresh found payload called use placed fixed =>
    refine Or.inr ⟨id,m,inst,found,payload,called,use,placed,fun h th alive => ?_⟩
    rcases fixed with ⟨th',r,present,node⟩ | gone
    · obtain rfl := ThreadHeapSlot.alive.inj (alive.symm.trans present.1)
      exact node h
    · rw [gone] at alive
      contradiction

/-- Handing over an allocation leaves the operation with what it had before. -/
theorem wp_answer {x : Option Nat} (settled : Settled P strict v inst layout H M x) :
    (allocLogic P strict).wp (answer layout x) (fun _ v' => Ready P strict v' inst H M) v := by
  cases x with
  | none => exact ⟨settled.holds.always,settled⟩
  | some p =>
    rcases settled with ⟨keeps,ready⟩ | ⟨pin,H',M',ready,got⟩
    · refine wp_call ready.holds.always (Or.inl keeps) fun _ v' st => ?_
      obtain rfl := st.1 keeps
      have holds := ready.holds.recall v.call none fun _ h => h
      exact ⟨holds.always,holds,ready.inst,ready.hand,ready.dying,ready.carried.blocks,
        ready.carried.maps⟩
    · have gives := got.gives
      refine wp_call ready.holds.always ?_ fun _ v' st => ?_
      · rcases gives with block | map
        · exact Or.inr (Or.inl ⟨pin,block⟩)
        · exact Or.inr (Or.inr ⟨pin,map⟩)
      · cases got with
        | @block th r c fresh present ref cls =>
          obtain ⟨B,block,_⟩ := block_of_ref ref
          obtain rfl := st.2.1 pin B block
          have left := ready.holds.without [p] (by simp)
          rw [single,Set.insert_sdiff_self_of_notMem fresh] at left
          have frame : Frame v (v.without [p]) H M := .without (by simpa using fresh)
          have carried : Carried v H M :=
            ⟨fun b mem => ready.carried.blocks b (Set.mem_insert_of_mem p mem),ready.carried.maps⟩
          exact ⟨left.always,ready.next frame left (frame.carried carried)⟩
        | @mapping id m inst' fresh found payload called use placed fixed =>
          obtain rfl := st.2.2 pin id m found payload
          have left := ready.holds.dropMap (Set.mem_insert id M)
          rw [Set.insert_sdiff_self_of_notMem fresh] at left
          have frame : Frame v (v.setMap id none) H M := .setMap fresh none
          have carried : Carried v H M :=
            ⟨ready.carried.blocks,fun id' mem => ready.carried.maps id' (Set.mem_insert_of_mem id mem)⟩
          exact ⟨left.always,ready.next frame left (frame.carried carried)⟩

theorem Ready.finish (ready : Ready P strict v inst ∅ ∅) :
    (allocLogic P strict).wp (act .finish) (fun _ => Idle P strict) v :=
  wp_finish ready.holds ready.hand ready.dying

theorem exitThread_eq : exitThread = (act (.slotTake true)).bind fun old => match old with
    | .alive th => dropThreadHeap th
    | _ => .ret () := by
  unfold exitThread
  refine congrArg (Prog.act (I := allocI) _) ?_
  funext old
  cases old <;> rfl

/-- A thread exit: the slot is marked destroyed before its contents are dropped. -/
theorem wp_exitThread (idle : Idle P strict v) :
    (allocLogic P strict).wp exitThread (fun _ v' => Holds P strict v' ∅ ∅ ∧ v'.hand = none ∧
      v'.dying = none) v := by
  rw [exitThread_eq]
  refine wp_act idle.holds.always idle.hand fun old v' st => ?_
  obtain ⟨rfl,rfl⟩ := st
  have nothing : (∀ th, v.slot ≠ .alive th) →
      Holds P strict { v with slot := .destroyed, hand := none } ∅ ∅ := by
    intro none_
    rcases idle.holds with ⟨th,_,_,_,alive,_⟩ | bare
    · exact absurd alive (none_ th)
    · refine Or.inr ⟨by simp,⟨bare.sane.user,bare.sane.cls,fun b B block => ?_,bare.sane.maps⟩,
        bare.loose,bare.looseMap,bare.uses⟩
      exact (bare.loose.mpr ⟨B,block⟩).elim
  cases slot : v.slot with
  | empty =>
    have rest := nothing (by simp [slot])
    exact ⟨rest.always,rest,rfl,idle.dying⟩
  | destroyed =>
    have rest := nothing (by simp [slot])
    exact ⟨rest.always,rest,rfl,idle.dying⟩
  | alive th =>
    rcases idle.holds with ⟨th',L,S,C,alive,stock⟩ | bare
    · obtain rfl := ThreadHeapSlot.alive.inj (slot.symm.trans alive)
      have rooted : ({ v with slot := .destroyed, hand := some th.globalHeap } : View).Rooted := by
        intro b B block
        rcases stock.sane.rooted b B block with call | ⟨th₀,alive₀,addr⟩ | ⟨h,held,_⟩
        · exact Or.inl call
        · obtain rfl := ThreadHeapSlot.alive.inj (slot.symm.trans alive₀)
          exact Or.inr (Or.inr ⟨_,rfl,addr⟩)
        · rw [idle.hand] at held
          contradiction
      have taken : Taken P strict { v with slot := .destroyed, hand := some th.globalHeap } th L S C
          ∅ ∅ := ⟨stock.reslot rooted,by simp⟩
      refine wp_mono (wp_dropThreadHeap taken rfl idle.dying fun b mem => mem.elim)
        fun _ v' _ post => ?_
      obtain ⟨bare,same,_⟩ := post
      exact ⟨Or.inr bare,by rw [same],by rw [same]; exact idle.dying⟩
    · exact absurd slot (bare.slot th)

theorem dropInstance_eq : dropInstance = (act .takeHeap).bind fun h => match h with
    | some h => dropHandle h
    | none => .ret () := by
  unfold dropInstance
  refine congrArg (Prog.act (I := allocI) _) ?_
  funext h
  cases h <;> rfl

/-- Dropping an allocator gives up the handle it was initialised with. -/
theorem wp_dropInstance (holds : Holds P strict v ∅ ∅) (dying : v.dying = none) :
    (allocLogic P strict).wp dropInstance (fun _ v' => Holds P strict v' ∅ ∅ ∧ v'.hand = none ∧
      v'.dying = none) v := by
  rw [dropInstance_eq]
  refine wp_act holds.always trivial fun h v' st => ?_
  obtain ⟨rfl,rfl⟩ := st
  cases hand : v'.hand with
  | none => exact ⟨holds.always,holds,hand,dying⟩
  | some h =>
    have bare := (holds.uncall none v'.call v'.pin).always.1.rooted
    have large : ∀ {id m}, v'.maps id = some m → ∃ i, m.use = .large i := by
      intro id m found
      rcases holds with ⟨_,_,_,_,_,stock⟩ | none_
      · exact stock.large found
      · exact none_.uses found
    refine wp_mono (wp_dropHandle holds.always hand dying large fun b B block same => ?_)
      fun _ v'' _ post => ?_
    · rw [← same]
      exact bare b B block
    · subst post
      exact ⟨holds.uncall none v'.call v'.pin,rfl,dying⟩

/-- What is left to do once an allocation has its answer. -/
theorem wp_answer_finish {x : Option Nat} (settled : Settled P strict v inst layout ∅ ∅ x) :
    (allocLogic P strict).wp ((answer layout x).bind fun _ => act .finish)
      (fun _ => Idle P strict) v :=
  wp_seq (wp_answer settled) fun _ _ _ ready => ready.finish

theorem realloc_code (inst ptr : Nat) (layout : Layout) (newSize : Nat) :
    (Request.realloc inst ptr layout newSize).code P =
      (Numalloc.realloc P inst ptr layout newSize).bind fun x =>
        (match layout.resize newSize with
          | some newLayout => answer newLayout x
          | none => .ret ()).bind fun _ => act .finish := Prog.bind_assoc _ _ _

/-- Every request takes the thread from rest to rest. -/
theorem wp_request (idle : Idle P strict v) {request : Request} (started : Started v v' request) :
    (allocLogic P strict).wp (request.code P) (fun _ => Idle P strict) v' := by
  cases request with
  | alloc inst layout =>
    obtain ⟨known,same⟩ := started
    have ready : Ready P strict v' inst ∅ ∅ := idle.ready v.pin same
    have pin : v'.pin = none := by rw [same]; exact idle.pin
    have steps : (Request.alloc inst layout).code P = (Numalloc.alloc P inst layout).bind fun x =>
        (answer layout x).bind fun _ => act .finish := Prog.bind_assoc _ _ _
    rw [steps]
    exact wp_seq (wp_alloc ready) fun x v'' _ post => wp_answer_finish (post.settled ready pin)
  | allocZeroed inst layout =>
    obtain ⟨known,same⟩ := started
    have ready : Ready P strict v' inst ∅ ∅ := idle.ready v.pin same
    have pin : v'.pin = none := by rw [same]; exact idle.pin
    have steps : (Request.allocZeroed inst layout).code P =
        (Numalloc.allocZeroed P inst layout).bind fun x =>
          (answer layout x).bind fun _ => act .finish := Prog.bind_assoc _ _ _
    rw [steps]
    exact wp_seq (wp_allocZeroed ready) fun x v'' _ post => wp_answer_finish (post.settled ready pin)
  | dealloc inst ptr layout =>
    obtain ⟨known,a,ptr',layout',inst',same⟩ := started
    have ready : Ready P strict v' inst ∅ ∅ := idle.ready _ same
    have operand : Operand v' inst ptr layout a := ⟨by rw [same],ptr',layout',inst'⟩
    have steps : (Request.dealloc inst ptr layout).code P = (act .release).bind fun _ =>
        (Numalloc.dealloc inst ptr layout).bind fun _ => act .finish := rfl
    rw [steps]
    refine wp_release ready operand fun v₁ H₁ M₁ pin frame ready₁ returned => ?_
    refine wp_seq (wp_dealloc ready₁ returned) fun _ v₂ _ post => ?_
    exact wp_finish post.2 (post.1.hand.trans ready₁.hand) (post.1.dying.trans ready₁.dying)
  | realloc inst ptr layout newSize =>
    obtain ⟨known,a,ptr',layout',inst',same⟩ := started
    have ready : Ready P strict v' inst ∅ ∅ := idle.ready _ same
    have operand : Operand v' inst ptr layout a := ⟨by rw [same],ptr',layout',inst'⟩
    rw [realloc_code]
    refine wp_seq (wp_realloc ready operand) fun x v'' always post => ?_
    cases resized : layout.resize newSize with
    | none =>
      rw [resized] at post
      exact post.finish
    | some newLayout =>
      rw [resized] at post
      exact wp_answer_finish post
  | exit =>
    obtain rfl : v' = v := started
    exact wp_seq (wp_exitThread idle) fun _ _ _ post => wp_finish post.1 post.2.1 post.2.2
  | drop inst =>
    have holds : Holds P strict v' ∅ ∅ ∧ v'.dying = none := by
      rcases started with rfl | ⟨h,_,rfl⟩
      · exact ⟨idle.holds,idle.dying⟩
      · exact ⟨idle.holds.uncall (some h) v.call v.pin,idle.dying⟩
    exact wp_seq (wp_dropInstance holds.1 holds.2) fun _ _ _ post =>
      wp_finish post.1 post.2.1 post.2.2

end Numalloc
