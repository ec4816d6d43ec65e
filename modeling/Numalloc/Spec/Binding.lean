import Numalloc.Spec.Teardown

/-! Binding a thread's cache to the allocator it is asked to work for. -/
namespace Numalloc

open Concurrent View Logic

variable {P : Platform} {strict : Bool} {v v' : View} {th : PerThreadHeap} {r : HeapRef}
  {L S : Nat → List Nat} {C : List Nat} {H H' M M' : Set Nat} {inst : Nat} {α : Type}

/-- What a thread owns, with or without a cache. -/
def Holds (P : Platform) (strict : Bool) (v : View) (H M : Set Nat) : Prop :=
  (∃ th L S C, v.slot = .alive th ∧ Stock P strict v th L S C H M) ∨ Bare P v H M

theorem Holds.always (holds : Holds P strict v H M) : (allocLogic P strict).always v := by
  rcases holds with ⟨th,L,S,C,slot,stock⟩ | bare
  · exact stock.always fun th' alive => ThreadHeapSlot.alive.inj (alive.symm.trans slot)
  · exact ⟨bare.sane,fun th alive => absurd alive (bare.slot th)⟩

theorem Own.holds (own : Own P strict v th r L S C H M) : Holds P strict v H M :=
  Or.inl ⟨th,L,S,C,own.present.1,own.stock⟩

/-- A view in which only the call or the operand differ. -/
theorem Holds.recall (holds : Holds P strict v H M) (call : Call) (pin : Option Alloc)
    (kept : ∀ r, v.call.heap = some r → call.heap = some r) :
    Holds P strict { v with call := call, pin := pin } H M := by
  have sane : v.Sane P → ({ v with call := call, pin := pin } : View).Sane P := by
    refine fun sane => ⟨sane.user,sane.cls,fun b B block => ?_,sane.maps⟩
    rcases sane.rooted b B block with ⟨r,heap,addr⟩ | slot | hand
    · exact Or.inl ⟨r,kept r heap,addr⟩
    · exact Or.inr (Or.inl slot)
    · exact Or.inr (Or.inr hand)
  rcases holds with ⟨th,L,S,C,slot,stock⟩ | bare
  · exact Or.inl ⟨th,L,S,C,slot,stock.retake (sane stock.sane) (fun _ => rfl) rfl stock.loose⟩
  · exact Or.inr ⟨bare.slot,sane bare.sane,bare.loose,bare.looseMap,bare.uses⟩

/-- The blocks in hand belong to the heap the operation runs on, the mappings to its
allocator. -/
structure Carried (v : View) (H M : Set Nat) : Prop where
  blocks : ∀ b ∈ H, ∀ k, v.ref b = some k → ∃ r, v.call.heap = some r ∧ r.handle.addr = k.heap
  maps : ∀ id ∈ M, ∀ m, v.maps id = some m → ∀ i, v.call.inst = some i → m.use = .large i

/-- An operation on `inst` in progress, between two of its parts. -/
structure Ready (P : Platform) (strict : Bool) (v : View) (inst : Nat) (H M : Set Nat) :
    Prop where
  holds : Holds P strict v H M
  inst : v.call.inst = some inst
  hand : v.hand = none
  dying : v.dying = none
  carried : Carried v H M

theorem Frame.carried (frame : Frame v v' H M) (carried : Carried v H M) : Carried v' H M := by
  refine ⟨fun b mem k ref => ?_,fun id mem m found i called => ?_⟩
  · obtain ⟨r,heap,addr⟩ := carried.blocks b mem k ((frame.ref b mem).symm.trans ref)
    exact ⟨r,frame.call heap,addr⟩
  · exact carried.maps id mem m ((frame.maps id mem).symm.trans found) i
      (frame.inst.symm.trans called)

theorem Ready.next {F G : Set Nat} (ready : Ready P strict v inst H M) (frame : Frame v v' F G)
    (holds : Holds P strict v' H' M') (carried : Carried v' H' M') :
    Ready P strict v' inst H' M' :=
  ⟨holds,frame.inst.trans ready.inst,frame.hand.trans ready.hand,
    frame.dying.trans ready.dying,carried⟩

/-- What is known once the operation has named its heap. -/
structure Known (v : View) (inst : Nat) (r : HeapRef) : Prop where
  call : v.call.heap = some r
  valid : r.geom.Valid
  inst : r.handle.inst = inst
  same : ∀ th, v.slot = .alive th → th.globalHeap.addr = r.handle.addr → th.globalHeap = r.handle
  outside : ∀ id m i p, v.maps id = some m → m.use = .large i → m.base ≤ p →
    p < m.base + m.size → r.geom.nodeForPtr p = none
  pin : ∀ a, v.pin = some a → a.source ≠ .slot → r.geom.nodeForPtr a.ptr = none

theorem wp_heap {k : HeapRef → Prog allocI α} {Q : α → View → Prop}
    (ready : Ready P strict v inst H M)
    (next : ∀ r v', Known v' inst r → Ready P strict v' inst H M → Frame v v' H M →
      v' = { v with call := ⟨some inst,some r⟩ } → (allocLogic P strict).wp (k r) Q v') :
    (allocLogic P strict).wp ((act (.heap inst)).bind k) Q v := by
  refine wp_act ready.holds.always ready.inst fun r v' st => ?_
  obtain ⟨rfl,old,valid,inst',same,outside,pin⟩ := st
  have kept : ∀ r₀, v.call.heap = some r₀ → (some r : Option HeapRef) = some r₀ := fun r₀ heap => by
    rw [old r₀ heap]
  have frame : Frame v { v with call := ⟨some inst,some r⟩ } H M := by
    refine ⟨ready.inst.symm,fun {r₀} heap => kept r₀ heap,rfl,rfl,rfl,fun _ _ => rfl,
      fun _ _ => rfl,fun {th r₀} present => ?_,fun gone => gone⟩
    exact ⟨th,⟨present.1,kept r₀ present.2.1,present.2.2⟩,rfl⟩
  refine next r _ ⟨rfl,valid,inst',same,outside,pin⟩ ?_ frame rfl
  exact ready.next frame (ready.holds.recall _ v.pin kept) (frame.carried ready.carried)

/-- A thread without a cache, seen as one with an empty cache. -/
theorem Bare.stock (bare : Bare P v H M) (node : Nat) (h : HeapHandle) :
    Stock P strict v (.new node h) (fun _ => []) (fun _ => []) [] H M := by
  refine ⟨⟨fun _ => rfl,fun _ => rfl,fun _ => .nil,fun h => by simp at h,.nil,.nil,
      LargeCache.empty_ok⟩,
    fun _ => ⟨rfl,rfl⟩,bare.sane,fun {b} => ?_,fun {id} => ?_,fun _ found => bare.uses found⟩
  · rw [bare.loose]
    simp
  · rw [bare.looseMap]
    simp

theorem initThreadHeap_eq (inst : Nat) (heap : HeapRef) : initThreadHeap inst heap =
    (act (.slotTake false)).bind fun old => (match old with
      | .alive th => dropThreadHeap th
      | _ => .ret ()).bind fun _ => (act (.fetchAddNode inst)).bind fun next =>
        (act (.fetchAddRefs heap.handle)).bind fun previous =>
          (if isizeMax ≤ previous then processAbort else .ret heap.handle).bind fun handle =>
            act (.slotSet (.new (next % heap.geom.numNodes) handle)) := by
  unfold initThreadHeap
  refine congrArg (Prog.act (I := allocI) _) ?_
  funext old
  cases old <;> rfl

/-- A new cache, from a thread that has none. -/
theorem wp_assign (bare : Bare P v H M) (heap : v.call.heap = some r) (valid : r.geom.Valid)
    (called : v.call.inst = some inst) (own : r.handle.inst = inst) (carried : Carried v H M)
    (hand : v.hand = none) :
    (allocLogic P strict).wp ((act (.fetchAddNode inst)).bind fun next =>
        (act (.fetchAddRefs r.handle)).bind fun previous =>
          (if isizeMax ≤ previous then processAbort else .ret r.handle).bind fun handle =>
            act (.slotSet (.new (next % r.geom.numNodes) handle)))
      (fun _ v' => ∃ node, v' = { v with slot := .alive (.new node r.handle) } ∧
        Own P strict v' (.new node r.handle) r (fun _ => []) (fun _ => []) [] H M) v := by
  have bareAlways : ∀ hand, v.hand = none → (allocLogic P strict).always { v with hand := hand } := by
    refine fun hand none_ => ⟨⟨bare.sane.user,bare.sane.cls,fun b B block => ?_,bare.sane.maps⟩,
      fun th alive => absurd alive (bare.slot th)⟩
    rcases bare.sane.rooted b B block with call | slot | ⟨h,held,_⟩
    · exact Or.inl call
    · exact Or.inr (Or.inl slot)
    · rw [none_] at held
      contradiction
  refine wp_act (bareAlways v.hand hand) called fun next v' st => ?_
  obtain rfl : v' = v := st
  refine wp_act (bareAlways v'.hand hand) ⟨hand,r,heap,rfl⟩ fun previous v'' st => ?_
  obtain rfl : v'' = _ := st
  have always := bareAlways (some r.handle) hand
  split
  · exact ⟨always,trivial,fun e => nomatch e⟩
  · have blocks : ∀ b B, v'.blocks b = some B → B.ref.heap = r.handle.addr := by
      intro b B block
      obtain ⟨r',heap',addr⟩ := carried.blocks b (bare.loose.mpr ⟨B,block⟩) B.ref
        (by simp only [View.ref,block,Option.map_some])
      obtain rfl := Option.some.inj (heap.symm.trans heap')
      exact addr.symm
    have maps : ∀ id m, v'.maps id = some m → m.use = .large r.handle.inst := by
      intro id m found
      rw [own]
      exact carried.maps id (bare.looseMap.mpr ⟨m,found⟩) m found inst called
    refine wp_call always ⟨r,heap,rfl,rfl,Nat.mod_lt _ valid.some_node,bare.slot,blocks,maps⟩
      fun _ v'' st => ?_
    obtain rfl : v'' = _ := st
    have rooted : ({ v' with
        slot := .alive (.new (next % r.geom.numNodes) r.handle), hand := none } : View).Rooted := by
      intro b B block
      rcases bare.sane.rooted b B block with call | ⟨th,alive,_⟩ | ⟨h,held,_⟩
      · exact Or.inl call
      · exact absurd alive (bare.slot th)
      · rw [hand] at held
        contradiction
    have own : Own P strict { v' with
        slot := .alive (.new (next % r.geom.numNodes) r.handle), hand := none }
        (.new (next % r.geom.numNodes) r.handle) r (fun _ => []) (fun _ => []) [] H M :=
      ⟨⟨rfl,heap,rfl⟩,(bare.stock _ r.handle).reslot rooted⟩
    exact ⟨own.always,_,by rw [← hand],own⟩

/-- A cache taken out of the slot to make room for another one is dissolved. -/
theorem wp_displaced (ready : Ready P strict v inst H M) (usable : v.slot ≠ .destroyed) :
    (allocLogic P strict).wp (match v.slot with
      | .alive th => dropThreadHeap th
      | _ => .ret ()) (fun _ v' => Bare P v' H M ∧
        v' = { v with slot := .empty, blocks := v'.blocks, maps := v'.maps } ∧
        (∀ b ∈ H, v'.blocks b = v.blocks b) ∧ ∀ id ∈ M, v'.maps id = v.maps id)
      { v with
        slot := .empty
        hand := match v.slot with
          | .alive th => some th.globalHeap
          | _ => none } := by
  cases slot : v.slot with
  | destroyed => exact absurd slot usable
  | empty =>
    have same : ({ v with slot := .empty, hand := none } : View) = v := by
      rw [← slot,← ready.hand]
    simp only [same]
    rcases ready.holds with ⟨th,_,_,_,alive,_⟩ | bare
    · rw [slot] at alive
      contradiction
    · refine ⟨ready.holds.always,bare,?_,fun _ _ => rfl,fun _ _ => rfl⟩
      rw [← slot]
  | alive th =>
    rcases ready.holds with ⟨th',L,S,C,alive,stock⟩ | bare
    · obtain rfl := ThreadHeapSlot.alive.inj (slot.symm.trans alive)
      have rooted : ({ v with slot := .empty, hand := some th.globalHeap } : View).Rooted := by
        intro b B block
        rcases stock.sane.rooted b B block with call | ⟨th₀,alive₀,addr⟩ | ⟨h,held,_⟩
        · exact Or.inl call
        · obtain rfl := ThreadHeapSlot.alive.inj (slot.symm.trans alive₀)
          exact Or.inr (Or.inr ⟨_,rfl,addr⟩)
        · rw [ready.hand] at held
          contradiction
      have taken : Taken P strict { v with slot := .empty, hand := some th.globalHeap } th L S C H M :=
        ⟨stock.reslot rooted,by simp⟩
      refine wp_mono (wp_dropThreadHeap taken rfl ready.dying fun b mem B block => ?_)
        fun _ v' _ post => ?_
      · refine ready.carried.blocks b mem B.ref ?_
        simp only [View.ref,show v.blocks b = some B from block,Option.map_some]
      · obtain ⟨bare,same,blocks,maps⟩ := post
        exact ⟨bare,by rw [ready.hand]; exact same,blocks,maps⟩
    · exact absurd slot (bare.slot th)

/-- A cache for the operation's allocator, whatever the slot held; its former contents
are gone. -/
theorem wp_initThreadHeap (ready : Ready P strict v inst H M) (known : Known v inst r)
    (other : ∀ th, v.slot = .alive th → th.globalHeap.addr ≠ r.handle.addr)
    (usable : v.slot ≠ .destroyed) :
    (allocLogic P strict).wp (initThreadHeap inst r) (fun _ v' => Frame v v' H M ∧
      ∃ th L S C, Own P strict v' th r L S C H M) v := by
  rw [initThreadHeap_eq]
  refine wp_act ready.holds.always ready.hand fun old v₁ st => ?_
  obtain ⟨rfl,rfl⟩ := st
  refine wp_seq (wp_displaced ready usable) fun _ v₂ _ post => ?_
  obtain ⟨bare,same,blocks,maps⟩ := post
  have carried : Carried v₂ H M := by
    refine ⟨fun b mem k ref => ?_,fun id mem m found i called => ?_⟩
    · obtain ⟨r',heap',addr⟩ := ready.carried.blocks b mem k
        (by simpa only [View.ref,blocks b mem] using ref)
      exact ⟨r',by rw [same]; exact heap',addr⟩
    · exact ready.carried.maps id mem m ((maps id mem).symm.trans found) i
        (by rw [same] at called; exact called)
  have heap : v₂.call.heap = some r := by rw [same]; exact known.call
  have hand : v₂.hand = none := by rw [same]; exact ready.hand
  refine wp_mono (wp_assign bare heap known.valid (by rw [same]; exact ready.inst) known.inst carried hand)
    fun _ v₃ _ post => ?_
  obtain ⟨node,rfl,own⟩ := post
  refine ⟨?_,_,_,_,_,own⟩
  rw [same]
  refine ⟨rfl,fun h => h,rfl,rfl,rfl,fun b mem => ?_,maps,fun {th r₀} present => ?_,fun gone => ?_⟩
  · simp only [View.ref,blocks b mem]
  · have call := known.call.symm.trans present.2.1
    obtain rfl := Option.some.inj call
    exact absurd (congrArg HeapHandle.addr present.2.2) (other th present.1)
  · exact absurd gone usable

theorem threadHeap_eq (inst : Nat) : threadHeap inst = (act .slotGet).bind fun slot =>
    match slot with
    | .destroyed => .ret false
    | .empty => (act (.heap inst)).bind fun heap =>
        (initThreadHeap inst heap).bind fun _ => .ret true
    | .alive th => (act (.heap inst)).bind fun heap =>
        if th.globalHeap.addr = heap.handle.addr then .ret true
        else (initThreadHeap inst heap).bind fun _ => .ret true := by
  unfold threadHeap
  refine congrArg (Prog.act (I := allocI) _) ?_
  funext slot
  cases slot <;> rfl

/-- Either the thread has a cache for the allocator afterwards, or it is past having one. -/
theorem wp_threadHeap (ready : Ready P strict v inst H M) :
    (allocLogic P strict).wp (threadHeap inst) (fun ok v' => Frame v v' H M ∧
      if ok then ∃ th r L S C, Own P strict v' th r L S C H M ∧ r.handle.inst = inst ∧ r.geom.Valid
      else v' = v ∧ v.slot = .destroyed) v := by
  rw [threadHeap_eq]
  refine wp_act ready.holds.always trivial fun slot v₁ st => ?_
  obtain ⟨rfl,rfl⟩ := st
  cases slot : v₁.slot with
  | destroyed => exact ⟨ready.holds.always,.refl _ _ _,rfl,rfl⟩
  | empty =>
    refine wp_heap ready fun r v₂ known ready₂ frame same => ?_
    have slot₂ : v₂.slot = .empty := by rw [same]; exact slot
    refine wp_seq (wp_initThreadHeap ready₂ known (by simp [slot₂]) (by simp [slot₂]))
      fun _ v₃ always post => ?_
    obtain ⟨frame',th,L,S,C,own⟩ := post
    exact ⟨always,frame.trans frame',th,r,L,S,C,own,known.inst,known.valid⟩
  | alive th =>
    refine wp_heap ready fun r v₂ known ready₂ frame same => ?_
    have slot₂ : v₂.slot = .alive th := by rw [same]; exact slot
    by_cases mine : th.globalHeap.addr = r.handle.addr
    · rw [if_pos mine]
      rcases ready₂.holds with ⟨th',L,S,C,alive,stock⟩ | bare
      · obtain rfl := ThreadHeapSlot.alive.inj (slot₂.symm.trans alive)
        exact ⟨ready₂.holds.always,frame,th,r,L,S,C,⟨⟨slot₂,known.call,known.same th slot₂ mine⟩,stock⟩,
          known.inst,known.valid⟩
      · exact absurd slot₂ (bare.slot th)
    · rw [if_neg mine]
      have other : ∀ th', v₂.slot = .alive th' → th'.globalHeap.addr ≠ r.handle.addr := by
        intro th' alive
        obtain rfl := ThreadHeapSlot.alive.inj (slot₂.symm.trans alive)
        exact mine
      refine wp_seq (wp_initThreadHeap ready₂ known other (by simp [slot₂])) fun _ v₃ always post => ?_
      obtain ⟨frame',th',L,S,C,own⟩ := post
      exact ⟨always,frame.trans frame',th',r,L,S,C,own,known.inst,known.valid⟩

end Numalloc
