import Numalloc.Spec.Small
import Numalloc.Spec.Release

/-! The operations of the allocator, and the requests of its callers. -/
namespace Numalloc

open Concurrent View Logic

variable {P : Platform} {strict : Bool} {v v' : View} {th : PerThreadHeap} {r : HeapRef}
  {L S : Nat → List Nat} {C : List Nat} {H H' M M' : Set Nat} {inst c id : Nat} {m : Mapping}
  {layout : Layout} {α : Type}

/-! Allocation. -/

/-- A block that a list method yields is an answer. -/
theorem Left.answered {p : Nat} (left : Left P strict v v' th r L S C H (insert p H) M)
    (fresh : p ∉ H) (ref : v'.ref p = some ⟨r.handle.addr,th.nodeId,c⟩)
    (cls : sizeClassIndex layout.effective = some c) :
    Answered P strict v v' layout H M (some p) := by
  obtain ⟨th',own,node⟩ := left.own
  exact ⟨left.frame,_,_,own.holds,.block fresh own.present (node ▸ ref) cls⟩

/-- Naming the heap again changes nothing. -/
theorem wp_heap_again {k : HeapRef → Prog allocI α} {Q : α → View → Prop}
    (ready : Ready P strict v inst H M) (own : Own P strict v th r L S C H M)
    (next : (allocLogic P strict).wp (k r) Q v) :
    (allocLogic P strict).wp ((act (.heap inst)).bind k) Q v := by
  refine wp_heap ready fun r' v' known _ frame same => ?_
  have call : v.call = ⟨some inst,some r⟩ := by
    have inst' := ready.inst
    have heap := own.present.2.1
    cases h : v.call
    simp_all
  obtain rfl := Option.some.inj ((frame.call own.present.2.1).symm.trans known.call)
  rw [← call] at same
  obtain rfl : v' = v := same
  exact next

theorem allocLarge_eq (inst : Nat) (layout : Layout) : allocLarge P inst layout =
    (allocLargeTracked P inst layout).bind fun x => .ret x.1 := rfl

theorem wp_allocLarge (ready : Ready P strict v inst H M) :
    (allocLogic P strict).wp (allocLarge P inst layout)
      (fun x v' => Answered P strict v v' layout H M x) v := by
  rw [allocLarge_eq]
  exact wp_seq (wp_allocLargeTracked ready) fun _ _ always post => ⟨always,post⟩

theorem allocSmall_eq (inst : Nat) (layout : Layout) (c : Nat) : allocSmall P inst layout c =
    (act .thread).bind fun th => (freelistMut c ThreadFreelist.pop).bind fun x => match x with
      | some block => .ret (some block)
      | none => (act (.heap inst)).bind fun heap =>
          (takeChain c ⟨heap.handle.addr,th.nodeId,c⟩).bind fun x => match x with
            | some first => (refill c first).bind fun block => .ret (some block)
            | none => (onBump heap.handle.addr th.nodeId c
                ((heap.geom.nodeRegion th.nodeId).allocateBag (bagSizeForClass c))).bind
                fun bag => match bag with
                  | none => allocLarge P inst layout
                  | some bag =>
                    (carve c bag (sizeForClass c) 0 (bagSizeForClass c / sizeForClass c)).bind
                      fun _ => (popUnwrap c).bind fun block => .ret (some block) := by
  unfold allocSmall
  refine congrArg (Prog.act (I := allocI) _) ?_
  funext th
  refine congrArg (Prog.bind (freelistMut c ThreadFreelist.pop)) ?_
  funext x
  cases x with
  | some block => rfl
  | none =>
    refine congrArg (Prog.act (I := allocI) _) ?_
    funext heap
    refine congrArg (Prog.bind (takeChain c ⟨heap.handle.addr,th.nodeId,c⟩)) ?_
    funext x
    cases x with
    | some first => rfl
    | none =>
      refine congrArg (Prog.bind (onBump heap.handle.addr th.nodeId c _)) ?_
      funext bag
      cases bag <;> rfl

/-- A block of the thread's own node, wherever the search for one ends, or a mapping. -/
theorem wp_allocSmall (ready : Ready P strict v inst H M) (own : Own P strict v th r L S C H M)
    (cls : sizeClassIndex layout.effective = some c) :
    (allocLogic P strict).wp (allocSmall P inst layout c)
      (fun x v' => Answered P strict v v' layout H M x) v := by
  have small := (sizeClassIndex_spec cls).1
  rw [allocSmall_eq]
  refine wp_thread own fun inside => ?_
  refine wp_seq (wp_pop own c) fun x v₁ always post => ?_
  cases x with
  | some block =>
    obtain ⟨l,_,fresh,ref,left⟩ := post
    exact ⟨always,left.answered fresh ref cls⟩
  | none =>
    obtain ⟨rfl,empty⟩ := post
    refine wp_heap_again ready own ?_
    refine wp_seq (wp_takeChain own small) fun x v₂ _ post => ?_
    cases x with
    | some first =>
      obtain ⟨l,S',parked,nonempty,chain,fresh,left⟩ := post
      obtain ⟨th₂,own₂,node⟩ := left.own
      have chain₂ : Detached v₂ ⟨r.handle.addr,th₂.nodeId,c⟩ first l (H ∪ {b | b ∈ l}) := by
        rw [node]
        exact ⟨chain.links,chain.nodup,chain.ref,fun b h => Or.inr h⟩
      have rest : (H ∪ {b | b ∈ l}) \ {b | b ∈ l} = H := by
        ext b
        have := fresh b
        simp only [Set.mem_sdiff,Set.mem_union,Set.mem_ofPred_eq]
        tauto
      refine wp_seq (wp_refill own₂ parked nonempty chain₂) fun block v₃ always post => ?_
      rw [rest] at post
      obtain ⟨L',S'',fresh',ref,left'⟩ := post
      exact ⟨always,(left.trans left' node).answered fresh' (by rw [ref,node]) cls⟩
    | none =>
      obtain ⟨post,_⟩ := post
      obtain ⟨th₂,own₂,node⟩ := post.own
      rw [← node]
      refine wp_seq (wp_allocateBag own₂ (by rw [node]; exact inside) small) fun bag v₃ _ taken => ?_
      cases bag with
      | none =>
        obtain rfl : v₃ = v₂ := taken
        have ready₂ := ready.next post.frame own₂.holds (post.frame.carried ready.carried)
        exact wp_mono (wp_allocLarge ready₂) fun x v₄ _ answered => answered.after post.frame
      | some bag =>
        obtain ⟨objects,left⟩ := taken
        obtain ⟨th₃,own₃,node₃⟩ := left.own
        have bagOf : {b | (⟨r.handle.addr,th₂.nodeId,c,bag⟩ : Bag).HasSlot b} =
            rest bag (sizeForClass c) 0 (bagSizeForClass c / sizeForClass c) := by
          ext b
          exact (mem_rest small).symm
        rw [bagOf] at own₃ left
        refine wp_seq (wp_carve (sizeForClass_pos small) own₃ fun b mem => ⟨Or.inr mem,?_⟩)
          fun _ v₄ _ carved => ?_
        · rw [(objects b ((mem_rest small).mp mem)).2,node₃]
        obtain ⟨L',full,left₄⟩ := carved
        have remaining : (H ∪ rest bag (sizeForClass c) 0 (bagSizeForClass c / sizeForClass c)) \
            rest bag (sizeForClass c) 0 (bagSizeForClass c / sizeForClass c) = H := by
          ext b
          have := fun h : b ∈ rest bag (sizeForClass c) 0 (bagSizeForClass c / sizeForClass c) =>
            (objects b ((mem_rest small).mp h)).1
          simp only [Set.mem_sdiff,Set.mem_union]
          tauto
        rw [remaining] at left₄
        obtain ⟨th₄,own₄,node₄⟩ := left₄.own
        have some_left := full (Or.inr (objectsPerBag_pos small))
        refine wp_seq (wp_popUnwrap own₄ some_left) fun block v₅ always popped => ?_
        obtain ⟨L'',fresh,ref,left₅⟩ := popped
        have whole := ((post.trans left node).trans left₄ (node₃.trans node)).trans left₅
          (node₄.trans (node₃.trans node))
        exact ⟨always,whole.answered fresh (by rw [ref,node₄,node₃,node]) cls⟩

theorem wp_alloc (ready : Ready P strict v inst H M) :
    (allocLogic P strict).wp (alloc P inst layout)
      (fun x v' => Answered P strict v v' layout H M x) v := by
  unfold alloc
  split
  · exact wp_allocLarge ready
  · cases cls : sizeClassIndex layout.effective with
    | none => exact ⟨ready.holds.always,.refl _ _ _,ready.holds⟩
    | some c =>
      refine wp_seq (wp_threadHeap ready) fun ok v₁ _ post => ?_
      obtain ⟨frame,found⟩ := post
      cases ok with
      | false =>
        obtain ⟨rfl,_⟩ := found
        exact wp_allocLarge ready
      | true =>
        obtain ⟨th,r,L,S,C,own,_⟩ := found
        have ready₁ := ready.next frame own.holds (frame.carried ready.carried)
        exact wp_mono (wp_allocSmall ready₁ own cls) fun x v₂ _ post => post.after frame

/-! Release. -/

theorem Frame.without {gone : List Nat} (out : ∀ b ∈ gone, b ∉ H) :
    Frame v (v.without gone) H M :=
  ⟨rfl,fun h => h,rfl,rfl,rfl,
    fun b mem => by simp only [View.ref,without_other fun h => out b h mem],
    fun _ _ => rfl,fun present => ⟨_,present,rfl⟩,fun h => h⟩

theorem Holds.without (holds : Holds P strict v H M) (gone : List Nat) (sub : ∀ b ∈ gone, b ∈ H) :
    Holds P strict (v.without gone) (H \ {b | b ∈ gone}) M :=
  holds.lift rfl fun stock => stock.without sub

/-- What the operation was given back, and what it holds once that is where it belongs. -/
inductive Returned (strict : Bool) (v : View) (inst ptr : Nat) (layout : Layout) (H M : Set Nat) :
    Set Nat → Set Nat → Prop where
  | block {r : HeapRef} {n c : Nat} (mem : ptr ∈ H) (user : UserAddr ptr)
      (call : v.call.heap = some r) (node : r.geom.nodeForPtr ptr = some n)
      (cls : sizeClassIndex layout.effective = some c)
      (ref : v.ref ptr = some ⟨r.handle.addr,n,c⟩) :
      Returned strict v inst ptr layout H M (H \ {ptr}) M
  | mapping {id : Nat} {m : Mapping} (mem : id ∈ M) (found : v.maps id = some m)
      (use : m.use = .large inst) (payload : m.payload = some ptr)
      (header : m.base + headerSize ≤ ptr) (inside : ptr < m.base + m.size)
      (home : strict = true → ∀ th, v.slot = .alive th → th.globalHeap.inst = inst →
        maxLargeCacheBytes < m.size ∨ m.node = some th.nodeId) :
      Returned strict v inst ptr layout H M H (M \ {id})

theorem deallocSmall_eq (inst ptr : Nat) (heap : HeapRef) (n c : Nat) :
    deallocSmall inst ptr heap n c = (threadHeap inst).bind fun ok =>
      if ok then (act .thread).bind fun th =>
        if n = th.nodeId then deallocLocal ⟨heap.handle.addr,n,c⟩ ptr
        else onStack ⟨heap.handle.addr,n,c⟩ (TreiberStack.push ptr)
      else onStack ⟨heap.handle.addr,n,c⟩ (TreiberStack.push ptr) := rfl

theorem single (p : Nat) : {b | b ∈ [p]} = ({p} : Set Nat) := by
  ext b
  simp

/-- A block goes to the thread's list or to the stack of its own node. -/
theorem wp_deallocSmall (ready : Ready P strict v inst H M) {ptr n : Nat} (mem : ptr ∈ H)
    (call : v.call.heap = some r) (ref : v.ref ptr = some ⟨r.handle.addr,n,c⟩) :
    (allocLogic P strict).wp (deallocSmall inst ptr r n c) (fun _ v' =>
      Frame v v' (H \ {ptr}) M ∧ Holds P strict v' (H \ {ptr}) M) v := by
  rw [deallocSmall_eq]
  refine wp_seq (wp_threadHeap ready) fun ok v₁ _ post => ?_
  obtain ⟨frame,found⟩ := post
  cases ok with
  | false =>
    obtain ⟨rfl,gone⟩ := found
    have bare : Bare P v₁ H M := by
      rcases ready.holds with ⟨th,_,_,_,alive,_⟩ | bare
      · rw [gone] at alive
        contradiction
      · exact bare
    refine wp_mono (wp_publish (bare.stock 0 ⟨0,0⟩)
      (fun th alive => absurd alive (bare.slot th)) (Or.inl ⟨r,call,rfl⟩) (.single ref mem))
      fun _ v₂ _ post => ?_
    subst post
    have left := ready.holds.without [ptr] (by simpa using mem)
    rw [single] at left
    exact ⟨.without (by simp),left⟩
  | true =>
    obtain ⟨th,r',L,S,C,own,_⟩ := found
    obtain rfl := Option.some.inj ((frame.call call).symm.trans own.present.2.1)
    have ref₁ := (frame.ref ptr mem).trans ref
    have sub : Frame v _ (H \ {ptr}) M := frame.mono Set.sdiff_subset subset_rfl
    refine wp_thread own fun _ => ?_
    split
    · rename_i local_
      refine wp_mono (wp_deallocLocal own mem ref₁ rfl local_) fun _ v₂ _ post => ?_
      obtain ⟨L',left⟩ := post
      obtain ⟨th',own',_⟩ := left.own
      exact ⟨sub.trans left.frame,own'.holds⟩
    · refine wp_mono (own.publish rfl (.single ref₁ mem)) fun _ v₂ _ left => ?_
      rw [single] at left
      obtain ⟨th',own',_⟩ := left.own
      exact ⟨sub.trans left.frame,own'.holds⟩

/-- The route is the one the pointer was allocated by. -/
theorem wp_dealloc (ready : Ready P strict v inst H M) {ptr : Nat}
    (returned : Returned strict v inst ptr layout H M H' M') :
    (allocLogic P strict).wp (dealloc inst ptr layout)
      (fun _ v' => Frame v v' H' M' ∧ Holds P strict v' H' M') v := by
  unfold dealloc
  cases returned with
  | @block r n c mem user call node cls ref =>
    have limit := (sizeClassIndex_spec cls).2.2.1
    have nonzero := user.1
    rw [if_neg (by omega),if_neg (by omega)]
    refine wp_heap ready fun r' v₁ known ready₁ frame _ => ?_
    obtain rfl := Option.some.inj ((frame.call call).symm.trans known.call)
    simp only [node,cls]
    refine wp_mono (wp_deallocSmall ready₁ mem known.call ((frame.ref ptr mem).trans ref))
      fun _ v₂ _ post => ?_
    exact ⟨(frame.mono Set.sdiff_subset subset_rfl).trans post.1,post.2⟩
  | @mapping id m mem found use payload header inside home =>
    have high : headerSize ≤ ptr := by omega
    have size : headerSize = 16 := rfl
    rw [if_neg (by omega)]
    split
    · exact wp_deallocLarge ready mem found use payload high home
    · refine wp_heap ready fun r v₁ known ready₁ frame same => ?_
      have found₁ := (frame.maps id mem).trans found
      have slot : v₁.slot = v.slot := by rw [same]
      rw [known.outside id m inst ptr found₁ use (by omega) inside]
      refine wp_mono (wp_deallocLarge ready₁ mem found₁ use payload high ?_) fun _ v₂ _ post => ?_
      · rw [slot]
        exact home
      · exact ⟨(frame.mono subset_rfl Set.sdiff_subset).trans post.1,post.2⟩

/-! Writing into what was allocated. -/

namespace Obtained

variable {p n : Nat}

theorem writable (got : Obtained P strict v layout p H M H' M') (le : n ≤ layout.size) :
    v.Writable p n := by
  cases got with
  | @block th r c fresh present ref cls =>
    obtain ⟨B,block,ref'⟩ := block_of_ref ref
    have fits := (sizeClassIndex_spec cls).2.2.2.1
    have effective : layout.size ≤ layout.effective := Nat.le_max_left _ _
    exact Or.inl ⟨p,B,block,le_rfl,by rw [ref']; simp only; omega⟩
  | @mapping id m inst fresh found payload called use placed fixed =>
    have := placed.room
    exact Or.inr ⟨id,m,p,found,payload,le_rfl,by omega⟩

/-- What was obtained survives whatever leaves it alone. -/
theorem carry (got : Obtained P strict v layout p H M H' M') (frame : Frame v v' H' M') :
    Obtained P strict v' layout p H M H' M' := by
  cases got with
  | @block th r c fresh present ref cls =>
    obtain ⟨th',present',node⟩ := frame.stay present
    exact .block fresh present' (by rw [frame.ref p (Set.mem_insert p H),ref,node]) cls
  | @mapping id m inst fresh found payload called use placed fixed =>
    exact .mapping fresh ((frame.maps id (Set.mem_insert id M)).trans found) payload
      (frame.inst.trans called) use placed (frame.fixed fixed)

/-- Overwriting the new allocation costs at most a link that nobody needs. -/
theorem overwritten (got : Obtained P strict v layout p H M H' M')
    (holds : Holds P strict v H' M') (le : n ≤ layout.size) (wrote : v.Overwritten v' p n) :
    Frame v v' H' M' ∧ Holds P strict v' H' M' := by
  cases got with
  | @block th r c fresh present ref cls =>
    obtain ⟨B,block,ref'⟩ := block_of_ref ref
    have fits := (sizeClassIndex_spec cls).2.2.2.1
    have effective : layout.size ≤ layout.effective := Nat.le_max_left _ _
    obtain ⟨link,rfl⟩ := wrote.1 p B block le_rfl (by rw [ref']; simp only; omega)
    refine ⟨⟨rfl,fun h => h,rfl,rfl,rfl,fun b _ => setLink_ref v p b link,fun _ _ => rfl,
      fun present => ⟨_,present,rfl⟩,fun h => h⟩,holds.lift rfl fun stock => ?_⟩
    exact stock.setLink (Set.mem_insert p H) link
  | @mapping id m inst fresh found payload called use placed fixed =>
    have := placed.room
    obtain rfl := wrote.2 id m p found payload le_rfl (by omega)
    exact ⟨.refl _ _ _,holds⟩

end Obtained

/-- A write into what was just allocated, as `alloc_zeroed` and `realloc` do it. -/
theorem wp_write {x : Act} {p n : Nat} {k : x.Res → Prog allocI α} {Q : α → View → Prop}
    (writes : ∀ {v' : View}, (v'.Writable p n → safe P strict x v') ∧
      ∀ r v'', step P strict x v' r v'' → v'.Overwritten v'' p n)
    (holds : Holds P strict v H' M') (got : Obtained P strict v layout p H M H' M')
    (le : n ≤ layout.size)
    (next : ∀ r v', Frame v v' H' M' → Holds P strict v' H' M' →
      Obtained P strict v' layout p H M H' M' → (allocLogic P strict).wp (k r) Q v') :
    (allocLogic P strict).wp ((act x).bind k) Q v := by
  refine wp_act holds.always (writes.1 (got.writable le)) fun r v' st => ?_
  obtain ⟨frame,holds'⟩ := got.overwritten holds le (writes.2 r v' st)
  exact next r v' frame holds' (got.carry frame)

theorem Obtained.grown {p : Nat} (got : Obtained P strict v layout p H M H' M') :
    H ⊆ H' ∧ M ⊆ M' := by
  cases got with
  | block => exact ⟨Set.subset_insert _ _,subset_rfl⟩
  | mapping => exact ⟨subset_rfl,Set.subset_insert _ _⟩

theorem wp_zero {p : Nat} (frame : Frame v v' H M) (holds : Holds P strict v' H' M')
    (got : Obtained P strict v' layout p H M H' M') :
    (allocLogic P strict).wp ((act (.writeBytes p layout.size)).bind fun _ => .ret (some p))
      (fun x v'' => Answered P strict v v'' layout H M x) v' := by
  refine wp_write (x := .writeBytes p layout.size) ⟨fun h => h,fun _ _ h => h⟩ holds got le_rfl
    fun _ v'' frame' holds' got' => ?_
  have sub := got.grown
  exact ⟨holds'.always,frame.trans (frame'.mono sub.1 sub.2),H',M',holds',got'⟩

theorem allocZeroed_eq (inst : Nat) (layout : Layout) : allocZeroed P inst layout =
    if smallLimit < layout.effective then
      (allocLargeTracked P inst layout).bind fun x => match x.1 with
        | some p => if x.2 then (act (.writeBytes p layout.size)).bind fun _ => .ret (some p)
          else .ret (some p)
        | none => .ret none
    else (alloc P inst layout).bind fun x => match x with
      | some p => (act (.writeBytes p layout.size)).bind fun _ => .ret (some p)
      | none => .ret none := by
  unfold allocZeroed
  split
  · refine congrArg (Prog.bind (allocLargeTracked P inst layout)) ?_
    funext x
    obtain ⟨_ | p,_ | _⟩ := x <;> rfl
  · refine congrArg (Prog.bind (alloc P inst layout)) ?_
    funext x
    cases x <;> rfl

theorem wp_allocZeroed (ready : Ready P strict v inst H M) :
    (allocLogic P strict).wp (allocZeroed P inst layout)
      (fun x v' => Answered P strict v v' layout H M x) v := by
  rw [allocZeroed_eq]
  split
  · refine wp_seq (wp_allocLargeTracked ready) fun x v₁ always post => ?_
    obtain ⟨x,reused⟩ := x
    cases x with
    | none => exact ⟨always,post⟩
    | some p =>
      obtain ⟨frame,H',M',holds,got⟩ := post
      cases reused with
      | false => exact ⟨always,frame,H',M',holds,got⟩
      | true => exact wp_zero frame holds got
  · refine wp_seq (wp_alloc ready) fun x v₁ always post => ?_
    cases x with
    | none => exact ⟨always,post⟩
    | some p =>
      obtain ⟨frame,H',M',holds,got⟩ := post
      exact wp_zero frame holds got

/-! Reallocation. -/

/-- The operand of an operation. -/
structure Operand (v : View) (inst ptr : Nat) (layout : Layout) (a : Alloc) : Prop where
  pin : v.pin = some a
  ptr : a.ptr = ptr
  layout : a.layout = layout
  inst : a.inst = inst

theorem Ready.unpin (ready : Ready P strict v inst H M) :
    Ready P strict { v with pin := none } inst H M :=
  ⟨ready.holds.recall v.call none fun _ h => h,ready.inst,ready.hand,ready.dying,
    ready.carried.blocks,ready.carried.maps⟩

/-- A slot leaves the caller, and the operation holds it then. -/
theorem wp_release_slot {ptr : Nat} {a : Alloc} (ready : Ready P strict v inst H M)
    (operand : Operand v inst ptr layout a) (source : a.source = .slot) :
    (allocLogic P strict).wp (act .release) (fun _ v' => v'.pin = none ∧
      Frame { v with pin := none } v' H M ∧ Ready P strict v' inst (H ∪ {ptr}) M ∧ ptr ∉ H ∧
      UserAddr ptr ∧ ∃ r n c, v'.call.heap = some r ∧ r.geom.nodeForPtr ptr = some n ∧
        sizeClassIndex layout.effective = some c ∧ v'.ref ptr = some ⟨r.handle.addr,n,c⟩) v := by
  refine wp_call ready.holds.always ⟨a,operand.pin⟩ fun _ v' st => ?_
  obtain ⟨a',pin,taken⟩ := st
  obtain rfl := Option.some.inj (operand.pin.symm.trans pin)
  obtain ⟨_,rfl,rfl,rfl⟩ := operand
  simp only [source] at taken
  obtain ⟨r,n,c,link,call,node,cls,fresh,user,seen⟩ := taken
  have out : a.ptr ∉ H := fun mem => by
    obtain ⟨B,block⟩ := ready.holds.held mem
    rw [fresh] at block
    contradiction
  have ref : v'.ref a.ptr = some ⟨r.handle.addr,n,c⟩ := by simp [seen,View.ref]
  have call' : v'.call.heap = some r := by rw [seen]; exact call
  have gained : Holds P strict v' (H ∪ {a.ptr}) M := by
    rw [seen]
    refine ready.unpin.holds.lift rfl fun stock =>
      stock.acquire (k := ⟨r.handle.addr,n,c⟩) (N := {a.ptr}) call rfl (sizeClassIndex_spec cls).1
        (fun b same => ?_) fun b ne => replace_other ne
    obtain rfl : b = a.ptr := same
    exact ⟨fresh,user,by simp⟩
  have frame : Frame { v with pin := none } v' H M := by
    subst seen
    refine ⟨rfl,fun h => h,rfl,rfl,rfl,fun b mem => ?_,fun _ _ => rfl,
      fun present => ⟨_,present,rfl⟩,fun h => h⟩
    have ne : b ≠ a.ptr := fun same => out (by rw [← same]; exact mem)
    simp only [View.ref,replace_other ne]
  have carried := frame.carried (v := { v with pin := none }) ready.unpin.carried
  have ready' := ready.unpin.next frame gained ⟨fun b mem k' ref' => ?_,carried.maps⟩
  · exact ⟨gained.always,by rw [seen],frame,ready',out,user,r,n,c,call',node,cls,ref⟩
  rcases mem with mem | same
  · exact carried.blocks b mem k' ref'
  · obtain rfl : b = a.ptr := same
    rw [ref] at ref'
    obtain rfl := Option.some.inj ref'
    exact ⟨r,call',rfl⟩

/-- Likewise a mapping of its own. -/
theorem wp_release_mapping {ptr : Nat} {a : Alloc} (ready : Ready P strict v inst H M)
    (operand : Operand v inst ptr layout a) (source : a.source ≠ .slot) :
    (allocLogic P strict).wp (act .release) (fun _ v' => v'.pin = none ∧
      Frame { v with pin := none } v' H M ∧ ∃ id m, Ready P strict v' inst H (insert id M) ∧
        id ∉ M ∧ v'.maps id = some m ∧ m.use = .large inst ∧ m.payload = some ptr ∧
        m.base + headerSize ≤ ptr ∧ ptr < m.base + m.size ∧
        (strict = true → ∀ th, v'.slot = .alive th → th.globalHeap.inst = inst →
          maxLargeCacheBytes < m.size ∨ m.node = some th.nodeId)) v := by
  refine wp_call ready.holds.always ⟨a,operand.pin⟩ fun _ v' st => ?_
  obtain ⟨a',pin,taken⟩ := st
  obtain rfl := Option.some.inj (operand.pin.symm.trans pin)
  obtain ⟨_,rfl,rfl,rfl⟩ := operand
  cases at_ : a.source with
  | slot => exact absurd at_ source
  | stray => simp only [at_] at taken
  | mapping id =>
    simp only [at_] at taken
    obtain ⟨m,fresh,ok,payload,use,placed,_,home,rfl⟩ := taken
    have gained := ready.unpin.holds.gainMap fresh ok ⟨_,use⟩
    have out := ready.unpin.holds.fresh fresh
    have frame : Frame { v with pin := none } (({ v with pin := none } : View).setMap id (some m)) H M :=
      .setMap out _
    have carried := frame.carried (v := { v with pin := none }) ready.unpin.carried
    refine ⟨gained.always,rfl,frame,id,m,ready.unpin.next frame gained ⟨carried.blocks,
      fun id' mem m' found i called => ?_⟩,out,setMap_at _ id _,use,payload,placed.header,placed.inside,home⟩
    by_cases same : id' = id
    · subst same
      obtain rfl : m = m' := Option.some.inj (replace_same.symm.trans found)
      obtain rfl := Option.some.inj (ready.inst.symm.trans called)
      exact use
    · exact carried.maps id' (Set.mem_of_mem_insert_of_ne mem same) m' found i called

/-- The operand leaves the caller, and the operation holds it then. -/
theorem wp_release {ptr : Nat} {a : Alloc} {k : Unit → Prog allocI α} {Q : α → View → Prop}
    (ready : Ready P strict v inst H M) (operand : Operand v inst ptr layout a)
    (next : ∀ v' H₁ M₁, v'.pin = none → Frame { v with pin := none } v' H M →
      Ready P strict v' inst H₁ M₁ → Returned strict v' inst ptr layout H₁ M₁ H M →
      (allocLogic P strict).wp (k ()) Q v') :
    (allocLogic P strict).wp ((act .release).bind k) Q v := by
  by_cases source : a.source = .slot
  · refine wp_seq (wp_release_slot ready operand source) fun _ v' _ post => ?_
    obtain ⟨pin,frame,ready',out,user,r,n,c,call,node,cls,ref⟩ := post
    refine next v' _ _ pin frame ready' ?_
    have returned : Returned strict v' inst ptr layout (H ∪ {ptr}) M _ _ :=
      .block (Set.mem_union_right H (Set.mem_singleton ptr)) user call node cls ref
    rwa [Set.union_singleton,Set.insert_sdiff_self_of_notMem out,← Set.union_singleton] at returned
  · refine wp_seq (wp_release_mapping ready operand source) fun _ v' _ post => ?_
    obtain ⟨pin,frame,id,m,ready',out,found,use,payload,header,inside,home⟩ := post
    refine next v' _ _ pin frame ready' ?_
    have returned : Returned strict v' inst ptr layout H (insert id M) _ _ :=
      .mapping (Set.mem_insert id M) found use payload header inside home
    rwa [Set.insert_sdiff_self_of_notMem out] at returned

/-- The outcome of a request that answers with a pointer. -/
def Settled (P : Platform) (strict : Bool) (v : View) (inst : Nat) (layout : Layout)
    (H M : Set Nat) : Option Nat → Prop
  | none => Ready P strict v inst H M
  | some p => (v.KeepsPinned p layout ∧ Ready P strict v inst H M) ∨
      (v.pin = none ∧ ∃ H' M', Ready P strict v inst H' M' ∧
        Obtained P strict v layout p H M H' M')

theorem Obtained.carried {p : Nat} (got : Obtained P strict v layout p H M H' M')
    (carried : Carried v H M) : Carried v H' M' := by
  cases got with
  | @block th r c fresh present ref cls =>
    refine ⟨fun b mem k ref' => ?_,carried.maps⟩
    rcases Set.mem_insert_iff.mp mem with rfl | mem
    · rw [ref] at ref'
      obtain rfl := Option.some.inj ref'
      exact ⟨r,present.2.1,rfl⟩
    · exact carried.blocks b mem k ref'
  | @mapping id m inst fresh found payload called use placed fixed =>
    refine ⟨carried.blocks,fun id' mem m' found' i called' => ?_⟩
    rcases Set.mem_insert_iff.mp mem with rfl | mem
    · obtain rfl := Option.some.inj (found.symm.trans found')
      obtain rfl := Option.some.inj (called.symm.trans called')
      exact use
    · exact carried.maps id' mem m' found' i called'

theorem Answered.settled {x : Option Nat} (ready : Ready P strict v inst H M)
    (pin : v.pin = none) (answered : Answered P strict v v' layout H M x) :
    Settled P strict v' inst layout H M x := by
  cases x with
  | none => exact ready.next answered.1 answered.2 (answered.1.carried ready.carried)
  | some p =>
    obtain ⟨frame,H',M',holds,got⟩ := answered
    have carried := got.carried (frame.carried ready.carried)
    exact Or.inr ⟨frame.pin.trans pin,H',M',ready.next frame holds carried,got⟩

theorem reallocMove_eq {inst ptr newSize : Nat} {layout newLayout : Layout}
    (resized : layout.resize newSize = some newLayout) :
    reallocMove P inst ptr layout newSize = (alloc P inst newLayout).bind fun x => match x with
      | none => .ret none
      | some newPtr => (act (.copy ptr newPtr (min layout.size newSize))).bind fun _ =>
          (act .release).bind fun _ => (dealloc inst ptr layout).bind fun _ => .ret (some newPtr) := by
  unfold reallocMove
  rw [resized]
  refine congrArg (Prog.bind (alloc P inst newLayout)) ?_
  funext x
  cases x <;> rfl

theorem Obtained.unpin {p : Nat} (got : Obtained P strict v layout p H M H' M') :
    Obtained P strict { v with pin := none } layout p H M H' M' := by
  cases got with
  | block fresh present ref cls => exact .block fresh present ref cls
  | mapping fresh found payload called use placed fixed =>
    exact .mapping fresh found payload called use placed fixed

/-- The new allocation is in hand before the old one is released, and survives it. -/
theorem wp_reallocMove {ptr newSize : Nat} {a : Alloc} {newLayout : Layout}
    (ready : Ready P strict v inst H M) (operand : Operand v inst ptr layout a)
    (resized : layout.resize newSize = some newLayout) :
    (allocLogic P strict).wp (reallocMove P inst ptr layout newSize)
      (fun x v' => Settled P strict v' inst newLayout H M x) v := by
  rw [reallocMove_eq resized]
  refine wp_seq (wp_alloc ready) fun x v₁ always answered => ?_
  cases x with
  | none =>
    exact ⟨always,ready.next answered.1 answered.2 (answered.1.carried ready.carried)⟩
  | some p =>
    obtain ⟨frame,H',M',holds,got⟩ := answered
    obtain ⟨size,_⟩ := Layout.resize_size resized
    have le : min layout.size newSize ≤ newLayout.size := by omega
    refine wp_write (x := .copy ptr p (min layout.size newSize)) ⟨fun h => h,fun _ _ h => h⟩ holds
      got le fun _ v₂ frame₂ holds₂ got₂ => ?_
    have sub := got.grown
    have whole := frame.trans (frame₂.mono sub.1 sub.2)
    have ready₂ := ready.next whole holds₂ (got₂.carried (whole.carried ready.carried))
    have operand₂ : Operand v₂ inst ptr layout a :=
      ⟨whole.pin.trans operand.pin,operand.ptr,operand.layout,operand.inst⟩
    refine wp_release ready₂ operand₂ fun v₃ H₁ M₁ pin frame₃ ready₃ returned => ?_
    refine wp_seq (wp_dealloc ready₃ returned) fun _ v₄ always post => ?_
    obtain ⟨frame₄,holds₄⟩ := post
    have got₄ := (got₂.unpin.carry frame₃).carry frame₄
    have base : Ready P strict v₄ inst H' M' := by
      refine ⟨holds₄,frame₄.inst.trans ready₃.inst,frame₄.hand.trans ready₃.hand,
        frame₄.dying.trans ready₃.dying,?_⟩
      exact frame₄.carried (frame₃.carried ⟨ready₂.carried.blocks,ready₂.carried.maps⟩)
    exact ⟨always,Or.inr ⟨frame₄.pin.trans pin,H',M',base,got₄⟩⟩

/-- In place within the class, or moved. -/
theorem wp_realloc {ptr newSize : Nat} {a : Alloc} (ready : Ready P strict v inst H M)
    (operand : Operand v inst ptr layout a) :
    (allocLogic P strict).wp (realloc P inst ptr layout newSize) (fun x v' =>
      match layout.resize newSize with
      | none => Ready P strict v' inst H M
      | some newLayout => Settled P strict v' inst newLayout H M x) v := by
  have moved : ∀ {v : View}, Ready P strict v inst H M → Operand v inst ptr layout a →
      (allocLogic P strict).wp (reallocMove P inst ptr layout newSize) (fun x v' =>
        match layout.resize newSize with
        | none => Ready P strict v' inst H M
        | some newLayout => Settled P strict v' inst newLayout H M x) v := by
    intro v ready operand
    cases resized : layout.resize newSize with
    | none =>
      unfold reallocMove
      rw [resized]
      exact ⟨ready.holds.always,ready⟩
    | some newLayout => exact wp_reallocMove ready operand resized
  unfold realloc
  simp only
  split
  · rename_i inClass
    refine wp_heap ready fun r v₁ known ready₁ frame _ => ?_
    have operand₁ : Operand v₁ inst ptr layout a :=
      ⟨frame.pin.trans operand.pin,operand.ptr,operand.layout,operand.inst⟩
    split
    · rename_i owned
      refine ⟨ready₁.holds.always,?_⟩
      cases resized : layout.resize newSize with
      | none => exact ready₁
      | some newLayout =>
        obtain ⟨size,align⟩ := Layout.resize_size resized
        have source : a.source = .slot := by
          by_contra other
          have outside := known.pin a operand₁.pin other
          rw [operand.ptr] at outside
          simp [GlobalHeap.isOwned,outside] at owned
        refine Or.inl ⟨⟨a,operand₁.pin,operand.ptr,source,?_⟩,ready₁⟩
        rw [operand.layout,inClass.2.2.2.1]
        simp only [Layout.effective,size,align]
    · exact moved ready₁ operand₁
  · exact moved ready operand

end Numalloc
