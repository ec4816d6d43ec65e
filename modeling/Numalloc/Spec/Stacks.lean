import Numalloc.Spec.FreeLists

/-! The shared cells of a node as a thread sees them: publishing a chain on a stack,
detaching a stack, and taking a bag. -/
namespace Numalloc

open Concurrent View Logic

variable {P : Platform} {strict : Bool} {v v' : View} {th : PerThreadHeap} {r : HeapRef}
  {L S : Nat → List Nat} {C : List Nat} {H H' M : Set Nat} {k : StackRef} {first last : Nat}
  {l : List Nat}

theorem setLink_self {b : Nat} {B : Block} (held : v.blocks b = some B) :
    v.setLink b B.link = v := by
  ext1 <;> try rfl
  funext c
  by_cases same : c = b
  · subst same
    simp [setLink,held]
  · exact setLink_other _ same

theorem setLink_twice (b : Nat) (x y : Option (Option Nat)) :
    (v.setLink b x).setLink b y = v.setLink b y := by
  simp [setLink,replace_twice,Option.map_map,Function.comp_def]

theorem setLink_without {b : Nat} (mem : b ∈ l) (x : Option (Option Nat)) :
    (v.setLink b x).without l = v.without l := by
  ext1 <;> try rfl
  funext c
  by_cases gone : c ∈ l
  · simp [without,gone]
  · have ne : c ≠ b := fun same => gone (same ▸ mem)
    simp [without,gone,setLink,replace_other ne]

theorem Held.first_mem (held : Held v k first last l H) : first ∈ l := by
  obtain ⟨front,rfl,chain⟩ := held.links
  cases front with
  | nil => simpa using chain
  | cons b rest =>
    obtain rfl := Option.some.inj chain.head_cons
    simp

theorem Held.setLink (held : Held v k first last l H) (x : Option (Option Nat)) {B : Block}
    (block : v.blocks last = some B) : Held (v.setLink last x) k first last l H := by
  obtain ⟨front,rfl,chain⟩ := held.links
  have fresh : last ∉ front := fun h => (List.nodup_append.mp held.nodup).2.2 last h last (by simp) rfl
  refine ⟨⟨front,rfl,?_⟩,held.nodup,fun b h => ?_,held.loose⟩
  · rw [setLink_link block]
    exact (links_replace _ fresh).mpr chain
  · rw [setLink_ref]
    exact held.ref b h

theorem unpack_user {w a : Nat} (h : (TreiberStack.unpack w).1 = some a) : UserAddr a := by
  rw [TreiberStack.unpack_eq] at h
  split at h
  · contradiction
  · obtain rfl := Option.some.inj h
    exact ⟨by omega,Nat.mod_lt _ (by decide)⟩

theorem onStack_publish (k : StackRef) (first last : Nat) :
    onStack k (TreiberStack.publish first last) =
      (act (.loadHead k)).bind fun current =>
        (act (.link (.writeNext last (TreiberStack.unpack current).1))).bind fun _ =>
          (act (.casHead k current (TreiberStack.pack (some first)
            (TreiberStack.nextTag (TreiberStack.unpack current).2)))).bind fun done =>
              if done then .ret (.inr ()) else .ret (.inl ()) := by
  simp only [onStack,TreiberStack.publish]
  refine congrArg (Prog.act (I := allocI) _) ?_
  funext current
  refine congrArg (Prog.act (I := allocI) _) ?_
  funext _
  refine congrArg (Prog.act (I := allocI) _) ?_
  funext done
  cases done <;> rfl

/-- A chain is published at once: whatever other threads do in between, the blocks leave
the thread exactly when its exchange succeeds. -/
theorem wp_publish (stock : Stock P strict v th L S C H M)
    (slot : ∀ th', v.slot = .alive th' → th' = th) (keeps : v.Keeps k.heap)
    (held : Held v k first last l H) :
    (allocLogic P strict).wp (onStack k (TreiberStack.pushChain first last))
      (fun _ v' => v' = v.without l) v := by
  have loose := held.loose _ held.last_mem
  obtain ⟨B,block⟩ := stock.held loose
  have user := stock.user (held.loose _ held.first_mem)
  have always : ∀ x, (allocLogic P strict).always (v.setLink last x) := fun x =>
    (stock.setLink loose x).always slot
  refine wp_iter (fun _ v' => ∃ x, v' = v.setLink last x) (stock.always slot)
    ⟨B.link,(setLink_self block).symm⟩ fun _ v' inv => ?_
  obtain ⟨x,rfl⟩ := inv
  obtain ⟨B',block'⟩ := (stock.setLink loose x).held loose
  refine Eq.mpr (congrArg (fun p => (allocLogic P strict).wp p _ _) (onStack_publish k first last)) ?_
  refine wp_act (always x) keeps fun current v' st => ?_
  subst st
  refine wp_act (always x) ⟨⟨B',block'⟩,fun a h => unpack_user h⟩ fun _ v' st => ?_
  subst st
  rw [setLink_twice]
  have packed := TreiberStack.unpack_pack_some (TreiberStack.nextTag (TreiberStack.unpack current).2)
    user.1 user.2
  have chain : (v.setLink last (some (TreiberStack.unpack current).1)).Chain k first l
      (TreiberStack.unpack current).1 :=
    ⟨List.ne_nil_of_mem held.last_mem,held.nodup,held.chained _ block,fun b h =>
      (setLink_ref v last b _).trans (held.ref b h)⟩
  refine wp_act (always _) ⟨keeps,?_⟩ fun done v' st => ?_
  · rw [packed]
    exact ⟨l,chain⟩
  cases done with
  | false =>
    obtain rfl : v' = _ := st
    exact ⟨always _,_,rfl⟩
  | true =>
    simp only [step,packed] at st
    have gone := st l chain
    rw [setLink_without held.last_mem] at gone
    subst gone
    exact ⟨(stock.without held.loose).always slot,rfl⟩

/-- Blocks `N` of one stack come to a thread that had none of them. -/
theorem Stock.acquire (stock : Stock P strict v th L S C H M) {N : Set Nat}
    {blocks : Nat → Option Block} (call : v.call.heap = some r) (heap : k.heap = r.handle.addr)
    (small : k.cls < numSizeClasses)
    (fresh : ∀ b ∈ N, v.blocks b = none ∧ UserAddr b ∧ (blocks b).map Block.ref = some k)
    (frame : ∀ b, b ∉ N → blocks b = v.blocks b) :
    Stock P strict { v with blocks := blocks } th L S C (H ∪ N) M := by
  have cached : ∀ {c b}, b ∈ L c ++ S c → b ∉ N := by
    intro c b mem new
    obtain ⟨B,block,_⟩ := block_of_ref (stock.cached.ref mem)
    rw [(fresh b new).1] at block
    contradiction
  have sane : ({ v with blocks := blocks } : View).Sane P := by
    refine ⟨fun {b B} block => ?_,fun {b B} block => ?_,fun b B block => ?_,stock.sane.maps⟩
    · by_cases new : b ∈ N
      · exact (fresh b new).2.1
      · exact stock.sane.user ((frame b new).symm.trans block)
    · by_cases new : b ∈ N
      · obtain ⟨_,_,ref⟩ := fresh b new
        rw [show blocks b = some B from block] at ref
        obtain rfl := Option.some.inj ref
        exact small
      · exact stock.sane.cls ((frame b new).symm.trans block)
    · by_cases new : b ∈ N
      · obtain ⟨_,_,ref⟩ := fresh b new
        rw [show blocks b = some B from block] at ref
        obtain rfl := Option.some.inj ref
        exact Or.inl ⟨r,call,heap.symm⟩
      · exact stock.sane.rooted b B ((frame b new).symm.trans block)
  refine stock.retake sane (fun mem => frame _ (cached mem)) rfl fun {b} => ?_
  by_cases new : b ∈ N
  · obtain ⟨_,_,ref⟩ := fresh b new
    obtain ⟨B,block,_⟩ := Option.map_eq_some_iff.mp ref
    exact ⟨fun _ => ⟨⟨B,block⟩,fun c mem => cached mem new⟩,fun _ => Or.inr new⟩
  · simp only [frame b new,Set.mem_union,new,or_false]
    exact stock.loose

theorem Own.acquire (own : Own P strict v th r L S C H M) {N : Set Nat}
    {blocks : Nat → Option Block} (heap : k.heap = r.handle.addr) (small : k.cls < numSizeClasses)
    (fresh : ∀ b ∈ N, v.blocks b = none ∧ UserAddr b ∧ (blocks b).map Block.ref = some k)
    (frame : ∀ b, b ∉ N → blocks b = v.blocks b) :
    Left P strict v { v with blocks := blocks } th r L S C H (H ∪ N) M := by
  have stock := own.stock.acquire own.present.2.1 heap small fresh frame
  refine ⟨⟨th,⟨own.present,stock⟩,rfl⟩,?_⟩
  have same : ({ v with blocks := blocks } : View) = { v with slot := v.slot, blocks := blocks } := rfl
  rw [same]
  refine .relinked own.present own.present.1 rfl rfl fun b mem => ?_
  obtain ⟨B,block⟩ := own.stock.held mem
  have old : b ∉ N := fun new => by
    rw [(fresh b new).1] at block
    contradiction
  rw [frame b old]
  rfl

/-- Blocks leave the hands of an operation. -/
theorem Own.released (own : Own P strict v th r L S C H M) {gone : List Nat}
    (sub : ∀ b ∈ gone, b ∈ H) : Left P strict v (v.without gone) th r L S C (H \ {b | b ∈ gone})
      (H \ {b | b ∈ gone}) M := by
  refine ⟨⟨th,⟨own.present,own.stock.without sub⟩,rfl⟩,?_⟩
  have same : v.without gone = { v with slot := v.slot, blocks := (v.without gone).blocks } := rfl
  rw [same]
  refine .relinked own.present own.present.1 rfl rfl fun b mem => ?_
  rw [without_other mem.2]
  rfl

/-- Publishing a chain that a thread with a cache holds. -/
theorem Own.publish (own : Own P strict v th r L S C H M) (heap : k.heap = r.handle.addr)
    (held : Held v k first last l H) :
    (allocLogic P strict).wp (onStack k (TreiberStack.pushChain first last)) (fun _ v' =>
      Left P strict v v' th r L S C (H \ {b | b ∈ l}) (H \ {b | b ∈ l}) M) v := by
  refine wp_mono (wp_publish own.stock ?_ (heap ▸ own.keeps) held) fun _ v' _ gone => ?_
  · intro th' alive
    exact (ThreadHeapSlot.alive.inj (own.present.1.symm.trans alive)).symm
  · subst gone
    exact own.released held.loose

/-- A terminated chain that an operation holds. -/
structure Detached (v : View) (k : StackRef) (first : Nat) (l : List Nat) (H : Set Nat) : Prop where
  links : Links v.link (some first) l none
  nodup : l.Nodup
  ref : ∀ b ∈ l, v.ref b = some k
  loose : ∀ b ∈ l, b ∈ H

theorem onStack_takeAll (k : StackRef) : onStack k TreiberStack.takeAll =
    .iter (fun _ => (act (.loadHead k)).bind fun current =>
      match (TreiberStack.unpack current).1 with
      | none => .ret (.inr none)
      | some head => (act (.casHead k current (TreiberStack.pack none
          (TreiberStack.nextTag (TreiberStack.unpack current).2)))).bind fun done =>
            if done then .ret (.inr (some head)) else .ret (.inl ())) () := by
  simp only [onStack,TreiberStack.takeAll,Prog.iter,Prog.lift]
  congr 1
  funext _
  refine congrArg (Prog.act (I := allocI) _) ?_
  funext current
  simp only [Prog.bind_ret,stackRes,act,Prog.call]
  cases (TreiberStack.unpack current).1 with
  | none => rfl
  | some head =>
    refine congrArg (Prog.act (I := allocI) _) ?_
    funext done
    cases done <;> rfl

theorem wp_takeAll (own : Own P strict v th r L S C H M) (heap : k.heap = r.handle.addr)
    (node : k.node < r.geom.numNodes) (cls : k.cls < numSizeClasses) :
    (allocLogic P strict).wp (onStack k TreiberStack.takeAll) (fun x v' => match x with
      | none => v' = v
      | some head => ∃ l, l ≠ [] ∧ Detached v' k head l {b | b ∈ l} ∧ (∀ b ∈ l, b ∉ H) ∧
          Left P strict v v' th r L S C H (H ∪ {b | b ∈ l}) M) v := by
  have keeps : v.Keeps k.heap := heap ▸ own.keeps
  rw [onStack_takeAll]
  refine wp_iter (fun _ v' => v' = v) own.always rfl fun _ v' same => ?_
  subst same
  refine wp_act own.always keeps fun current v' st => ?_
  subst st
  cases head : (TreiberStack.unpack current).1 with
  | none => exact ⟨own.always,rfl⟩
  | some head' =>
    have packed := TreiberStack.unpack_pack_none (TreiberStack.nextTag (TreiberStack.unpack current).2)
    refine wp_act own.always ⟨keeps,?_⟩ fun done v'' st => ?_
    · rw [packed]
      exact ⟨r,own.present.2.1,heap.symm,node,cls⟩
    cases done with
    | false =>
      obtain rfl : v'' = _ := st
      exact ⟨own.always,rfl⟩
    | true =>
      simp only [step,packed,if_true,head] at st
      obtain ⟨l,gained⟩ := st
      have left := own.acquire (N := {b | b ∈ l}) heap cls
        (fun b mem => ⟨gained.foreign b mem,gained.user b mem,gained.ref b mem⟩) gained.frame
      rw [← gained.same] at left
      obtain ⟨th',own',_⟩ := left.own
      refine ⟨own'.always,l,?_,⟨gained.links,gained.nodup,gained.ref,fun _ h => h⟩,?_,left⟩
      · rintro rfl
        exact absurd gained.links (by simp)
      · intro b mem loose
        obtain ⟨B,block⟩ := own.stock.held loose
        rw [gained.foreign b mem] at block
        contradiction

/-! Taking a bag. -/

theorem onBump_allocateBag (heap node cls : Nat) (region : NodeRegion) (size : Nat) :
    onBump heap node cls (region.allocateBag size) =
    .iter (fun _ => (act (.loadBump heap node)).bind fun offset =>
      match region.nextBag size offset with
      | none => .ret (.inr none)
      | some (aligned,newOffset) => (act (.casBump heap node cls offset newOffset)).bind fun done =>
          if done then .ret (.inr (some (region.base + aligned))) else .ret (.inl ())) () := by
  simp only [onBump,NodeRegion.allocateBag,Prog.iter,Prog.lift]
  congr 1
  funext _
  refine congrArg (Prog.act (I := allocI) _) ?_
  funext offset
  simp only [Prog.bind_ret,bumpRes,act,Prog.call]
  cases region.nextBag size offset with
  | none => rfl
  | some bag =>
    refine congrArg (Prog.act (I := allocI) _) ?_
    funext done
    cases done <;> rfl

/-- The objects of a bag, all of them new to the thread. -/
theorem wp_allocateBag (own : Own P strict v th r L S C H M) {node cls : Nat}
    (inside : node < r.geom.numNodes) (small : cls < numSizeClasses) :
    (allocLogic P strict).wp (onBump r.handle.addr node cls
      ((r.geom.nodeRegion node).allocateBag (bagSizeForClass cls))) (fun x v' => match x with
      | none => v' = v
      | some bag => (∀ b, (⟨r.handle.addr,node,cls,bag⟩ : Bag).HasSlot b →
            b ∉ H ∧ v'.ref b = some ⟨r.handle.addr,node,cls⟩) ∧
          Left P strict v v' th r L S C H
            (H ∪ {b | (⟨r.handle.addr,node,cls,bag⟩ : Bag).HasSlot b}) M) v := by
  rw [onBump_allocateBag]
  refine wp_iter (fun _ v' => v' = v) own.always rfl fun _ v' same => ?_
  subst same
  refine wp_act own.always own.keeps fun offset v' st => ?_
  subst st
  cases bag : (r.geom.nodeRegion node).nextBag (bagSizeForClass cls) offset with
  | none => exact ⟨own.always,rfl⟩
  | some bag' =>
    obtain ⟨aligned,newOffset⟩ := bag'
    refine wp_act own.always ⟨r,aligned,own.present.2.1,rfl,inside,small,bag⟩ fun done v'' st => ?_
    cases done with
    | false =>
      obtain rfl : v'' = _ := st
      exact ⟨own.always,rfl⟩
    | true =>
      simp only [step,if_true] at st
      obtain ⟨r',addr,blocks,call,start,rfl,fresh,frame⟩ := st
      obtain rfl := Option.some.inj (own.present.2.1.symm.trans call)
      have small' : max 15 (cls + 3) ≤ 64 := by
        unfold numSizeClasses at small
        omega
      have spec := NodeRegion.nextBag_spec small' (bagSizeForClass_eq small ▸ bag)
      rw [← bagSizeForClass_eq small] at spec
      obtain rfl : addr = (r.geom.nodeRegion node).base + aligned := by
        rw [start,spec.2.1,Nat.add_sub_cancel]
      have left := own.acquire (N := {b | (⟨r.handle.addr,node,cls,_⟩ : Bag).HasSlot b}) rfl small fresh
        frame
      obtain ⟨th',own',_⟩ := left.own
      refine ⟨own'.always,fun b has => ⟨fun mem => ?_,(fresh b has).2.2⟩,left⟩
      obtain ⟨B,block⟩ := own.stock.held mem
      rw [(fresh b has).1] at block
      contradiction

end Numalloc
