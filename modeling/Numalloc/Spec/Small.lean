import Numalloc.Invariant
import Numalloc.Spec.Stacks

/-! The refill of a counted list: from the spare chain, from the node's stack, or from
a fresh bag. -/
namespace Numalloc

open Concurrent View Logic

variable {P : Platform} {strict : Bool} {v v' : View} {th : PerThreadHeap} {r : HeapRef}
  {L S : Nat → List Nat} {C : List Nat} {H H' M : Set Nat} {k : StackRef} {c first last : Nat}
  {l : List Nat}

theorem freelist_bind {α : Type} (c : Nat) (k : ThreadFreelist → Prog allocI α) :
    (freelist c).bind k = (act .thread).bind fun th => k (th.freelists c) := rfl

theorem takeChain_eq (c : Nat) (k : StackRef) : takeChain c k = (act .thread).bind fun th =>
    (act (.setFreelist c { th.freelists c with spare := none })).bind fun _ =>
      match (th.freelists c).spare with
      | some first => .ret (some first)
      | none => onStack k TreiberStack.takeAll := rfl

/-- The spare chain of a class comes into the hands of the operation. -/
theorem Own.unparked (own : Own P strict v th r L S C H M) (c : Nat) : Left P strict v { v with
      slot := .alive { th with
        freelists := replace th.freelists c { th.freelists c with spare := none } } } th r L
    (replace S c []) C H (H ∪ {b | b ∈ S c}) M := by
  have nodup := own.stock.cached.nodup c
  have out : ∀ b, b ∈ H → b ∉ L c ++ S c := fun b h => own.stock.notCached h c
  have left := own.stored c { th.freelists c with spare := none } (L c) [] (H ∪ {b | b ∈ S c}) v.blocks
    own.stock (fun _ _ => rfl) (own.stock.cached.counted c) rfl
    (own.stock.tight c) (by simpa using (List.nodup_append.mp nodup).1)
    (fun b mem => own.stock.cached.ref (by simpa using Or.inl (by simpa using mem))) ?_
    (fun b mem => Or.inr (by simpa using Or.inl (by simpa using mem)))
  · rw [replace_self] at left
    exact left
  · intro b
    have := out b
    have unique : b ∈ L c → b ∉ S c := fun h h' => (List.nodup_append.mp nodup).2.2 b h b h' rfl
    simp only [Set.mem_union,Set.mem_ofPred_eq,List.append_nil,List.mem_append] at this ⊢
    tauto

/-- A chain to refill from leaves nothing parked in the class. -/
theorem wp_takeChain (own : Own P strict v th r L S C H M) (small : c < numSizeClasses) :
    (allocLogic P strict).wp (takeChain c ⟨r.handle.addr,th.nodeId,c⟩) (fun x v' => match x with
      | none => Left P strict v v' th r L S C H H M ∧ S c = []
      | some first => ∃ l S', S' c = [] ∧ l ≠ [] ∧
          Detached v' ⟨r.handle.addr,th.nodeId,c⟩ first l {b | b ∈ l} ∧ (∀ b ∈ l, b ∉ H) ∧
          Left P strict v v' th r L S' C H (H ∪ {b | b ∈ l}) M) v := by
  rw [takeChain_eq]
  refine wp_thread own fun inside => ?_
  refine wp_setFreelist own.present own.always ?_
  have nodup := own.stock.cached.nodup c
  have parked := own.stock.cached.spare c
  have out : ∀ b, b ∈ H → b ∉ L c ++ S c := fun b h => own.stock.notCached h c
  have left := own.unparked c
  obtain ⟨th₁,own₁,node⟩ := left.own
  cases spare : (th.freelists c).spare with
  | some first =>
    rw [spare] at parked
    refine ⟨own₁.always,S c,replace S c [],replace_same,?_,⟨parked,?_,?_,fun _ h => h⟩,?_,left⟩
    · intro empty
      rw [empty] at parked
      exact absurd parked (by simp)
    · exact (List.nodup_append.mp nodup).2.1
    · exact fun b mem => own.ref (List.mem_append_right _ mem)
    · exact fun b mem loose => out b loose (List.mem_append_right _ mem)
  | none =>
    have empty : S c = [] := by
      rw [spare] at parked
      exact List.head?_eq_none_iff.mp parked.head.symm
    have same : replace S c [] = S := by rw [← empty,replace_self]
    have unchanged : H ∪ {b | b ∈ S c} = H := by simp [empty]
    rw [same,unchanged] at left own₁
    refine wp_mono (wp_takeAll own₁ rfl inside small) fun x v' _ post => ?_
    cases x with
    | none =>
      obtain rfl : v' = _ := post
      exact ⟨left,empty⟩
    | some head =>
      obtain ⟨l,nonempty,detached,fresh,more⟩ := post
      exact ⟨l,S,empty,nonempty,detached,fresh,left.trans more node⟩

/-! The walk that splits a long chain. -/

theorem refillWalk_eq (c first : Nat) : refillWalk c first = .iter (fun x =>
    (act (.link (.readNext x.1))).bind fun next =>
      if refillBatch ≤ x.2 then
        (act .thread).bind fun th =>
          (act (.setFreelist c { th.freelists c with spare := next })).bind fun _ =>
            (act (.link (.writeNext x.1 none))).bind fun _ => .ret (.inr (x.1,x.2))
      else
        match next with
        | some n => .ret (.inl (n,x.2 + 1))
        | none => .ret (.inr (x.1,x.2))) (first,1) := by
  simp only [refillWalk]
  congr 1
  funext x
  refine congrArg (Prog.act (I := allocI) _) ?_
  funext next
  by_cases full : refillBatch ≤ x.2
  · simp only [if_pos full]
    rfl
  · simp only [if_neg full]
    cases next <;> rfl

/-- The walk keeps as many blocks as it may and parks the rest. -/
theorem wp_refillWalk_batch (own : Own P strict v th r L S C H M) (parked : S c = []) (nonempty : l ≠ [])
    (chain : Detached v ⟨r.handle.addr,th.nodeId,c⟩ first l H) :
    (allocLogic P strict).wp (refillWalk c first) (fun x v' => ∃ front back,
      l = front ++ back ∧ front.length = x.2 ∧
      (x.2 ≤ refillBatch ∧ (back ≠ [] → x.2 = refillBatch)) ∧
      Held v' ⟨r.handle.addr,th.nodeId,c⟩ first x.1 front H ∧
      Left P strict v v' th r L (replace S c back) C (H \ {b | b ∈ back}) (H \ {b | b ∈ back}) M) v := by
  rw [refillWalk_eq]
  refine wp_iter (fun x v' => v' = v ∧ ∃ front back, l = front ++ [x.1] ++ back ∧
    front.length + 1 = x.2 ∧ x.2 ≤ refillBatch) own.always ⟨rfl,?_⟩ fun x v' inv => ?_
  · cases l with
    | nil => contradiction
    | cons b rest =>
      obtain rfl := Option.some.inj chain.links.head_cons
      exact ⟨[],rest,rfl,rfl,show 1 ≤ refillBatch by decide⟩
  obtain ⟨rfl,front,back,list,length,bound⟩ := inv
  have links := chain.links
  rw [list] at links
  obtain ⟨y,before,after⟩ := links_append.mp links
  obtain ⟨z,first_,at_,next,link,same⟩ := links_append.mp before
  obtain rfl := links_nil.mp same
  have nodup := chain.nodup
  rw [list] at nodup
  obtain ⟨nodupFront,nodupBack,apart⟩ := List.nodup_append.mp nodup
  have mem : ∀ b, b ∈ l ↔ b ∈ front ++ [x.1] ∨ b ∈ back := fun b => by
    rw [list,List.mem_append]
  have tail : x.1 ∈ front ++ [x.1] := by simp
  have held : Held v' ⟨r.handle.addr,th.nodeId,c⟩ first x.1 (front ++ [x.1]) H :=
    ⟨⟨front,rfl,at_ ▸ first_⟩,nodupFront,fun b h => chain.ref b ((mem b).mpr (Or.inl h)),
      fun b h => chain.loose b ((mem b).mpr (Or.inl h))⟩
  refine wp_act own.always ⟨_,link⟩ fun next v'' st => ?_
  obtain ⟨rfl,link'⟩ := st
  obtain rfl := Option.some.inj (link.symm.trans link')
  by_cases full : refillBatch ≤ x.2
  · rw [if_pos full]
    refine wp_thread own fun _ => wp_setFreelist own.present own.always ?_
    have left := own.stored c { th.freelists c with spare := next } (L c) back (H \ {b | b ∈ back})
      v''.blocks
      own.stock (fun _ _ => rfl) (own.stock.cached.counted c) after (own.stock.tight c) ?_ ?_ ?_ ?_
    · rw [replace_self] at left
      obtain ⟨th₁,own₁,node⟩ := left.own
      have loose : x.1 ∈ H \ {b | b ∈ back} :=
        ⟨held.loose _ tail,fun h => apart x.1 tail x.1 h rfl⟩
      obtain ⟨B,block⟩ := own₁.stock.held loose
      refine wp_act own₁.always ⟨⟨B,block⟩,by simp⟩ fun _ v' st => ?_
      subst st
      have ended := own₁.linked loose (some none)
      obtain ⟨th₂,own₂,_⟩ := ended.own
      have left' := (left.mono Set.sdiff_subset).trans ended node
      exact ⟨own₂.always,front ++ [x.1],back,list,by simpa using length,
        ⟨bound,fun _ => Nat.le_antisymm bound full⟩,
        (held.setLink (some none) block).congr rfl,left'⟩
    · refine List.nodup_append.mpr ⟨(List.nodup_append.mp (own.stock.cached.nodup c)).1,nodupBack,?_⟩
      rintro b h b' h' rfl
      exact own.stock.notCached (chain.loose b ((mem b).mpr (Or.inr h'))) c (List.mem_append_left _ h)
    · intro b h
      rw [own.present.2.2]
      rcases List.mem_append.mp h with h | h
      · exact own.ref (List.mem_append_left _ h)
      · exact chain.ref b ((mem b).mpr (Or.inr h))
    · intro b
      have out : b ∈ H → b ∉ L c ++ S c := fun h => own.stock.notCached h c
      simp only [parked,Set.mem_sdiff,Set.mem_ofPred_eq,List.append_nil,List.mem_append] at out ⊢
      tauto
    · intro b h
      rcases List.mem_append.mp h with h | h
      · exact Or.inr (List.mem_append_left _ h)
      · exact Or.inl (chain.loose b ((mem b).mpr (Or.inr h)))
  · rw [if_neg full]
    cases next with
    | some n =>
      cases back with
      | nil => exact absurd after (by simp)
      | cons b back =>
        obtain rfl := Option.some.inj after.head_cons
        exact ⟨own.always,rfl,front ++ [x.1],back,by simp [list],by simpa using length,by omega⟩
    | none =>
      obtain rfl : back = [] := List.head?_eq_none_iff.mp after.head.symm
      have same : replace S c [] = S := by rw [← parked,replace_self]
      refine ⟨own.always,front ++ [x.1],[],list,by simpa using length,⟨bound,by simp⟩,held,?_⟩
      rw [same]
      simpa using own.left

/-- The walk keeps a prefix and parks the rest. -/
theorem wp_refillWalk (own : Own P strict v th r L S C H M) (parked : S c = []) (nonempty : l ≠ [])
    (chain : Detached v ⟨r.handle.addr,th.nodeId,c⟩ first l H) :
    (allocLogic P strict).wp (refillWalk c first) (fun x v' => ∃ front back,
      l = front ++ back ∧ front.length = x.2 ∧
      Held v' ⟨r.handle.addr,th.nodeId,c⟩ first x.1 front H ∧
      Left P strict v v' th r L (replace S c back) C (H \ {b | b ∈ back}) (H \ {b | b ∈ back}) M) v :=
  wp_mono (wp_refillWalk_batch own parked nonempty chain)
    fun _ _ _ ⟨front,back,list,length,_,rest⟩ => ⟨front,back,list,length,rest⟩

/-- The block at the head of the counted list, for the caller. -/
theorem wp_popUnwrap_head (own : Own P strict v th r L S C H M) {b : Nat} (list : L c = b :: l) :
    (allocLogic P strict).wp (popUnwrap c) (fun x v' => x = b ∧ b ∉ H ∧
      v'.ref b = some ⟨r.handle.addr,th.nodeId,c⟩ ∧
      Left P strict v v' th r (replace L c l) S C H (insert b H) M) v := by
  have pop : popUnwrap c = (freelistMut c ThreadFreelist.pop).bind fun x => links (unwrap x) := rfl
  rw [pop]
  refine wp_seq (wp_pop own c) fun x v' always post => ?_
  cases x with
  | none =>
    obtain ⟨_,empty⟩ := post
    rw [list] at empty
    contradiction
  | some b' =>
    obtain ⟨l',list',fresh,ref,left⟩ := post
    obtain ⟨rfl,rfl⟩ := List.cons_eq_cons.mp (list.symm.trans list')
    exact ⟨always,rfl,fresh,ref,left⟩

/-- A block for the caller, from a counted list that has one. -/
theorem wp_popUnwrap (own : Own P strict v th r L S C H M) (some_left : L c ≠ []) :
    (allocLogic P strict).wp (popUnwrap c) (fun b v' => ∃ L', b ∉ H ∧
      v'.ref b = some ⟨r.handle.addr,th.nodeId,c⟩ ∧
      Left P strict v v' th r L' S C H (insert b H) M) v := by
  obtain ⟨b,l,list⟩ := List.exists_cons_of_ne_nil some_left
  refine wp_mono (wp_popUnwrap_head own list) fun x v' _ post => ?_
  obtain ⟨rfl,fresh,ref,left⟩ := post
  exact ⟨_,fresh,ref,left⟩

/-- A refill hands out the first block of the chain, counts the rest of the batch, and parks
what is behind it. -/
theorem wp_refill_batch (own : Own P strict v th r L S C H M) (parked : S c = []) {b : Nat}
    {sp : List Nat} (chain : Detached v ⟨r.handle.addr,th.nodeId,c⟩ first (b :: sp) H) :
    (allocLogic P strict).wp (refill c first) (fun x v' => x = b ∧ b ∉ H \ {b' | b' ∈ b :: sp} ∧
      v'.ref b = some ⟨r.handle.addr,th.nodeId,c⟩ ∧
      Left P strict v v' th r (replace L c (sp.take (refillBatch - 1) ++ L c))
        (replace S c (sp.drop (refillBatch - 1))) C (H \ {b' | b' ∈ b :: sp})
        (insert b (H \ {b' | b' ∈ b :: sp})) M) v := by
  have split : refill c first = (refillWalk c first).bind fun x =>
      (freelistDo c fun fl => fl.pushChain first x.1 x.2).bind fun _ => popUnwrap c := rfl
  rw [split]
  refine wp_seq (wp_refillWalk_batch own parked (List.cons_ne_nil b sp) chain)
    fun x v₁ _ walked => ?_
  obtain ⟨front,back,list,length,⟨bound,full⟩,held,left₁⟩ := walked
  obtain ⟨th₁,own₁,node₁⟩ := left₁.own
  have nodupChain := chain.nodup
  rw [list] at nodupChain
  obtain ⟨nodup,_,apart⟩ := List.nodup_append.mp nodupChain
  have held₁ : Held v₁ ⟨r.handle.addr,th₁.nodeId,c⟩ first x.1 front (H \ {b | b ∈ back}) := by
    rw [node₁]
    exact ⟨held.links,nodup,held.ref,fun b h => ⟨held.loose b h,fun h' => apart b h b h' rfl⟩⟩
  refine wp_seq (wp_pushChain own₁ held₁ length) fun _ v₂ _ left₂ => ?_
  obtain ⟨th₂,own₂,node₂⟩ := left₂.own
  have rest : (H \ {b | b ∈ back}) \ {b | b ∈ front} = H \ {b' | b' ∈ b :: sp} := by
    rw [list]
    ext b
    simp only [Set.mem_sdiff,Set.mem_ofPred_eq,List.mem_append]
    tauto
  rw [rest] at own₂ left₂
  have sub : H \ {b' | b' ∈ b :: sp} ⊆ H \ {b | b ∈ back} := fun b h =>
    ⟨h.1,fun h' => h.2 (by rw [list]; exact List.mem_append_right _ h')⟩
  obtain ⟨front,rfl⟩ : ∃ front', front = b :: front' := by
    cases front with
    | nil => exact absurd held.last_mem List.not_mem_nil
    | cons b' front' =>
      obtain ⟨rfl,_⟩ := List.cons_eq_cons.mp list
      exact ⟨front',rfl⟩
  obtain rfl : sp = front ++ back := (List.cons_eq_cons.mp list).2
  -- the walk stops short of a full batch only at the end of the chain
  have cut : (front ++ back).take (refillBatch - 1) = front ∧
      (front ++ back).drop (refillBatch - 1) = back := by
    rw [List.length_cons] at length
    by_cases more : back = []
    · subst more
      rw [List.append_nil,List.take_of_length_le (by omega),List.drop_of_length_le (by omega)]
      exact ⟨rfl,rfl⟩
    · have := full more
      rw [← show front.length = refillBatch - 1 by omega]
      exact ⟨List.take_left,List.drop_left⟩
  rw [cut.1,cut.2]
  have top : replace L c (b :: front ++ L c) c = b :: (front ++ L c) := by simp
  refine wp_mono (wp_popUnwrap_head own₂ top) fun x v₃ _ popped => ?_
  obtain ⟨rfl,fresh,ref,left₃⟩ := popped
  rw [replace_twice] at left₃
  refine ⟨rfl,fresh,?_,(left₁.mono sub).trans ((left₂.mono sub).trans left₃ node₂) node₁⟩
  rw [ref,node₂,node₁]

theorem wp_refill (own : Own P strict v th r L S C H M) (parked : S c = []) (nonempty : l ≠ [])
    (chain : Detached v ⟨r.handle.addr,th.nodeId,c⟩ first l H) :
    (allocLogic P strict).wp (refill c first) (fun b v' => ∃ L' S', b ∉ H \ {b | b ∈ l} ∧
      v'.ref b = some ⟨r.handle.addr,th.nodeId,c⟩ ∧
      Left P strict v v' th r L' S' C (H \ {b | b ∈ l}) (insert b (H \ {b | b ∈ l})) M) v := by
  obtain ⟨b,sp,rfl⟩ := List.exists_cons_of_ne_nil nonempty
  refine wp_mono (wp_refill_batch own parked chain) fun x v' _ post => ?_
  obtain ⟨rfl,fresh,ref,left⟩ := post
  exact ⟨_,_,fresh,ref,left⟩

/-! Carving a bag. -/

/-- The objects of a bag from the `i`-th on. -/
def rest (bag size i n : Nat) : Set Nat := {b | ∃ j, i ≤ j ∧ j < i + n ∧ b = bag + j * size}

/-- Carving puts that many blocks on the counted list. -/
theorem wp_carve_length {bag size : Nat} (pos : 0 < size) {n : Nat} : ∀ {v th L i} {H : Set Nat},
    Own P strict v th r L S C H M → (∀ b ∈ rest bag size i n,
      b ∈ H ∧ v.ref b = some ⟨r.handle.addr,th.nodeId,c⟩) →
    (allocLogic P strict).wp (carve c bag size i n) (fun _ v' => ∃ l, l.length = (L c).length + n ∧
      Left P strict v v' th r (replace L c l) S C (H \ rest bag size i n) (H \ rest bag size i n) M) v := by
  induction n with
  | zero =>
    intro v th L i H own _
    have none_left : H \ rest bag size i 0 = H := by
      ext b
      simp only [Set.mem_sdiff,and_iff_left_iff_imp]
      rintro _ ⟨j,low,high,_⟩
      omega
    rw [none_left]
    exact ⟨own.always,L c,rfl,by rw [replace_self]; exact own.left⟩
  | succ n ih =>
    intro v th L i H own mine
    have step : carve c bag size i (n + 1) = (freelistDo c fun fl => fl.push (bag + i * size)).bind
        fun _ => carve c bag size (i + 1) n := rfl
    rw [step]
    obtain ⟨loose,ref⟩ := mine (bag + i * size) ⟨i,le_rfl,by omega,rfl⟩
    refine wp_seq (wp_push own loose ref) fun _ v₁ _ left => ?_
    obtain ⟨th₁,own₁,node⟩ := left.own
    have later : ∀ b ∈ rest bag size (i + 1) n, b ∈ rest bag size i (n + 1) ∧ b ≠ bag + i * size := by
      rintro b ⟨j,low,high,rfl⟩
      refine ⟨⟨j,by omega,by omega,rfl⟩,fun same => ?_⟩
      have := Nat.eq_of_mul_eq_mul_right pos (Nat.add_left_cancel same)
      omega
    have split : (H \ {bag + i * size}) \ rest bag size (i + 1) n = H \ rest bag size i (n + 1) := by
      ext b
      simp only [Set.mem_sdiff,Set.mem_singleton_iff]
      constructor
      · rintro ⟨⟨mem,ne⟩,out⟩
        refine ⟨mem,?_⟩
        rintro ⟨j,low,high,rfl⟩
        rcases Nat.eq_or_lt_of_le low with rfl | lt
        · exact ne rfl
        · exact out ⟨j,lt,by omega,rfl⟩
      · rintro ⟨mem,out⟩
        refine ⟨⟨mem,?_⟩,fun h => out (later b h).1⟩
        rintro rfl
        exact out ⟨i,le_rfl,by omega,rfl⟩
    refine wp_mono (ih own₁ fun b mem => ?_) fun _ v₂ _ post => ?_
    · obtain ⟨inside,ne⟩ := later b mem
      obtain ⟨loose',ref'⟩ := mine b inside
      refine ⟨⟨loose',ne⟩,?_⟩
      rw [left.frame.ref b loose',ref',node]
    · obtain ⟨l,length,left'⟩ := post
      rw [split,replace_twice] at left'
      rw [replace_same,List.length_cons] at length
      exact ⟨l,by omega,(left.mono Set.sdiff_subset).trans left' node⟩

theorem wp_carve {bag size : Nat} (pos : 0 < size) {n : Nat} {i : Nat}
    (own : Own P strict v th r L S C H M) (mine : ∀ b ∈ rest bag size i n,
      b ∈ H ∧ v.ref b = some ⟨r.handle.addr,th.nodeId,c⟩) :
    (allocLogic P strict).wp (carve c bag size i n) (fun _ v' => ∃ L', (L c ≠ [] ∨ 0 < n → L' c ≠ []) ∧
      Left P strict v v' th r L' S C (H \ rest bag size i n) (H \ rest bag size i n) M) v := by
  refine wp_mono (wp_carve_length pos own mine) fun _ v' _ post => ?_
  obtain ⟨l,length,left⟩ := post
  refine ⟨_,fun some_ => ?_,left⟩
  rw [replace_same,← List.length_pos_iff,length]
  rcases some_ with old | new
  · have := List.length_pos_iff.mpr old
    omega
  · omega

theorem mem_rest {cls bag b : Nat} (small : cls < numSizeClasses) {heap node : Nat} :
    b ∈ rest bag (sizeForClass cls) 0 (bagSizeForClass cls / sizeForClass cls) ↔
      (⟨heap,node,cls,bag⟩ : Bag).HasSlot b := by
  rw [← (Bag.mem_objects small : b ∈ (⟨heap,node,cls,bag⟩ : Bag).objects ↔ _)]
  simp only [rest,Set.mem_ofPred_eq,Bag.objects,objectsPerBag,List.mem_map,List.mem_range]
  constructor
  · rintro ⟨j,_,high,rfl⟩
    exact ⟨j,by omega,rfl⟩
  · rintro ⟨j,high,rfl⟩
    exact ⟨j,Nat.zero_le _,by omega,rfl⟩

/-! Freeing on the block's own node. -/

theorem maxThreadCache_pos (c : Nat) : 0 < maxThreadCache c / 2 := by
  unfold maxThreadCache
  simp only
  split
  · decide
  · split
    · decide
    · omega

theorem deallocLocal_eq (k : StackRef) (block : Nat) : deallocLocal k block =
    (freelistDo k.cls fun fl => fl.push block).bind fun _ => (act .thread).bind fun th =>
      if maxThreadCache k.cls < (th.freelists k.cls).count then
        (freelistMut k.cls fun fl => fl.drain (maxThreadCache k.cls / 2)).bind fun x => match x with
          | some (head,tail,_) => onStack k (TreiberStack.pushChain head tail)
          | none => .ret ()
      else .ret () := rfl

theorem wp_deallocLocal (own : Own P strict v th r L S C H M) {b : Nat} (loose : b ∈ H)
    (ref : v.ref b = some k) (heap : k.heap = r.handle.addr) (node : k.node = th.nodeId) :
    (allocLogic P strict).wp (deallocLocal k b) (fun _ v' =>
      ∃ L', Left P strict v v' th r L' S C (H \ {b}) (H \ {b}) M) v := by
  obtain ⟨heap',node',c⟩ := k
  simp only at heap node
  subst heap node
  rw [deallocLocal_eq]
  refine wp_seq (wp_push own loose ref) fun _ v₁ _ left₁ => ?_
  obtain ⟨th₁,own₁,node₁⟩ := left₁.own
  have pushed := left₁.mono (show H \ {b} ⊆ H from Set.sdiff_subset)
  refine wp_thread own₁ fun _ => ?_
  split
  · refine wp_seq (wp_drain own₁ (maxThreadCache_pos c)) fun x v₂ _ drained => ?_
    cases x with
    | none =>
      obtain rfl : v₂ = v₁ := drained
      exact ⟨own₁.always,_,pushed⟩
    | some chain =>
      obtain ⟨first,last,n⟩ := chain
      obtain ⟨l,back,list,held,left₂⟩ := drained
      obtain ⟨th₂,own₂,node₂⟩ := left₂.own
      have out : ∀ b' ∈ H \ {b}, b' ∉ back := fun b' h mem =>
        own₁.stock.notCached h c (List.mem_append_left _ (list ▸ List.mem_append_right _ mem))
      have returned : (H \ {b} ∪ {b | b ∈ back}) \ {b | b ∈ back} = H \ {b} := by
        ext b'
        have := out b'
        simp only [Set.mem_sdiff,Set.mem_union,Set.mem_ofPred_eq] at this ⊢
        tauto
      have held₂ : Held v₂ ⟨r.handle.addr,th.nodeId,c⟩ first last back (H \ {b} ∪ {b | b ∈ back}) :=
        ⟨held.links,held.nodup,node₁ ▸ held.ref,fun b' h => Or.inr h⟩
      refine wp_mono (own₂.publish rfl held₂) fun _ v₃ _ left₃ => ?_
      rw [returned] at left₃
      exact ⟨_,(pushed.trans left₂ node₁).trans left₃ (node₂.trans node₁)⟩
  · exact ⟨own₁.always,_,pushed⟩

end Numalloc
