import Numalloc.Spec.Large

/-! Releasing a large object: its mapping goes to the cache of the thread that releases
it, or back to the kernel. -/
namespace Numalloc

open Concurrent View Logic

variable {P : Platform} {strict : Bool} {v v' : View} {th : PerThreadHeap} {r : HeapRef}
  {L S : Nat → List Nat} {C : List Nat} {H H' M M' : Set Nat} {inst id : Nat} {m : Mapping}

/-- Which header a mapping carries does not matter to the cache. -/
theorem Stock.touch (stock : Stock P strict v th L S C H M) (found : v.maps id = some m)
    (payload : Option Nat) :
    Stock P strict (v.setMap id (some { m with payload := payload })) th L S C H M := by
  have ok := stock.sane.maps found
  have held : ∀ id', (∃ m', (v.setMap id (some { m with payload := payload })).maps id' = some m') ↔
      ∃ m', v.maps id' = some m' := by
    intro id'
    by_cases same : id' = id
    · subst same
      simp [found]
    · rw [setMap_other same]
  refine ⟨⟨stock.cached.counted,stock.cached.spare,stock.cached.nodup,stock.cached.ref,
    stock.cached.large.imp fun entry id' parked => ?_,stock.cached.ids,stock.cached.cache⟩,
    stock.tight,stock.sane.setMap fun m' h => Option.some.inj h ▸
      ⟨ok.base_pos,ok.size_pos,ok.bound,ok.page,ok.whole⟩,stock.loose,fun {id'} => ?_,
    fun {id' m'} loose found' => ?_⟩
  · obtain ⟨m',found',facts⟩ := parked
    by_cases same : id' = id
    · subst same
      obtain rfl := Option.some.inj (found.symm.trans found')
      exact ⟨_,setMap_at v id' _,facts⟩
    · exact ⟨m',(setMap_other same).trans found',facts⟩
  · rw [held]
    exact stock.looseMap
  · by_cases same : id' = id
    · subst same
      rw [setMap_at] at found'
      obtain rfl := Option.some.inj found'
      have use := stock.uses loose found
      exact use
    · rw [setMap_other same] at found'
      exact stock.uses loose found'

theorem onCache_evict (cache : LargeCache) : onCache (LargeCache.evict cache) =
    match cache.entries.getLast? with
    | none => .ret ()
    | some evicted =>
      (act (.setLargeCache ⟨cache.entries.dropLast,cache.bytes - evicted.allocSize⟩)).bind fun _ =>
        act (.munmap evicted.originalPtr evicted.allocSize) := by
  unfold LargeCache.evict
  cases cache.entries.getLast? <;> rfl

theorem onCache_put (original size : Nat) : onCache (LargeCache.put original size) =
    (Prog.iter (fun _ => (act .thread).bind fun th =>
      if th.largeCache.full size then
        (onCache (LargeCache.evict th.largeCache)).bind fun _ => .ret (.inl ())
      else .ret (.inr ())) ()).bind fun (_ : Unit) => (act .thread).bind fun th =>
        if maxLargeCacheBytes < saturatingAdd th.largeCache.bytes size then .ret false
        else (act (.setLargeCache ⟨th.largeCache.entries ++ [⟨original,size⟩],
          th.largeCache.bytes + size⟩)).bind fun _ => .ret true := by
  unfold LargeCache.put onCache
  refine (Prog.lift_bind _ _ (Prog.iter _ ()) _).trans (congrArg₂ _ ?_ ?_)
  · refine congrArg (fun body => Prog.loop body () Prog.ret) ?_
    funext _
    refine congrArg (Prog.act (I := allocI) _) ?_
    funext th
    by_cases full : th.largeCache.full size = true
    · simp only [cacheRes,Prog.bind_ret,full,if_true]
      exact Prog.lift_bind _ _ (LargeCache.evict th.largeCache) _
    · simp only [cacheRes,Prog.bind_ret,full]
      rfl
  · funext _
    refine congrArg (Prog.act (I := allocI) _) ?_
    funext th
    by_cases big : maxLargeCacheBytes < saturatingAdd th.largeCache.bytes size
    · simp only [cacheRes,Prog.bind_ret,if_pos big]
      rfl
    · simp only [cacheRes,Prog.bind_ret,if_neg big]
      rfl

/-- The same heap and node, with another cache of mappings. -/
structure Recached (P : Platform) (strict : Bool) (v v' : View) (th : PerThreadHeap) (r : HeapRef)
    (L S : Nat → List Nat) (H M : Set Nat) (th' : PerThreadHeap) : Prop where
  own : ∃ C, Own P strict v' th' r L S C H M
  heap : th'.globalHeap = th.globalHeap
  node : th'.nodeId = th.nodeId
  frame : Frame v v' H M

theorem Recached.trans {v'' : View} {th' th'' : PerThreadHeap}
    (first : Recached P strict v v' th r L S H M th')
    (second : Recached P strict v' v'' th' r L S H M th'') :
    Recached P strict v v'' th r L S H M th'' :=
  ⟨second.own,second.heap.trans first.heap,second.node.trans first.node,
    first.frame.trans second.frame⟩

theorem Own.dropMap (own : Own P strict v th r L S C H M) (mem : id ∈ M) :
    Own P strict (v.setMap id none) th r L S C H (M \ {id}) := ⟨own.present,own.stock.dropMap mem⟩

/-- An eviction unmaps what leaves the array. -/
theorem wp_evict (own : Own P strict v th r L S C H M) :
    (allocLogic P strict).wp (onCache (LargeCache.evict th.largeCache))
      (fun _ v' => ∃ th', Recached P strict v v' th r L S H M th') v := by
  rw [onCache_evict]
  cases last : th.largeCache.entries.getLast? with
  | none => exact ⟨own.always,th,⟨C,own⟩,rfl,rfl,.refl _ _ _⟩
  | some evicted =>
    obtain ⟨front,entries⟩ := List.getLast?_eq_some_iff.mp last
    obtain ⟨id,last',m,found,base,size,_⟩ :=
      LargeCache.forall₂_getLast? own.stock.cached.large last
    have rest := LargeCache.forall₂_dropLast own.stock.cached.large
    obtain ⟨ids,rfl⟩ := List.getLast?_eq_some_iff.mp last'
    rw [List.dropLast_concat] at rest
    obtain ⟨nodup,_,apart⟩ := List.nodup_append.mp own.stock.cached.ids
    have fresh : id ∉ ids := fun h => apart id h id (by simp) rfl
    have out : id ∉ M := fun h => own.stock.notCachedMap h (by simp)
    have perm : th.largeCache.entries.Perm (evicted :: th.largeCache.entries.dropLast) := by
      rw [entries,List.dropLast_concat]
      exact List.perm_append_singleton evicted front
    have stock := own.stock.setCache (insert id M) rest nodup
      (own.stock.cached.cache.remove perm) fun {id'} => by
        have other := fun h : id' ∈ M => own.stock.notCachedMap h
        simp only [List.mem_append,List.mem_singleton,Set.mem_insert_iff] at other ⊢
        constructor
        · rintro (rfl | loose)
          · exact ⟨Or.inr (Or.inr rfl),fresh⟩
          · exact ⟨Or.inl loose,fun h => other loose (Or.inl h)⟩
        · tauto
    obtain ⟨own',frame⟩ := own.renewed v.blocks stock rfl rfl fun _ _ => rfl
    refine wp_setLargeCache own.present own.always ?_
    refine wp_call own'.always ⟨id,m,found,base,size⟩ fun _ v' st => ?_
    obtain ⟨id',m',at_,_,rfl⟩ := st
    obtain rfl := at_.only id m found base
    have own'' := own'.dropMap (Set.mem_insert id M)
    rw [Set.insert_sdiff_self_of_notMem out] at own''
    exact ⟨own''.always,_,⟨ids,own''⟩,rfl,rfl,frame.trans (.setMap out none)⟩

/-- A mapping in hand is parked in the cache, or stays in hand. -/
theorem wp_put (own : Own P strict v th r L S C H M) (mem : id ∈ M) (found : v.maps id = some m)
    (use : m.use = .large th.globalHeap.inst)
    (node : strict = true → maxLargeCacheBytes < m.size ∨ m.node = some th.nodeId) :
    (allocLogic P strict).wp (onCache (LargeCache.put m.base m.size)) (fun ok v' =>
      if ok then Frame v v' H (M \ {id}) ∧ v'.maps id = some m ∧
        ∃ th' C, Own P strict v' th' r L S C H (M \ {id})
      else ∃ th', Recached P strict v v' th r L S H M th') v := by
  rw [onCache_put]
  have start : ∃ th', Recached P strict v v th r L S H M th' :=
    ⟨th,⟨C,own⟩,rfl,rfl,.refl _ _ _⟩
  refine wp_seq (wp_iter (fun _ v' => ∃ th', Recached P strict v v' th r L S H M th')
    (Q := fun _ v' => ∃ th', Recached P strict v v' th r L S H M th' ∧
      ¬th'.largeCache.full m.size = true) own.always start fun _ v₁ inv => ?_)
    fun _ v₁ _ post => ?_
  · obtain ⟨th₁,re⟩ := inv
    obtain ⟨C₁,own₁⟩ := re.own
    refine wp_thread own₁ fun _ => ?_
    split
    · refine wp_seq (wp_evict own₁) fun _ v₂ always post => ?_
      obtain ⟨th₂,re₂⟩ := post
      exact ⟨always,th₂,re.trans re₂⟩
    · rename_i room
      exact ⟨own₁.always,th₁,re,room⟩
  · obtain ⟨th₁,re,room⟩ := post
    obtain ⟨C₁,own₁⟩ := re.own
    refine wp_thread own₁ fun _ => ?_
    split
    · exact ⟨own₁.always,th₁,re⟩
    · rename_i limit
      have found₁ := (re.frame.maps id mem).trans found
      have slots : th₁.largeCache.count < largeCacheSlots := by
        by_contra full
        have many : largeCacheSlots ≤ th₁.largeCache.count := by omega
        have some_ : 0 < th₁.largeCache.count := lt_of_lt_of_le (by decide) many
        exact room (by simp [LargeCache.full,many,some_])
      have ok := own₁.stock.cached.cache.add ⟨m.base,m.size⟩ slots (Nat.le_of_not_lt limit)
      have little : m.size ≤ maxLargeCacheBytes := ok.size_le (List.mem_append_right _ (List.mem_singleton.mpr rfl))
      have parked : Parked strict v₁ th₁ ⟨m.base,m.size⟩ id :=
        ⟨m,found₁,rfl,rfl,by rw [re.heap]; exact use,fun h => by
          rw [re.node]
          exact (node h).resolve_left (by omega)⟩
      have out := own₁.stock.notCachedMap mem
      have stock := own₁.stock.setCache (M \ {id})
        (List.rel_append own₁.stock.cached.large (.cons parked .nil))
        (List.nodup_append.mpr ⟨own₁.stock.cached.ids,by simp,fun a h b h' same => by
          rw [List.mem_singleton.mp h'] at same
          exact out (same ▸ h)⟩) ok fun {id'} => by
            have other := fun h : id' ∈ M => own₁.stock.notCachedMap h
            simp only [Set.mem_sdiff,Set.mem_singleton_iff,List.mem_append,List.mem_singleton]
            constructor
            · rintro ⟨loose,ne⟩
              exact ⟨Or.inl loose,fun h => h.elim (other loose) ne⟩
            · rintro ⟨loose | cached,fresh⟩
              · exact ⟨loose,fun h => fresh (Or.inr h)⟩
              · exact absurd (Or.inl cached) fresh
      obtain ⟨own₂,frame⟩ := own₁.renewed v₁.blocks stock rfl rfl fun _ _ => rfl
      refine wp_setLargeCache own₁.present own₁.always ?_
      exact ⟨own₂.always,(re.frame.trans frame).mono subset_rfl Set.sdiff_subset,found₁,_,_,own₂⟩

theorem tryCacheLarge_eq (inst original size : Nat) : tryCacheLarge inst original size =
    (act .slotGet).bind fun slot => match slot with
      | .alive th => (act (.heap inst)).bind fun heap =>
          if th.globalHeap.addr ≠ heap.handle.addr then .ret false
          else (onCache (LargeCache.put original size)).bind fun ok =>
            if ok then (if madviseThreshold ≤ size then act (.madvise original size)
              else .ret ()).bind fun _ => .ret true
            else .ret false
      | _ => .ret false := by
  unfold tryCacheLarge
  refine congrArg (Prog.act (I := allocI) _) ?_
  funext slot
  cases slot with
  | alive th =>
    refine congrArg (Prog.act (I := allocI) _) ?_
    funext heap
    by_cases other : th.globalHeap.addr ≠ heap.handle.addr
    · simp only [Prog.bind_ret,if_pos other]
      rfl
    · simp only [Prog.bind_ret,if_neg other]
      refine congrArg (Prog.bind _) ?_
      funext ok
      cases ok with
      | false => rfl
      | true =>
        by_cases big : madviseThreshold ≤ size
        · simp only [if_pos big]
          rfl
        · simp only [if_neg big]
          rfl
  | _ => rfl

/-- Only a thread whose cache belongs to the mapping's allocator parks it. -/
theorem wp_tryCacheLarge (ready : Ready P strict v inst H M) (mem : id ∈ M)
    (found : v.maps id = some m) (use : m.use = .large inst)
    (home : strict = true → ∀ th, v.slot = .alive th → th.globalHeap.inst = inst →
      maxLargeCacheBytes < m.size ∨ m.node = some th.nodeId) :
    (allocLogic P strict).wp (tryCacheLarge inst m.base m.size) (fun ok v' =>
      if ok then Frame v v' H (M \ {id}) ∧ Holds P strict v' H (M \ {id})
      else Frame v v' H M ∧ Holds P strict v' H M) v := by
  rw [tryCacheLarge_eq]
  refine wp_act ready.holds.always trivial fun slot v₁ st => ?_
  obtain ⟨rfl,rfl⟩ := st
  cases slot : v₁.slot with
  | destroyed => exact ⟨ready.holds.always,.refl _ _ _,ready.holds⟩
  | empty => exact ⟨ready.holds.always,.refl _ _ _,ready.holds⟩
  | alive th =>
    refine wp_heap ready fun r v₂ known ready₂ frame same => ?_
    have slot₂ : v₂.slot = .alive th := by rw [same]; exact slot
    by_cases other : th.globalHeap.addr ≠ r.handle.addr
    · rw [if_pos other]
      exact ⟨ready₂.holds.always,frame,ready₂.holds⟩
    rw [if_neg other]
    have handle := known.same th slot₂ (not_not.mp other)
    rcases ready₂.holds with ⟨th',L,S,C,alive,stock⟩ | bare
    · obtain rfl := ThreadHeapSlot.alive.inj (slot₂.symm.trans alive)
      have own : Own P strict v₂ th r L S C H M := ⟨⟨slot₂,known.call,handle⟩,stock⟩
      have found₂ := (frame.maps id mem).trans found
      have inst' : th.globalHeap.inst = inst := by rw [handle,known.inst]
      refine wp_seq (wp_put own mem found₂ (by rw [inst']; exact use)
        fun h => home h th slot inst') fun ok v₃ always post => ?_
      cases ok with
      | false =>
        obtain ⟨th',re⟩ := post
        obtain ⟨C',own'⟩ := re.own
        exact ⟨always,frame.trans re.frame,own'.holds⟩
      | true =>
        obtain ⟨frame',found₃,th',C',own'⟩ := post
        have frame₃ := (frame.mono subset_rfl Set.sdiff_subset).trans frame'
        by_cases big : madviseThreshold ≤ m.size
        · simp only [if_pos big]
          refine wp_act always ⟨id,m,found₃,rfl,rfl⟩ fun _ v₄ st => ?_
          obtain ⟨id',m',payload,at_,_,rfl⟩ := st
          obtain rfl := at_.only id m found₃ rfl
          obtain rfl := Option.some.inj (found₃.symm.trans at_.held)
          have own'' : Own P strict (v₃.setMap id (some { m with payload := payload })) th' r L S C' H
              (M \ {id}) := ⟨own'.present,own'.stock.touch found₃ payload⟩
          exact ⟨own''.always,frame₃.trans (.setMap (fun h => h.2 rfl) _),own''.holds⟩
        · simp only [if_neg big]
          exact ⟨always,frame₃,own'.holds⟩
    · exact absurd slot₂ (bare.slot th)

theorem deallocLarge_eq (inst ptr : Nat) : deallocLarge inst ptr =
    (act (.readHeader (ptr - headerSize))).bind fun x =>
      (tryCacheLarge inst x.1 x.2).bind fun ok =>
        if ok then .ret () else act (.munmap x.1 x.2) := rfl

/-- The extent behind the header is the mapping's own; the mapping leaves the operation. -/
theorem wp_deallocLarge (ready : Ready P strict v inst H M) (mem : id ∈ M)
    (found : v.maps id = some m) (use : m.use = .large inst) {ptr : Nat}
    (payload : m.payload = some ptr) (high : headerSize ≤ ptr)
    (home : strict = true → ∀ th, v.slot = .alive th → th.globalHeap.inst = inst →
      maxLargeCacheBytes < m.size ∨ m.node = some th.nodeId) :
    (allocLogic P strict).wp (deallocLarge inst ptr)
      (fun _ v' => Frame v v' H (M \ {id}) ∧ Holds P strict v' H (M \ {id})) v := by
  rw [deallocLarge_eq]
  have back : ptr - headerSize + headerSize = ptr := Nat.sub_add_cancel high
  refine wp_act ready.holds.always ⟨id,m,found,by rw [back]; exact payload⟩ fun x v₁ st => ?_
  obtain ⟨rfl,extent⟩ := st
  obtain rfl := extent id m found (by rw [back]; exact payload)
  refine wp_seq (wp_tryCacheLarge ready mem found use home) fun ok v₂ always post => ?_
  cases ok with
  | true => exact ⟨always,post⟩
  | false =>
    obtain ⟨frame,holds⟩ := post
    have found₂ := (frame.maps id mem).trans found
    refine wp_call always ⟨id,m,found₂,rfl,rfl⟩ fun _ v₃ st => ?_
    obtain ⟨id',m',at_,_,rfl⟩ := st
    obtain rfl := at_.only id m found₂ rfl
    have gone := holds.dropMap mem
    exact ⟨gone.always,(frame.mono subset_rfl Set.sdiff_subset).trans (.setMap (fun h => h.2 rfl) _),
      gone⟩

end Numalloc
