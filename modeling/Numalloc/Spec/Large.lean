import Numalloc.Spec.Binding

/-! Large objects: the payload inside its mapping, the cache of mappings, and the paths
of allocation and release through them. -/
namespace Numalloc

open Concurrent View Logic

variable {P : Platform} {strict : Bool} {v v' : View} {th : PerThreadHeap} {r : HeapRef}
  {L S : Nat → List Nat} {C : List Nat} {H H' M M' : Set Nat} {inst id : Nat} {m : Mapping}
  {layout : Layout} {α : Type}

/-! Where the payload goes. -/

theorem Layout.align_bound (layout : Layout) : layout.align ≤ 2 ^ 63 := by
  have bounded := layout.bounded
  unfold isizeMax at bounded
  omega

/-- The alignment of the payload is a power of two, the header's included. -/
theorem Layout.large_align (layout : Layout) :
    ∃ k ≤ 64, max layout.align headerAlign = 2 ^ k ∧ 3 ≤ k := by
  obtain ⟨k,pow⟩ := layout.pow
  have bound := layout.align_bound
  rw [pow] at bound ⊢
  have small : k ≤ 63 := (Nat.pow_le_pow_iff_right (by omega)).mp bound
  rw [show headerAlign = 2 ^ 3 from rfl]
  rcases Nat.le_total k 3 with low | high
  · exact ⟨3,by omega,Nat.max_eq_right (Nat.pow_le_pow_right (by omega) low),le_rfl⟩
  · exact ⟨k,by omega,Nat.max_eq_left (Nat.pow_le_pow_right (by omega) high),high⟩

/-- The size asked of the kernel covers header, alignment slack and payload. -/
theorem largeAllocSize_spec {needed : Nat} (h : largeAllocSize P layout = some needed) :
    headerSize + (max layout.align headerAlign - 1) + layout.size ≤ needed ∧ P.pageSize ∣ needed ∧
      0 < needed := by
  simp only [largeAllocSize,Option.bind_eq_bind,Option.bind_eq_some_iff,checkedAdd_eq_some,
    Option.ite_none_right_eq_some,Option.some.injEq] at h
  obtain ⟨_,⟨_,rfl⟩,_,⟨_,rfl⟩,_,⟨word,rfl⟩,_,rfl⟩ := h
  unfold usizeMax at word
  have high := P.high
  have ge := alignUp_ge P.pow (by omega) (x := headerSize + (max layout.align headerAlign - 1) +
    layout.size) (by omega)
  have dvd := dvd_alignUp P.pow (by omega) (x := headerSize + (max layout.align headerAlign - 1) +
    layout.size) (by omega)
  unfold alignUp at ge dvd
  refine ⟨ge,dvd,lt_of_lt_of_le ?_ ge⟩
  unfold headerSize
  omega

theorem payloadAddr_spec {needed raw size : Nat} (fits : largeAllocSize P layout = some needed)
    (le : needed ≤ size) (bound : raw + size ≤ 2 ^ 48) :
    raw + headerSize ≤ payloadAddr raw layout ∧ payloadAddr raw layout < raw + size ∧
      payloadAddr raw layout + layout.size ≤ raw + size ∧ layout.align ∣ payloadAddr raw layout ∧
      P.pageSize ∣ needed := by
  obtain ⟨k,small,pow,three⟩ := layout.large_align
  obtain ⟨covers,page,_⟩ := largeAllocSize_spec fits
  have positive : 0 < max layout.align headerAlign := pow ▸ Nat.two_pow_pos k
  have step : payloadAddr raw layout = alignUp (raw + headerSize) (max layout.align headerAlign) := by
    simp only [payloadAddr,alignUp]
    congr 1
    omega
  have word : raw + headerSize + (max layout.align headerAlign - 1) < 2 ^ 64 := by omega
  have ge := alignUp_ge pow small word
  have upper := alignUp_le pow small word
  have dvd := dvd_alignUp pow small word
  rw [← step] at ge upper dvd
  refine ⟨ge,?_,by omega,?_,page⟩
  · -- a request of no bytes: the size is a multiple of eight, the bound before it is not
    have eight : 8 ∣ max layout.align headerAlign := pow ▸ Nat.pow_dvd_pow 2 three
    have eight' : 8 ∣ needed :=
      Dvd.dvd.trans (P.pow ▸ Nat.pow_dvd_pow 2 (le_trans (by decide : 3 ≤ 12) P.low)) page
    unfold headerSize at *
    omega
  · obtain ⟨j,align⟩ := layout.pow
    refine Dvd.dvd.trans ?_ dvd
    rcases Nat.le_total layout.align headerAlign with low | high
    · rw [Nat.max_eq_right low]
      rw [align,show headerAlign = 2 ^ 3 from rfl] at low ⊢
      exact Nat.pow_dvd_pow 2 ((Nat.pow_le_pow_iff_right (by omega)).mp low)
    · rw [Nat.max_eq_left high]

/-! Mappings in hand, with or without a cache. -/

/-- What can be said of any stock can be said of a thread without one. -/
theorem Holds.lift (holds : Holds P strict v H M) (slot : v'.slot = v.slot)
    (each : ∀ {th L S C}, Stock P strict v th L S C H M → Stock P strict v' th L S C H' M') :
    Holds P strict v' H' M' := by
  rcases holds with ⟨th,L,S,C,alive,stock⟩ | bare
  · exact Or.inl ⟨th,L,S,C,slot.trans alive,each stock⟩
  · have taken : Taken P strict v' (.new 0 ⟨0,0⟩) (fun _ => []) (fun _ => []) [] H' M' :=
      ⟨each (bare.stock 0 ⟨0,0⟩),fun th alive => bare.slot th (slot.symm.trans alive)⟩
    exact Or.inr (taken.bare fun _ => rfl)

theorem Holds.held (holds : Holds P strict v H M) {b : Nat} (mem : b ∈ H) :
    ∃ B, v.blocks b = some B := by
  rcases holds with ⟨_,_,_,_,_,stock⟩ | bare
  · exact stock.held mem
  · exact bare.loose.mp mem

theorem Holds.heldMap (holds : Holds P strict v H M) (mem : id ∈ M) :
    ∃ m, v.maps id = some m ∧ MapOk P m ∧ ∃ i, m.use = .large i := by
  have sane := holds.always.1
  rcases holds with ⟨_,_,_,_,_,stock⟩ | bare
  · obtain ⟨m,found⟩ := stock.heldMap mem
    exact ⟨m,found,sane.maps found,stock.large found⟩
  · obtain ⟨m,found⟩ := bare.looseMap.mp mem
    exact ⟨m,found,sane.maps found,bare.uses found⟩

/-- A mapping in hand is updated. -/
theorem Holds.setMap (holds : Holds P strict v H M) (mem : id ∈ M) (ok : MapOk P m)
    (use : ∃ i, m.use = .large i) : Holds P strict (v.setMap id (some m)) H M := by
  refine holds.lift rfl fun stock => ?_
  have held := stock.holdMap (stock.notCachedMap mem) ok use
  rwa [Set.insert_eq_of_mem mem] at held

/-- A mapping comes to hand. -/
theorem Holds.gainMap (holds : Holds P strict v H M) (fresh : v.maps id = none) (ok : MapOk P m)
    (use : ∃ i, m.use = .large i) : Holds P strict (v.setMap id (some m)) H (insert id M) := by
  refine holds.lift rfl fun stock => stock.holdMap (fun cached => ?_) ok use
  obtain ⟨_,_,m',found,_⟩ := stock.cached.parked cached
  rw [fresh] at found
  contradiction

theorem Holds.dropMap (holds : Holds P strict v H M) (mem : id ∈ M) :
    Holds P strict (v.setMap id none) H (M \ {id}) :=
  holds.lift rfl fun stock => stock.dropMap mem

theorem Holds.fresh (holds : Holds P strict v H M) (fresh : v.maps id = none) : id ∉ M := by
  intro mem
  obtain ⟨m,found,_⟩ := holds.heldMap mem
  rw [fresh] at found
  contradiction

/-- The frame does not speak about this mapping. -/
theorem Frame.setMap (out : id ∉ M) (x : Option Mapping) : Frame v (v.setMap id x) H M :=
  ⟨rfl,fun h => h,rfl,rfl,rfl,fun _ _ => rfl,
    fun _ mem => setMap_other fun same => out (same ▸ mem),fun present => ⟨_,present,rfl⟩,fun h => h⟩

/-- The mapping is bound where the thread runs, as far as that is asked for, or the thread
will not allocate from a node again. -/
def Fixed (strict : Bool) (v : View) (m : Mapping) : Prop :=
  (∃ th r, v.Present th r ∧ (strict = true → m.node = some th.nodeId)) ∨ v.slot = .destroyed

theorem Frame.fixed (frame : Frame v v' H M) (fixed : Fixed strict v m) : Fixed strict v' m := by
  rcases fixed with ⟨th,r,present,node⟩ | gone
  · obtain ⟨th',present',same⟩ := frame.stay present
    exact Or.inl ⟨th',r,present',fun h => by rw [same]; exact node h⟩
  · exact Or.inr (frame.gone gone)

/-- What an allocation comes back with, and what the operation holds from then on. -/
inductive Obtained (P : Platform) (strict : Bool) (v : View) (layout : Layout) (p : Nat)
    (H M : Set Nat) : Set Nat → Set Nat → Prop where
  | block {th : PerThreadHeap} {r : HeapRef} {c : Nat} (fresh : p ∉ H) (present : v.Present th r)
      (ref : v.ref p = some ⟨r.handle.addr,th.nodeId,c⟩)
      (cls : sizeClassIndex layout.effective = some c) :
      Obtained P strict v layout p H M (insert p H) M
  | mapping {id : Nat} {m : Mapping} {inst : Nat} (fresh : id ∉ M) (found : v.maps id = some m)
      (payload : m.payload = some p) (called : v.call.inst = some inst)
      (use : m.use = .large inst) (placed : Placed P m p layout) (fixed : Fixed strict v m) :
      Obtained P strict v layout p H M H (insert id M)

/-- The outcome of an allocation. -/
def Answered (P : Platform) (strict : Bool) (v v' : View) (layout : Layout) (H M : Set Nat) :
    Option Nat → Prop
  | none => Frame v v' H M ∧ Holds P strict v' H M
  | some p => Frame v v' H M ∧
      ∃ H' M', Holds P strict v' H' M' ∧ Obtained P strict v' layout p H M H' M'

theorem Answered.after {v'' : View} {x : Option Nat} (frame : Frame v v' H M)
    (answered : Answered P strict v' v'' layout H M x) : Answered P strict v v'' layout H M x := by
  cases x with
  | none => exact ⟨frame.trans answered.1,answered.2⟩
  | some p => exact ⟨frame.trans answered.1,answered.2⟩

theorem prepareLargePayload_bind (raw size : Nat) (layout : Layout) (k : Nat → Prog allocI α) :
    (prepareLargePayload raw size layout).bind k =
      (act (.writeHeader (payloadAddr raw layout - headerSize) raw size)).bind fun _ =>
        k (payloadAddr raw layout) := rfl

/-- Writing the header of a mapping in hand. -/
theorem wp_prepare {k : Nat → Prog allocI α} {Q : α → View → Prop} {needed : Nat}
    (holds : Holds P strict v H M) (mem : id ∈ M) (found : v.maps id = some m)
    (fits : largeAllocSize P layout = some needed) (low : needed ≤ m.size)
    (slack : m.size ≤ needed + LargeCache.closeSizeTolerance)
    (next : ∀ p, Placed P m p layout →
      Holds P strict (v.setMap id (some { m with payload := some p })) H M →
      (allocLogic P strict).wp (k p) Q (v.setMap id (some { m with payload := some p }))) :
    (allocLogic P strict).wp ((prepareLargePayload m.base m.size layout).bind k) Q v := by
  obtain ⟨m',found',ok,use⟩ := holds.heldMap mem
  obtain rfl := Option.some.inj (found.symm.trans found')
  obtain ⟨low',inside,room,aligned,_⟩ := payloadAddr_spec fits low ok.bound
  have back : payloadAddr m.base layout - headerSize + headerSize = payloadAddr m.base layout := by
    omega
  rw [prepareLargePayload_bind]
  refine wp_act holds.always ⟨id,m,found,rfl,rfl,use,by omega,by omega⟩ fun _ v' st => ?_
  obtain ⟨id',m',at_,_,rfl⟩ := st
  obtain rfl := at_.only id m found rfl
  obtain rfl := Option.some.inj (found.symm.trans at_.held)
  rw [back]
  exact next _ ⟨⟨needed,fits,low,slack⟩,low',inside,room,aligned⟩
    (holds.setMap mem ⟨ok.base_pos,ok.size_pos,ok.bound,ok.page,ok.whole⟩ use)

theorem setMap_twice (id : Nat) (x y : Option Mapping) : (v.setMap id x).setMap id y = v.setMap id y := by
  simp only [View.setMap,replace_twice]

theorem mapLarge_eq (needed node : Nat) (layout : Layout) : mapLarge needed node layout =
    (act (.mmap needed)).bind fun raw => match raw with
      | none => .ret (none,false)
      | some raw => (act (.bindToNode raw needed node)).bind fun _ =>
          (prepareLargePayload raw needed layout).bind fun payload => .ret (some payload,false) := by
  unfold mapLarge
  refine congrArg (Prog.act (I := allocI) _) ?_
  funext raw
  cases raw <;> rfl

/-- A mapping of its own, bound where the thread runs. -/
theorem wp_mapLarge (holds : Holds P strict v H M) (called : v.call.inst = some inst)
    {needed node : Nat} (fits : largeAllocSize P layout = some needed)
    (here : (∃ th r, v.Present th r ∧ th.nodeId = node) ∨ v.slot = .destroyed) :
    (allocLogic P strict).wp (mapLarge needed node layout)
      (fun x v' => x.2 = false ∧ Answered P strict v v' layout H M x.1) v := by
  rw [mapLarge_eq]
  refine wp_act holds.always ⟨inst,called⟩ fun raw v₁ st => ?_
  cases raw with
  | none =>
    obtain rfl : v₁ = v := st
    exact ⟨holds.always,rfl,.refl _ _ _,holds⟩
  | some raw =>
    obtain ⟨id,m,inst',called',fresh,ok,rfl,rfl,use,rfl⟩ := st
    have holds₁ := holds.gainMap fresh ok ⟨inst',use⟩
    have out := holds.fresh fresh
    refine wp_act holds₁.always ⟨id,m,setMap_at v id _,rfl,rfl⟩ fun _ v₂ st => ?_
    obtain ⟨id',m',at_,_,rfl⟩ := st
    obtain rfl := at_.only id m (setMap_at v id _) rfl
    obtain rfl := Option.some.inj ((setMap_at v id _).symm.trans at_.held)
    have holds₂ := holds₁.setMap (m := { m with node := some node }) (Set.mem_insert id M)
      ⟨ok.base_pos,ok.size_pos,ok.bound,ok.page,ok.whole⟩ ⟨inst',use⟩
    rw [setMap_twice] at holds₂ ⊢
    refine wp_prepare (m := { m with node := some node }) holds₂ (Set.mem_insert id M) (setMap_at v id _) fits le_rfl
      (Nat.le_add_right _ _) fun p placed holds₃ => ?_
    rw [setMap_twice] at holds₃ ⊢
    have frame : Frame v (v.setMap id (some { m with node := some node, payload := some p })) H M :=
      .setMap out _
    refine ⟨holds₃.always,rfl,frame,H,insert id M,holds₃,.mapping out (setMap_at v id _) rfl called'
      use ?_ ?_⟩
    · exact ⟨placed.fits,placed.header,placed.inside,placed.room,placed.aligned⟩
    · refine frame.fixed ?_
      rcases here with ⟨th,r,present,rfl⟩ | gone
      · exact Or.inl ⟨th,r,present,fun _ => rfl⟩
      · exact Or.inr gone

/-! The cache of mappings. -/

theorem wp_setLargeCache {cache : LargeCache} {k : Unit → Prog allocI α}
    {Q : α → View → Prop} (present : v.Present th r) (always : (allocLogic P strict).always v)
    (next : (allocLogic P strict).wp (k ()) Q
      { v with slot := .alive { th with largeCache := cache } }) :
    (allocLogic P strict).wp ((act (.setLargeCache cache)).bind k) Q v := by
  refine wp_act always ⟨th,r,present⟩ fun _ v' st => ?_
  obtain ⟨th',alive,rfl⟩ := st
  obtain rfl := ThreadHeapSlot.alive.inj (present.1.symm.trans alive)
  exact next

/-- A mapping comes out of the cache with the extent it was mapped with. -/
theorem Stock.uncached (stock : Stock P strict v th L S C H M) {allocSize raw size : Nat}
    {cache : LargeCache} (taken : th.largeCache.take allocSize = (some (raw,size),cache)) :
    ∃ id m C', id ∉ M ∧ v.maps id = some m ∧ m.base = raw ∧ m.size = size ∧
      m.use = .large th.globalHeap.inst ∧ (strict = true → m.node = some th.nodeId) ∧
      allocSize ≤ size ∧ size ≤ allocSize + LargeCache.closeSizeTolerance ∧
      Stock P strict v { th with largeCache := cache } L S C' H (insert id M) := by
  obtain ⟨i,at_,low,slack,entries,ok⟩ :=
    LargeCache.take_spec stock.cached.cache taken
  obtain ⟨id,⟨m,found,base,size',use,node⟩,perm,rest⟩ :=
    LargeCache.forall₂_swapRemove stock.cached.large at_
  rw [← entries] at rest
  have nodup := (perm.nodup_iff).mp stock.cached.ids
  obtain ⟨fresh,nodup⟩ := List.nodup_cons.mp nodup
  have mem : ∀ id', id' ∈ C ↔ id' = id ∨ id' ∈ LargeCache.swapRemove C i := fun id' => by
    rw [perm.mem_iff,List.mem_cons]
  have out : id ∉ M := fun h => stock.notCachedMap h ((mem id).mpr (Or.inl rfl))
  refine ⟨id,m,_,out,found,base,size',use,node,low,slack,stock.setCache _ rest nodup ok fun {id'} => ?_⟩
  have other := fun h : id' ∈ M => stock.notCachedMap h
  rw [mem] at other
  rw [Set.mem_insert_iff,mem]
  constructor
  · rintro (rfl | loose)
    · exact ⟨Or.inr (Or.inl rfl),fresh⟩
    · exact ⟨Or.inl loose,fun h => other loose (Or.inr h)⟩
  · tauto

theorem allocLargeTracked_eq {needed : Nat} (fits : largeAllocSize P layout = some needed) :
    allocLargeTracked P inst layout = (threadHeap inst).bind fun ok =>
      if ok then (act .thread).bind fun th => match th.largeCache.take needed with
        | (some (raw,mappedSize),cache) => (act (.setLargeCache cache)).bind fun _ =>
            (prepareLargePayload raw mappedSize layout).bind fun payload =>
              .ret (some payload,true)
        | (none,_) => mapLarge needed th.nodeId layout
      else mapLarge needed 0 layout := by
  simp only [allocLargeTracked,fits]
  rfl

/-- A large object is a mapping: one from the thread's cache, or a new one. -/
theorem wp_allocLargeTracked (ready : Ready P strict v inst H M) :
    (allocLogic P strict).wp (allocLargeTracked P inst layout)
      (fun x v' => Answered P strict v v' layout H M x.1) v := by
  cases fits : largeAllocSize P layout with
  | none =>
    have none_ : allocLargeTracked P inst layout = .ret (none,false) := by
      simp only [allocLargeTracked,fits]
      rfl
    rw [none_]
    exact ⟨ready.holds.always,.refl _ _ _,ready.holds⟩
  | some needed =>
    rw [allocLargeTracked_eq fits]
    refine wp_seq (wp_threadHeap ready) fun ok v₁ _ post => ?_
    obtain ⟨frame,found⟩ := post
    have called := frame.inst.trans ready.inst
    cases ok with
    | false =>
      obtain ⟨rfl,gone⟩ := found
      refine wp_mono (wp_mapLarge ready.holds called fits (Or.inr gone)) fun x v₂ _ post => ?_
      exact post.2
    | true =>
      obtain ⟨th,r,L,S,C,own,inst',_⟩ := found
      refine wp_thread own fun _ => ?_
      cases taken : th.largeCache.take needed with
      | mk result cache =>
      cases result with
      | none =>
        refine wp_mono (wp_mapLarge own.holds called fits (Or.inl ⟨th,r,own.present,rfl⟩))
          fun x v₂ _ post => ?_
        exact post.2.after frame
      | some extent =>
        obtain ⟨raw,size⟩ := extent
        obtain ⟨id,m,C',out,found,rfl,rfl,use,node,low,slack,stock⟩ := own.stock.uncached taken
        obtain ⟨own',frame'⟩ := own.renewed v₁.blocks stock rfl rfl fun _ _ => rfl
        refine wp_setLargeCache own.present own.always ?_
        refine wp_prepare own'.holds (Set.mem_insert id M) found fits low slack
          fun p placed holds => ?_
        refine ⟨holds.always,(frame.trans frame').trans (.setMap out _),H,insert id M,holds,
          .mapping out (setMap_at _ id _) rfl called ?_ ?_ ?_⟩
        · rw [← inst',← own.present.2.2]
          exact use
        · exact ⟨placed.fits,placed.header,placed.inside,placed.room,placed.aligned⟩
        · exact Or.inl ⟨_,r,own'.present,node⟩

end Numalloc
