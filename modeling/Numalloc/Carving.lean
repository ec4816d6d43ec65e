import Numalloc.Construction
import Numalloc.Sealing

/-! Carving is final. A bag stays where it was carved, with its class, as long as the allocator
is there, and a region that has no room for a bag never has room for one again, whatever is
freed. -/
namespace Numalloc

open Concurrent View

variable {P : Platform} {strict : Bool} {c c₁ c' : World P strict} {t h inst : Nat} {s s' : State}
  {ch : Choice} {x : Act} {label : Label} {sh sh' : SharedHeap}

/-- Nothing was carved. -/
structure Uncarved (s s' : State) : Prop where
  heaps : ∀ {h sh'}, s'.heaps h = some sh' →
    ∃ sh, s.heaps h = some sh ∧ sh'.heap = sh.heap ∧ sh'.bump = sh.bump
  bags : ∀ {bag}, bag ∈ s'.bags → bag ∈ s.bags

namespace Uncarved

theorem same (heaps : s'.heaps = s.heaps) (bags : ∀ bag ∈ s'.bags, bag ∈ s.bags) : Uncarved s s' where
  heaps found := ⟨_,heaps ▸ found,rfl,rfl⟩
  bags mem := bags _ mem

/-- One heap was given new cells or references. -/
theorem setHeap {addr : Nat} {sh sh₁ : SharedHeap} (found : s.heaps addr = some sh)
    (heaps : s'.heaps = replace s.heaps addr (some sh₁)) (geom : sh₁.heap = sh.heap)
    (bump : sh₁.bump = sh.bump) (bags : ∀ bag ∈ s'.bags, bag ∈ s.bags) : Uncarved s s' where
  heaps {h sh'} found' := by
    rw [heaps] at found'
    by_cases same : h = addr
    · subst same
      rw [replace_same] at found'
      obtain rfl := Option.some.inj found'
      exact ⟨sh,found,geom,bump⟩
    · rw [replace_other same] at found'
      exact ⟨sh',found',rfl,rfl⟩
  bags mem := bags _ mem

end Uncarved

/-- Only one action carves, and only two touch an allocator. -/
theorem exec_uncarved {r : x.Res} (run : exec P strict t x ch s = some (r,s'))
    (heap : ∀ i, x ≠ .heap i) (bag : ∀ h n cls old new, x ≠ .casBump h n cls old new) :
    Uncarved s s' ∧ ((∀ i, x ≠ .fetchAddNode i) → s'.insts = s.insts) := by
  cases x with
  | heap inst => exact absurd rfl (heap inst)
  | casBump h n cls old new => exact absurd rfl (bag h n cls old new)
  | mmap n =>
    cases ch with
    | addr raw =>
      simp only [exec] at run
      split at run
      case isFalse => cases run
      obtain ⟨_,rfl⟩ := Prod.mk.inj (Option.some.inj run)
      exact ⟨.same rfl fun _ => id,fun _ => rfl⟩
    | _ =>
      obtain ⟨_,rfl⟩ := Prod.mk.inj (Option.some.inj run)
      exact ⟨.same rfl fun _ => id,fun _ => rfl⟩
  | takeHeap | slotGet | readHeader place | munmap ptr size | bindToNode ptr size node
  | madvise ptr size | writeHeader place original size | writeBytes ptr size
  | copy src dst size | finish =>
    all_goals
      simp only [exec,Option.some.injEq,Prod.mk.injEq] at run
      obtain ⟨_,rfl⟩ := run
      exact ⟨.same rfl fun _ => id,fun _ => rfl⟩
  | fetchAddNode inst =>
    simp only [exec,Option.bind_eq_bind,Option.bind_eq_some_iff,Option.some.injEq,
      Prod.mk.injEq] at run
    obtain ⟨I,_,_,rfl⟩ := run
    exact ⟨.same rfl fun _ => id,fun draws => absurd rfl (draws inst)⟩
  | extent h | loadHead k | loadBump heap node =>
    all_goals
      simp only [exec,Option.bind_eq_bind,Option.bind_eq_some_iff,Option.some.injEq,
        Prod.mk.injEq] at run
      obtain ⟨sh,_,_,rfl⟩ := run
      exact ⟨.same rfl fun _ => id,fun _ => rfl⟩
  | slotTake destroy =>
    cases alive : s.tls t with
    | alive th =>
      simp only [exec,alive,Option.bind_eq_bind,Option.bind_eq_some_iff,Option.some.injEq,
        Prod.mk.injEq] at run
      obtain ⟨sh,found,_,rfl⟩ := run
      exact ⟨.setHeap found rfl rfl rfl fun _ => id,fun _ => rfl⟩
    | _ =>
      simp only [exec,alive,Option.some.injEq,Prod.mk.injEq] at run
      obtain ⟨_,rfl⟩ := run
      exact ⟨.same rfl fun _ => id,fun _ => rfl⟩
  | slotSet th | fetchAddRefs h =>
    all_goals
      simp only [exec,Option.bind_eq_bind,Option.bind_eq_some_iff,Option.some.injEq,
        Prod.mk.injEq] at run
      obtain ⟨sh,found,_,rfl⟩ := run
      exact ⟨.setHeap found rfl rfl rfl fun _ => id,fun _ => rfl⟩
  | thread | setFreelist cls fl | setLargeCache cache =>
    all_goals
      simp only [exec] at run
      split at run
      case h_2 => cases run
      obtain ⟨_,rfl⟩ := Prod.mk.inj (Option.some.inj run)
      exact ⟨.same rfl fun _ => id,fun _ => rfl⟩
  | link op =>
    cases op with
    | readNext b =>
      simp only [exec,Option.some.injEq,Prod.mk.injEq] at run
      obtain ⟨_,rfl⟩ := run
      exact ⟨.same rfl fun _ => id,fun _ => rfl⟩
    | writeNext b next =>
      simp only [exec,Option.some.injEq,Prod.mk.injEq,true_and] at run
      subst run
      exact ⟨.same rfl fun _ => id,fun _ => rfl⟩
    | panic => cases run
  | casHead k current new =>
    simp only [exec,Option.bind_eq_bind,Option.bind_eq_some_iff] at run
    obtain ⟨sh,found,run⟩ := run
    split at run
    case h_1 =>
      obtain ⟨_,rfl⟩ := Prod.mk.inj (Option.some.inj run)
      exact ⟨.same rfl fun _ => id,fun _ => rfl⟩
    case h_2 =>
    split at run
    case isFalse =>
      obtain ⟨_,rfl⟩ := Prod.mk.inj (Option.some.inj run)
      exact ⟨.same rfl fun _ => id,fun _ => rfl⟩
    case isTrue =>
      split at run <;>
      · obtain ⟨_,rfl⟩ := Prod.mk.inj (Option.some.inj run)
        exact ⟨.setHeap found rfl rfl rfl fun _ => id,fun _ => rfl⟩
  | fetchSubRefs h =>
    simp only [exec,Option.bind_eq_bind,Option.bind_eq_some_iff,Option.some.injEq,
      Prod.mk.injEq] at run
    obtain ⟨sh,found,_,rfl⟩ := run
    split
    · exact ⟨.setHeap found rfl rfl rfl fun _ mem => List.mem_of_mem_filter mem,fun _ => rfl⟩
    · exact ⟨.setHeap found rfl rfl rfl fun _ => id,fun _ => rfl⟩
  | sysDealloc h =>
    simp only [exec,Option.some.injEq,Prod.mk.injEq,true_and] at run
    subst run
    refine ⟨⟨fun {h' sh'} found => ?_,id⟩,fun _ => rfl⟩
    by_cases same : h' = h.addr
    · subst same
      simp at found
    · exact ⟨sh',(replace_other same).symm.trans found,rfl,rfl⟩
  | release =>
    simp only [exec,Option.bind_eq_bind,Option.bind_eq_some_iff] at run
    obtain ⟨a,_,run⟩ := run
    split at run
    case isTrue => cases run
    simp only [Option.some.injEq,Prod.mk.injEq,true_and] at run
    subst run
    unfold State.release
    cases a.source <;> exact ⟨.same rfl fun _ => id,fun _ => rfl⟩
  | give ptr layout =>
    simp only [exec,Option.some.injEq,Prod.mk.injEq,true_and] at run
    subst run
    unfold State.give
    dsimp only
    split
    · exact ⟨.same rfl fun _ => id,fun _ => rfl⟩
    · split
      · exact ⟨.same rfl fun _ => id,fun _ => rfl⟩
      · split <;> exact ⟨.same rfl fun _ => id,fun _ => rfl⟩
  | abort => exact r.elim

theorem exec_insts {r : x.Res} (run : exec P strict t x ch s = some (r,s'))
    (heap : ∀ i, x ≠ .heap i) (draw : ∀ i, x ≠ .fetchAddNode i) : s'.insts = s.insts := by
  by_cases bag : ∃ a n cls old new, x = .casBump a n cls old new
  · obtain ⟨a,n,cls,old,new,rfl⟩ := bag
    simp only [exec,Option.bind_eq_bind,Option.bind_eq_some_iff] at run
    obtain ⟨_,_,run⟩ := run
    split at run
    case h_1 =>
      obtain ⟨_,rfl⟩ := Prod.mk.inj (Option.some.inj run)
      rfl
    case h_2 =>
    split at run <;>
    · obtain ⟨_,rfl⟩ := Prod.mk.inj (Option.some.inj run)
      rfl
  · exact (exec_uncarved run heap fun a n cls old new same => bag ⟨a,n,cls,old,new,same⟩).2 draw

/-- What one step does to a heap that stays: it may carve bags that fit. -/
structure Grows (s s' : State) : Prop where
  heaps : ∀ {h sh sh'}, s.heaps h = some sh → s'.heaps h = some sh' →
    sh'.heap = sh.heap ∧ ∀ n, sh.bump n ≤ sh'.bump n
  bags : ∀ {bag}, bag ∈ s'.bags → bag ∈ s.bags ∨ ∃ sh aligned new, s.heaps bag.heap = some sh ∧
    bag.cls < numSizeClasses ∧
    (sh.heap.nodeRegion bag.node).nextBag (bagSizeForClass bag.cls) (sh.bump bag.node) =
      some (aligned,new)

theorem Uncarved.grows (uncarved : Uncarved s s') : Grows s s' where
  heaps found found' := by
    obtain ⟨sh,known,geom,bump⟩ := uncarved.heaps found'
    obtain rfl := Option.some.inj (found.symm.trans known)
    exact ⟨geom,fun n => (congrFun bump n).ge⟩
  bags mem := Or.inl (uncarved.bags mem)

theorem heap_grows {r : HeapRef} (run : exec P strict t (.heap inst) ch s = some (r,s')) :
    Grows s s' := by
  simp only [exec,Option.bind_eq_bind,Option.bind_eq_some_iff] at run
  obtain ⟨I,_,run⟩ := run
  cases named : I.heap with
  | some x =>
    simp only [named,Option.bind_eq_some_iff,Option.some.injEq,Prod.mk.injEq] at run
    obtain ⟨sh,_,_,rfl⟩ := run
    exact Uncarved.grows (.same rfl fun _ => id)
  | none =>
    simp only [named,Option.bind_eq_some_iff] at run
    obtain ⟨res,_,run⟩ := run
    cases ch with
    | place raw addr =>
      simp only at run
      split at run
      case isFalse => cases run
      rename_i room
      obtain ⟨_,rfl⟩ := Prod.mk.inj (Option.some.inj run)
      refine ⟨fun {h sh sh'} found found' => ?_,Or.inl⟩
      have other : h ≠ addr := fun same => by
        have free := Option.isNone_iff_eq_none.mp room.2.2
        rw [← same,found] at free
        cases free
      obtain rfl := Option.some.inj (((replace_other other).symm.trans found').symm.trans found)
      exact ⟨rfl,fun _ => le_rfl⟩
    | _ => cases run

theorem casBump_grows {a n cls current new : Nat} {done : Bool} (inv : Inv P s)
    (ok : safe P strict (.casBump a n cls current new) (s.view t))
    (run : exec P strict t (.casBump a n cls current new) ch s = some (done,s')) : Grows s s' := by
  simp only [exec,Option.bind_eq_bind,Option.bind_eq_some_iff] at run
  obtain ⟨sh₀,there,run⟩ := run
  split at run
  case h_1 =>
    obtain ⟨_,rfl⟩ := Prod.mk.inj (Option.some.inj run)
    exact Uncarved.grows (.same rfl fun _ => id)
  case h_2 =>
  split at run
  case isFalse =>
    obtain ⟨_,rfl⟩ := Prod.mk.inj (Option.some.inj run)
    exact Uncarved.grows (.same rfl fun _ => id)
  case isTrue =>
  rename_i unmoved
  subst unmoved
  obtain ⟨_,rfl⟩ := Prod.mk.inj (Option.some.inj run)
  obtain ⟨ref,aligned,called,rfl,_,small,fits⟩ := ok
  obtain ⟨_,geom⟩ := inv.heaps.call_refs called there
  rw [← geom] at fits
  refine ⟨fun {h sh sh'} found found' => ?_,fun {bag} mem => ?_⟩
  · by_cases same : h = ref.handle.addr
    · subst same
      obtain rfl := Option.some.inj (there.symm.trans found)
      obtain rfl := Option.some.inj (replace_same.symm.trans found')
      refine ⟨rfl,fun m => ?_⟩
      by_cases here : m = n
      · subst here
        have fits : (sh₀.heap.nodeRegion m).nextBag
          (bagSizeForClass ((⟨cls,small⟩ : Fin numSizeClasses) : Nat)) (sh₀.bump m) =
            some (aligned,new) := fits
        obtain ⟨above,end_,_⟩ := NodeRegion.nextBag_class fits
        have now : replace sh₀.bump m new m = new := replace_same
        exact show sh₀.bump m ≤ replace sh₀.bump m new m by omega
      · exact (show replace sh₀.bump n new m = sh₀.bump m from replace_other here).ge
    · obtain rfl := Option.some.inj (((replace_other same).symm.trans found').symm.trans found)
      exact ⟨rfl,fun _ => le_rfl⟩
  · rcases List.mem_cons.mp mem with rfl | old
    · exact Or.inr ⟨sh₀,aligned,new,there,small,fits⟩
    · exact Or.inl old

theorem exec_grows {r : x.Res} (inv : Inv P s) (ok : safe P strict x (s.view t))
    (run : exec P strict t x ch s = some (r,s')) : Grows s s' := by
  by_cases heap : ∃ i, x = .heap i
  · obtain ⟨i,rfl⟩ := heap
    exact heap_grows run
  by_cases bag : ∃ a n cls old new, x = .casBump a n cls old new
  · obtain ⟨a,n,cls,old,new,rfl⟩ := bag
    exact casBump_grows inv ok run
  · exact (exec_uncarved run (not_exists.mp heap)
      fun a n cls old new same => bag ⟨a,n,cls,old,new,same⟩).1.grows

theorem start_uncarved {request : Request} (run : s.start t request = some s') : Uncarved s s' := by
  have entered : ∀ {inst s'}, s.enter t inst = some s' → Uncarved s s' := by
    intro inst s' run
    simp only [State.enter,Option.bind_eq_bind,Option.bind_eq_some_iff,Option.some.injEq] at run
    obtain ⟨I,_,rfl⟩ := run
    exact .same rfl fun _ => id
  have passed : ∀ {inst ptr layout s'}, ((s.enter t inst).bind fun s => s.pin t inst ptr layout) =
      some s' → Uncarved s s' := by
    intro inst ptr layout s' run
    obtain ⟨s₁,enter,pin⟩ := Option.bind_eq_some_iff.mp run
    simp only [State.pin] at pin
    split at pin
    case isFalse => cases pin
    obtain rfl := Option.some.inj pin
    exact ⟨(entered enter).heaps,(entered enter).bags⟩
  cases request with
  | alloc inst layout | allocZeroed inst layout => exact entered run
  | dealloc inst ptr layout | realloc inst ptr layout size => exact passed run
  | exit =>
    obtain rfl := Option.some.inj run
    exact .same rfl fun _ => id
  | drop inst =>
    simp only [State.start,State.abandon,Option.bind_eq_bind,Option.bind_eq_some_iff] at run
    obtain ⟨I,_,run⟩ := run
    split at run
    case isFalse => cases run
    cases hx : I.heap with
    | none =>
      simp only [hx,Option.some.injEq] at run
      subst run
      exact .same rfl fun _ => id
    | some x =>
      simp only [hx,Option.bind_eq_some_iff,Option.some.injEq] at run
      obtain ⟨sh,found,rfl⟩ := run
      exact .setHeap found rfl rfl rfl fun _ => id

theorem World.Fine.grows (fine : Fine P strict c) (step : c.advance label = some c') :
    Grows c.state c'.state := by
  cases World.advanced step with
  | act prog run => exact exec_grows fine.inv (fine.safe (by rw [prog]; rfl)) run
  | loop _ same => exact Uncarved.grows (.same (by rw [same]) fun _ mem => same ▸ mem)
  | start run => exact (start_uncarved run).grows
  | write stored =>
    rw [stored]
    exact Uncarved.grows (.same rfl fun _ => id)
  | create made =>
    rw [made]
    exact Uncarved.grows (.same rfl fun _ => id)

/-- From one moment to a later one, with the allocator there at both: its heap, the bags carved
in it, the regions that are full. -/
structure Final (s s' : State) (h : Nat) (sh sh' : SharedHeap) : Prop where
  geom : sh'.heap = sh.heap
  bump : ∀ n, sh.bump n ≤ sh'.bump n
  bags : ∀ {bag}, bag ∈ s.bags → bag.heap = h → bag ∈ s'.bags
  full : ∀ {n} {cls : Fin numSizeClasses}, n < sh.heap.numNodes →
    (sh.heap.nodeRegion n).nextBag (bagSizeForClass cls) (sh.bump n) = none →
      (sh.heap.nodeRegion n).nextBag (bagSizeForClass cls) (sh'.bump n) = none ∧
        ∀ bag ∈ s'.bags, bag.heap = h → bag.node = n →
          bagSizeForClass cls ≤ bagSizeForClass bag.cls → bag ∈ s.bags

theorem Final.refl {h : Nat} {sh : SharedHeap} : Final s s h sh sh :=
  ⟨rfl,fun _ => le_rfl,fun mem _ => mem,fun _ full => ⟨full,fun _ mem _ _ _ => mem⟩⟩

theorem Final.trans {s₁ : State} {sh₁ : SharedHeap} (first : Final s s₁ h sh sh₁)
    (later : Final s₁ s' h sh₁ sh') : Final s s' h sh sh' where
  geom := later.geom.trans first.geom
  bump n := (first.bump n).trans (later.bump n)
  bags mem here := later.bags (first.bags mem here) here
  full {n cls} node none_ := by
    obtain ⟨none₁,old⟩ := first.full node none_
    rw [← first.geom] at node none₁ ⊢
    obtain ⟨none₂,old₂⟩ := later.full node none₁
    exact ⟨none₂,fun bag mem here node size => old bag (old₂ bag mem here node size) here node size⟩

/-- One label. -/
theorem World.Fine.final_step {I' : Instance} {x : HeapHandle} (fine : Fine P strict c)
    (step : c.advance label = some c') (found : c.state.heaps x.addr = some sh)
    (known' : c'.state.insts inst = some I') (named' : I'.heap = some x)
    (found' : c'.state.heaps x.addr = some sh') : Final c.state c'.state x.addr sh sh' := by
  have fine' := World.Fine.advance fine step
  have grows := World.Fine.grows fine step
  obtain ⟨geom,bump⟩ := grows.heaps found found'
  refine ⟨geom,bump,fun {bag} mem here => ?_,fun {n cls} node full => ⟨?_,?_⟩⟩
  · rcases (World.Fine.steady fine step).bags mem with old | ⟨u,dying⟩
    · exact old
    · -- a heap that is being freed has no allocator
      rw [here] at dying
      obtain ⟨sh₁,found₁,empty⟩ := fine'.inv.heaps.dyingHeap dying
      obtain ⟨own,_⟩ := fine'.inv.heaps.instHeap known' named'
      have ref := (fine'.inv.heaps.refInst found₁).mpr ⟨I',known',by rw [named',← own]⟩
      simp [empty] at ref
  · exact NodeRegion.refused_later ((fine.inv.heaps.geom found).built node) le_rfl (bump n) full
  · intro bag mem here there size
    rcases grows.bags mem with old | ⟨sh₁,aligned,new,found₁,small,fits⟩
    · exact old
    · rw [here] at found₁
      obtain rfl := Option.some.inj (found.symm.trans found₁)
      rw [there] at fits
      have size : bagSizeForClass cls ≤
          bagSizeForClass ((⟨bag.cls,small⟩ : Fin numSizeClasses) : Nat) := size
      have refused := NodeRegion.refused_later ((fine.inv.heaps.geom found).built node) size le_rfl full
      simp [refused] at fits

/-- An allocator that is there at the end of a run was there with its heap all along. -/
theorem World.Fine.stays {schedule : List Label} {I : Instance} {x : HeapHandle}
    (fine : Fine P strict c) (step : c.advance label = some c₁) (run : c₁.execute schedule = some c')
    (known : c.state.insts inst = some I) (named : I.heap = some x)
    (there : (c'.state.insts inst).isSome) :
    ∃ I₁ sh₁, c₁.state.insts inst = some I₁ ∧ I₁.heap = some x ∧
      c₁.state.heaps x.addr = some sh₁ := by
  have fine₁ := World.Fine.advance fine step
  have steady := World.Fine.steady fine step
  have old : inst < c.state.nextInst := by
    by_contra le
    rw [fine.inv.heaps.instFresh (Nat.le_of_not_lt le)] at known
    cases known
  have there₁ := World.Fine.inst_run fine₁ run (lt_of_lt_of_le old steady.nextInst) there
  rcases steady.heaps known named with gone | ⟨I₁,known₁,named₁⟩
  · simp [gone] at there₁
  · obtain ⟨_,sh₁,found₁,_⟩ := fine₁.inv.heaps.instHeap known₁ named₁
    exact ⟨I₁,sh₁,known₁,named₁,found₁⟩

theorem World.Fine.final_run {schedule : List Label} {I : Instance} {x : HeapHandle}
    (fine : Fine P strict c) (run : c.execute schedule = some c')
    (known : c.state.insts inst = some I) (named : I.heap = some x)
    (there : (c'.state.insts inst).isSome) :
    ∃ sh sh', c.state.heaps x.addr = some sh ∧ c'.state.heaps x.addr = some sh' ∧
      Final c.state c'.state x.addr sh sh' := by
  obtain ⟨-,sh,found,-⟩ := fine.inv.heaps.instHeap known named
  induction schedule generalizing c I sh with
  | nil =>
    obtain rfl := Option.some.inj run
    exact ⟨sh,sh,found,found,.refl⟩
  | cons label rest ih =>
    obtain ⟨c₁,step,run⟩ := Option.bind_eq_some_iff.mp run
    obtain ⟨I₁,sh₁,known₁,named₁,found₁⟩ := World.Fine.stays fine step run known named there
    obtain ⟨sh₂,sh',found₂,found',later⟩ :=
      ih (World.Fine.advance fine step) run known₁ named₁ sh₁ found₁
    obtain rfl := Option.some.inj (found₁.symm.trans found₂)
    exact ⟨sh,sh',found,found',
      (World.Fine.final_step fine step found known₁ named₁ found₁).trans later⟩

/-- As long as an allocator is there, every bag of its heap stays where it was carved, its
blocks keep their node and class whoever holds them, and a region without room for a bag never
gets another of that size or larger. -/
theorem carving_final {schedule : List Label} {I : Instance} {x : HeapHandle}
    (reachable : c.Reachable) (run : c.execute schedule = some c')
    (known : c.state.insts inst = some I) (named : I.heap = some x)
    (there : (c'.state.insts inst).isSome) :
    ∃ sh sh', c.state.heaps x.addr = some sh ∧ c'.state.heaps x.addr = some sh' ∧
      Final c.state c'.state x.addr sh sh' ∧
      ∀ {b sl}, c.state.slots b = some sl → sl.heap = x.addr →
        ∃ sl', c'.state.slots b = some sl' ∧ sl'.ref = sl.ref := by
  have fine := World.Reachable.fine reachable
  obtain ⟨sh,sh',found,found',final⟩ := World.Fine.final_run fine run known named there
  refine ⟨sh,sh',found,found',final,fun {b sl} slot here => ?_⟩
  obtain ⟨bag,mem,has,heap,node,cls⟩ := fine.inv.slots.bagOf slot
  have stays := final.bags mem (heap.trans here)
  obtain ⟨hd,slot'⟩ := (World.Fine.execute fine run).inv.slots.bag stays has
  exact ⟨_,slot',by rw [Slot.ref,Slot.ref,heap,node,cls]⟩

namespace Sample

/-- Thread 1 frees both objects and asks for one again. -/
def recycling : List Label := freeingBoth ++ asking 1

end Sample

set_option maxRecDepth 8000 in
theorem sample_carving_final : ∃ (c c' : World Sample.platform false) (sh sh' : SharedHeap),
    (World.initial fun _ => 0).execute Sample.twoBlocks = some c ∧
    c.execute Sample.recycling = some c' ∧ c.state.heaps 64 = some sh ∧
    c'.state.heaps 64 = some sh' ∧ Final c.state c'.state 64 sh sh' ∧
    (sh.heap.nodeRegion 0).nextBag (bagSizeForClass 15) (sh.bump 0) = none := by
  have ends : ((World.initial fun _ => 0 : World Sample.platform false).execute
      Sample.twoBlocks).bind (fun c => (c.execute Sample.recycling).map fun c' =>
        ((c.state.insts 0).map Instance.heap,(c'.state.insts 0).isSome,
          (c.state.heaps 64).map fun sh =>
            (sh.heap.nodeRegion 0).nextBag (bagSizeForClass 15) (sh.bump 0))) =
              some (some (some ⟨64,0⟩),true,some none) := by decide +kernel
  obtain ⟨c,start,eq⟩ := Option.bind_eq_some_iff.mp ends
  obtain ⟨c',run,shown⟩ := Option.map_eq_some_iff.mp eq
  obtain ⟨made,shown⟩ := Prod.mk.inj shown
  obtain ⟨there,room⟩ := Prod.mk.inj shown
  obtain ⟨I,known,named⟩ := Option.map_eq_some_iff.mp made
  obtain ⟨sh,found,full⟩ := Option.map_eq_some_iff.mp room
  obtain ⟨sh₁,sh',found₁,found',final,_⟩ := carving_final ⟨_,_,start⟩ run known named there
  obtain rfl := Option.some.inj (found.symm.trans found₁)
  exact ⟨c,c',sh,sh',start,run,found,found',final,full⟩

end Numalloc
