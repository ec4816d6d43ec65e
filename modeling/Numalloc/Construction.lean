import Numalloc.BagAllocation
import Numalloc.Footprint
import Numalloc.History

/-! What was settled when it was made, and never changes: the geometry of a heap, the
alignment of a bag, the size of a mapping. -/
namespace Numalloc

open Concurrent View Prog

structure Built (P : Platform) (s : State) : Prop where
  heaps : ∀ {h sh}, s.heaps h = some sh → ∃ r raw, sh.heap = GlobalHeap.place r raw
  bags : ∀ {bag}, bag ∈ s.bags → bagSizeForClass bag.cls ∣ bag.addr
  maps : ∀ {id m i}, s.maps id = some m → m.use = .large i → P.pageSize ∣ m.size

/-- Nothing was made. -/
structure Unmade (s s' : State) : Prop where
  heaps : ∀ {h sh'}, s'.heaps h = some sh' → ∃ sh, s.heaps h = some sh ∧ sh.heap = sh'.heap
  bags : ∀ {bag}, bag ∈ s'.bags → bag ∈ s.bags
  nextMap : s'.nextMap = s.nextMap

variable {P : Platform} {strict : Bool} {s s' : State} {t : Nat} {ch : Choice} {x : Act}
  {c c' : World P strict}

namespace Unmade

theorem same (heaps : s'.heaps = s.heaps) (bags : s'.bags = s.bags)
    (nextMap : s'.nextMap = s.nextMap) : Unmade s s' where
  heaps found := ⟨_,heaps ▸ found,rfl⟩
  bags mem := bags ▸ mem
  nextMap := nextMap

/-- One heap was given new cells or references. -/
theorem setHeap {addr : Nat} {sh sh₁ : SharedHeap} (found : s.heaps addr = some sh)
    (heaps : s'.heaps = replace s.heaps addr (some sh₁)) (geom : sh₁.heap = sh.heap)
    (bags : ∀ bag ∈ s'.bags, bag ∈ s.bags) (nextMap : s'.nextMap = s.nextMap) : Unmade s s' where
  heaps {h sh'} found' := by
    rw [heaps] at found'
    by_cases same : h = addr
    · subst same
      rw [replace_same] at found'
      obtain rfl := Option.some.inj found'
      exact ⟨sh,found,geom.symm⟩
    · rw [replace_other same] at found'
      exact ⟨sh',found',rfl⟩
  bags mem := bags _ mem
  nextMap := nextMap

/-- Mappings keep their size, and none was added. -/
theorem built (unmade : Unmade s s') (inv : Inv P s') (steady : Steady s s') (built : Built P s) :
    Built P s' where
  heaps found := by
    obtain ⟨sh,old,geom⟩ := unmade.heaps found
    exact geom ▸ built.heaps old
  bags mem := built.bags (unmade.bags mem)
  maps {id m i} found use := by
    have old : id < s.nextMap := unmade.nextMap ▸ inv.maps.old found
    rcases steady.maps old with same | ⟨gone,_⟩
    · rw [found,Option.map_some] at same
      obtain ⟨m₀,found₀,shape⟩ := Option.map_eq_some_iff.mp same.symm
      simp only [Mapping.shape,Prod.mk.injEq] at shape
      exact shape.2.1 ▸ built.maps found₀ (shape.2.2.trans use)
    · rw [gone] at found
      cases found

end Unmade

/-- Only three actions make something. -/
theorem exec_unmade {r : x.Res} (run : exec P strict t x ch s = some (r,s'))
    (heap : ∀ i, x ≠ .heap i) (bag : ∀ h n cls old new, x ≠ .casBump h n cls old new)
    (map : ∀ n, x ≠ .mmap n) : Unmade s s' := by
  cases x with
  | heap inst => exact absurd rfl (heap inst)
  | casBump h n cls old new => exact absurd rfl (bag h n cls old new)
  | mmap n => exact absurd rfl (map n)
  | takeHeap | slotGet | readHeader place | munmap ptr size | bindToNode ptr size node
  | madvise ptr size | writeHeader place original size | writeBytes ptr size
  | copy src dst size | finish =>
    all_goals
      simp only [exec,Option.some.injEq,Prod.mk.injEq] at run
      obtain ⟨_,rfl⟩ := run
      exact .same rfl rfl rfl
  | extent h | loadHead k | loadBump heap node | fetchAddNode inst =>
    all_goals
      simp only [exec,Option.bind_eq_bind,Option.bind_eq_some_iff,Option.some.injEq,
        Prod.mk.injEq] at run
      obtain ⟨sh,_,_,rfl⟩ := run
      exact .same rfl rfl rfl
  | slotTake destroy =>
    cases alive : s.tls t with
    | alive th =>
      simp only [exec,alive,Option.bind_eq_bind,Option.bind_eq_some_iff,Option.some.injEq,
        Prod.mk.injEq] at run
      obtain ⟨sh,found,_,rfl⟩ := run
      exact .setHeap found rfl rfl (fun _ => id) rfl
    | _ =>
      simp only [exec,alive,Option.some.injEq,Prod.mk.injEq] at run
      obtain ⟨_,rfl⟩ := run
      exact .same rfl rfl rfl
  | slotSet th | fetchAddRefs h =>
    all_goals
      simp only [exec,Option.bind_eq_bind,Option.bind_eq_some_iff,Option.some.injEq,
        Prod.mk.injEq] at run
      obtain ⟨sh,found,_,rfl⟩ := run
      exact .setHeap found rfl rfl (fun _ => id) rfl
  | thread | setFreelist cls fl | setLargeCache cache =>
    all_goals
      simp only [exec] at run
      split at run
      case h_2 => cases run
      obtain ⟨_,rfl⟩ := Prod.mk.inj (Option.some.inj run)
      exact .same rfl rfl rfl
  | link op =>
    cases op with
    | readNext b =>
      simp only [exec,Option.some.injEq,Prod.mk.injEq] at run
      obtain ⟨_,rfl⟩ := run
      exact .same rfl rfl rfl
    | writeNext b next =>
      simp only [exec,Option.some.injEq,Prod.mk.injEq,true_and] at run
      subst run
      exact .same rfl rfl rfl
    | panic => cases run
  | casHead k current new =>
    simp only [exec,Option.bind_eq_bind,Option.bind_eq_some_iff] at run
    obtain ⟨sh,found,run⟩ := run
    split at run
    case h_1 =>
      obtain ⟨_,rfl⟩ := Prod.mk.inj (Option.some.inj run)
      exact .same rfl rfl rfl
    case h_2 =>
    split at run
    case isFalse =>
      obtain ⟨_,rfl⟩ := Prod.mk.inj (Option.some.inj run)
      exact .same rfl rfl rfl
    case isTrue =>
      split at run <;>
      · obtain ⟨_,rfl⟩ := Prod.mk.inj (Option.some.inj run)
        exact .setHeap found rfl rfl (fun _ => id) rfl
  | fetchSubRefs h =>
    simp only [exec,Option.bind_eq_bind,Option.bind_eq_some_iff,Option.some.injEq,
      Prod.mk.injEq] at run
    obtain ⟨sh,found,_,rfl⟩ := run
    split
    · exact .setHeap found rfl rfl (fun _ mem => List.mem_of_mem_filter mem) rfl
    · exact .setHeap found rfl rfl (fun _ => id) rfl
  | sysDealloc h =>
    simp only [exec,Option.some.injEq,Prod.mk.injEq,true_and] at run
    subst run
    refine ⟨fun {h' sh'} found => ?_,id,rfl⟩
    by_cases same : h' = h.addr
    · subst same
      simp at found
    · exact ⟨sh',(replace_other same).symm.trans found,rfl⟩
  | release =>
    simp only [exec,Option.bind_eq_bind,Option.bind_eq_some_iff] at run
    obtain ⟨a,_,run⟩ := run
    split at run
    case isTrue => cases run
    simp only [Option.some.injEq,Prod.mk.injEq,true_and] at run
    subst run
    unfold State.release
    cases a.source <;> exact .same rfl rfl rfl
  | give ptr layout =>
    simp only [exec,Option.some.injEq,Prod.mk.injEq,true_and] at run
    subst run
    unfold State.give
    dsimp only
    split
    · exact .same rfl rfl rfl
    · split
      · exact .same rfl rfl rfl
      · split <;> exact .same rfl rfl rfl
  | abort => exact r.elim

theorem heap_built {inst : Nat} {r : HeapRef} (inv : Inv P s) (built : Built P s)
    (run : exec P strict t (.heap inst) ch s = some (r,s')) : Built P s' := by
  simp only [exec,Option.bind_eq_bind,Option.bind_eq_some_iff] at run
  obtain ⟨I,known,run⟩ := run
  cases heap : I.heap with
  | some x =>
    simp only [heap,Option.bind_eq_some_iff,Option.some.injEq,Prod.mk.injEq] at run
    obtain ⟨sh,_,_,rfl⟩ := run
    exact ⟨built.heaps,built.bags,built.maps⟩
  | none =>
    simp only [heap,Option.bind_eq_some_iff] at run
    obtain ⟨res,reserved,run⟩ := run
    cases ch with
    | place raw addr =>
      simp only at run
      split at run
      case isFalse => cases run
      obtain ⟨_,rfl⟩ := Prod.mk.inj (Option.some.inj run)
      refine ⟨fun {h sh} found => ?_,built.bags,fun {id m i} found use => ?_⟩
      · by_cases same : h = addr
        · subst same
          obtain rfl := Option.some.inj (replace_same.symm.trans found)
          exact ⟨res,raw,rfl⟩
        · exact built.heaps ((replace_other same).symm.trans found)
      · rcases (addMapping_maps inv).mp found with ⟨_,rfl⟩ | old
        · cases use
        · exact built.maps old use
    | _ => cases run

theorem mmap_built {n : Nat} {r : Option Nat} (inv : Inv P s) (built : Built P s)
    (paged : P.pageSize ∣ n) (run : exec P strict t (.mmap n) ch s = some (r,s')) : Built P s' := by
  cases ch with
  | addr raw =>
    simp only [exec] at run
    split at run
    case isFalse => cases run
    obtain ⟨_,rfl⟩ := Prod.mk.inj (Option.some.inj run)
    refine ⟨built.heaps,built.bags,fun {id m i} found use => ?_⟩
    rcases (addMapping_maps inv).mp found with ⟨_,rfl⟩ | old
    · exact paged
    · exact built.maps old use
  | _ =>
    obtain ⟨_,rfl⟩ := Prod.mk.inj (Option.some.inj run)
    exact built

/-- A bag starts where its size divides the address. -/
theorem casBump_built {h n cls current new : Nat} {r : Bool} (inv : Inv P s) (built : Built P s)
    (safe : safe P strict (.casBump h n cls current new) (s.view t))
    (run : exec P strict t (.casBump h n cls current new) ch s = some (r,s')) : Built P s' := by
  simp only [exec,Option.bind_eq_bind,Option.bind_eq_some_iff] at run
  obtain ⟨sh,found,run⟩ := run
  split at run
  case h_1 =>
    obtain ⟨_,rfl⟩ := Prod.mk.inj (Option.some.inj run)
    exact built
  case h_2 =>
  split at run
  case isFalse =>
    obtain ⟨_,rfl⟩ := Prod.mk.inj (Option.some.inj run)
    exact built
  case isTrue =>
  obtain ⟨_,rfl⟩ := Prod.mk.inj (Option.some.inj run)
  obtain ⟨ref,aligned,called,rfl,_,small,fits⟩ := safe
  obtain ⟨_,geom⟩ := inv.heaps.call_refs called found
  refine ⟨fun {h' sh'} found' => ?_,fun {bag} mem => ?_,built.maps⟩
  · by_cases same : h' = ref.handle.addr
    · subst same
      obtain rfl := Option.some.inj (replace_same.symm.trans found')
      exact show ∃ r raw, sh.heap = GlobalHeap.place r raw from built.heaps found
    · exact built.heaps ((replace_other same).symm.trans found')
  · rcases List.mem_cons.mp mem with rfl | old
    · have fits : (ref.geom.nodeRegion n).nextBag
          (bagSizeForClass ((⟨cls,small⟩ : Fin numSizeClasses) : Nat)) current = some (aligned,new) := fits
      obtain ⟨above,rfl,_,multiple,_⟩ := NodeRegion.nextBag_class fits
      simp only [Nat.add_sub_cancel,geom]
      exact multiple
    · exact built.bags old

theorem exec_built {r : x.Res} (inv : Inv P s)
    (always : ∀ u, (allocLogic P strict).always (s.view u)) (safe : safe P strict x (s.view t))
    (paged : Paged P x) (built : Built P s) (run : exec P strict t x ch s = some (r,s')) :
    Built P s' := by
  by_cases heap : ∃ i, x = .heap i
  · obtain ⟨i,rfl⟩ := heap
    exact heap_built inv built run
  by_cases map : ∃ n, x = .mmap n
  · obtain ⟨n,rfl⟩ := map
    exact mmap_built inv built (paged n rfl) run
  by_cases bag : ∃ h n cls old new, x = .casBump h n cls old new
  · obtain ⟨h,n,cls,old,new,rfl⟩ := bag
    exact casBump_built inv built safe run
  refine (exec_unmade run (not_exists.mp heap) (fun h n cls old new same => bag ⟨h,n,cls,old,new,same⟩)
    (not_exists.mp map)).built (exec_sound.keep inv always safe run).1
    (exec_effect inv always safe run).steady built

/-- A request makes nothing when it starts. -/
theorem start_unmade {request : Request} (run : s.start t request = some s') : Unmade s s' := by
  have entered : ∀ {inst s'}, s.enter t inst = some s' → Unmade s s' := by
    intro inst s' run
    simp only [State.enter,Option.bind_eq_bind,Option.bind_eq_some_iff,Option.some.injEq] at run
    obtain ⟨I,_,rfl⟩ := run
    exact .same rfl rfl rfl
  have passed : ∀ {inst ptr layout s'}, ((s.enter t inst).bind fun s => s.pin t inst ptr layout) =
      some s' → Unmade s s' := by
    intro inst ptr layout s' run
    obtain ⟨s₁,enter,pin⟩ := Option.bind_eq_some_iff.mp run
    simp only [State.pin] at pin
    split at pin
    case isFalse => cases pin
    obtain rfl := Option.some.inj pin
    exact ⟨(entered enter).heaps,(entered enter).bags,(entered enter).nextMap⟩
  cases request with
  | alloc inst layout => exact entered run
  | allocZeroed inst layout => exact entered run
  | dealloc inst ptr layout => exact passed run
  | realloc inst ptr layout size => exact passed run
  | exit =>
    obtain rfl := Option.some.inj run
    exact .same rfl rfl rfl
  | drop inst =>
    simp only [State.start,State.abandon,Option.bind_eq_bind,Option.bind_eq_some_iff] at run
    obtain ⟨I,_,run⟩ := run
    split at run
    case isFalse => cases run
    cases hx : I.heap with
    | none =>
      simp only [hx,Option.some.injEq] at run
      subst run
      exact .same rfl rfl rfl
    | some x =>
      simp only [hx,Option.bind_eq_some_iff,Option.some.injEq] at run
      obtain ⟨sh,found,rfl⟩ := run
      exact .setHeap found rfl rfl (fun _ => id) rfl

namespace World

/-- What is there was made properly, and every operation in progress will make properly. -/
def Made (c : World P strict) : Prop := Built P c.state ∧ ∀ t, (c.prog t).Only (Paged P)

theorem Made.advance {label : Label} (made : c.Made) (fine : Fine P strict c)
    (step : c.advance label = some c') : c'.Made := by
  obtain ⟨built,only⟩ := made
  have fine' := Fine.advance fine step
  have steady := Fine.steady fine step
  have kept : ∀ {u q}, q.Only (Paged P) → ∀ t, (replace c.prog u q t).Only (Paged P) := by
    intro u q own t
    by_cases same : t = u
    · subst same
      rwa [replace_same]
    · rw [replace_other same]
      exact only t
  cases label with
  | step t ch =>
    have own := only t
    simp only [World.advance,Config.advance] at step
    cases prog : c.prog t with
    | ret a => simp [prog] at step
    | act x k =>
      rw [prog] at own
      simp only [prog,Option.map_eq_some_iff] at step
      obtain ⟨⟨r,s'⟩,run,rfl⟩ := step
      have safe := fine.safe (t := t) (x := x) (by rw [prog]; rfl)
      exact ⟨exec_built fine.inv fine.always safe own.1 built run,kept (own.2 r)⟩
    | loop body i k =>
      rw [prog] at own
      simp only [prog,Option.some.injEq] at step
      subst step
      exact ⟨built,kept own.unroll⟩
  | start t request =>
    simp only [World.advance] at step
    split at step
    case h_2 => cases step
    obtain ⟨s,run,rfl⟩ := Option.map_eq_some_iff.mp step
    exact ⟨(start_unmade run).built fine'.inv steady built,kept (code_only request)⟩
  | write addr value =>
    simp only [World.advance,Option.ite_none_right_eq_some,Option.some.injEq] at step
    obtain ⟨_,rfl⟩ := step
    exact ⟨Unmade.built (s := c.state) (.same rfl rfl rfl) fine'.inv steady built,only⟩
  | create numNodes regionSize =>
    obtain rfl := Option.some.inj step
    exact ⟨Unmade.built (s := c.state) (.same rfl rfl rfl) fine'.inv steady built,only⟩

theorem Reachable.built (reachable : c.Reachable) : Built P c.state := by
  obtain ⟨mem,schedule,run⟩ := reachable
  have start : (initial mem : World P strict).Made :=
    ⟨⟨(nomatch ·),fun mem => (List.not_mem_nil mem).elim,fun found => (nomatch found)⟩,fun _ => trivial⟩
  have along : ∀ {schedule : List Label} {c₀ : World P strict}, Fine P strict c₀ → c₀.Made →
      c₀.execute schedule = some c → c.Made := by
    intro schedule
    induction schedule with
    | nil => exact fun _ made run => Option.some.inj run ▸ made
    | cons label rest ih =>
      intro c₀ fine made run
      obtain ⟨c₁,step,run⟩ := Option.bind_eq_some_iff.mp run
      exact ih (Fine.advance fine step) (made.advance fine step) run
  exact (along (initial_fine mem) start run).1

end World

end Numalloc
