import Numalloc.Sound.Step

/-! What one action of a thread can change: bytes of storage it holds or that nobody has
mapped, holders of its own blocks, mappings it unmaps itself. Everything that other
threads, callers and allocators rely on stays. -/
namespace Numalloc

open Concurrent View

/-- Where thread `t` may write. -/
inductive Reach (s : State) (t y : Nat) : Prop where
  | block {b : Nat} {sl : Slot} (found : s.slots b = some sl) (holder : sl.holder = .thread t)
      (low : b ≤ y) (high : y < b + sizeForClass sl.cls)
  | mapping {id : Nat} {m : Mapping} (found : s.maps id = some m) (holder : m.holder = .thread t)
      (low : m.base ≤ y) (high : y < m.base + m.size)
  | vacant (free : ∀ {id m}, s.maps id = some m → y < m.base ∨ m.base + m.size ≤ y)

/-- What a mapping keeps for as long as it exists. -/
def Mapping.shape (m : Mapping) : Nat × Nat × Use := (m.base,m.size,m.use)

structure Effect (t : Nat) (x : Act) (s s' : State) : Prop where
  mem : ∀ y, s'.mem y ≠ s.mem y → Reach s t y
  slots : ∀ {b sl}, s.slots b = some sl → sl.holder = .thread t → ∃ sl', s'.slots b = some sl' ∧
    sl'.ref = sl.ref ∧ (sl'.holder = .thread t ∨ sl'.holder = .stack sl.ref ∨
      sl'.holder = .user ∧ ∃ layout, x = .give b layout)
  bags : ∀ {bag}, bag ∈ s.bags → bag ∈ s'.bags ∨ s'.dying t = some bag.heap
  nextMap : s.nextMap ≤ s'.nextMap
  maps : ∀ {id}, id < s.nextMap → (s'.maps id).map Mapping.shape = (s.maps id).map Mapping.shape ∨
    ∃ m, s.maps id = some m ∧ m.holder = .thread t ∧ x = .munmap m.base m.size ∧ s'.maps id = none
  held : ∀ {id m}, s.maps id = some m → m.holder = .thread t → s'.maps id = none ∨
    ∃ m', s'.maps id = some m' ∧ (m'.holder = .thread t ∨
      m'.holder = .user ∧ ∃ p layout, x = .give p layout ∧ m.payload = some p)
  born : ∀ {id m i}, s.maps id = none → s'.maps id = some m → m.use = .heap i →
    ∃ I, s.insts i = some I ∧ I.heap = none
  nextInst : s'.nextInst = s.nextInst
  insts : ∀ i, (s'.insts i).isSome = (s.insts i).isSome
  heaps : ∀ {i I h}, s.insts i = some I → I.heap = some h →
    ∃ I', s'.insts i = some I' ∧ I'.heap = some h

variable {P : Platform} {strict : Bool} {s s' : State} {t : Nat} {ch : Choice} {x : Act}

namespace Effect

/-- Most actions touch none of this. -/
theorem still (mem : s'.mem = s.mem) (slots : s'.slots = s.slots) (bags : s'.bags = s.bags)
    (maps : s'.maps = s.maps) (nextMap : s'.nextMap = s.nextMap) (insts : s'.insts = s.insts)
    (nextInst : s'.nextInst = s.nextInst) : Effect t x s s' where
  mem y changed := absurd (congrFun mem y) changed
  slots found holder := ⟨_,by rw [slots]; exact found,rfl,Or.inl holder⟩
  bags mem := Or.inl (bags ▸ mem)
  nextMap := nextMap.ge
  maps _ := Or.inl (by rw [maps])
  held found holder := Or.inr ⟨_,by rw [maps]; exact found,Or.inl holder⟩
  born gone found := by simp [maps,gone] at found
  nextInst := nextInst
  insts i := by rw [insts]
  heaps found heap := ⟨_,by rw [insts]; exact found,heap⟩

theorem shape_of_core {maps maps' : Nat → Option Mapping} (same : SameMaps maps maps') (id : Nat) :
    (maps' id).map Mapping.shape = (maps id).map Mapping.shape := by
  have same := congrArg (Option.map fun c : Nat × Nat × List (Nat × Nat) × Use × MapHolder =>
    (c.1,c.2.1,c.2.2.2.1)) (same id)
  rw [Option.map_map,Option.map_map] at same
  exact same

/-- An action that writes storage of its own and may move a header. -/
theorem write (mem : ∀ y, s'.mem y ≠ s.mem y → Reach s t y) (slots : s'.slots = s.slots)
    (bags : s'.bags = s.bags) (maps : SameMaps s.maps s'.maps) (nextMap : s'.nextMap = s.nextMap)
    (insts : s'.insts = s.insts) (nextInst : s'.nextInst = s.nextInst) : Effect t x s s' where
  mem := mem
  slots found holder := ⟨_,by rw [slots]; exact found,rfl,Or.inl holder⟩
  bags mem := Or.inl (bags ▸ mem)
  nextMap := nextMap.ge
  maps {id} _ := Or.inl (shape_of_core maps id)
  held found holder := by
    obtain ⟨m',found',_,_,_,_,eq⟩ := maps.symm.back found
    exact Or.inr ⟨m',found',Or.inl (eq.trans holder)⟩
  born gone found := by simp [maps.none_iff.mpr gone] at found
  nextInst := nextInst
  insts i := by rw [insts]
  heaps found heap := ⟨_,by rw [insts]; exact found,heap⟩

/-- Blocks change hands. -/
theorem pass {moved : Nat → Slot → Bool} {holder : Holder} (mem : s'.mem = s.mem)
    (slots : s'.slots = (s.moveSlots moved holder).slots) (bags : s'.bags = s.bags)
    (maps : s'.maps = s.maps) (nextMap : s'.nextMap = s.nextMap) (insts : s'.insts = s.insts)
    (nextInst : s'.nextInst = s.nextInst)
    (target : ∀ {b sl}, s.slots b = some sl → sl.holder = .thread t → moved b sl = true →
      holder = .thread t ∨ holder = .stack sl.ref ∨
        holder = .user ∧ ∃ layout, x = .give b layout) : Effect t x s s' where
  mem y changed := absurd (congrFun mem y) changed
  slots {b sl} found own := by
    rw [slots]
    refine ⟨_,moveSlots_some.mpr ⟨sl,found,rfl⟩,?_,?_⟩
    · split <;> rfl
    · split
      case isTrue hit => exact target found own hit
      case isFalse => exact Or.inl own
  bags mem := Or.inl (bags ▸ mem)
  nextMap := nextMap.ge
  maps _ := Or.inl (by rw [maps])
  held found holder := Or.inr ⟨_,by rw [maps]; exact found,Or.inl holder⟩
  born gone found := by simp [maps,gone] at found
  nextInst := nextInst
  insts i := by rw [insts]
  heaps found heap := ⟨_,by rw [insts]; exact found,heap⟩

/-- A mapping changes hands. -/
theorem moveMap {id : Nat} {holder : MapHolder} (mem : s'.mem = s.mem) (slots : s'.slots = s.slots)
    (bags : s'.bags = s.bags) (maps : s'.maps = (s.moveMap id holder).maps)
    (nextMap : s'.nextMap = s.nextMap) (insts : s'.insts = s.insts)
    (nextInst : s'.nextInst = s.nextInst)
    (target : ∀ {m}, s.maps id = some m → m.holder = .thread t → holder = .thread t ∨
      holder = .user ∧ ∃ p layout, x = .give p layout ∧ m.payload = some p) : Effect t x s s' where
  mem y changed := absurd (congrFun mem y) changed
  slots found holder := ⟨_,by rw [slots]; exact found,rfl,Or.inl holder⟩
  bags mem := Or.inl (bags ▸ mem)
  nextMap := nextMap.ge
  held {id' m} found own := by
    rw [maps]
    by_cases same : id' = id
    · subst same
      exact Or.inr ⟨{ m with holder := holder },by simp [State.moveMap,found],target found own⟩
    · exact Or.inr ⟨m,(replace_other same).trans found,Or.inl own⟩
  born {id' m i} gone found := by
    rw [maps] at found
    by_cases same : id' = id
    · subst same
      simp [State.moveMap,gone] at found
    · rw [show (s.moveMap id holder).maps id' = s.maps id' from replace_other same,gone] at found
      cases found
  maps {id'} _ := by
    rw [maps]
    by_cases same : id' = id
    · subst same
      refine Or.inl ?_
      simp only [State.moveMap,replace_same,Option.map_map]
      rfl
    · exact Or.inl (by simp only [State.moveMap,replace_other same])
  nextInst := nextInst
  insts i := by rw [insts]
  heaps found heap := ⟨_,by rw [insts]; exact found,heap⟩

end Effect

/-- A write reaches only the range it is for. -/
theorem Reach.of_range {a n : Nat} {mem : Bytes} (outside : ∀ y, y < a ∨ a + n ≤ y → mem y = s.mem y)
    (reach : ∀ y, a ≤ y → y < a + n → Reach s t y) : ∀ y, mem y ≠ s.mem y → Reach s t y := by
  intro y changed
  by_cases out : y < a ∨ a + n ≤ y
  · exact absurd (outside y out) changed
  · exact reach y (by omega) (by omega)

theorem Reach.of_block {a n b y : Nat} {B : Block} (held : (s.view t).blocks b = some B)
    (low : b ≤ a) (high : a + n ≤ b + sizeForClass B.ref.cls) (above : a ≤ y) (below : y < a + n) :
    Reach s t y := by
  obtain ⟨sl,found,holder,rfl⟩ := view_block held
  have fits : a + n ≤ b + sizeForClass sl.cls := high
  exact .block found holder (by omega) (by omega)

theorem Reach.of_map {a n id y : Nat} {m : Mapping} (held : (s.view t).maps id = some m)
    (low : m.base ≤ a) (high : a + n ≤ m.base + m.size) (above : a ≤ y) (below : y < a + n) :
    Reach s t y := by
  obtain ⟨found,holder⟩ := view_map.mp held
  exact .mapping found holder (by omega) (by omega)

theorem Inv.reach_writable (inv : Inv P s) {a n y : Nat} (writable : (s.view t).Writable a n)
    (above : a ≤ y) (below : y < a + n) : Reach s t y := by
  rcases writable with ⟨b,B,held,low,high⟩ | ⟨id,m,p,held,payload,low,high⟩
  · exact Reach.of_block held low high above below
  · obtain ⟨_,front,_⟩ := inv.mem.header (view_map.mp held).1 payload
    exact Reach.of_map held (by omega) high above below

/-- A new mapping is zero-filled where nothing was mapped. -/
theorem addMapping_mem {raw size : Nat} (use : Use) (holder : MapHolder)
    (vacant : Vacant P s raw size) :
    ∀ y, (s.addMapping (.fresh raw size use holder)).mem y ≠ s.mem y → Reach s t y := by
  refine Reach.of_range (a := raw) (n := size) (fun y out => fill_outside 0 out)
    fun y low high => .vacant fun found => ?_
  have apart := vacant.apart found
  unfold Apart at apart
  omega

theorem bind_same (maps : Nat → Option Mapping) (ptr size node : Nat) : SameMaps maps fun id =>
    (maps id).map fun m => if m.base = ptr ∧ m.size = size then { m with node := some node } else m := by
  intro id
  simp only [Option.map_map]
  refine Option.map_congr fun m _ => ?_
  simp only [Function.comp_apply]
  split <;> rfl

theorem writeHeader_same (s : State) (t place original size : Nat) :
    SameMaps s.maps (s.writeHeader t place original size).maps := by
  intro id
  refine Eq.trans ?_ (store_same s place headerSize
    (writeLE (writeLE s.mem place 8 original) (place + 8) 8 size) id)
  simp only [State.writeHeader,Option.map_map]
  refine Option.map_congr fun m _ => ?_
  simp only [Function.comp_apply]
  split <;> rfl

theorem writeHeader_outside {place y : Nat} (t original size : Nat)
    (out : y < place ∨ place + headerSize ≤ y) :
    (s.writeHeader t place original size).mem y = s.mem y := by
  unfold headerSize at out
  exact (writeLE_outside (by omega)).trans (writeLE_outside (by omega))

/-! Actions with an effect of their own. -/

theorem heap_effect {inst : Nat} {r : HeapRef} (inv : Inv P s)
    (run : exec P strict t (.heap inst) ch s = some (r,s')) : Effect t (.heap inst) s s' := by
  simp only [exec,Option.bind_eq_bind,Option.bind_eq_some_iff] at run
  obtain ⟨I,hi,run⟩ := run
  cases hx : I.heap with
  | some y =>
    simp only [hx,Option.bind_eq_some_iff,Option.some.injEq,Prod.mk.injEq] at run
    obtain ⟨sh,found,rfl,rfl⟩ := run
    exact .still rfl rfl rfl rfl rfl rfl rfl
  | none =>
    simp only [hx,Option.bind_eq_some_iff] at run
    obtain ⟨res,reserved,run⟩ := run
    cases ch with
    | place raw addr =>
      simp only at run
      split at run
      case isFalse => cases run
      case isTrue ok =>
      obtain ⟨rfl,rfl⟩ := Prod.mk.inj (Option.some.inj run)
      have vacant := inv.vacant ok.1
      refine ⟨addMapping_mem (.heap inst) .heap vacant,
        fun found holder => ⟨_,found,rfl,Or.inl holder⟩,Or.inl,Nat.le_succ _,fun {id} old => Or.inl ?_,
        fun found holder => Or.inr ⟨_,(addMapping_maps inv).mpr (Or.inr found),Or.inl holder⟩,
        fun {id m i} gone found use => ?_,rfl,fun i => ?_,fun {i J h} hj heap => ?_⟩
      · exact congrArg _ (addMapping_other (.fresh raw res.mapSize (.heap inst) .heap) (by omega))
      · rcases (addMapping_maps inv).mp found with ⟨_,rfl⟩ | old
        · obtain rfl : inst = i := by simpa [Mapping.fresh] using use
          exact ⟨I,hi,hx⟩
        · simp [gone] at old
      · by_cases same : i = inst
        · subst same
          simp [hi]
        · simp only [replace_other same]
          rfl
      · have ne : i ≠ inst := by
          rintro rfl
          obtain rfl := Option.some.inj (hi.symm.trans hj)
          simp [hx] at heap
        exact ⟨J,(replace_other ne).trans hj,heap⟩
    | _ => cases run

theorem mmap_effect {size : Nat} {r : Option Nat} (inv : Inv P s)
    (run : exec P strict t (.mmap size) ch s = some (r,s')) : Effect t (.mmap size) s s' := by
  cases ch with
  | addr raw =>
    simp only [exec] at run
    split at run
    case isFalse => cases run
    case isTrue ok =>
    obtain ⟨rfl,rfl⟩ := Prod.mk.inj (Option.some.inj run)
    have vacant := inv.vacant ok
    exact ⟨addMapping_mem _ _ vacant,fun found holder => ⟨_,found,rfl,Or.inl holder⟩,Or.inl,
      Nat.le_succ _,fun {id} old => Or.inl (congrArg _ (addMapping_other _ (by omega))),
      fun found holder => Or.inr ⟨_,(addMapping_maps inv).mpr (Or.inr found),Or.inl holder⟩,
      fun gone found use => by
        rcases (addMapping_maps inv).mp found with ⟨_,rfl⟩ | old
        · simp [Mapping.fresh] at use
        · simp [gone] at old,rfl,
      fun _ => rfl,fun found heap => ⟨_,found,heap⟩⟩
  | _ =>
    obtain ⟨rfl,rfl⟩ := Prod.mk.inj (Option.some.inj run)
    exact .still rfl rfl rfl rfl rfl rfl rfl

theorem munmap_effect {a n : Nat} (inv : Inv P s) (safe : safe P strict (.munmap a n) (s.view t))
    (run : exec P strict t (.munmap a n) ch s = some ((),s')) : Effect t (.munmap a n) s s' := by
  obtain ⟨id,m,held,rfl,rfl⟩ := safe
  obtain ⟨found,holder⟩ := view_map.mp held
  simp only [exec,Option.some.injEq,Prod.mk.injEq,true_and] at run
  subst run
  refine ⟨fun y changed => absurd rfl changed,fun found holder => ⟨_,found,rfl,Or.inl holder⟩,Or.inl,
    le_rfl,fun {id'} _ => ?_,fun {id' m'} other own => ?_,fun gone found => by simp [gone] at found,
    rfl,fun _ => rfl,fun found heap => ⟨_,found,heap⟩⟩
  · cases other : s.maps id' with
    | none => exact Or.inl (by simp [other])
    | some m' =>
      by_cases same : id' = id
      · subst same
        obtain rfl := Option.some.inj (found.symm.trans other)
        exact Or.inr ⟨m,rfl,holder,rfl,by simp [found,cut_whole (inv.maps.ok found)]⟩
      · exact Or.inl (by simp [other,cut_apart (inv.maps.ok other) (inv.maps.apart other found same)])
  · by_cases same : id' = id
    · subst same
      exact Or.inl (by simp [found,cut_whole (inv.maps.ok found)])
    · exact Or.inr ⟨m',by simp [other,cut_apart (inv.maps.ok other) (inv.maps.apart other found same)],
        Or.inl own⟩

theorem casHead_effect {k : StackRef} {current new : Nat} {r : Bool} (inv : Inv P s)
    (safe : safe P strict (.casHead k current new) (s.view t))
    (run : exec P strict t (.casHead k current new) ch s = some (r,s')) :
    Effect t (.casHead k current new) s s' := by
  simp only [exec,Option.bind_eq_bind,Option.bind_eq_some_iff] at run
  obtain ⟨sh,found,run⟩ := run
  split at run
  case h_1 =>
    obtain ⟨rfl,rfl⟩ := Prod.mk.inj (Option.some.inj run)
    exact .still rfl rfl rfl rfl rfl rfl rfl
  case h_2 =>
  split at run
  case isFalse =>
    obtain ⟨rfl,rfl⟩ := Prod.mk.inj (Option.some.inj run)
    exact .still rfl rfl rfl rfl rfl rfl rfl
  case isTrue current_eq =>
  subst current_eq
  obtain ⟨_,enough⟩ := safe
  cases head : (TreiberStack.unpack new).1 with
  | none =>
    simp only [head] at run
    obtain ⟨rfl,rfl⟩ := Prod.mk.inj (Option.some.inj run)
    exact .pass rfl rfl rfl rfl rfl rfl rfl fun _ _ _ => Or.inl rfl
  | some first =>
    simp only [head] at enough run
    obtain ⟨rfl,rfl⟩ := Prod.mk.inj (Option.some.inj run)
    obtain ⟨l,chain⟩ := enough
    obtain ⟨eq,_,mine,_⟩ := inv.chained_eq found chain
    refine .pass rfl rfl rfl rfl rfl rfl rfl fun {b sl} at_ _ moved => Or.inr (Or.inl ?_)
    rw [eq] at moved
    obtain ⟨sl',at',_,ref⟩ := mine b (of_decide_eq_true moved)
    obtain rfl := Option.some.inj (at_.symm.trans at')
    rw [ref]

theorem casBump_effect {h n c current new : Nat} {r : Bool} (inv : Inv P s)
    (safe : safe P strict (.casBump h n c current new) (s.view t))
    (run : exec P strict t (.casBump h n c current new) ch s = some (r,s')) :
    Effect t (.casBump h n c current new) s s' := by
  simp only [exec,Option.bind_eq_bind,Option.bind_eq_some_iff] at run
  obtain ⟨sh,found,run⟩ := run
  split at run
  case h_1 =>
    obtain ⟨rfl,rfl⟩ := Prod.mk.inj (Option.some.inj run)
    exact .still rfl rfl rfl rfl rfl rfl rfl
  case h_2 =>
  split at run
  case isFalse =>
    obtain ⟨rfl,rfl⟩ := Prod.mk.inj (Option.some.inj run)
    exact .still rfl rfl rfl rfl rfl rfl rfl
  case isTrue current_eq =>
  subst current_eq
  obtain ⟨rfl,rfl⟩ := Prod.mk.inj (Option.some.inj run)
  obtain ⟨ref,aligned,has,rfl,node,cls,fits⟩ := safe
  obtain ⟨refs,geom⟩ := inv.heaps.call_refs has found
  rw [← geom] at node fits
  have carved := Carved.of_nextBag ref.handle.addr (inv.heaps.geom found) node cls fits
  refine ⟨fun y changed => absurd rfl changed,fun {b sl} at_ holder => ⟨sl,?_,rfl,Or.inl holder⟩,
    fun mem => Or.inl (List.mem_cons_of_mem _ mem),le_rfl,fun _ => Or.inl rfl,
    fun found holder => Or.inr ⟨_,found,Or.inl holder⟩,
    fun {id m i} gone found => absurd (gone.symm.trans found) (by simp),rfl,fun _ => rfl,
    fun found heap => ⟨_,found,heap⟩⟩
  exact (inv.carve_slot carved found refs t).mpr (Or.inr at_)

theorem fetchSubRefs_effect {h : HeapHandle} {r : Nat}
    (seen : step P strict (.fetchSubRefs h) (s.view t) r (s'.view t))
    (run : exec P strict t (.fetchSubRefs h) ch s = some (r,s')) :
    Effect t (.fetchSubRefs h) s s' := by
  simp only [exec,Option.bind_eq_bind,Option.bind_eq_some_iff,Option.some.injEq,
    Prod.mk.injEq] at run
  obtain ⟨sh,found,rfl,rfl⟩ := run
  by_cases one : sh.references = 1
  · simp only [one,if_true] at seen ⊢
    simp only [step,if_true] at seen
    obtain ⟨own,_⟩ := seen
    refine ⟨fun y changed => absurd rfl changed,fun {b sl} at_ holder => ⟨sl,?_,rfl,Or.inl holder⟩,
      fun {bag} mem => ?_,le_rfl,fun {id} _ => Or.inl ?_,fun {id m} found holder => ?_,
      fun {id m i} gone found => by simp [State.retire,State.setHeap,gone] at found,rfl,fun _ => rfl,
      fun found heap => ⟨_,found,heap⟩⟩
    · have kept : sl.heap ≠ h.addr := own b _ (view_block_some at_ holder)
      simp only [State.retire]
      exact Option.filter_eq_some_iff.mpr ⟨at_,by simpa using kept⟩
    · by_cases same : bag.heap = h.addr
      · exact Or.inr (by simp [State.retire,same])
      · exact Or.inl (List.mem_filter.mpr ⟨mem,by simpa using same⟩)
    · simp only [State.retire,Option.map_map]
      refine Option.map_congr fun m _ => ?_
      simp only [Function.comp_apply]
      split <;> rfl
    · refine Or.inr ⟨if m.use = .heap sh.inst then { m with holder := .thread t } else m,
        by simp only [State.retire,State.setHeap,found,Option.map_some],Or.inl ?_⟩
      split
      · rfl
      · exact holder
  · rw [if_neg one]
    exact .still rfl rfl rfl rfl rfl rfl rfl

theorem give_effect {ptr : Nat} {layout : Layout} (inv : Inv P s)
    (safe : safe P strict (.give ptr layout) (s.view t)) :
    Effect t (.give ptr layout) s (s.give t ptr layout) := by
  rcases safe with ⟨a,pinned,rfl,_⟩ | ⟨free,gives⟩ | ⟨free,gives⟩
  · rw [give_eq_pinned pinned]
    exact .still rfl rfl rfl rfl rfl rfl rfl
  · obtain ⟨B,_,_,block,_⟩ := gives
    obtain ⟨sl,found,holder,_⟩ := view_block block
    rw [give_eq_block free found holder]
    refine .pass rfl rfl rfl rfl rfl rfl rfl fun {b sl'} at_ _ moved => Or.inr (Or.inr ⟨rfl,layout,?_⟩)
    rw [of_decide_eq_true moved]
  · obtain ⟨id,m,inst,held,payload,_⟩ := gives
    obtain ⟨found,holder⟩ := view_map.mp held
    rw [give_eq_map inv free found holder payload]
    refine .moveMap rfl rfl rfl rfl rfl rfl rfl fun {m'} found' _ => Or.inr ⟨rfl,ptr,layout,rfl,?_⟩
    rwa [← Option.some.inj (found.symm.trans found')]

theorem release_effect (a : Alloc) : Effect t .release s (s.release t a) := by
  unfold State.release
  cases a.source with
  | slot => exact .pass rfl rfl rfl rfl rfl rfl rfl fun _ _ _ => Or.inl rfl
  | mapping id => exact .moveMap rfl rfl rfl rfl rfl rfl rfl fun _ _ => Or.inl rfl
  | stray => exact .still rfl rfl rfl rfl rfl rfl rfl

theorem exec_effect {r : x.Res} (inv : Inv P s) (always : ∀ u, (allocLogic P strict).always (s.view u))
    (safe : safe P strict x (s.view t)) (run : exec P strict t x ch s = some (r,s')) :
    Effect t x s s' := by
  have seen := (exec_sound.keep inv always safe run).2.1
  cases x with
  | heap inst => exact heap_effect inv run
  | takeHeap | slotGet | readHeader place =>
    all_goals
      simp only [exec,Option.some.injEq,Prod.mk.injEq] at run
      obtain ⟨_,rfl⟩ := run
      exact .still rfl rfl rfl rfl rfl rfl rfl
  | extent h | loadHead k | loadBump heap node =>
    all_goals
      simp only [exec,Option.bind_eq_bind,Option.bind_eq_some_iff,Option.some.injEq,
        Prod.mk.injEq] at run
      obtain ⟨sh,_,_,rfl⟩ := run
      exact .still rfl rfl rfl rfl rfl rfl rfl
  | slotTake destroy =>
    cases alive : s.tls t with
    | alive th =>
      simp only [exec,alive,Option.bind_eq_bind,Option.bind_eq_some_iff,Option.some.injEq,
        Prod.mk.injEq] at run
      obtain ⟨sh,_,_,rfl⟩ := run
      exact .still rfl rfl rfl rfl rfl rfl rfl
    | _ =>
      simp only [exec,alive,Option.some.injEq,Prod.mk.injEq] at run
      obtain ⟨_,rfl⟩ := run
      exact .still rfl rfl rfl rfl rfl rfl rfl
  | slotSet th | fetchAddRefs h =>
    all_goals
      simp only [exec,Option.bind_eq_bind,Option.bind_eq_some_iff,Option.some.injEq,
        Prod.mk.injEq] at run
      obtain ⟨sh,_,_,rfl⟩ := run
      exact .still rfl rfl rfl rfl rfl rfl rfl
  | thread | setFreelist cls fl | setLargeCache cache =>
    all_goals
      simp only [exec] at run
      split at run
      case h_2 => cases run
      obtain ⟨_,rfl⟩ := Prod.mk.inj (Option.some.inj run)
      exact .still rfl rfl rfl rfl rfl rfl rfl
  | link op =>
    cases op with
    | readNext b =>
      simp only [exec,Option.some.injEq,Prod.mk.injEq] at run
      obtain ⟨_,rfl⟩ := run
      exact .still rfl rfl rfl rfl rfl rfl rfl
    | writeNext b next =>
      simp only [exec,Option.some.injEq,Prod.mk.injEq,true_and] at run
      subst run
      obtain ⟨⟨B,block⟩,_⟩ := safe
      obtain ⟨sl,found,holder,rfl⟩ := view_block block
      have room := inv.slot_eight found
      exact .write (Reach.of_range (fun y out => writeLE_outside out) fun y low high =>
        .block found holder low (by omega)) rfl rfl
        (store_same s b 8 (writeLE s.mem b 8 (next.getD 0))) rfl rfl rfl
    | panic => exact absurd safe id
  | casHead k current new => exact casHead_effect inv safe run
  | casBump heap node cls current new => exact casBump_effect inv safe run
  | fetchAddNode inst =>
    simp only [exec,Option.bind_eq_bind,Option.bind_eq_some_iff,Option.some.injEq,
      Prod.mk.injEq] at run
    obtain ⟨I,hi,_,rfl⟩ := run
    refine ⟨fun y changed => absurd rfl changed,fun found holder => ⟨_,found,rfl,Or.inl holder⟩,
      Or.inl,le_rfl,fun _ => Or.inl rfl,fun found holder => Or.inr ⟨_,found,Or.inl holder⟩,
      fun {id m i} gone found => absurd (gone.symm.trans found) (by simp),rfl,fun i => ?_,
      fun {i J h} hj heap => ?_⟩
    · by_cases same : i = inst
      · subst same
        simp [hi]
      · simp only [replace_other same]
    · by_cases same : i = inst
      · subst same
        obtain rfl := Option.some.inj (hi.symm.trans hj)
        exact ⟨_,replace_same,heap⟩
      · exact ⟨J,(replace_other same).trans hj,heap⟩
  | fetchSubRefs h => exact fetchSubRefs_effect seen run
  | sysDealloc h =>
    simp only [exec,Option.some.injEq,Prod.mk.injEq,true_and] at run
    subst run
    exact .still rfl rfl rfl rfl rfl rfl rfl
  | mmap size => exact mmap_effect inv run
  | munmap ptr size => exact munmap_effect inv safe run
  | bindToNode ptr size node =>
    simp only [exec,Option.some.injEq,Prod.mk.injEq,true_and] at run
    subst run
    exact .write (fun y changed => absurd rfl changed) rfl rfl (bind_same s.maps ptr size node) rfl
      rfl rfl
  | madvise ptr size =>
    simp only [exec,Option.some.injEq,Prod.mk.injEq,true_and] at run
    subst run
    obtain ⟨id,m,held,rfl,rfl⟩ := safe
    exact .write (Reach.of_range (fun y out => if_neg fun inside => by omega) fun y =>
      Reach.of_map held le_rfl le_rfl) rfl rfl (store_same s _ _ _) rfl rfl rfl
  | writeHeader place original size =>
    simp only [exec,Option.some.injEq,Prod.mk.injEq,true_and] at run
    subst run
    obtain ⟨id,m,held,rfl,rfl,_,low,high⟩ := safe
    exact .write (Reach.of_range (fun y => writeHeader_outside t m.base m.size) fun y =>
      Reach.of_map held low (by omega)) rfl rfl (writeHeader_same s t place m.base m.size) rfl rfl rfl
  | writeBytes ptr size =>
    simp only [exec,Option.some.injEq,Prod.mk.injEq,true_and] at run
    subst run
    exact .write (Reach.of_range (fun y out => fill_outside 0 out) fun y =>
      inv.reach_writable safe) rfl rfl (store_same s _ _ _) rfl rfl rfl
  | copy src dst size =>
    simp only [exec,Option.some.injEq,Prod.mk.injEq,true_and] at run
    subst run
    exact .write (Reach.of_range (fun y out => copyBytes_outside src out) fun y =>
      inv.reach_writable safe) rfl rfl (store_same s _ _ _) rfl rfl rfl
  | release =>
    simp only [exec,Option.bind_eq_bind,Option.bind_eq_some_iff] at run
    obtain ⟨a,_,run⟩ := run
    split at run
    case isTrue => cases run
    simp only [Option.some.injEq,Prod.mk.injEq,true_and] at run
    subst run
    exact release_effect a
  | give ptr layout =>
    simp only [exec,Option.some.injEq,Prod.mk.injEq,true_and] at run
    subst run
    exact give_effect inv safe
  | finish =>
    simp only [exec,Option.some.injEq,Prod.mk.injEq,true_and] at run
    subst run
    exact .still rfl rfl rfl rfl rfl rfl rfl
  | abort => exact r.elim

end Numalloc
