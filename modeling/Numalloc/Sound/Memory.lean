import Numalloc.Invariant

/-! Actions that write memory: links, headers, payload bytes and dropped pages. A write
stays inside storage its thread (or the caller) holds, so it reaches no link and no
header that anybody else relies on. -/
namespace Numalloc

open Concurrent View

/-- One action is sound: the shared invariant survives, the acting thread sees what the
logic promises, and no other thread sees anything. -/
structure Kept (P : Platform) (t : Nat) (s s' : State) (seen : Prop) : Prop where
  inv : Inv P s'
  seen : seen
  others : ∀ u, u ≠ t → s'.view u = s.view u

variable {P : Platform} {strict : Bool} {s : State} {t : Nat}

theorem view_is {s : State} {u : Nat} {v : View} (slot : s.tls u = v.slot)
    (call : s.call u = v.call) (hand : s.hand u = v.hand) (dying : s.dying u = v.dying)
    (pin : s.pinned u = v.pin) (blocks : s.blockOf u = v.blocks) (maps : s.mapOf u = v.maps) :
    s.view u = v := by
  simp only [State.view,slot,call,hand,dying,pin,blocks,maps]

theorem view_eq {s s' : State} {u : Nat} (tls : s'.tls u = s.tls u) (call : s'.call u = s.call u)
    (hand : s'.hand u = s.hand u) (dying : s'.dying u = s.dying u)
    (pin : s'.pinned u = s.pinned u) (blocks : s'.blockOf u = s.blockOf u)
    (maps : s'.mapOf u = s.mapOf u) : s'.view u = s.view u :=
  view_is tls call hand dying pin blocks maps

/-! Mappings that differ only in node and payload. -/

namespace Mapping

/-- Everything about a mapping that placement and ownership depend on. -/
def core (m : Mapping) : Nat × Nat × List (Nat × Nat) × Use × MapHolder :=
  (m.base,m.size,m.extent,m.use,m.holder)

@[simp] theorem scrub_core (a n : Nat) (m : Mapping) : (m.scrub a n).core = m.core := by
  unfold scrub
  split
  · rfl
  · split <;> rfl

@[simp] theorem scrub_base (a n : Nat) (m : Mapping) : (m.scrub a n).base = m.base :=
  congrArg Prod.fst (scrub_core a n m)

theorem scrub_update (a n : Nat) (m : Mapping) :
    { m with payload := (m.scrub a n).payload } = m.scrub a n := by
  unfold scrub
  split
  · rfl
  · split <;> rfl

theorem scrub_payload {a n p : Nat} {m : Mapping} : (m.scrub a n).payload = some p ↔
    m.payload = some p ∧ Apart (p - headerSize) headerSize a n := by
  unfold scrub
  cases h : m.payload with
  | none => simp [h]
  | some q =>
    by_cases apart : Apart (q - headerSize) headerSize a n
    · simp only [apart,if_true,h,Option.some.injEq]
      constructor
      · rintro rfl; exact ⟨rfl,apart⟩
      · exact fun h => h.1
    · simp only [apart,if_false,Option.some.injEq,reduceCtorEq,false_iff]
      rintro ⟨rfl,h⟩
      exact apart h

theorem scrub_eq {a n : Nat} {m : Mapping}
    (apart : ∀ p, m.payload = some p → Apart (p - headerSize) headerSize a n) :
    m.scrub a n = m := by
  unfold scrub
  cases h : m.payload with
  | none => rfl
  | some p => simp [apart p h]

end Mapping

/-- Two tables of mappings agree but for nodes and payloads. -/
def SameMaps (maps maps' : Nat → Option Mapping) : Prop :=
  ∀ id, (maps' id).map Mapping.core = (maps id).map Mapping.core

namespace SameMaps

variable {maps maps' : Nat → Option Mapping} {id : Nat} {m m' : Mapping}

theorem symm (same : SameMaps maps maps') : SameMaps maps' maps := fun id => (same id).symm

theorem back (same : SameMaps maps maps') (h : maps' id = some m') :
    ∃ m, maps id = some m ∧ m.base = m'.base ∧ m.size = m'.size ∧ m.extent = m'.extent ∧
      m.use = m'.use ∧ m.holder = m'.holder := by
  have eq := same id
  rw [h,Option.map_some] at eq
  obtain ⟨m,hm,core⟩ := Option.map_eq_some_iff.mp eq.symm
  simp only [Mapping.core,Prod.mk.injEq] at core
  exact ⟨m,hm,core⟩

theorem none_iff (same : SameMaps maps maps') : maps' id = none ↔ maps id = none := by
  have eq := same id
  constructor <;> intro h <;> rw [h] at eq
  · exact Option.map_eq_none_iff.mp eq.symm
  · exact Option.map_eq_none_iff.mp eq

theorem mapInv {nextMap : Nat} {unmaps : Nat → Nat} (same : SameMaps maps maps')
    (inv : MapInv P maps nextMap unmaps) : MapInv P maps' nextMap unmaps where
  ok h := by
    obtain ⟨m,hm,base,size,extent,_⟩ := same.back h
    obtain ⟨base_pos,size_pos,bound,page,whole⟩ := inv.ok hm
    rw [base,size] at bound whole
    exact ⟨base ▸ base_pos,size ▸ size_pos,bound,base ▸ page,extent ▸ whole⟩
  fresh h := same.none_iff.mpr (inv.fresh h)
  apart h h' ne := by
    obtain ⟨m,hm,base,size,_⟩ := same.back h
    obtain ⟨n,hn,base',size',_⟩ := same.back h'
    rw [← base,← size,← base',← size']
    exact inv.apart hm hn ne
  present h := inv.present fun none => h (same.none_iff.mpr none)
  unborn := inv.unborn
  gone lt none := inv.gone lt (same.none_iff.mp none)

theorem heapInv {heaps insts nextInst tls hand dying call threads}
    (same : SameMaps maps maps')
    (inv : HeapInv heaps insts nextInst tls hand dying call threads maps) :
    HeapInv heaps insts nextInst tls hand dying call threads maps' :=
  { inv with
    mapLive := by
      intro h sh heap refs
      obtain ⟨id,m,hm,use,holder,base,size⟩ := inv.mapLive heap refs
      obtain ⟨m',hm',base',size',_,use',holder'⟩ := same.symm.back hm
      exact ⟨id,m',hm',use'.trans use,holder'.trans holder,base'.trans base,size'.trans size⟩
    mapHeap := by
      intro id m' i h use
      obtain ⟨m,hm,base,size,_,use',holder⟩ := same.back h
      obtain ⟨a,sh,heap,inst,atBase,atSize,live,dead⟩ := inv.mapHeap hm (use'.trans use)
      rw [holder] at live dead
      exact ⟨a,sh,heap,inst,base ▸ atBase,size ▸ atSize,live,dead⟩
    mapOne := by
      intro id id' m m' i h h' use use'
      obtain ⟨n,hn,_,_,_,eq,_⟩ := same.back h
      obtain ⟨n',hn',_,_,_,eq',_⟩ := same.back h'
      exact inv.mapOne hn hn' (eq.trans use) (eq'.trans use')
    mapLarge := by
      intro id m' i h use
      obtain ⟨m,hm,_,_,_,use',holder⟩ := same.back h
      exact holder ▸ inv.mapLarge hm (use'.trans use) }

end SameMaps

/-! The footprint of a write. -/

/-- Where a write may land: in a block that is on no stack, or in a mapping that backs
no heap; `mine` are the storage holders whose links and headers it may destroy. -/
structure Footprint (s : State) (a n : Nat) (t : Nat) : Prop where
  links : ∀ {b sl}, s.slots b = some sl → Apart b 8 a n ∨
    sl.holder = .thread t ∨ sl.holder = .user
  headers : ∀ {id m p}, s.maps id = some m → m.payload = some p →
    Apart (p - headerSize) headerSize a n ∨ m.holder = .thread t

theorem store_same (s : State) (a n : Nat) (mem : Bytes) :
    SameMaps s.maps (s.store a n mem).maps := by
  intro id
  simp [State.store,Function.comp_def]

theorem store_maps_some {a n id : Nat} {mem : Bytes} {m : Mapping}
    (h : (s.store a n mem).maps id = some m) : ∃ m₀, s.maps id = some m₀ ∧ m = m₀.scrub a n := by
  obtain ⟨m₀,found,rfl⟩ := Option.map_eq_some_iff.mp h
  exact ⟨m₀,found,rfl⟩

theorem lastLink_store {a n b : Nat} {mem : Bytes} {l : Option Nat}
    (h : (s.store a n mem).lastLink b = some l) : s.lastLink b = some l ∧ Apart b 8 a n := by
  by_cases apart : Apart b 8 a n
  · simpa [State.store,apart] using h
  · simp [State.store,apart] at h

theorem lastLink_store_apart {a n b : Nat} (mem : Bytes) (apart : Apart b 8 a n) :
    (s.store a n mem).lastLink b = s.lastLink b := by
  simp [State.store,apart]

theorem readLE_outside {mem mem' : Bytes} {a n b k : Nat}
    (outside : ∀ x, x < a ∨ a + n ≤ x → mem' x = mem x) (apart : Apart b k a n) :
    readLE mem' b k = readLE mem b k :=
  readLE_congr fun x low high => outside x (by unfold Apart at apart; omega)

/-- Writes inside their footprint keep the shared invariant. -/
theorem Inv.store (inv : Inv P s) {a n : Nat} (mem : Bytes)
    (outside : ∀ x, x < a ∨ a + n ≤ x → mem x = s.mem x) (foot : Footprint s a n t) :
    Inv P (s.store a n mem) := by
  have same := store_same s a n mem
  refine ⟨same.mapInv inv.maps,same.heapInv inv.heaps,inv.slots,?_,?_,?_⟩
  · refine ⟨fun heap refs node cls => ?_,inv.nodes.ref⟩
    obtain ⟨l,chain,nodup,mem'⟩ := inv.nodes.chain heap refs node cls
    refine ⟨l,?_,nodup,mem'⟩
    refine (links_congr fun b hb => ?_).mp chain
    obtain ⟨sl,found,holder⟩ := (mem' b).mp hb
    have apart := foot.links found
    rw [holder] at apart
    exact (lastLink_store_apart mem (by simpa using apart)).symm
  · refine ⟨fun h => ?_,fun h payload => ?_⟩
    · obtain ⟨old,apart⟩ := lastLink_store h
      obtain ⟨word,user⟩ := inv.mem.link old
      exact ⟨(readLE_outside outside apart).trans word,user⟩
    · obtain ⟨m₀,found,rfl⟩ := store_maps_some h
      obtain ⟨kept,apart⟩ := Mapping.scrub_payload.mp payload
      obtain ⟨use,low,high,base,size⟩ := inv.mem.header found kept
      obtain ⟨_,found',eqs⟩ := same.back h
      obtain rfl := Option.some.inj (found.symm.trans found')
      rw [← eqs.1,← eqs.2.1,← eqs.2.2.2.1]
      refine ⟨use,low,high,?_,?_⟩
      · exact (readLE_outside outside (Apart.mono apart le_rfl (by simp [headerSize]) le_rfl le_rfl)).trans
          base
      · exact (readLE_outside outside (Apart.mono apart (Nat.le_add_right _ 8) le_rfl le_rfl
          le_rfl)).trans size
  · refine { inv.live with
      backed := fun {alloc} live => ?_
      ofMap := fun h holder => ?_ }
    · refine (inv.live.backed live).mono (fun found _ _ _ _ => found) (fun {id m} found holder payload =>
        ?_) fun {I _} hi hx => ⟨I,hi,hx⟩
      have apart := foot.headers found payload
      rw [holder] at apart
      have kept : m.scrub a n = m := Mapping.scrub_eq fun p hp => by
        obtain rfl := Option.some.inj (payload.symm.trans hp)
        simpa using apart
      simp [State.store,found,kept]
    · obtain ⟨m,found,_,_,_,_,eq⟩ := same.back h
      exact inv.live.ofMap found (eq.trans holder)

/-- Whoever's links and headers are out of reach sees nothing of a write. -/
theorem view_store {u a n : Nat} (mem : Bytes)
    (links : ∀ {b sl}, s.slots b = some sl → sl.holder = .thread u → Apart b 8 a n)
    (headers : ∀ {id m p}, s.maps id = some m → m.holder = .thread u → m.payload = some p →
      Apart (p - headerSize) headerSize a n) : (s.store a n mem).view u = s.view u := by
  have blocks : (s.store a n mem).blockOf u = s.blockOf u := by
    funext b
    simp only [State.blockOf,State.store]
    cases found : s.slots b with
    | none => rfl
    | some sl =>
      by_cases holder : sl.holder = .thread u
      · simp [holder,links found holder]
      · simp [holder]
  have maps : (s.store a n mem).mapOf u = s.mapOf u := by
    funext id
    simp only [State.mapOf,State.store]
    cases found : s.maps id with
    | none => rfl
    | some m =>
      have same : (m.scrub a n).holder = m.holder := by
        have := Mapping.scrub_core a n m
        simp only [Mapping.core,Prod.mk.injEq] at this
        exact this.2.2.2.2
      simp only [Option.map_some,same]
      by_cases holder : m.holder = .thread u
      · rw [Mapping.scrub_eq fun p hp => headers found holder hp]
      · simp [holder]
  exact view_eq rfl rfl rfl rfl rfl blocks maps

theorem Footprint.view {a n u : Nat} (mem : Bytes) (foot : Footprint s a n t) (ne : u ≠ t) :
    (s.store a n mem).view u = s.view u := by
  refine view_store mem (fun found holder => ?_) (fun found holder payload => ?_)
  · have := foot.links found
    rw [holder] at this
    simpa [ne] using this
  · have := foot.headers found payload
    rw [holder] at this
    simpa [ne] using this

/-! Who holds what, read off the view. -/

theorem view_block {b : Nat} {B : Block} (h : (s.view t).blocks b = some B) :
    ∃ sl, s.slots b = some sl ∧ sl.holder = .thread t ∧ B = ⟨sl.ref,s.lastLink b⟩ := by
  simp only [State.view,State.blockOf] at h
  split at h
  case h_1 sl found =>
    split at h
    case isTrue holder => exact ⟨sl,found,holder,(Option.some.inj h).symm⟩
    case isFalse => contradiction
  case h_2 => contradiction

theorem view_block_some {b : Nat} {sl : Slot} (found : s.slots b = some sl)
    (holder : sl.holder = .thread t) :
    (s.view t).blocks b = some ⟨sl.ref,s.lastLink b⟩ := by
  simp [State.view,State.blockOf,found,holder]

theorem view_map {id : Nat} {m : Mapping} :
    (s.view t).maps id = some m ↔ s.maps id = some m ∧ m.holder = .thread t := by
  simp only [State.view,State.mapOf]
  constructor
  · intro h
    split at h
    case h_1 m' found =>
      split at h
      case isTrue holder =>
        obtain rfl := Option.some.inj h
        exact ⟨found,holder⟩
      case isFalse => contradiction
    case h_2 => contradiction
  · rintro ⟨found,holder⟩
    simp [found,holder]

/-- Mappings of one thread are told apart by their base. -/
theorem Inv.map_base (inv : Inv P s) {id id' : Nat} {m m' : Mapping} (h : s.maps id = some m)
    (h' : s.maps id' = some m') (base : m.base = m'.base) : id = id' := by
  by_contra ne
  have apart := inv.maps.apart h h' ne
  have := (inv.maps.ok h).size_pos
  have := (inv.maps.ok h').size_pos
  unfold Apart at apart
  omega

theorem Inv.mapAt (inv : Inv P s) {id : Nat} {m : Mapping} (h : (s.view t).maps id = some m) :
    (s.view t).MapAt m.base id m where
  held := h
  starts := rfl
  only _ _ h' base := inv.map_base (view_map.mp h').1 (view_map.mp h).1 base

/-- A header lies in a mapping that backs no heap. -/
theorem Inv.header_holder (inv : Inv P s) {id p : Nat} {m : Mapping} (found : s.maps id = some m)
    (payload : m.payload = some p) : m.holder ≠ .heap := by
  obtain ⟨⟨i,use⟩,_⟩ := inv.mem.header found payload
  exact (inv.heaps.mapLarge found use).1

/-- A write inside a block held by the thread or by the caller. -/
theorem Inv.footprint_slot (inv : Inv P s) {a n b : Nat} {sl : Slot} (found : s.slots b = some sl)
    (holder : sl.holder = .thread t ∨ sl.holder = .user) (low : b ≤ a)
    (high : a + n ≤ b + sizeForClass sl.cls) : Footprint s a n t where
  links {b' sl'} found' := by
    by_cases same : b' = b
    · subst same
      obtain rfl := Option.some.inj (found.symm.trans found')
      exact Or.inr holder
    · have := inv.slot_eight found'
      exact Or.inl (Apart.mono (inv.slots.apart found' found same) le_rfl (by omega) low high)
  headers {id m p} found' payload := by
    obtain ⟨_,lo,hi,_⟩ := inv.mem.header found' payload
    have apart := inv.slot_apart_map found found' (inv.header_holder found' payload)
    exact Or.inl (Apart.mono apart.symm (by omega) (by unfold headerSize at *; omega) low high)

/-- A write inside a large mapping, behind its header unless the thread holds it. -/
theorem Inv.footprint_map (inv : Inv P s) {a n id : Nat} {m : Mapping}
    (found : s.maps id = some m) (large : m.holder ≠ .heap)
    (own : m.holder = .thread t ∨ ∀ p, m.payload = some p → p ≤ a) (low : m.base ≤ a)
    (high : a + n ≤ m.base + m.size) : Footprint s a n t where
  links {b sl} found' := by
    have := inv.slot_eight found'
    have apart := inv.slot_apart_map found' found large
    exact Or.inl (Apart.mono apart le_rfl (by omega) low high)
  headers {id' m' p} found' payload := by
    by_cases same : id' = id
    · subst same
      obtain rfl := Option.some.inj (found.symm.trans found')
      obtain ⟨_,lo,_⟩ := inv.mem.header found' payload
      rcases own with mine | behind
      · exact Or.inr mine
      · exact Or.inl (Or.inl (by have := behind p payload; omega))
    · obtain ⟨_,lo,hi,_⟩ := inv.mem.header found' payload
      exact Or.inl (Apart.mono (inv.maps.apart found' found same) (by omega)
        (by unfold headerSize at *; omega) low high)

/-! What the writing thread sees. -/

@[simp] theorem setLink_setLink (v : View) (b : Nat) (x y : Option (Option Nat)) :
    (v.setLink b x).setLink b y = v.setLink b y := by
  ext c
  all_goals try rfl
  by_cases same : c = b
  · subst same
    simp [setLink,Option.map_map,Function.comp_def]
  · simp [setLink,replace_other same]

theorem setMap_same {v : View} {id : Nat} {m : Mapping} (held : v.maps id = some m) :
    v.setMap id (some m) = v := by
  unfold setMap
  rw [← held,replace_self]

theorem view_relink {b : Nat} {sl : Slot} (found : s.slots b = some sl)
    (holder : sl.holder = .thread t) (link : Option (Option Nat)) :
    ({ s with lastLink := replace s.lastLink b link } : State).view t =
      (s.view t).setLink b link := by
  have blocks : ({ s with lastLink := replace s.lastLink b link } : State).blockOf t =
      ((s.view t).setLink b link).blocks := by
    funext c
    by_cases same : c = b
    · subst same
      simp [State.blockOf,setLink,view_block_some found holder,found,holder]
    · simp only [State.blockOf,setLink,State.view,replace_other same]
  exact view_is rfl rfl rfl rfl rfl blocks rfl

theorem view_relink_other {b u : Nat} {sl : Slot} (found : s.slots b = some sl)
    (holder : sl.holder ≠ .thread u) (link : Option (Option Nat)) :
    ({ s with lastLink := replace s.lastLink b link } : State).view u = s.view u := by
  refine view_eq rfl rfl rfl rfl rfl ?_ rfl
  funext c
  by_cases same : c = b
  · subst same
    simp [State.blockOf,found,holder]
  · simp only [State.blockOf,replace_other same]

/-- A write inside one of its blocks shows a thread at most a changed link of that block. -/
theorem Inv.view_store_slot (inv : Inv P s) {a n b : Nat} {sl : Slot} (mem : Bytes)
    (found : s.slots b = some sl) (holder : sl.holder = .thread t) (low : b ≤ a)
    (high : a + n ≤ b + sizeForClass sl.cls) :
    (s.store a n mem).view t = (s.view t).setLink b ((s.store a n mem).lastLink b) := by
  have blocks : (s.store a n mem).blockOf t =
      ((s.view t).setLink b ((s.store a n mem).lastLink b)).blocks := by
    funext c
    by_cases same : c = b
    · subst same
      simp only [setLink,replace_same,view_block_some found holder,Option.map_some]
      simp [State.blockOf,State.store,found,holder]
    · simp only [setLink,replace_other same,State.view,State.blockOf]
      cases other : s.slots c with
      | none => simp [State.store,other]
      | some sl' =>
        have := inv.slot_eight other
        have apart := Apart.mono (inv.slots.apart other found same) le_rfl
          (show c + 8 ≤ _ by omega) low high
        simp [State.store,other,apart]
  have maps : (s.store a n mem).mapOf t = s.mapOf t := by
    funext id
    simp only [State.mapOf,State.store]
    cases other : s.maps id with
    | none => rfl
    | some m =>
      have kept : m.scrub a n = m := Mapping.scrub_eq fun p payload => by
        obtain ⟨_,lo,hi,_⟩ := inv.mem.header other payload
        have apart := inv.slot_apart_map found other (inv.header_holder other payload)
        exact Apart.mono apart.symm (by omega) (by unfold headerSize at *; omega) low high
      simp [kept]
  exact view_is rfl rfl rfl rfl rfl blocks maps

/-- A write inside one of its mappings shows a thread at most that its header is gone. -/
theorem Inv.view_store_map (inv : Inv P s) {a n id : Nat} {m : Mapping} (mem : Bytes)
    (found : s.maps id = some m) (holder : m.holder = .thread t) (low : m.base ≤ a)
    (high : a + n ≤ m.base + m.size) :
    (s.store a n mem).view t = (s.view t).setMap id (some (m.scrub a n)) := by
  have blocks : (s.store a n mem).blockOf t = s.blockOf t := by
    funext b
    simp only [State.blockOf,State.store]
    cases other : s.slots b with
    | none => rfl
    | some sl =>
      have := inv.slot_eight other
      have apart := Apart.mono (inv.slot_apart_map other found (by simp [holder])) le_rfl
        (show b + 8 ≤ _ by omega) low high
      simp [apart]
  have maps : (s.store a n mem).mapOf t =
      ((s.view t).setMap id (some (m.scrub a n))).maps := by
    funext id'
    by_cases same : id' = id
    · subst same
      have own := Mapping.scrub_core a n m
      simp only [Mapping.core,Prod.mk.injEq] at own
      simp [setMap,State.mapOf,State.store,found,own,holder]
    · simp only [setMap,replace_other same,State.view,State.mapOf,State.store]
      cases other : s.maps id' with
      | none => rfl
      | some m' =>
        have kept : m'.scrub a n = m' := Mapping.scrub_eq fun p payload => by
          obtain ⟨_,lo,hi,_⟩ := inv.mem.header other payload
          exact Apart.mono (inv.maps.apart other found same) (by omega)
            (by unfold headerSize at *; omega) low high
        simp [kept]
  exact view_is rfl rfl rfl rfl rfl blocks maps

/-! Changing the node or the header of a mapping the thread holds. -/

theorem core_eq {m m' : Mapping} (h : m'.core = m.core) : m'.base = m.base ∧ m'.size = m.size ∧
    m'.extent = m.extent ∧ m'.use = m.use ∧ m'.holder = m.holder := by
  simpa only [Mapping.core,Prod.mk.injEq] using h

theorem sameMaps_replace {maps : Nat → Option Mapping} {id : Nat} {m m' : Mapping}
    (found : maps id = some m) (core : m'.core = m.core) :
    SameMaps maps (replace maps id (some m')) := by
  intro id'
  by_cases same : id' = id
  · subst same
    simp [found,core]
  · rw [replace_other same]

theorem Inv.setMapping (inv : Inv P s) {id : Nat} {m m' : Mapping} (found : s.maps id = some m)
    (holder : m.holder = .thread t) (core : m'.core = m.core)
    (header : ∀ p, m'.payload = some p → (∃ i, m.use = .large i) ∧ m.base + headerSize ≤ p ∧
      p < m.base + m.size ∧ readLE s.mem (p - headerSize) 8 = m.base ∧
      readLE s.mem (p - headerSize + 8) 8 = m.size) :
    Inv P { s with maps := replace s.maps id (some m') } := by
  have same := sameMaps_replace found core
  obtain ⟨base,size,_,use,holder'⟩ := core_eq core
  refine ⟨same.mapInv inv.maps,same.heapInv inv.heaps,inv.slots,inv.nodes,
    ⟨inv.mem.link,fun {id' n p} h payload => ?_⟩,
    { inv.live with backed := fun {alloc} live => ?_, ofMap := fun {id' n} h user => ?_ }⟩
  · by_cases eq : id' = id
    · subst eq
      obtain rfl : m' = n := by simpa using h
      rw [base,size,use]
      exact header p payload
    · exact inv.mem.header (by simpa only [replace_other eq] using h) payload
  · refine (inv.live.backed live).mono (fun found _ _ _ _ => found) (fun {id' n} found' user _ => ?_)
      fun {I _} hi hx => ⟨I,hi,hx⟩
    have ne : id' ≠ id := by
      rintro rfl
      obtain rfl := Option.some.inj (found.symm.trans found')
      simp [holder] at user
    simpa only [replace_other ne] using found'
  · by_cases eq : id' = id
    · subst eq
      obtain rfl : m' = n := by simpa using h
      simp [holder',holder] at user
    · exact inv.live.ofMap (by simpa only [replace_other eq] using h) user

theorem view_setMapping {id : Nat} {m m' : Mapping} (holder : m.holder = .thread t)
    (core : m'.core = m.core) :
    ({ s with maps := replace s.maps id (some m') } : State).view t =
      (s.view t).setMap id (some m') := by
  have own : m'.holder = .thread t := (core_eq core).2.2.2.2.trans holder
  have maps : ({ s with maps := replace s.maps id (some m') } : State).mapOf t =
      replace (s.mapOf t) id (some m') := by
    funext id'
    by_cases same : id' = id
    · subst same
      simp [State.mapOf,own]
    · simp only [State.mapOf,replace_other same]
  exact view_is rfl rfl rfl rfl rfl rfl maps

theorem view_setMapping_other {id u : Nat} {m m' : Mapping} (found : s.maps id = some m)
    (holder : m.holder = .thread t) (core : m'.core = m.core) (ne : u ≠ t) :
    ({ s with maps := replace s.maps id (some m') } : State).view u = s.view u := by
  refine view_eq rfl rfl rfl rfl rfl rfl ?_
  have own : m'.holder = .thread t := (core_eq core).2.2.2.2.trans holder
  funext id'
  by_cases same : id' = id
  · subst same
    simp [State.mapOf,own,found,holder,ne.symm]
  · simp only [State.mapOf,replace_other same]

/-! The actions. -/

section Actions

variable {s' : State} {ch : Choice}

theorem decode_getD {n : Option Nat} (user : ∀ a, n = some a → UserAddr a) :
    State.decode (n.getD 0) = n := by
  cases n with
  | none => rfl
  | some a =>
    have := (user a rfl).1
    simp only [State.decode,Option.getD_some]
    rw [if_neg (by omega)]

theorem Inv.link_value (inv : Inv P s) {b : Nat} {n : Option Nat}
    (link : s.lastLink b = some n) : s.readNext b = n := by
  obtain ⟨word,user⟩ := inv.mem.link link
  rw [State.readNext,word,decode_getD user]

theorem view_link {b : Nat} {n : Option Nat} (h : (s.view t).link b = some n) :
    s.lastLink b = some n := by
  obtain ⟨B,block,link⟩ := Option.bind_eq_some_iff.mp h
  obtain ⟨sl,_,_,rfl⟩ := view_block block
  exact link

theorem readNext_kept {b : Nat} {r : Option Nat} (inv : Inv P s)
    (safe : safe P strict (.link (.readNext b)) (s.view t))
    (run : exec P strict t (.link (.readNext b)) ch s = some (r,s')) :
    Kept P t s s' (step P strict (.link (.readNext b)) (s.view t) r (s'.view t)) := by
  simp only [exec,Option.some.injEq,Prod.mk.injEq] at run
  obtain ⟨rfl,rfl⟩ := run
  obtain ⟨n,link⟩ := safe
  refine ⟨inv,⟨rfl,?_⟩,fun _ _ => rfl⟩
  rw [inv.link_value (view_link link)]
  exact link

theorem relink_inv {b : Nat} {sl : Slot} {next : Option Nat} (inv : Inv P s)
    (found : s.slots b = some sl) (holder : sl.holder = .thread t)
    (word : readLE s.mem b 8 = next.getD 0) (user : ∀ a, next = some a → UserAddr a) :
    Inv P { s with lastLink := replace s.lastLink b (some next) } := by
  refine { inv with nodes := ⟨fun heap refs node cls => ?_,inv.nodes.ref⟩, mem := ⟨fun {c n} h => ?_,inv.mem.header⟩ }
  · obtain ⟨l,chain,nodup,mem⟩ := inv.nodes.chain heap refs node cls
    have fresh : b ∉ l := by
      intro inside
      obtain ⟨sl',found',on⟩ := (mem b).mp inside
      obtain rfl := Option.some.inj (found.symm.trans found')
      simp [holder] at on
    exact ⟨l,(links_replace _ fresh).mpr chain,nodup,mem⟩
  · by_cases same : c = b
    · subst same
      obtain rfl : next = n := by simpa using h
      exact ⟨word,user⟩
    · exact inv.mem.link (by simpa only [replace_other same] using h)

theorem writeNext_kept {b : Nat} {next : Option Nat} (inv : Inv P s)
    (safe : safe P strict (.link (.writeNext b next)) (s.view t))
    (run : exec P strict t (.link (.writeNext b next)) ch s = some ((),s')) :
    Kept P t s s' (step P strict (.link (.writeNext b next)) (s.view t) () (s'.view t)) := by
  simp only [exec,Option.some.injEq,Prod.mk.injEq,true_and] at run
  obtain rfl := run
  obtain ⟨⟨B,block⟩,user⟩ := safe
  obtain ⟨sl,found,holder,rfl⟩ := view_block block
  have room := inv.slot_eight found
  have foot := inv.footprint_slot found (Or.inl holder) le_rfl (show b + 8 ≤ _ by omega)
  have stored := inv.store (writeLE s.mem b 8 (next.getD 0))
    (fun x out => writeLE_outside out) foot
  have small : next.getD 0 < 256 ^ 8 := by
    cases next with
    | none => simp
    | some a => exact lt_trans (user a rfl).2 (by norm_num)
  refine ⟨relink_inv stored found holder ?_ user,?_,fun u ne => ?_⟩
  · exact readLE_writeLE.trans (Nat.mod_eq_of_lt small)
  · exact (view_relink (s := s.store _ _ _) found holder _).trans (by
      rw [inv.view_store_slot _ found holder le_rfl (by omega),setLink_setLink])
  · exact (view_relink_other (s := s.store _ _ _) found (by simpa [holder] using ne.symm) _).trans
      (foot.view _ ne)

theorem Inv.footprint {a n : Nat} (inv : Inv P s) (writable : (s.view t).Writable a n) :
    Footprint s a n t := by
  rcases writable with ⟨b,B,block,low,high⟩ | ⟨id,m,p,held,payload,low,high⟩
  · obtain ⟨sl,found,holder,rfl⟩ := view_block block
    exact inv.footprint_slot found (Or.inl holder) low high
  · obtain ⟨found,holder⟩ := view_map.mp held
    obtain ⟨_,lo,_⟩ := inv.mem.header found payload
    exact inv.footprint_map found (by simp [holder]) (Or.inl holder) (by omega) high

/-- Payload writes destroy no header and at most the link of the block written. -/
theorem Inv.overwritten (inv : Inv P s) (a n : Nat) (mem : Bytes) :
    (s.view t).Overwritten ((s.store a n mem).view t) a n := by
  constructor
  · intro b B block low high
    obtain ⟨sl,found,holder,rfl⟩ := view_block block
    exact ⟨_,inv.view_store_slot mem found holder low high⟩
  · intro id m p held payload low high
    obtain ⟨found,holder⟩ := view_map.mp held
    obtain ⟨_,lo,_⟩ := inv.mem.header found payload
    rw [inv.view_store_map mem found holder (by omega) high,Mapping.scrub_eq,setMap_same held]
    intro q hq
    obtain rfl := Option.some.inj (payload.symm.trans hq)
    exact Or.inl (by omega)

theorem write_kept {a n : Nat} {mem : Bytes} (inv : Inv P s)
    (writable : (s.view t).Writable a n)
    (outside : ∀ x, x < a ∨ a + n ≤ x → mem x = s.mem x) :
    Kept P t s (s.store a n mem) ((s.view t).Overwritten ((s.store a n mem).view t) a n) := by
  have foot := inv.footprint writable
  exact ⟨inv.store mem outside foot,inv.overwritten a n mem,fun u ne => foot.view mem ne⟩

theorem writeBytes_kept {a n : Nat} (inv : Inv P s)
    (safe : safe P strict (.writeBytes a n) (s.view t))
    (run : exec P strict t (.writeBytes a n) ch s = some ((),s')) :
    Kept P t s s' (step P strict (.writeBytes a n) (s.view t) () (s'.view t)) := by
  simp only [exec,Option.some.injEq,Prod.mk.injEq,true_and] at run
  obtain rfl := run
  exact write_kept inv safe fun x out => fill_outside 0 out

theorem copy_kept {src a n : Nat} (inv : Inv P s)
    (safe : safe P strict (.copy src a n) (s.view t))
    (run : exec P strict t (.copy src a n) ch s = some ((),s')) :
    Kept P t s s' (step P strict (.copy src a n) (s.view t) () (s'.view t)) := by
  simp only [exec,Option.some.injEq,Prod.mk.injEq,true_and] at run
  obtain rfl := run
  exact write_kept inv safe fun x out => copyBytes_outside src out

theorem madvise_kept {a n : Nat} (inv : Inv P s)
    (safe : safe P strict (.madvise a n) (s.view t))
    (run : exec P strict t (.madvise a n) ch s = some ((),s')) :
    Kept P t s s' (step P strict (.madvise a n) (s.view t) () (s'.view t)) := by
  simp only [exec,Option.some.injEq,Prod.mk.injEq,true_and] at run
  obtain rfl := run
  obtain ⟨id,m,held,rfl,rfl⟩ := safe
  obtain ⟨found,holder⟩ := view_map.mp held
  have foot := inv.footprint_map found (by simp [holder]) (Or.inl holder) le_rfl le_rfl
  refine ⟨inv.store _ (fun x out => ?_) foot,?_,fun u ne => foot.view _ ne⟩
  · exact if_neg fun inside => by omega
  · refine ⟨id,m,(m.scrub m.base m.size).payload,inv.mapAt held,rfl,?_⟩
    rw [inv.view_store_map _ found holder le_rfl le_rfl]
    rw [← Mapping.scrub_update]

theorem readHeader_kept {a : Nat} {r : Nat × Nat} (inv : Inv P s)
    (run : exec P strict t (.readHeader a) ch s = some (r,s')) :
    Kept P t s s' (step P strict (.readHeader a) (s.view t) r (s'.view t)) := by
  simp only [exec,Option.some.injEq,Prod.mk.injEq] at run
  obtain ⟨rfl,rfl⟩ := run
  refine ⟨inv,⟨rfl,fun id m held payload => ?_⟩,fun _ _ => rfl⟩
  obtain ⟨_,_,_,base,size⟩ := inv.mem.header (view_map.mp held).1 payload
  simp only [Nat.add_sub_cancel] at base size
  rw [base,size]

/-- The only mapping a header write can touch is the one it describes. -/
theorem writeHeader_maps {place id : Nat} {m : Mapping} (inv : Inv P s)
    (found : s.maps id = some m) (holder : m.holder = .thread t) (low : m.base ≤ place)
    (high : place + headerSize ≤ m.base + m.size) :
    (s.writeHeader t place m.base m.size).maps = replace (s.store place headerSize
      (writeLE (writeLE s.mem place 8 m.base) (place + 8) 8 m.size)).maps id
      (some { m with payload := some (place + headerSize) }) := by
  funext id'
  by_cases same : id' = id
  · subst same
    have core := Mapping.scrub_core place headerSize m
    simp only [Mapping.core,Prod.mk.injEq] at core
    have update := Mapping.scrub_update place headerSize m
    simp only [State.writeHeader,State.store,found,Option.map_some,replace_same,core,holder,low,
      high,and_self,if_true]
    rw [← update]
  · simp only [State.writeHeader,replace_other same]
    cases other : (s.store place headerSize (writeLE (writeLE s.mem place 8 m.base) (place + 8) 8
        m.size)).maps id' with
    | none => rfl
    | some m' =>
      obtain ⟨m₀,found₀,base,_⟩ := (store_same s _ _ _).back other
      have differ : m'.base ≠ m.base := fun eq =>
        same (inv.map_base found₀ found (base.trans eq))
      simp [differ]

theorem writeHeader_kept {place original size : Nat} (inv : Inv P s)
    (safe : safe P strict (.writeHeader place original size) (s.view t))
    (run : exec P strict t (.writeHeader place original size) ch s = some ((),s')) :
    Kept P t s s' (step P strict (.writeHeader place original size) (s.view t) () (s'.view t)) := by
  simp only [exec,Option.some.injEq,Prod.mk.injEq,true_and] at run
  obtain rfl := run
  obtain ⟨id,m,held,rfl,rfl,use,low,high⟩ := safe
  obtain ⟨found,holder⟩ := view_map.mp held
  have foot := inv.footprint_map (n := headerSize) found (by simp [holder]) (Or.inl holder) low (by omega)
  have stored := inv.store (writeLE (writeLE s.mem place 8 m.base) (place + 8) 8 m.size)
    (fun x out => by
      unfold headerSize at out
      rw [writeLE_outside (by omega),writeLE_outside (by omega)]) foot
  have maps := writeHeader_maps inv found holder low (by omega)
  have result : s.writeHeader t place m.base m.size = { s.store place headerSize
      (writeLE (writeLE s.mem place 8 m.base) (place + 8) 8 m.size) with
      maps := (s.writeHeader t place m.base m.size).maps } := rfl
  have scrubbed : (s.store place headerSize (writeLE (writeLE s.mem place 8 m.base) (place + 8) 8
      m.size)).maps id = some (m.scrub place headerSize) := by simp [State.store,found]
  have core : ({ m with payload := some (place + headerSize) } : Mapping).core =
      (m.scrub place headerSize).core := (Mapping.scrub_core place headerSize m).symm
  obtain ⟨base,size,_,use',holder'⟩ := core_eq (Mapping.scrub_core place headerSize m)
  have ok := inv.maps.ok found
  have := ok.bound
  rw [result,maps]
  refine ⟨stored.setMapping scrubbed (holder'.trans holder) core fun p payload => ?_,?_,
    fun u ne => ?_⟩
  · obtain rfl := Option.some.inj payload
    rw [use',base,size,Nat.add_sub_cancel]
    refine ⟨use,by omega,by omega,?_,?_⟩
    · exact (readLE_writeLE_apart (Or.inl le_rfl)).trans (readLE_writeLE.trans
        (Nat.mod_eq_of_lt (by omega)))
    · exact readLE_writeLE.trans (Nat.mod_eq_of_lt (by omega))
  · refine ⟨id,m,inv.mapAt held,rfl,?_⟩
    rw [view_setMapping (holder'.trans holder) core,
      inv.view_store_map _ found holder low (by omega)]
    simp only [setMap]
    congr 1
    funext id'
    by_cases same : id' = id
    · subst same; simp
    · simp only [replace_other same]
  · rw [view_setMapping_other scrubbed (holder'.trans holder) core ne]
    exact foot.view _ ne

theorem bindToNode_kept {a n node : Nat} (inv : Inv P s)
    (safe : safe P strict (.bindToNode a n node) (s.view t))
    (run : exec P strict t (.bindToNode a n node) ch s = some ((),s')) :
    Kept P t s s' (step P strict (.bindToNode a n node) (s.view t) () (s'.view t)) := by
  simp only [exec,Option.some.injEq,Prod.mk.injEq,true_and] at run
  obtain ⟨id,m,held,rfl,rfl⟩ := safe
  obtain ⟨found,holder⟩ := view_map.mp held
  have maps : s'.maps = replace s.maps id (some { m with node := some node }) := by
    subst run
    funext id'
    by_cases same : id' = id
    · subst same
      simp [found]
    · simp only [replace_other same]
      cases other : s.maps id' with
      | none => rfl
      | some m' =>
        have differ : m'.base ≠ m.base := fun eq => same (inv.map_base other found eq)
        simp [differ]
  have result : s' = { s with maps := s'.maps } := by subst run; rfl
  rw [result,maps]
  refine ⟨inv.setMapping found holder rfl fun p payload => inv.mem.header found payload,
    ⟨id,m,inv.mapAt held,rfl,view_setMapping holder rfl⟩,
    fun u ne => view_setMapping_other found holder rfl ne⟩

/-- Callers write only inside allocations they have not passed on. -/
theorem Inv.footprint_live (inv : Inv P s) {a : Alloc} {addr n : Nat} (live : a ∈ s.live)
    (low : a.ptr ≤ addr) (high : addr + n ≤ a.ptr + a.layout.size) : Footprint s addr n t := by
  have backed := inv.live.backed live
  unfold Backed at backed
  cases source : a.source with
  | slot =>
    simp only [source] at backed
    obtain ⟨sl,I,x,found,holder,cls,_⟩ := backed
    have fits := (sizeClassIndex_spec cls).2.2.2.1
    have : a.layout.size ≤ a.layout.effective := Nat.le_max_left _ _
    exact inv.footprint_slot found (Or.inr holder) low (by omega)
  | mapping id =>
    simp only [source] at backed
    obtain ⟨m,found,holder,use,payload,placed⟩ := backed
    have := placed.header
    have := placed.room
    refine inv.footprint_map found (by simp [holder]) (Or.inr fun p hp => ?_) (by omega) (by omega)
    rw [payload,Option.some.injEq] at hp
    omega
  | stray => simp only [source] at backed

theorem callerWrite_kept {addr : Nat} (value : UInt8) (inv : Inv P s)
    (writable : World.writable s addr = true) :
    Inv P (s.store addr 1 (fill s.mem addr 1 value)) ∧
      ∀ u, (s.store addr 1 (fill s.mem addr 1 value)).view u = s.view u := by
  simp only [World.writable,List.any_eq_true,decide_eq_true_eq] at writable
  obtain ⟨a,live,_,low,high⟩ := writable
  have foot : ∀ t, Footprint s addr 1 t := fun t => inv.footprint_live live low (by omega)
  exact ⟨inv.store _ (fun x out => fill_outside value out) (foot 0),
    fun u => (foot (u + 1)).view _ (by omega)⟩

end Actions

end Numalloc
