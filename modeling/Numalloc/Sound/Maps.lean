import Numalloc.Sound.Handles

/-! Actions that create and destroy mappings, and the creation of a heap on the first
use of its allocator. -/
namespace Numalloc

open Concurrent View

variable {P : Platform} {strict : Bool} {s s' : State} {t : Nat} {ch : Choice}

/-! Where the kernel may place a mapping. -/

/-- A range the kernel may hand out. -/
structure Vacant (P : Platform) (s : State) (raw size : Nat) : Prop where
  pos : 0 < raw
  page : P.pageSize ∣ raw
  size_pos : 0 < size
  bound : raw + size ≤ 2 ^ 48
  apart : ∀ {id m}, s.maps id = some m → Apart m.base m.size raw size

theorem Inv.vacant (inv : Inv P s) {raw size : Nat} (ok : s.mmapOk P raw size = true) :
    Vacant P s raw size := by
  simp only [State.mmapOk,decide_eq_true_eq] at ok
  obtain ⟨pos,page,size_pos,bound,clear⟩ := ok
  refine ⟨by omega,Nat.dvd_of_mod_eq_zero page,size_pos,bound,fun {id m} found => ?_⟩
  have known : id < s.nextMap := by
    by_contra le
    rw [inv.maps.fresh (by omega)] at found
    contradiction
  have clear := List.all_eq_true.mp clear id (List.mem_range.mpr known)
  simp only [found,Option.all_some,Mapping.meets,(inv.maps.ok found).whole,List.any_cons,
    List.any_nil,Bool.or_false,Bool.not_eq_true',decide_eq_false_iff_not] at clear
  unfold Apart
  omega

theorem Vacant.mapOk {raw size : Nat} (vacant : Vacant P s raw size) (use : Use)
    (holder : MapHolder) : MapOk P (.fresh raw size use holder) :=
  ⟨vacant.pos,vacant.size_pos,vacant.bound,vacant.page,rfl⟩

/-- Nothing anybody relies on lies in a vacant range. -/
theorem Inv.vacant_footprint (inv : Inv P s) {raw size : Nat} (vacant : Vacant P s raw size) :
    Footprint s raw size t where
  links {b sl} found := by
    obtain ⟨id,m,_,found',_,_,low,high⟩ := inv.slot_mapping found
    have := inv.slot_eight found
    exact Or.inl (Apart.mono (vacant.apart found') low (by omega) le_rfl le_rfl)
  headers {id m p} found payload := by
    obtain ⟨_,low,high,_⟩ := inv.mem.header found payload
    exact Or.inl (Apart.mono (vacant.apart found) (by omega) (by unfold headerSize at *; omega)
      le_rfl le_rfl)

theorem Inv.vacant_maps (inv : Inv P s) {raw size : Nat} (vacant : Vacant P s raw size)
    (mem : Bytes) : (s.store raw size mem).maps = s.maps := by
  funext id
  cases found : s.maps id with
  | none => simp [State.store,found]
  | some m =>
    have kept : m.scrub raw size = m := Mapping.scrub_eq fun p payload => by
      obtain ⟨_,low,high,_⟩ := inv.mem.header found payload
      exact Apart.mono (vacant.apart found) (by omega) (by unfold headerSize at *; omega) le_rfl
        le_rfl
    simp [State.store,found,kept]

/-! Adding a mapping. -/

section Add

variable {raw size : Nat} {use : Use} {holder : MapHolder}

theorem addMapping_other {id : Nat} (m : Mapping) (ne : id ≠ s.nextMap) :
    (s.addMapping m).maps id = s.maps id := replace_other ne

theorem addMapping_maps {id : Nat} {m : Mapping} (inv : Inv P s) :
    (s.addMapping (.fresh raw size use holder)).maps id = some m ↔
      (id = s.nextMap ∧ m = .fresh raw size use holder) ∨ s.maps id = some m := by
  by_cases same : id = s.nextMap
  · subst same
    simp [State.addMapping,inv.maps.fresh le_rfl,eq_comm]
  · simp [State.addMapping,replace_other same,same]

theorem MapInv.add (inv : Inv P s) (vacant : Vacant P s raw size) :
    MapInv P (s.addMapping (.fresh raw size use holder)).maps (s.nextMap + 1) s.unmaps where
  ok h := by
    rcases (addMapping_maps inv).mp h with ⟨_,rfl⟩ | old
    · exact vacant.mapOk use holder
    · exact inv.maps.ok old
  fresh {id} le := by
    have ne : id ≠ s.nextMap := by omega
    rw [addMapping_other _ ne]
    exact inv.maps.fresh (by omega)
  apart h h' ne := by
    rcases (addMapping_maps inv).mp h with ⟨rfl,rfl⟩ | old <;>
      rcases (addMapping_maps inv).mp h' with ⟨rfl,rfl⟩ | old'
    · exact absurd rfl ne
    · exact (vacant.apart old').symm
    · exact vacant.apart old
    · exact inv.maps.apart old old' ne
  present {id} h := by
    by_cases same : id = s.nextMap
    · exact inv.maps.unborn (by omega)
    · rw [addMapping_other _ same] at h
      exact inv.maps.present h
  unborn le := inv.maps.unborn (by omega)
  gone {id} lt h := by
    have ne : id ≠ s.nextMap := by
      rintro rfl
      simp [State.addMapping] at h
    rw [addMapping_other _ ne] at h
    exact inv.maps.gone (by omega) h

theorem MemInv.add (inv : Inv P s) (vacant : Vacant P s raw size) :
    MemInv (s.addMapping (.fresh raw size use holder)).mem
      (s.addMapping (.fresh raw size use holder)).lastLink
      (s.addMapping (.fresh raw size use holder)).maps := by
  have stored := (inv.store (fill s.mem raw size 0) (fun x out => fill_outside 0 out)
    (inv.vacant_footprint (t := 0) vacant)).mem
  refine ⟨stored.link,fun h payload => ?_⟩
  rcases (addMapping_maps inv).mp h with ⟨_,rfl⟩ | old
  · simp [Mapping.fresh] at payload
  · rw [← inv.vacant_maps vacant (fill s.mem raw size 0)] at old
    exact stored.header old payload

theorem StackInv.add (use : Use) (holder : MapHolder) (inv : Inv P s)
    (vacant : Vacant P s raw size) :
    StackInv s.heaps s.slots (s.addMapping (.fresh raw size use holder)).lastLink :=
  (inv.store (fill s.mem raw size 0) (fun _ out => fill_outside 0 out)
    (inv.vacant_footprint (t := 0) vacant)).nodes

theorem LiveInv.add (raw size : Nat) (use : Use) (inv : Inv P s) (other : holder ≠ .user) :
    LiveInv P s.live s.slots (s.addMapping (.fresh raw size use holder)).maps s.insts s.call := by
  refine { inv.live with backed := fun live => ?_, ofMap := fun h user => ?_ }
  · exact (inv.live.backed live).mono (fun found _ _ _ _ => found)
      (fun found _ _ => (addMapping_maps inv).mpr (Or.inr found)) fun {I _} hi hx => ⟨I,hi,hx⟩
  · rcases (addMapping_maps inv).mp h with ⟨_,rfl⟩ | old
    · exact absurd user other
    · exact inv.live.ofMap old user

/-- Threads see of a new mapping only that it is theirs. -/
theorem Inv.view_add (inv : Inv P s) (vacant : Vacant P s raw size) (u : Nat) :
    (s.addMapping (.fresh raw size use holder)).view u =
      if holder = .thread u then
        (s.view u).setMap s.nextMap (some (.fresh raw size use holder))
      else s.view u := by
  have stored : (s.store raw size (fill s.mem raw size 0)).view u = s.view u :=
    (inv.vacant_footprint (t := u + 1) vacant).view _ (by omega)
  have blocks := congrArg View.blocks stored
  have maps : (s.addMapping (.fresh raw size use holder)).mapOf u =
      if holder = .thread u then
        replace (s.mapOf u) s.nextMap (some (.fresh raw size use holder)) else s.mapOf u := by
    funext id
    by_cases same : id = s.nextMap
    · subst same
      by_cases mine : holder = .thread u
      · simp [State.mapOf,State.addMapping,Mapping.fresh,mine]
      · simp [State.mapOf,State.addMapping,Mapping.fresh,mine,inv.maps.fresh le_rfl]
    · by_cases mine : holder = .thread u
      · simp [State.mapOf,State.addMapping,mine,replace_other same]
      · simp [State.mapOf,State.addMapping,mine,replace_other same]
  have view : (s.addMapping (.fresh raw size use holder)).view u = { s.view u with
      maps := (s.addMapping (.fresh raw size use holder)).mapOf u } := by
    exact view_is rfl rfl rfl rfl rfl blocks rfl
  rw [view,maps]
  by_cases mine : holder = .thread u
  · simp only [mine,if_true]
    rfl
  · simp only [mine,if_false]
    rfl

end Add

theorem mmap_kept {size : Nat} {r : Option Nat} (inv : Inv P s)
    (safe : safe P strict (.mmap size) (s.view t))
    (run : exec P strict t (.mmap size) ch s = some (r,s')) :
    Kept P t s s' (step P strict (.mmap size) (s.view t) r (s'.view t)) := by
  obtain ⟨inst,call⟩ := safe
  have refused : (none : Option Nat) = r → s = s' →
      Kept P t s s' (step P strict (.mmap size) (s.view t) r (s'.view t)) := by
    rintro rfl rfl
    exact ⟨inv,rfl,fun _ _ => rfl⟩
  cases ch with
  | addr raw =>
    simp only [exec] at run
    split at run
    case isFalse => contradiction
    case isTrue ok =>
      obtain ⟨rfl,rfl⟩ := Prod.mk.inj (Option.some.inj run)
      have vacant := inv.vacant ok
      have owner : (s.call t).inst.getD 0 = inst := by
        rw [show (s.call t).inst = some inst from call,Option.getD_some]
      obtain ⟨I,known⟩ := (inv.heaps.callInst call).1
      have old : inst < s.nextInst := by
        by_contra le
        simp [inv.heaps.instFresh (Nat.le_of_not_lt le)] at known
      rw [owner]
      refine ⟨⟨.add inv vacant,?_,inv.slots,.add _ _ inv vacant,.add inv vacant,.add _ _ _ inv (by simp)⟩,
        ⟨s.nextMap,_,inst,call,?_,vacant.mapOk _ _,rfl,rfl,rfl,
          (inv.view_add vacant t).trans (if_pos rfl)⟩,
        fun u ne => (inv.view_add vacant u).trans (if_neg (by simpa using ne.symm))⟩
      · refine { inv.heaps with mapLive := fun found refs => ?_, mapHeap := fun h use => ?_, mapOne := fun h h' use use' => ?_, mapLarge := fun h use => ?_ }
        · obtain ⟨id,m,at_,rest⟩ := inv.heaps.mapLive found refs
          exact ⟨id,m,(addMapping_maps inv).mpr (Or.inr at_),rest⟩
        · rcases (addMapping_maps inv).mp h with ⟨_,rfl⟩ | at_
          · simp [Mapping.fresh] at use
          · exact inv.heaps.mapHeap at_ use
        · rcases (addMapping_maps inv).mp h with ⟨_,rfl⟩ | at_
          · simp [Mapping.fresh] at use
          rcases (addMapping_maps inv).mp h' with ⟨_,rfl⟩ | at'
          · simp [Mapping.fresh] at use'
          exact inv.heaps.mapOne at_ at' use use'
        · rcases (addMapping_maps inv).mp h with ⟨_,rfl⟩ | at_
          · simp only [Mapping.fresh,Use.large.injEq] at use
            exact ⟨by simp [Mapping.fresh],use ▸ old⟩
          · exact inv.heaps.mapLarge at_ use
      · simp [State.view,State.mapOf,inv.maps.fresh le_rfl]
  | _ =>
    obtain ⟨rfl,rfl⟩ := Prod.mk.inj (Option.some.inj run)
    exact refused rfl rfl

/-! Removing a mapping. -/

theorem cut_whole {m : Mapping} (ok : MapOk P m) : m.cut m.base m.size = none := by
  have := ok.size_pos
  simp only [Mapping.cut,ok.whole,List.flatMap_cons,List.flatMap_nil,List.append_nil]
  rw [if_pos]
  simp

theorem cut_apart {m : Mapping} {a n : Nat} (ok : MapOk P m) (apart : Apart m.base m.size a n) :
    m.cut a n = some m := by
  have := ok.size_pos
  have pieces : (m.extent.flatMap fun e =>
      [(e.1,min e.2 a),(max e.1 (a + n),e.2)].filter fun x => x.1 < x.2) = m.extent := by
    rw [ok.whole]
    simp only [List.flatMap_cons,List.flatMap_nil,List.append_nil]
    rcases apart with below | above
    · have low : min (m.base + m.size) a = m.base + m.size := by omega
      have high : ¬max m.base (a + n) < m.base + m.size := by omega
      simp [low,ok.size_pos]
      omega
    · have low : min (m.base + m.size) a = a := by omega
      have high : max m.base (a + n) = m.base := by omega
      have empty : ¬m.base < a := by omega
      simp [low,high,empty,ok.size_pos]
  unfold Mapping.cut
  simp only
  rw [pieces,if_neg (by simp [ok.whole])]

theorem meets_whole {m : Mapping} (ok : MapOk P m) : m.meets m.base m.size = true := by
  have := ok.size_pos
  simp [Mapping.meets,ok.whole,ok.size_pos]

theorem meets_apart {m : Mapping} {a n : Nat} (ok : MapOk P m) (apart : Apart m.base m.size a n) :
    m.meets a n = false := by
  unfold Apart at apart
  simp only [Mapping.meets,ok.whole,List.any_cons,List.any_nil,Bool.or_false,
    decide_eq_false_iff_not]
  omega

theorem munmap_kept {a n : Nat} (inv : Inv P s)
    (safe : safe P strict (.munmap a n) (s.view t))
    (run : exec P strict t (.munmap a n) ch s = some ((),s')) :
    Kept P t s s' (step P strict (.munmap a n) (s.view t) () (s'.view t)) := by
  obtain ⟨id,m,held,rfl,rfl⟩ := safe
  obtain ⟨found,holder⟩ := view_map.mp held
  simp only [exec,Option.some.injEq,Prod.mk.injEq,true_and] at run
  have maps : s'.maps = replace s.maps id none := by
    subst run
    funext id'
    by_cases same : id' = id
    · subst same
      simp [found,cut_whole (inv.maps.ok found)]
    · rw [replace_other same]
      cases other : s.maps id' with
      | none => simp [other]
      | some m' => simp [other,cut_apart (inv.maps.ok other) (inv.maps.apart other found same)]
  have unmaps : s'.unmaps = replace s.unmaps id 1 := by
    subst run
    funext id'
    by_cases same : id' = id
    · subst same
      simp [found,meets_whole (inv.maps.ok found),inv.maps.present (show s.maps id' ≠ none by simp [found])]
    · rw [replace_other same]
      cases other : s.maps id' with
      | none => simp [other]
      | some m' => simp [other,meets_apart (inv.maps.ok other) (inv.maps.apart other found same)]
  have result : s' = { s with maps := s'.maps, unmaps := s'.unmaps } := by subst run; rfl
  rw [result,maps,unmaps]
  have old : ∀ {id' m'}, replace s.maps id none id' = some m' → id' ≠ id ∧ s.maps id' = some m' := by
    intro id' m' h
    by_cases same : id' = id
    · subst same
      simp at h
    · exact ⟨same,by simpa only [replace_other same] using h⟩
  have keep : ∀ {id' m'}, s.maps id' = some m' → m'.holder ≠ .thread t →
      replace s.maps id none id' = some m' := by
    intro id' m' h other
    have ne : id' ≠ id := by
      rintro rfl
      obtain rfl := Option.some.inj (found.symm.trans h)
      exact other holder
    exact (replace_other ne).trans h
  refine ⟨⟨?_,?_,inv.slots,inv.nodes,⟨inv.mem.link,fun h => inv.mem.header (old h).2⟩,?_⟩,
    ⟨id,m,inv.mapAt held,rfl,?_⟩,fun u ne => ?_⟩
  · refine ⟨fun h => inv.maps.ok (old h).2,fun {id'} le => ?_,
      fun h h' => inv.maps.apart (old h).2 (old h').2,fun {id'} h => ?_,fun {id'} le => ?_,
      fun {id'} lt h => ?_⟩
    · by_cases same : id' = id
      · simp [same]
      · exact (replace_other same).trans (inv.maps.fresh le)
    · have ne : id' ≠ id := by
        rintro rfl
        simp at h
      simp only [replace_other ne] at h ⊢
      exact inv.maps.present h
    · have ne : id' ≠ id := by
        rintro rfl
        simp [inv.maps.fresh le] at found
      exact (replace_other ne).trans (inv.maps.unborn le)
    · by_cases same : id' = id
      · simp [same]
      · simp only [replace_other same] at h ⊢
        exact inv.maps.gone lt h
  · refine { inv.heaps with mapLive := fun found refs => ?_, mapHeap := fun h => inv.heaps.mapHeap (old h).2, mapOne := fun h h' => inv.heaps.mapOne (old h).2 (old h').2, mapLarge := fun h => inv.heaps.mapLarge (old h).2 }
    obtain ⟨id',m',at_,use,heap,rest⟩ := inv.heaps.mapLive found refs
    exact ⟨id',m',keep at_ (by simp [heap]),use,heap,rest⟩
  · refine { inv.live with backed := fun live => ?_, ofMap := fun h => inv.live.ofMap (old h).2 }
    exact (inv.live.backed live).mono (fun found _ _ _ _ => found)
      (fun at_ user _ => keep at_ (by simp [user])) fun {I _} hi hx => ⟨I,hi,hx⟩
  · have maps' : ({ s with maps := replace s.maps id none, unmaps := replace s.unmaps id 1 } :
        State).mapOf t = replace (s.mapOf t) id none := by
      funext id'
      by_cases same : id' = id
      · subst same
        simp [State.mapOf]
      · simp only [State.mapOf,replace_other same]
    exact view_is rfl rfl rfl rfl rfl rfl maps'
  · refine view_eq rfl rfl rfl rfl rfl rfl ?_
    funext id'
    by_cases same : id' = id
    · subst same
      simp [State.mapOf,found,holder,ne.symm]
    · simp only [State.mapOf,replace_other same]

/-! The heap of an allocator. -/

/-- The operation learns the heap of its allocator. -/
theorem Inv.setCall (inv : Inv P s) {inst : Nat} {I : Instance} {sh : SharedHeap} {r : HeapRef}
    (call : (s.call t).inst = some inst) (hi : s.insts inst = some I)
    (hx : I.heap = some r.handle) (found : s.heaps r.handle.addr = some sh)
    (geom : sh.heap = r.geom) :
    Inv P { s with call := replace s.call t ⟨some inst,some r⟩ } := by
  have same : ∀ u, (replace s.call t ⟨some inst,some r⟩ u).inst = (s.call u).inst := by
    intro u
    by_cases eq : u = t
    · subst eq
      simp [call]
    · rw [replace_other eq]
  refine { inv with heaps := { inv.heaps with callHeap := fun {u r'} has => ?_, callInst := fun {u i} has => ?_ }, live := { inv.live with pin := fun {a u} live pin => ?_ } }
  · by_cases eq : u = t
    · subst eq
      obtain rfl : r = r' := by simpa using has
      exact ⟨inst,I,sh,by simp,hi,hx,found,geom⟩
    · simp only [replace_other eq] at has ⊢
      exact inv.heaps.callHeap has
  · exact inv.heaps.callInst ((same u).symm.trans has)
  · obtain ⟨owner,known⟩ := inv.live.pin live pin
    refine ⟨(same u).trans owner,fun slot => ?_⟩
    by_cases eq : u = t
    · exact ⟨r,by simp [eq]⟩
    · simpa only [replace_other eq] using known slot

theorem view_setCall (call : Call) (u : Nat) :
    ({ s with call := replace s.call t call } : State).view u =
      if u = t then { s.view t with call := call } else s.view u := by
  by_cases same : u = t
  · subst same
    simp only [State.view,replace_same,if_true]
    rfl
  · rw [if_neg same]
    exact view_eq rfl (replace_other same) rfl rfl rfl rfl rfl

/-- Addresses in a mapping of somebody else belong to no node of a heap. -/
theorem Inv.nodeForPtr_large (inv : Inv P s) {id p : Nat} {m : Mapping} {g : GlobalHeap}
    (found : s.maps id = some m) (valid : g.Valid)
    (apart : Apart m.base m.size g.mapBase g.mapSize) (low : m.base ≤ p)
    (high : p < m.base + m.size) : g.nodeForPtr p = none := by
  have := (inv.maps.ok found).bound
  have := valid.lower
  have := valid.upper
  unfold Apart at apart
  exact valid.nodeForPtr_none (by omega) (by omega)

/-- So does the payload of a mapping that a caller passed in. -/
theorem Inv.nodeForPtr_pinned (inv : Inv P s) {a : Alloc} {g : GlobalHeap}
    (pinned : (s.view t).pin = some a) (other : a.source ≠ .slot) (valid : g.Valid)
    (apart : ∀ {id m}, s.maps id = some m → m.holder = .user →
      Apart m.base m.size g.mapBase g.mapSize) : g.nodeForPtr a.ptr = none := by
  have backed := inv.live.backed (List.mem_of_find?_eq_some pinned)
  cases kind : a.source with
  | slot => exact absurd kind other
  | stray => simp only [Backed,kind] at backed
  | mapping id =>
    simp only [Backed,kind] at backed
    obtain ⟨m,found,user,_,_,placed⟩ := backed
    have := placed.header
    have := placed.inside
    exact inv.nodeForPtr_large found valid (apart found user) (by omega) (by omega)

theorem heap_known {inst : Nat} {I : Instance} {x : HeapHandle} {sh : SharedHeap} (inv : Inv P s)
    (call : (s.view t).call.inst = some inst) (hi : s.insts inst = some I) (hx : I.heap = some x)
    (found : s.heaps x.addr = some sh) :
    Kept P t s { s with call := replace s.call t ⟨some inst,some ⟨x,sh.heap⟩⟩ }
      (step P strict (.heap inst) (s.view t) ⟨x,sh.heap⟩
        (({ s with call := replace s.call t ⟨some inst,some ⟨x,sh.heap⟩⟩ } : State).view t)) := by
  obtain ⟨inst_eq,sh',found',inst'⟩ := inv.heaps.instHeap hi hx
  obtain rfl := Option.some.inj (found.symm.trans found')
  have valid := inv.heaps.geom found
  have refs : sh.refs ≠ [] :=
    List.ne_nil_of_mem ((inv.heaps.refInst found).mpr ⟨I,hi,by rw [hx,← inst_eq]⟩)
  obtain ⟨id',m',at',use',heap,base,size⟩ := inv.heaps.mapLive found refs
  refine ⟨inv.setCall call hi hx found rfl,⟨(view_setCall _ t).trans (if_pos rfl),?_,valid,inst_eq,
    ?_,?_,?_⟩,fun u ne => (view_setCall _ u).trans (if_neg ne)⟩
  · intro r₀ has
    obtain ⟨i,J,sh₀,ci,hj,hy,found₀,geom⟩ := inv.heaps.callHeap has
    obtain rfl : inst = i := Option.some.inj (Eq.trans (Eq.symm call) ci)
    obtain rfl := Option.some.inj (hi.symm.trans hj)
    obtain rfl := Option.some.inj (hx.symm.trans hy)
    obtain rfl := Option.some.inj (found.symm.trans found₀)
    rw [geom]
  · intro th alive addr
    obtain ⟨sh₀,found₀,eq,_⟩ := inv.heaps.slotOk alive
    rw [addr] at found₀
    obtain rfl := Option.some.inj (found.symm.trans found₀)
    cases h : th.globalHeap
    rw [h] at addr eq
    cases x
    simp_all
  · intro id m i p held use low high
    obtain ⟨at_,holder⟩ := view_map.mp held
    have ne : id ≠ id' := by
      rintro rfl
      obtain rfl := Option.some.inj (at_.symm.trans at')
      simp [use] at use'
    have apart := inv.maps.apart at_ at' ne
    rw [base,size] at apart
    exact inv.nodeForPtr_large at_ valid apart low high
  · intro a pinned other
    refine inv.nodeForPtr_pinned pinned other valid fun {id m} at_ user => ?_
    have ne : id ≠ id' := by
      rintro rfl
      obtain rfl := Option.some.inj (at_.symm.trans at')
      simp [heap] at user
    have apart := inv.maps.apart at_ at' ne
    rwa [base,size] at apart

/-- A heap as `GlobalHeap::new` leaves it, referenced by its allocator only. -/
def SharedHeap.created (inst : Nat) (g : GlobalHeap) : SharedHeap :=
  ⟨inst,1,g,fun _ => 0,fun _ _ => 0,[.inst inst]⟩

section Create

variable {inst addr raw : Nat} {I : Instance} {r : Reservation}

theorem HeapInv.create (inv : Inv P s) (hi : s.insts inst = some I) (first : I.heap = none)
    (unused : s.heaps addr = none)
    (valid : (GlobalHeap.place r raw).Valid) :
    HeapInv (replace s.heaps addr (some (.created inst (.place r raw))))
      (replace s.insts inst (some { I with heap := some ⟨addr,inst⟩ })) s.nextInst s.tls s.hand
      s.dying s.call s.threads
      (s.addMapping (.fresh raw r.mapSize (.heap inst) .heap)).maps := by
  -- what existed before is elsewhere, and belongs to other allocators
  have away : ∀ {h sh}, s.heaps h = some sh → h ≠ addr := by
    rintro h sh found rfl
    simp [unused] at found
  have other : ∀ {h sh}, s.heaps h = some sh → sh.inst ≠ inst := by
    rintro h sh found rfl
    simp [inv.heaps.back found hi] at first
  have old : ∀ {h sh}, replace s.heaps addr (some (.created inst (.place r raw))) h = some sh →
      (h = addr ∧ sh = .created inst (.place r raw)) ∨ s.heaps h = some sh := by
    intro h sh at_
    by_cases same : h = addr
    · subst same
      exact Or.inl ⟨rfl,by simpa using at_.symm⟩
    · exact Or.inr (by simpa only [replace_other same] using at_)
  have keep : ∀ {h sh}, s.heaps h = some sh →
      replace s.heaps addr (some (.created inst (.place r raw))) h = some sh :=
    fun found => (replace_other (away found)).trans found
  have oldInst : ∀ {i J x},
      replace s.insts inst (some { I with heap := some ⟨addr,inst⟩ }) i = some J →
      J.heap = some x → (i = inst ∧ x = ⟨addr,inst⟩) ∨ s.insts i = some J := by
    intro i J x hj hx
    by_cases same : i = inst
    · subst same
      obtain rfl : { I with heap := some ⟨addr,i⟩ } = J := by simpa using hj
      exact Or.inl ⟨rfl,(Option.some.inj hx).symm⟩
    · exact Or.inr (by simpa only [replace_other same] using hj)
  have keepInst : ∀ {i J x}, s.insts i = some J → J.heap = some x →
      replace s.insts inst (some { I with heap := some ⟨addr,inst⟩ }) i = some J := by
    intro i J x hj hx
    have ne : i ≠ inst := by
      rintro rfl
      obtain rfl := Option.some.inj (hi.symm.trans hj)
      simp [first] at hx
    exact (replace_other ne).trans hj
  have maps {id m} : (s.addMapping (.fresh raw r.mapSize (.heap inst) .heap)).maps id = some m ↔ _ :=
    addMapping_maps inv
  refine { inv.heaps with
    geom := ?_, count := ?_, refInst := ?_, refSlot := ?_, refOp := ?_, one := ?_, back := ?_
    instHeap := ?_, instFresh := ?_, heapOld := ?_, slotOk := ?_, handOk := ?_, callHeap := ?_
    callInst := ?_, dyingHeap := ?_, dead := ?_, mapLive := ?_, mapHeap := ?_, mapOne := ?_
    mapLarge := ?_ }
  · intro h sh at_
    rcases old at_ with ⟨_,rfl⟩ | found
    · exact valid
    · exact inv.heaps.geom found
  · intro h sh at_
    rcases old at_ with ⟨_,rfl⟩ | found
    · exact ⟨rfl,by simp [SharedHeap.created]⟩
    · exact inv.heaps.count found
  · intro h sh i at_
    rcases old at_ with ⟨rfl,rfl⟩ | found
    · simp only [SharedHeap.created,List.mem_singleton,Ref.inst.injEq]
      constructor
      · rintro rfl
        exact ⟨_,replace_same,rfl⟩
      · rintro ⟨J,hj,hx⟩
        rcases oldInst hj hx with ⟨rfl,_⟩ | before
        · rfl
        · obtain ⟨_,sh,found,_⟩ := inv.heaps.instHeap before hx
          exact absurd rfl (away found)
    · rw [inv.heaps.refInst found]
      constructor
      · rintro ⟨J,hj,hx⟩
        exact ⟨J,keepInst hj hx,hx⟩
      · rintro ⟨J,hj,hx⟩
        rcases oldInst hj hx with ⟨_,eq⟩ | before
        · exact absurd (congrArg HeapHandle.addr eq) (away found)
        · exact ⟨J,before,hx⟩
  · intro h sh u at_
    rcases old at_ with ⟨rfl,rfl⟩ | found
    · simp only [SharedHeap.created,List.mem_singleton,reduceCtorEq,false_iff]
      rintro ⟨th,alive,rfl⟩
      obtain ⟨sh,found,_⟩ := inv.heaps.slotOk alive
      exact away found rfl
    · exact inv.heaps.refSlot found
  · intro h sh u at_
    rcases old at_ with ⟨rfl,rfl⟩ | found
    · simp only [SharedHeap.created,List.mem_singleton,reduceCtorEq,false_iff]
      rintro ⟨x,has,rfl⟩
      obtain ⟨sh,found,_⟩ := inv.heaps.handOk has
      exact away found rfl
    · exact inv.heaps.refOp found
  · intro h h' sh sh' at_ at' eq
    rcases old at_ with ⟨rfl,rfl⟩ | found <;> rcases old at' with ⟨rfl,rfl⟩ | found'
    · rfl
    · exact absurd eq.symm (other found')
    · exact absurd eq (other found)
    · exact inv.heaps.one found found' eq
  · intro h sh J at_ hj
    rcases old at_ with ⟨rfl,rfl⟩ | found
    · simp only [SharedHeap.created,replace_same,Option.some.injEq] at hj
      rw [← hj]
      rfl
    · rw [replace_other (other found)] at hj
      exact inv.heaps.back found hj
  · intro i J x hj hx
    rcases oldInst hj hx with ⟨rfl,rfl⟩ | before
    · exact ⟨rfl,_,replace_same,rfl⟩
    · obtain ⟨eq,sh,found,inst'⟩ := inv.heaps.instHeap before hx
      exact ⟨eq,sh,keep found,inst'⟩
  · intro i le
    have none := inv.heaps.instFresh le
    have ne : i ≠ inst := by
      rintro rfl
      simp [hi] at none
    exact (replace_other ne).trans none
  · intro h sh at_
    rcases old at_ with ⟨_,rfl⟩ | found
    · by_contra le
      have none := inv.heaps.instFresh (i := inst) (Nat.le_of_not_lt le)
      simp [hi] at none
    · exact inv.heaps.heapOld found
  · intro u th alive
    obtain ⟨sh,found,rest⟩ := inv.heaps.slotOk alive
    exact ⟨sh,keep found,rest⟩
  · intro u x has
    obtain ⟨sh,found,rest⟩ := inv.heaps.handOk has
    exact ⟨sh,keep found,rest⟩
  · intro u ref has
    obtain ⟨i,J,sh,ci,hj,hx,found,geom⟩ := inv.heaps.callHeap has
    exact ⟨i,J,sh,ci,keepInst hj hx,hx,keep found,geom⟩
  · intro u i has
    obtain ⟨⟨J,hj⟩,mem⟩ := inv.heaps.callInst has
    refine ⟨?_,mem⟩
    by_cases same : i = inst
    · exact ⟨_,by rw [same]; exact replace_same⟩
    · exact ⟨J,(replace_other same).trans hj⟩
  · intro u h dies
    obtain ⟨sh,found,empty⟩ := inv.heaps.dyingHeap dies
    exact ⟨sh,keep found,empty⟩
  · intro h sh at_ empty
    rcases old at_ with ⟨_,rfl⟩ | found
    · simp [SharedHeap.created] at empty
    · exact inv.heaps.dead found empty
  · intro h sh at_ refs
    rcases old at_ with ⟨_,rfl⟩ | found
    · exact ⟨s.nextMap,_,maps.mpr (Or.inl ⟨rfl,rfl⟩),rfl,rfl,rfl,rfl⟩
    · obtain ⟨id,m,at_map,rest⟩ := inv.heaps.mapLive found refs
      exact ⟨id,m,maps.mpr (Or.inr at_map),rest⟩
  · intro id m i at_map use
    rcases maps.mp at_map with ⟨_,rfl⟩ | before
    · obtain rfl := Use.heap.inj use
      refine ⟨addr,_,replace_same,rfl,rfl,rfl,fun _ => rfl,fun u dies => ?_⟩
      obtain ⟨sh,found,_⟩ := inv.heaps.dyingHeap dies
      exact absurd rfl (away found)
    · obtain ⟨h,sh,found,rest⟩ := inv.heaps.mapHeap before use
      exact ⟨h,sh,keep found,rest⟩
  · intro id id' m m' i at_map at_map' use use'
    have newer : ∀ {id m}, s.maps id = some m → m.use ≠ .heap inst := by
      intro id m before use
      obtain ⟨h,sh,found,eq,_⟩ := inv.heaps.mapHeap before use
      exact other found eq
    rcases maps.mp at_map with ⟨rfl,rfl⟩ | before <;> rcases maps.mp at_map' with ⟨rfl,rfl⟩ | before'
    · rfl
    · exact absurd (use'.trans use.symm) (newer before')
    · exact absurd (use.trans use'.symm) (newer before)
    · exact inv.heaps.mapOne before before' use use'
  · intro id m i at_map use
    rcases maps.mp at_map with ⟨_,rfl⟩ | before
    · simp [Mapping.fresh] at use
    · exact inv.heaps.mapLarge before use

/-- The state after an allocator created its heap. -/
def State.create (s : State) (inst addr raw : Nat) (I : Instance) (r : Reservation) : State :=
  { (s.addMapping (.fresh raw r.mapSize (.heap inst) .heap)).setHeap addr
      (.created inst (.place r raw)) with
    insts := replace s.insts inst (some { I with heap := some ⟨addr,inst⟩ }) }

theorem Inv.create (inv : Inv P s) (vacant : Vacant P s raw r.mapSize)
    (hi : s.insts inst = some I) (first : I.heap = none) (unused : s.heaps addr = none)
    (valid : (GlobalHeap.place r raw).Valid) : Inv P (s.create inst addr raw I r) := by
  have away : ∀ {h sh}, s.heaps h = some sh → h ≠ addr := by
    rintro h sh found rfl
    simp [unused] at found
  have old : ∀ {h sh}, replace s.heaps addr (some (.created inst (.place r raw))) h = some sh →
      (h = addr ∧ sh = .created inst (.place r raw)) ∨ s.heaps h = some sh := by
    intro h sh at_
    by_cases same : h = addr
    · subst same
      exact Or.inl ⟨rfl,by simpa using at_.symm⟩
    · exact Or.inr (by simpa only [replace_other same] using at_)
  have nodes := StackInv.add (.heap inst) .heap inv vacant
  have live := LiveInv.add raw r.mapSize (.heap inst) inv (show MapHolder.heap ≠ .user by simp)
  refine ⟨.add inv vacant,.create inv hi first unused valid,
    { inv.slots with ok := fun found => ?_, bump := fun {h sh n} at_ node => ?_ },
    ⟨fun {h sh n c} at_ refs node cls => ?_,inv.nodes.ref⟩,.add inv vacant,
    { live with backed := fun {a} member => ?_, ofSlot := fun {b sl i J x} found user hj hx heap => ?_ }⟩
  · obtain ⟨sh,at_,rest⟩ := inv.slots.ok found
    exact ⟨sh,(replace_other (away at_)).trans at_,rest⟩
  · rcases old at_ with ⟨_,rfl⟩ | found
    · exact Nat.zero_le _
    · exact inv.slots.bump found node
  · rcases old at_ with ⟨rfl,rfl⟩ | found
    · refine ⟨[],by simp [SharedHeap.created],List.nodup_nil,fun b => ?_⟩
      simp only [List.not_mem_nil,false_iff,not_exists,not_and]
      intro sl found on
      obtain ⟨sh,at_,_⟩ := inv.slots.ok found
      have ref := congrArg StackRef.heap (inv.nodes.ref found on)
      exact away at_ ref
    · exact nodes.chain found refs node cls
  · refine (live.backed member).mono (fun found _ _ _ _ => found) (fun found _ _ => found)
      fun {J x} hj hx => ?_
    have ne : a.inst ≠ inst := by
      intro eq
      rw [eq,hi,Option.some.injEq] at hj
      rw [← hj,first] at hx
      contradiction
    exact ⟨J,(replace_other ne).trans hj,hx⟩
  · by_cases same : i = inst
    · subst same
      obtain rfl : { I with heap := some ⟨addr,i⟩ } = J := by
        simpa [State.create] using hj
      obtain ⟨sh,at_,_⟩ := inv.slots.ok found
      obtain rfl := Option.some.inj hx
      exact absurd heap.symm (away at_)
    · exact inv.live.ofSlot found user (by simpa [State.create,replace_other same] using hj) hx heap

theorem heap_created (inv : Inv P s) (call : (s.view t).call.inst = some inst)
    (vacant : Vacant P s raw r.mapSize) (hi : s.insts inst = some I) (first : I.heap = none)
    (unused : s.heaps addr = none) (valid : (GlobalHeap.place r raw).Valid) :
    Kept P t s { s.create inst addr raw I r with
      call := replace s.call t ⟨some inst,some ⟨⟨addr,inst⟩,.place r raw⟩⟩ }
      (step P strict (.heap inst) (s.view t) ⟨⟨addr,inst⟩,.place r raw⟩
        (({ s.create inst addr raw I r with
          call := replace s.call t ⟨some inst,some ⟨⟨addr,inst⟩,.place r raw⟩⟩ } :
            State).view t)) := by
  have created := inv.create vacant hi first unused valid
  have view : ∀ u, (s.create inst addr raw I r).view u = s.view u := fun u =>
    (inv.view_add vacant u).trans (if_neg (by simp))
  have viewCall : ∀ u, ({ s.create inst addr raw I r with
      call := replace s.call t ⟨some inst,some ⟨⟨addr,inst⟩,.place r raw⟩⟩ } : State).view u =
      if u = t then { s.view t with call := ⟨some inst,some ⟨⟨addr,inst⟩,.place r raw⟩⟩ }
      else s.view u := by
    intro u
    have h := view_setCall (s := s.create inst addr raw I r) (t := t)
      ⟨some inst,some ⟨⟨addr,inst⟩,.place r raw⟩⟩ u
    rwa [view,view] at h
  refine ⟨created.setCall (r := ⟨⟨addr,inst⟩,.place r raw⟩) call replace_same rfl replace_same rfl,
    ⟨(viewCall t).trans (if_pos rfl),?_,valid,rfl,?_,?_,fun a pinned other =>
      inv.nodeForPtr_pinned pinned other valid fun at_ _ => vacant.apart at_⟩,
    fun u ne => (viewCall u).trans (if_neg ne)⟩
  · intro r₀ has
    obtain ⟨i,J,_,ci,hj,hx,_⟩ := inv.heaps.callHeap has
    obtain rfl : inst = i := Option.some.inj (Eq.trans (Eq.symm call) ci)
    obtain rfl := Option.some.inj (hi.symm.trans hj)
    rw [first] at hx
    contradiction
  · intro th alive eq
    obtain ⟨sh,found,_⟩ := inv.heaps.slotOk alive
    rw [eq] at found
    simp [unused] at found
  · intro id m i p held use low high
    obtain ⟨at_,_⟩ := view_map.mp held
    exact inv.nodeForPtr_large at_ valid (vacant.apart at_) low high

end Create

theorem heap_kept {inst : Nat} {r : HeapRef} (inv : Inv P s)
    (safe : safe P strict (.heap inst) (s.view t))
    (run : exec P strict t (.heap inst) ch s = some (r,s')) :
    Kept P t s s' (step P strict (.heap inst) (s.view t) r (s'.view t)) := by
  simp only [exec,Option.bind_eq_bind,Option.bind_eq_some_iff] at run
  obtain ⟨I,hi,run⟩ := run
  cases hx : I.heap with
  | some x =>
    simp only [hx,Option.bind_eq_some_iff,Option.some.injEq,Prod.mk.injEq] at run
    obtain ⟨sh,found,rfl,rfl⟩ := run
    exact heap_known inv safe hi hx found
  | none =>
    simp only [hx,Option.bind_eq_some_iff] at run
    obtain ⟨res,reserved,run⟩ := run
    cases ch with
    | place raw addr =>
      simp only at run
      split at run
      case isFalse => cases run
      case isTrue ok =>
        obtain ⟨rfl,rfl⟩ := Prod.mk.inj (Option.some.inj run)
        obtain ⟨placed,_,unused⟩ := ok
        have vacant := inv.vacant placed
        exact heap_created inv safe vacant hi hx (Option.isNone_iff_eq_none.mp unused)
          (GlobalHeap.place_valid reserved vacant.pos vacant.bound)
    | _ => cases run

end Numalloc
