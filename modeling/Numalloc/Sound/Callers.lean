import Numalloc.Sound.Maps
import Mathlib.Data.List.Find
import Mathlib.Data.List.Pairwise

/-! Where storage passes between callers and operations, and what callers may start. -/
namespace Numalloc

open Concurrent View

variable {P : Platform} {strict : Bool} {s s' : State} {t : Nat} {ch : Choice}

/-! The allocation passed to an operation. -/

theorem pinned_some {a : Alloc} (h : s.pinned t = some a) : a ∈ s.live ∧ a.pin = some t :=
  ⟨List.mem_of_find?_eq_some h,by simpa using List.find?_some h⟩

theorem Inv.pinned_eq (inv : Inv P s) {a : Alloc} (live : a ∈ s.live) (pin : a.pin = some t) :
    s.pinned t = some a := by
  cases h : s.pinned t with
  | none =>
    have := List.find?_eq_none.mp h a live
    simp [pin] at this
  | some b =>
    obtain ⟨live',pin'⟩ := pinned_some h
    rw [inv.live.pinOne live live' pin pin']

theorem pinned_none (h : s.pinned t = none) : ∀ a ∈ s.live, a.pin ≠ some t := by
  intro a live pin
  have := List.find?_eq_none.mp h a live
  simp [pin] at this

theorem pinned_filter {u : Nat} {keep : Alloc → Bool} (s : State)
    (kept : ∀ a ∈ s.live, a.pin = some u → keep a = true) :
    ({ s with live := s.live.filter keep } : State).pinned u = s.pinned u := by
  unfold State.pinned
  rw [List.find?_filter]
  refine List.find?_congr fun a live => ?_
  by_cases pin : a.pin = some u
  · simp [pin,kept a live pin]
  · simp [pin]

theorem pinned_map {u : Nat} {f : Alloc → Alloc} (s : State)
    (same : ∀ a ∈ s.live, (f a).pin = some u ↔ a.pin = some u)
    (fixed : ∀ a ∈ s.live, a.pin = some u → f a = a) :
    ({ s with live := s.live.map f } : State).pinned u = s.pinned u := by
  unfold State.pinned
  rw [List.find?_map]
  have eq : s.live.find? ((fun a => decide (a.pin = some u)) ∘ f) =
      s.live.find? fun a => decide (a.pin = some u) :=
    List.find?_congr fun a live => by simp [same a live]
  simp only [eq]
  cases h : s.live.find? fun a => decide (a.pin = some u) with
  | none => rfl
  | some a => rw [Option.map_some,fixed a (List.mem_of_find?_eq_some h) (by simpa using List.find?_some h)]

theorem LiveInv.keys {live slots maps insts call} (inv : LiveInv P live slots maps insts call)
    {a b : Alloc} (ha : a ∈ live) (hb : b ∈ live) (ne : a ≠ b) : a.key ≠ b.key := by
  have : Std.Symm fun a a' : Alloc => a.key ≠ a'.key := ⟨fun _ _ h => Ne.symm h⟩
  exact inv.distinct.forall ha hb ne

/-! Blocks and mappings that change hands with the caller. -/

theorem StackInv.moveSlots {heaps lastLink} (inv : StackInv heaps s.slots lastLink)
    {moved : Nat → Slot → Bool} {holder : Holder} (target : ∀ k, holder ≠ .stack k)
    (source : ∀ {b sl} k, s.slots b = some sl → moved b sl = true → sl.holder ≠ .stack k) :
    StackInv heaps (s.moveSlots moved holder).slots lastLink := by
  refine ⟨fun heap refs node cls => ?_,fun {b sl' k} h on => ?_⟩
  · obtain ⟨l,links,nodup,mem⟩ := inv.chain heap refs node cls
    refine ⟨l,links,nodup,fun b => (mem b).trans ?_⟩
    constructor
    · rintro ⟨sl,found,on⟩
      refine ⟨sl,moveSlots_some.mpr ⟨sl,found,?_⟩,on⟩
      rw [if_neg fun hit => source _ found hit on]
    · rintro ⟨sl',h,on⟩
      obtain ⟨sl,found,rfl⟩ := moveSlots_some.mp h
      by_cases hit : moved b sl = true
      · rw [if_pos hit] at on
        exact absurd on (target _)
      · rw [if_neg hit] at on
        exact ⟨sl,found,on⟩
  · obtain ⟨sl,found,rfl⟩ := moveSlots_some.mp h
    by_cases hit : moved b sl = true
    · rw [if_pos hit] at on
      exact absurd on (target _)
    · rw [if_neg hit] at on ⊢
      exact inv.ref found on

theorem moveMap_maps {id : Nat} {m : Mapping} (holder : MapHolder) (found : s.maps id = some m) :
    (s.moveMap id holder).maps = replace s.maps id (some { m with holder := holder }) := by
  simp [State.moveMap,found]

section MoveMap

variable {id i : Nat} {m : Mapping} {holder : MapHolder}

theorem moved_some {id' : Nat} {m' : Mapping} :
    replace s.maps id (some { m with holder := holder }) id' = some m' ↔
      (id' = id ∧ m' = { m with holder := holder }) ∨ (id' ≠ id ∧ s.maps id' = some m') := by
  by_cases same : id' = id
  · subst same
    simp [eq_comm]
  · simp [replace_other same,same]

theorem MapInv.move (inv : Inv P s) (found : s.maps id = some m) :
    MapInv P (replace s.maps id (some { m with holder := holder })) s.nextMap s.unmaps := by
  have known : id < s.nextMap := by
    by_contra le
    simp [inv.maps.fresh (Nat.le_of_not_lt le)] at found
  refine ⟨fun h => ?_,fun {id'} le => ?_,fun h h' ne => ?_,fun {id'} h => ?_,inv.maps.unborn,
    fun {id'} lt h => ?_⟩
  · rcases moved_some.mp h with ⟨_,rfl⟩ | ⟨_,old⟩
    · obtain ⟨a,b,c,d,e⟩ := inv.maps.ok found
      exact ⟨a,b,c,d,e⟩
    · exact inv.maps.ok old
  · rw [replace_other (by omega : id' ≠ id)]
    exact inv.maps.fresh le
  · rcases moved_some.mp h with ⟨rfl,rfl⟩ | ⟨_,old⟩ <;>
      rcases moved_some.mp h' with ⟨rfl,rfl⟩ | ⟨_,old'⟩
    · exact absurd rfl ne
    · have := inv.maps.apart found old' ne
      exact this
    · have := inv.maps.apart old found ne
      exact this
    · exact inv.maps.apart old old' ne
  · by_cases same : id' = id
    · exact same ▸ inv.maps.present (by simp [found])
    · exact inv.maps.present (by simpa only [replace_other same] using h)
  · by_cases same : id' = id
    · subst same
      simp at h
    · exact inv.maps.gone lt (by simpa only [replace_other same] using h)

theorem HeapInv.move (inv : Inv P s) (found : s.maps id = some m) (use : m.use = .large i)
    (other : holder ≠ .heap) :
    HeapInv s.heaps s.insts s.nextInst s.tls s.hand s.dying s.call s.threads
      (replace s.maps id (some { m with holder := holder })) := by
  refine { inv.heaps with mapLive := fun at_ refs => ?_, mapHeap := fun h use' => ?_, mapOne := fun h h' use₁ use₂ => ?_, mapLarge := fun h use' => ?_ }
  · obtain ⟨id',m',at',use',rest⟩ := inv.heaps.mapLive at_ refs
    refine ⟨id',m',moved_some.mpr (Or.inr ⟨?_,at'⟩),use',rest⟩
    rintro rfl
    obtain rfl := Option.some.inj (found.symm.trans at')
    simp [use] at use'
  · rcases moved_some.mp h with ⟨_,rfl⟩ | ⟨_,old⟩
    · simp [use] at use'
    · exact inv.heaps.mapHeap old use'
  · rcases moved_some.mp h with ⟨_,rfl⟩ | ⟨_,old⟩
    · simp [use] at use₁
    rcases moved_some.mp h' with ⟨_,rfl⟩ | ⟨_,old'⟩
    · simp [use] at use₂
    exact inv.heaps.mapOne old old' use₁ use₂
  · rcases moved_some.mp h with ⟨_,rfl⟩ | ⟨_,old⟩
    · exact ⟨other,(inv.heaps.mapLarge found use').2⟩
    · exact inv.heaps.mapLarge old use'

theorem MemInv.move (inv : Inv P s) (found : s.maps id = some m) :
    MemInv s.mem s.lastLink (replace s.maps id (some { m with holder := holder })) := by
  refine ⟨inv.mem.link,fun h payload => ?_⟩
  rcases moved_some.mp h with ⟨_,rfl⟩ | ⟨_,old⟩
  · have := inv.mem.header found payload
    exact this
  · exact inv.mem.header old payload

end MoveMap

/-! Releasing an allocation. -/

section Release

variable {a : Alloc}

/-- The allocations left when thread `t` released the one it was given. -/
def State.unpinned (s : State) (t : Nat) : List Alloc := s.live.filter fun b => b.pin ≠ some t

theorem mem_unpinned {b : Alloc} : b ∈ s.unpinned t ↔ b ∈ s.live ∧ b.pin ≠ some t := by
  simp [State.unpinned]

theorem unpinned_pinned (u : Nat) : ({ s with live := s.unpinned t } : State).pinned u =
    if u = t then none else s.pinned u := by
  by_cases same : u = t
  · subst same
    rw [if_pos rfl]
    refine List.find?_eq_none.mpr fun b mem => ?_
    simpa using (mem_unpinned.mp mem).2
  · rw [if_neg same]
    refine pinned_filter s fun b _ pin => ?_
    simpa [pin] using same

/-- What the other allocations are stored in stays theirs. -/
theorem LiveInv.released {slots maps} (inv : Inv P s) (live : a ∈ s.live) (pin : a.pin = some t)
    (slot : ∀ {b sl}, s.slots b = some sl → sl.holder = .user → (a.source = .slot → b ≠ a.ptr) →
      slots b = some sl)
    (map : ∀ {id m}, s.maps id = some m → m.holder = .user → a.source ≠ .mapping id →
      maps id = some m)
    (slotBack : ∀ {b sl}, slots b = some sl → sl.holder = .user → s.slots b = some sl ∧
      (a.source = .slot → b ≠ a.ptr))
    (mapBack : ∀ {id m}, maps id = some m → m.holder = .user → s.maps id = some m ∧
      a.source ≠ .mapping id) :
    LiveInv P (s.unpinned t) slots maps s.insts s.call where
  backed {b} mem := by
    obtain ⟨mem,free⟩ := mem_unpinned.mp mem
    have ne : b ≠ a := by
      rintro rfl
      exact free pin
    have keys := inv.live.keys mem live ne
    have backed := inv.live.backed mem
    cases kind : b.source with
    | slot =>
      unfold Backed at backed ⊢
      simp only [kind] at backed ⊢
      obtain ⟨sl,I,x,found,user,rest⟩ := backed
      refine ⟨sl,I,x,slot found user fun source eq => keys ?_,user,rest⟩
      simp [Alloc.key,kind,source,eq]
    | mapping id =>
      unfold Backed at backed ⊢
      simp only [kind] at backed ⊢
      obtain ⟨m,found,user,rest⟩ := backed
      refine ⟨m,map found user fun source => keys ?_,user,rest⟩
      simp [Alloc.key,kind,source]
    | stray =>
      unfold Backed at backed
      simp only [kind] at backed
  distinct := inv.live.distinct.filter _
  ofSlot found user hi hx heap := by
    obtain ⟨old,ne⟩ := slotBack found user
    obtain ⟨b,mem,source,ptr⟩ := inv.live.ofSlot old user hi hx heap
    refine ⟨b,mem_unpinned.mpr ⟨mem,fun pin' => ?_⟩,source,ptr⟩
    obtain rfl := inv.live.pinOne live mem pin pin'
    exact ne source ptr.symm
  ofMap found user := by
    obtain ⟨old,ne⟩ := mapBack found user
    obtain ⟨b,mem,source⟩ := inv.live.ofMap old user
    refine ⟨b,mem_unpinned.mpr ⟨mem,fun pin' => ?_⟩,source⟩
    obtain rfl := inv.live.pinOne live mem pin pin'
    exact ne source
  pin mem := inv.live.pin (mem_unpinned.mp mem).1
  pinOne mem mem' := inv.live.pinOne (mem_unpinned.mp mem).1 (mem_unpinned.mp mem').1

theorem release_slot (inv : Inv P s) (pinned : s.pinned t = some a) (kind : a.source = .slot) :
    Kept P t s (({ s with live := s.unpinned t } : State).moveSlots (fun b _ => b = a.ptr)
      (.thread t))
      ((s.view t).TakesSlot ((({ s with live := s.unpinned t } : State).moveSlots
        (fun b _ => b = a.ptr) (.thread t)).view t) a) := by
  obtain ⟨live,pin⟩ := pinned_some pinned
  have backed := inv.live.backed live
  simp only [Backed,kind] at backed
  obtain ⟨sl,I,x,found,user,cls,hi,hx,addr⟩ := backed
  have only : ∀ {b sl'}, s.slots b = some sl' → decide (b = a.ptr) = true → sl' = sl := by
    intro b sl' at_ eq
    rw [of_decide_eq_true eq,found] at at_
    exact (Option.some.inj at_).symm
  obtain ⟨owner,known⟩ := inv.live.pin live pin
  obtain ⟨r,call⟩ := known kind
  obtain ⟨i,J,sh,ci,hj,hy,heap,geom⟩ := inv.heaps.callHeap call
  obtain rfl : a.inst = i := Option.some.inj (owner.symm.trans ci)
  obtain rfl := Option.some.inj (hi.symm.trans hj)
  obtain rfl := Option.some.inj (hx.symm.trans hy)
  obtain ⟨sh',heap',_,node,_,low,high⟩ := inv.slot_region found
  rw [← addr] at heap'
  obtain rfl := Option.some.inj (heap.symm.trans heap')
  have eight := inv.slot_eight found
  have here : r.geom.nodeForPtr a.ptr = some sl.node := by
    rw [← geom]
    exact (inv.heaps.geom heap).nodeForPtr_mem node low (by omega)
  refine ⟨{ inv with
    slots := inv.slots.moveSlots _ _
    nodes := inv.nodes.moveSlots (by simp) (fun k at_ eq => by simp [only at_ eq,user])
    live := ?_ },?_,fun u ne => ?_⟩
  · refine .released inv live pin (fun {b sl'} at_ user' away => ?_) (fun at_ _ _ => at_)
      (fun {b sl'} at_ user' => ?_) (fun at_ _ => ⟨at_,by simp [kind]⟩)
    · refine moveSlots_some.mpr ⟨sl',at_,?_⟩
      rw [if_neg (by simpa using away kind)]
    · obtain ⟨sl₀,old,rfl⟩ := moveSlots_some.mp at_
      by_cases same : b = a.ptr
      · rw [if_pos (by simpa using same)] at user'
        simp at user'
      · rw [if_neg (by simpa using same)]
        exact ⟨old,fun _ => same⟩
  · refine ⟨r,sl.node,sl.cls,s.lastLink a.ptr,call,here,cls,?_,inv.slot_user_addr found,?_⟩
    · simp [State.view,State.blockOf,found,user]
    · have blocks : (({ s with live := s.unpinned t } : State).moveSlots (fun b _ => b = a.ptr)
          (.thread t)).blockOf t = replace (s.blockOf t) a.ptr
            (some ⟨⟨r.handle.addr,sl.node,sl.cls⟩,s.lastLink a.ptr⟩) := by
        funext b
        by_cases same : b = a.ptr
        · subst same
          simp [State.blockOf,State.moveSlots,found,Slot.ref,addr]
        · simp only [State.blockOf,State.moveSlots,replace_other same]
          cases s.slots b <;> simp [same]
      have free := unpinned_pinned (s := s) (t := t) t
      rw [if_pos rfl] at free
      exact view_is rfl rfl rfl rfl free blocks rfl
  · refine view_eq rfl rfl rfl rfl ((unpinned_pinned u).trans (if_neg ne)) ?_ rfl
    refine blockOf_moveSlots_other (s := { s with live := s.unpinned t }) (by simpa using ne.symm)
      fun at_ eq => ?_
    simp [only at_ eq,user]

theorem release_map {id : Nat} (strict : Bool) (inv : Inv P s) (pinned : s.pinned t = some a)
    (kind : a.source = .mapping id) (home : strict = true → homeward s t a = true) :
    Kept P t s (({ s with live := s.unpinned t } : State).moveMap id (.thread t))
      ((s.view t).TakesMap P strict
        ((({ s with live := s.unpinned t } : State).moveMap id (.thread t)).view t) a id) := by
  obtain ⟨live,pin⟩ := pinned_some pinned
  have backed := inv.live.backed live
  simp only [Backed,kind] at backed
  obtain ⟨m,found,user,use,payload,placed⟩ := backed
  have moved : ({ s with live := s.unpinned t } : State).moveMap id (.thread t) = { s with
      live := s.unpinned t
      maps := replace s.maps id (some { m with holder := .thread t }) } := by
    simp only [State.moveMap,found,Option.map_some]
  rw [moved]
  have maps : ∀ u, ({ s with
      live := s.unpinned t
      maps := replace s.maps id (some { m with holder := .thread t }) } : State).mapOf u =
      if u = t then replace (s.mapOf t) id (some { m with holder := .thread t }) else s.mapOf u := by
    intro u
    funext id'
    by_cases same : id' = id
    · subst same
      by_cases mine : u = t
      · simp [State.mapOf,mine]
      · simp [State.mapOf,mine,found,user,Ne.symm mine]
    · by_cases mine : u = t
      · simp [State.mapOf,mine,replace_other same]
      · simp [State.mapOf,mine,replace_other same]
  refine ⟨⟨.move inv found,.move inv found use (by simp),inv.slots,inv.nodes,.move inv found,?_⟩,
    ⟨{ m with holder := .thread t },?_,?_,payload,use,?_,?_,fun strict th alive inst => ?_,?_⟩,
    fun u ne => ?_⟩
  · refine .released inv live pin (fun at_ _ _ => at_) (fun {id' m'} at_ user' away => ?_)
      (fun at_ _ => ⟨at_,by simp [kind]⟩) (fun {id' m'} at_ user' => ?_)
    · have ne : id' ≠ id := by
        rintro rfl
        exact away kind
      exact moved_some.mpr (Or.inr ⟨ne,at_⟩)
    · rcases moved_some.mp at_ with ⟨_,rfl⟩ | ⟨ne,old⟩
      · simp at user'
      · exact ⟨old,by simpa [kind] using ne.symm⟩
  · simp [State.view,State.mapOf,found,user]
  · obtain ⟨a,b,c,d,e⟩ := inv.maps.ok found
    exact ⟨a,b,c,d,e⟩
  · obtain ⟨fits,header,inside,room,aligned⟩ := placed
    exact ⟨fits,header,inside,room,aligned⟩
  · have := placed.header
    unfold headerSize at this
    omega
  · have alive : s.tls t = .alive th := alive
    obtain ⟨sh,heap,own,_⟩ := inv.heaps.slotOk alive
    obtain ⟨⟨I,hi⟩,_⟩ := inv.heaps.callInst (inv.live.pin live pin).1
    have handle : I.heap = some th.globalHeap := by
      rw [← inst,← own] at hi
      rw [inv.heaps.back heap hi,own]
    have := home strict
    simpa [homeward,kind,alive,hi,handle,found] using this
  · have free := unpinned_pinned (s := s) (t := t) t
    rw [if_pos rfl] at free
    exact view_is rfl rfl rfl rfl free rfl ((maps t).trans (if_pos rfl))
  · refine view_eq rfl rfl rfl rfl ((unpinned_pinned u).trans (if_neg ne)) rfl ?_
    rw [maps u,if_neg ne]

end Release

theorem release_kept (inv : Inv P s) (run : exec P strict t .release ch s = some ((),s')) :
    Kept P t s s' (step P strict .release (s.view t) () (s'.view t)) := by
  simp only [exec,Option.bind_eq_bind,Option.bind_eq_some_iff] at run
  obtain ⟨a,pinned,run⟩ := run
  split at run
  case isTrue => cases run
  case isFalse home =>
  simp only [Option.some.injEq,Prod.mk.injEq,true_and] at run
  subst run
  obtain ⟨live,pin⟩ := pinned_some pinned
  cases kind : a.source with
  | slot =>
    obtain ⟨keep,seen,others⟩ := release_slot inv pinned kind
    simp only [State.release,kind]
    refine ⟨keep,⟨a,pinned,?_⟩,others⟩
    simp only [kind]
    exact seen
  | mapping id =>
    obtain ⟨keep,seen,others⟩ := release_map strict inv pinned kind (by simpa using home)
    simp only [State.release,kind]
    refine ⟨keep,⟨a,pinned,?_⟩,others⟩
    simp only [kind]
    exact seen
  | stray =>
    have := inv.live.backed live
    simp only [Backed,kind] at this

/-! Returning an allocation. -/

/-- Records of live allocations change, but not what they are stored in. -/
theorem LiveInv.map {live slots maps insts call call'} {f : Alloc → Alloc}
    (inv : LiveInv P live slots maps insts call)
    (same : ∀ a ∈ live, (f a).source = a.source ∧ (f a).ptr = a.ptr)
    (backed : ∀ a ∈ live, Backed P slots maps insts (f a))
    (pin : ∀ a ∈ live, ∀ t, (f a).pin = some t → (call' t).inst = some (f a).inst ∧
      ((f a).source = .slot → ∃ r, (call' t).heap = some r))
    (pinOne : ∀ a ∈ live, ∀ a' ∈ live, ∀ t, (f a).pin = some t → (f a').pin = some t →
      f a = f a') : LiveInv P (live.map f) slots maps insts call' where
  backed h := by
    obtain ⟨a,mem,rfl⟩ := List.mem_map.mp h
    exact backed a mem
  distinct := by
    refine List.pairwise_map.mpr (inv.distinct.imp_of_mem fun {a a'} mem mem' keys => ?_)
    simpa [Alloc.key,same a mem,same a' mem'] using keys
  ofSlot found user hi hx heap := by
    obtain ⟨a,mem,source,ptr⟩ := inv.ofSlot found user hi hx heap
    obtain ⟨source',ptr'⟩ := same a mem
    exact ⟨f a,List.mem_map_of_mem mem,source'.trans source,ptr'.trans ptr⟩
  ofMap found user := by
    obtain ⟨a,mem,source⟩ := inv.ofMap found user
    exact ⟨f a,List.mem_map_of_mem mem,(same a mem).1.trans source⟩
  pin h has := by
    obtain ⟨a,mem,rfl⟩ := List.mem_map.mp h
    exact pin a mem _ has
  pinOne h h' has has' := by
    obtain ⟨a,mem,rfl⟩ := List.mem_map.mp h
    obtain ⟨a',mem',rfl⟩ := List.mem_map.mp h'
    exact pinOne a mem a' mem' _ has has'

/-- A new allocation in storage nobody had. -/
theorem LiveInv.push {live slots slots' maps maps' insts call} {a : Alloc}
    (inv : LiveInv P live slots maps insts call) (free : a.pin = none)
    (backed : Backed P slots' maps' insts a) (key : ∀ b ∈ live, a.key ≠ b.key)
    (slot : ∀ {b sl}, slots b = some sl → sl.holder = .user → slots' b = some sl)
    (map : ∀ {id m}, maps id = some m → m.holder = .user → maps' id = some m)
    (slotBack : ∀ {b sl}, slots' b = some sl → sl.holder = .user →
      (a.source = .slot ∧ a.ptr = b) ∨ slots b = some sl)
    (mapBack : ∀ {id m}, maps' id = some m → m.holder = .user →
      a.source = .mapping id ∨ maps id = some m) :
    LiveInv P (a :: live) slots' maps' insts call where
  backed h := by
    rcases List.mem_cons.mp h with rfl | mem
    · exact backed
    · exact (inv.backed mem).mono (fun found user _ _ _ => slot found user)
        (fun found user _ => map found user) fun {I _} hi hx => ⟨I,hi,hx⟩
  distinct := List.pairwise_cons.mpr ⟨key,inv.distinct⟩
  ofSlot found user hi hx heap := by
    rcases slotBack found user with new | old
    · exact ⟨a,List.mem_cons_self,new⟩
    · obtain ⟨b,mem,rest⟩ := inv.ofSlot old user hi hx heap
      exact ⟨b,List.mem_cons_of_mem _ mem,rest⟩
  ofMap found user := by
    rcases mapBack found user with new | old
    · exact ⟨a,List.mem_cons_self,new⟩
    · obtain ⟨b,mem,rest⟩ := inv.ofMap old user
      exact ⟨b,List.mem_cons_of_mem _ mem,rest⟩
  pin h has := by
    rcases List.mem_cons.mp h with rfl | mem
    · simp [free] at has
    · exact inv.pin mem has
  pinOne h h' has has' := by
    rcases List.mem_cons.mp h with rfl | mem
    · simp [free] at has
    rcases List.mem_cons.mp h' with rfl | mem'
    · simp [free] at has'
    exact inv.pinOne mem mem' has has'

theorem pinned_push {a : Alloc} (s : State) (free : a.pin = none) (u : Nat) :
    ({ s with live := a :: s.live } : State).pinned u = s.pinned u := by
  simp [State.pinned,free]

section Give

variable {ptr : Nat} {layout : Layout}

/-- The pinned allocation goes back to the caller with a new layout. -/
def Alloc.returned (t : Nat) (layout : Layout) (a : Alloc) : Alloc :=
  if a.pin = some t then { a with layout := layout, pin := none } else a

theorem give_pinned {a : Alloc} (inv : Inv P s) (pinned : s.pinned t = some a)
    (kind : a.source = .slot)
    (cls : sizeClassIndex layout.effective = sizeClassIndex a.layout.effective) :
    Kept P t s { s with live := s.live.map (Alloc.returned t layout) }
      (({ s with live := s.live.map (Alloc.returned t layout) } : State).view t =
        { s.view t with pin := none }) := by
  obtain ⟨live,pin⟩ := pinned_some pinned
  have only : ∀ b ∈ s.live, b.pin = some t → b = a := fun b mem has =>
    inv.live.pinOne mem live has pin
  refine ⟨{ inv with live := inv.live.map ?_ ?_ ?_ ?_ },?_,fun u ne => ?_⟩
  · intro b mem
    unfold Alloc.returned
    split <;> exact ⟨rfl,rfl⟩
  · intro b mem
    have backed := inv.live.backed mem
    by_cases has : b.pin = some t
    · obtain rfl := only b mem has
      simp only [Alloc.returned,has,if_true]
      simp only [Backed,kind] at backed ⊢
      rw [cls]
      exact backed
    · simpa only [Alloc.returned,has,if_false] using backed
  · intro b mem u has
    by_cases own : b.pin = some t
    · simp [Alloc.returned,own] at has
    · simp only [Alloc.returned,own,if_false] at has ⊢
      exact inv.live.pin mem has
  · intro b mem b' mem' u has has'
    by_cases own : b.pin = some t
    · simp [Alloc.returned,own] at has
    by_cases own' : b'.pin = some t
    · simp [Alloc.returned,own'] at has'
    simp only [Alloc.returned,own,own',if_false] at has has' ⊢
    exact inv.live.pinOne mem mem' has has'
  · refine view_is rfl rfl rfl rfl ?_ rfl rfl
    refine List.find?_eq_none.mpr fun b mem => ?_
    obtain ⟨b',mem',rfl⟩ := List.mem_map.mp mem
    by_cases own : b'.pin = some t <;> simp [Alloc.returned,own]
  · refine view_eq rfl rfl rfl rfl (pinned_map s (fun b mem => ?_) fun b mem has => ?_) rfl rfl
    · by_cases own : b.pin = some t
      · simp [Alloc.returned,own,ne.symm]
      · simp [Alloc.returned,own]
    · have own : b.pin ≠ some t := by simpa [has] using ne
      simp [Alloc.returned,own]

theorem give_block (inv : Inv P s) (gives : (s.view t).GivesBlock ptr layout) :
    Kept P t s { s.moveSlots (fun b _ => b = ptr) .user with
        live := ⟨ptr,layout,(s.call t).inst.getD 0,.slot,none⟩ :: s.live }
      ((({ s.moveSlots (fun b _ => b = ptr) .user with
        live := ⟨ptr,layout,(s.call t).inst.getD 0,.slot,none⟩ :: s.live } : State).view t) =
        (s.view t).without [ptr]) := by
  obtain ⟨B,th,r,block,⟨_,call,_⟩,heap,_,cls⟩ := gives
  obtain ⟨sl,found,holder,rfl⟩ := view_block block
  obtain ⟨i,I,sh,ci,hi,hx,_⟩ := inv.heaps.callHeap call
  have only : ∀ {b sl'}, s.slots b = some sl' → decide (b = ptr) = true → sl' = sl := by
    intro b sl' at_ eq
    rw [of_decide_eq_true eq,found] at at_
    exact (Option.some.inj at_).symm
  refine ⟨{ inv with
    slots := inv.slots.moveSlots _ _
    nodes := inv.nodes.moveSlots (by simp) (fun k at_ eq => by simp [only at_ eq,holder])
    live := (?_ : LiveInv P (_ :: s.live) (s.moveSlots (fun b _ => b = ptr) .user).slots s.maps
      s.insts s.call) },?_,fun u ne => ?_⟩
  · refine inv.live.push rfl ?_ (fun b mem eq => ?_) (fun {b sl'} at_ user => ?_) (fun at_ _ => at_)
      (fun {b sl'} at_ user => ?_) (fun at_ _ => Or.inr at_)
    · refine ⟨{ sl with holder := .user },I,r.handle,moveSlots_some.mpr ⟨sl,found,by simp⟩,rfl,cls,
        ?_,hx,heap.symm⟩
      rw [ci]
      exact hi
    · have backed := inv.live.backed mem
      cases kind : b.source with
      | slot =>
        simp only [Backed,kind] at backed
        obtain ⟨sl',_,_,at_,user,_⟩ := backed
        have same : ptr = b.ptr := by simpa [Alloc.key,kind] using eq
        rw [← same,found] at at_
        obtain rfl := Option.some.inj at_
        simp [holder] at user
      | mapping id => simp [Alloc.key,kind] at eq
      | stray => simp [Alloc.key,kind] at eq
    · refine moveSlots_some.mpr ⟨sl',at_,?_⟩
      rw [if_neg]
      intro eq
      simp [only at_ eq,holder] at user
    · obtain ⟨sl₀,old,rfl⟩ := moveSlots_some.mp at_
      by_cases same : b = ptr
      · exact Or.inl ⟨rfl,same.symm⟩
      · rw [if_neg (by simpa using same)]
        exact Or.inr old
  · refine view_is rfl rfl rfl rfl (pinned_push _ rfl t) ?_ rfl
    funext b
    by_cases same : b = ptr
    · subst same
      simp [State.blockOf,State.moveSlots,without,found]
    · simp only [State.blockOf,State.moveSlots,without,State.view,List.mem_singleton,same,if_false]
      cases s.slots b <;> simp
  · refine view_eq rfl rfl rfl rfl (pinned_push _ rfl u) ?_ rfl
    refine blockOf_moveSlots_other (by simp) fun at_ eq => ?_
    simpa [only at_ eq,holder] using ne.symm

/-- Payloads tell mappings apart. -/
theorem Inv.payload_unique (inv : Inv P s) {id id' p : Nat} {m m' : Mapping}
    (found : s.maps id = some m) (payload : m.payload = some p) (found' : s.maps id' = some m')
    (payload' : m'.payload = some p) : id = id' := by
  by_contra ne
  have apart := inv.maps.apart found found' ne
  obtain ⟨_,low,high,_⟩ := inv.mem.header found payload
  obtain ⟨_,low',high',_⟩ := inv.mem.header found' payload'
  unfold Apart at apart
  omega

theorem Inv.payloadOf_eq (inv : Inv P s) {id p : Nat} {m : Mapping} (found : s.maps id = some m)
    (holder : m.holder = .thread t) (payload : m.payload = some p) : s.payloadOf t p = some id := by
  have known : id < s.nextMap := by
    by_contra le
    simp [inv.maps.fresh (Nat.le_of_not_lt le)] at found
  cases h : s.payloadOf t p with
  | none =>
    have := List.find?_eq_none.mp h id (List.mem_range.mpr known)
    simp [found,holder,payload] at this
  | some id' =>
    have hit := List.find?_some h
    cases found' : s.maps id' with
    | none => simp [found'] at hit
    | some m' =>
      simp only [found',decide_eq_true_eq] at hit
      rw [inv.payload_unique found payload found' hit.2]

theorem give_map {id inst : Nat} {m : Mapping} (inv : Inv P s)
    (held : (s.view t).maps id = some m) (payload : m.payload = some ptr)
    (call : (s.view t).call.inst = some inst) (use : m.use = .large inst)
    (placed : Placed P m ptr layout) :
    Kept P t s { s.moveMap id .user with
        live := ⟨ptr,layout,(s.call t).inst.getD 0,.mapping id,none⟩ :: s.live }
      (({ s.moveMap id .user with
        live := ⟨ptr,layout,(s.call t).inst.getD 0,.mapping id,none⟩ :: s.live } : State).view t =
        (s.view t).setMap id none) := by
  obtain ⟨found,holder⟩ := view_map.mp held
  have owner : (s.call t).inst.getD 0 = inst := by
    rw [show (s.call t).inst = some inst from call,Option.getD_some]
  have moved : s.moveMap id .user =
      { s with maps := replace s.maps id (some { m with holder := .user }) } := by
    simp only [State.moveMap,found,Option.map_some]
  rw [moved,owner]
  refine ⟨⟨.move inv found,.move inv found use (by simp),inv.slots,inv.nodes,.move inv found,?_⟩,?_,
    fun u ne => ?_⟩
  · refine inv.live.push rfl ?_ (fun b mem eq => ?_) (fun at_ _ => at_) (fun {id' m'} at_ user => ?_)
      (fun at_ _ => Or.inr at_) (fun {id' m'} at_ user => ?_)
    · refine ⟨{ m with holder := .user },replace_same,rfl,use,payload,?_⟩
      obtain ⟨fits,header,inside,room,aligned⟩ := placed
      exact ⟨fits,header,inside,room,aligned⟩
    · have backed := inv.live.backed mem
      cases kind : b.source with
      | slot => simp [Alloc.key,kind] at eq
      | stray => simp [Alloc.key,kind] at eq
      | mapping id' =>
        simp only [Backed,kind] at backed
        obtain ⟨m',at_,user,_⟩ := backed
        obtain rfl : id = id' := by simpa [Alloc.key,kind] using eq
        obtain rfl := Option.some.inj (found.symm.trans at_)
        simp [holder] at user
    · refine moved_some.mpr (Or.inr ⟨?_,at_⟩)
      rintro rfl
      obtain rfl := Option.some.inj (found.symm.trans at_)
      simp [holder] at user
    · rcases moved_some.mp at_ with ⟨rfl,_⟩ | ⟨_,old⟩
      · exact Or.inl rfl
      · exact Or.inr old
  · refine view_is rfl rfl rfl rfl (pinned_push _ rfl t) rfl ?_
    funext id'
    by_cases same : id' = id
    · subst same
      simp [State.mapOf,setMap]
    · simp only [State.mapOf,setMap,State.view,replace_other same]
  · refine view_eq rfl rfl rfl rfl (pinned_push _ rfl u) rfl ?_
    funext id'
    by_cases same : id' = id
    · subst same
      simp [State.mapOf,found,holder,ne.symm]
    · simp only [State.mapOf,replace_other same]

/-- The payload of a mapping is in no block. -/
theorem Inv.payload_no_slot (inv : Inv P s) {id : Nat} {m : Mapping} (found : s.maps id = some m)
    (payload : m.payload = some ptr) : s.slots ptr = none := by
  cases at_ : s.slots ptr with
  | none => rfl
  | some sl =>
    have apart := inv.slot_apart_map at_ found (inv.header_holder found payload)
    have := inv.slot_eight at_
    obtain ⟨_,low,high,_⟩ := inv.mem.header found payload
    unfold Apart at apart
    omega

theorem give_eq_pinned {a : Alloc} (pinned : s.pinned t = some a) (layout : Layout) :
    s.give t a.ptr layout = { s with live := s.live.map (Alloc.returned t layout) } := by
  simp only [State.give,pinned,Option.any_some,decide_true,if_true]
  rfl

theorem give_eq_block {sl : Slot} (free : s.pinned t = none) (found : s.slots ptr = some sl)
    (holder : sl.holder = .thread t) (layout : Layout) :
    s.give t ptr layout = { s.moveSlots (fun b _ => b = ptr) .user with
      live := ⟨ptr,layout,(s.call t).inst.getD 0,.slot,none⟩ :: s.live } := by
  simp [State.give,free,State.heldBy,found,holder]

theorem give_eq_map {id : Nat} {m : Mapping} (inv : Inv P s) (free : s.pinned t = none)
    (found : s.maps id = some m) (holder : m.holder = .thread t) (payload : m.payload = some ptr)
    (layout : Layout) :
    s.give t ptr layout = { s.moveMap id .user with
      live := ⟨ptr,layout,(s.call t).inst.getD 0,.mapping id,none⟩ :: s.live } := by
  have notHeld : s.heldBy t ptr = false := by
    simp [State.heldBy,inv.payload_no_slot found payload]
  simp [State.give,free,notHeld,inv.payloadOf_eq found holder payload]

theorem give_kept (inv : Inv P s) (safe : safe P strict (.give ptr layout) (s.view t))
    (run : exec P strict t (.give ptr layout) ch s = some ((),s')) :
    Kept P t s s' (step P strict (.give ptr layout) (s.view t) () (s'.view t)) := by
  simp only [exec,Option.some.injEq,Prod.mk.injEq,true_and] at run
  subst run
  rcases safe with ⟨a,pinned,rfl,kind,cls⟩ | ⟨free,gives⟩ | ⟨free,gives⟩
  · obtain ⟨keep,seen,others⟩ := give_pinned inv pinned kind cls
    rw [give_eq_pinned pinned]
    exact ⟨keep,⟨fun _ => seen,fun free => by simp [pinned] at free,
      fun free => by simp [pinned] at free⟩,others⟩
  · obtain ⟨keep,seen,others⟩ := give_block inv gives
    obtain ⟨B,_,_,block,_⟩ := gives
    obtain ⟨sl,found,holder,_⟩ := view_block block
    rw [give_eq_block free found holder]
    refine ⟨keep,⟨fun pinned => ?_,fun _ _ _ => seen,fun _ id m held payload => ?_⟩,others⟩
    · obtain ⟨a,pinned,_⟩ := pinned
      simp [free] at pinned
    · simp [inv.payload_no_slot (view_map.mp held).1 payload] at found
  · obtain ⟨id,m,inst,held,payload,call,use,placed,_⟩ := gives
    obtain ⟨found,holder⟩ := view_map.mp held
    obtain ⟨keep,seen,others⟩ := give_map inv held payload call use placed
    rw [give_eq_map inv free found holder payload]
    refine ⟨keep,⟨fun pinned => ?_,fun _ B block => ?_,fun _ id' m' held' payload' => ?_⟩,others⟩
    · obtain ⟨a,pinned,_⟩ := pinned
      simp [free] at pinned
    · obtain ⟨sl,at_,_⟩ := view_block block
      simp [inv.payload_no_slot found payload] at at_
    · obtain rfl := inv.payload_unique (view_map.mp held').1 payload' found payload
      exact seen

end Give

/-- Whatever was not handed back stays with the caller. -/
def Alloc.freed (t : Nat) (a : Alloc) : Alloc :=
  if a.pin = some t then { a with pin := none } else a

theorem finish_kept (inv : Inv P s) (run : exec P strict t .finish ch s = some ((),s')) :
    Kept P t s s' (step P strict .finish (s.view t) () (s'.view t)) := by
  simp only [exec,Option.some.injEq,Prod.mk.injEq,true_and] at run
  subst run
  have calls : ∀ {u}, u ≠ t → replace s.call t ⟨none,none⟩ u = s.call u := fun ne => replace_other ne
  have live : LiveInv P (s.live.map (Alloc.freed t)) s.slots s.maps s.insts
      (replace s.call t ⟨none,none⟩) := by
    refine inv.live.map ?_ ?_ ?_ ?_
    · intro b mem
      unfold Alloc.freed
      split <;> exact ⟨rfl,rfl⟩
    · intro b mem
      have backed := inv.live.backed mem
      by_cases own : b.pin = some t
      · simp only [Alloc.freed,own,if_true]
        exact backed
      · simpa only [Alloc.freed,own,if_false] using backed
    · intro b mem u has
      by_cases own : b.pin = some t
      · simp [Alloc.freed,own] at has
      · simp only [Alloc.freed,own,if_false] at has ⊢
        have ne : u ≠ t := by
          rintro rfl
          exact own has
        rw [calls ne]
        exact inv.live.pin mem has
    · intro b mem b' mem' u has has'
      by_cases own : b.pin = some t
      · simp [Alloc.freed,own] at has
      by_cases own' : b'.pin = some t
      · simp [Alloc.freed,own'] at has'
      simp only [Alloc.freed,own,own',if_false] at has has' ⊢
      exact inv.live.pinOne mem mem' has has'
  refine ⟨{ inv with
    heaps := { inv.heaps with callHeap := fun {u r} has => ?_, callInst := fun {u i} has => ?_ }
    live := live },?_,fun u ne => ?_⟩
  · by_cases same : u = t
    · subst same
      simp at has
    · simp only [calls same] at has ⊢
      exact inv.heaps.callHeap has
  · by_cases same : u = t
    · subst same
      simp at has
    · simp only [calls same] at has
      exact inv.heaps.callInst has
  · refine view_is rfl replace_same rfl rfl ?_ rfl rfl
    refine List.find?_eq_none.mpr fun b mem => ?_
    obtain ⟨b',mem',rfl⟩ := List.mem_map.mp mem
    by_cases own : b'.pin = some t <;> simp [own]
  · refine view_eq rfl (calls ne) rfl rfl (pinned_map s (fun b mem => ?_) fun b mem has => ?_) rfl rfl
    · by_cases own : b.pin = some t
      · simp [own,ne.symm]
      · simp [own]
    · have own : b.pin ≠ some t := by simpa [has] using ne
      simp [own]

end Numalloc
