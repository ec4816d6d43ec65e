import Numalloc.Sound.Memory

/-! Actions on the head word of a node's stack and on its bump offset: the two places
where blocks change hands without the caller. -/
namespace Numalloc

open Concurrent View

variable {P : Platform} {strict : Bool} {s s' : State} {t : Nat} {ch : Choice}

/-! Heaps whose atomic cells changed, and blocks whose holders changed. -/

/-- What the references to a heap depend on. -/
def SharedHeap.core (sh : SharedHeap) : Nat × Nat × GlobalHeap × List Ref :=
  (sh.inst,sh.references,sh.heap,sh.refs)

def SameHeaps (heaps heaps' : Nat → Option SharedHeap) : Prop :=
  ∀ h, (heaps' h).map SharedHeap.core = (heaps h).map SharedHeap.core

namespace SameHeaps

variable {heaps heaps' : Nat → Option SharedHeap} {h : Nat} {sh sh' : SharedHeap}

theorem symm (same : SameHeaps heaps heaps') : SameHeaps heaps' heaps := fun h => (same h).symm

theorem back (same : SameHeaps heaps heaps') (found : heaps' h = some sh') :
    ∃ sh, heaps h = some sh ∧ sh.inst = sh'.inst ∧ sh.references = sh'.references ∧
      sh.heap = sh'.heap ∧ sh.refs = sh'.refs := by
  have eq := same h
  rw [found,Option.map_some] at eq
  obtain ⟨sh,found',core⟩ := Option.map_eq_some_iff.mp eq.symm
  simp only [SharedHeap.core,Prod.mk.injEq] at core
  exact ⟨sh,found',core⟩

theorem replace (found : heaps h = some sh) (core : sh'.core = sh.core) :
    SameHeaps heaps (Concurrent.replace heaps h (some sh')) := by
  intro h'
  by_cases eq : h' = h
  · subst eq
    simp [found,core]
  · rw [replace_other eq]

theorem heapInv {insts nextInst tls hand dying call threads maps}
    (same : SameHeaps heaps heaps')
    (inv : HeapInv heaps insts nextInst tls hand dying call threads maps) :
    HeapInv heaps' insts nextInst tls hand dying call threads maps where
  geom found := by
    obtain ⟨sh,old,_,_,heap,_⟩ := same.back found
    exact heap ▸ inv.geom old
  count found := by
    obtain ⟨sh,old,_,references,_,refs⟩ := same.back found
    rw [← references,← refs]
    exact inv.count old
  refInst found := by
    obtain ⟨sh,old,_,_,_,refs⟩ := same.back found
    rw [← refs]
    exact inv.refInst old
  refSlot found := by
    obtain ⟨sh,old,_,_,_,refs⟩ := same.back found
    rw [← refs]
    exact inv.refSlot old
  refOp found := by
    obtain ⟨sh,old,_,_,_,refs⟩ := same.back found
    rw [← refs]
    exact inv.refOp old
  one found found' eq := by
    obtain ⟨sh,old,inst,_⟩ := same.back found
    obtain ⟨sh',old',inst',_⟩ := same.back found'
    exact inv.one old old' (inst.trans (eq.trans inst'.symm))
  back found hi := by
    obtain ⟨sh,old,inst,_⟩ := same.back found
    rw [← inst] at hi ⊢
    exact inv.back old hi
  instHeap hi hx := by
    obtain ⟨eq,sh,old,inst⟩ := inv.instHeap hi hx
    obtain ⟨sh',found,inst',_⟩ := same.symm.back old
    exact ⟨eq,sh',found,inst'.trans inst⟩
  instFresh := inv.instFresh
  heapOld found := by
    obtain ⟨sh,old,inst,_⟩ := same.back found
    exact inst ▸ inv.heapOld old
  slotOk alive := by
    obtain ⟨sh,old,inst,node⟩ := inv.slotOk alive
    obtain ⟨sh',found,inst',_,heap,_⟩ := same.symm.back old
    exact ⟨sh',found,inst'.trans inst,heap ▸ node⟩
  handOk has := by
    obtain ⟨sh,old,inst⟩ := inv.handOk has
    obtain ⟨sh',found,inst',_⟩ := same.symm.back old
    exact ⟨sh',found,inst'.trans inst⟩
  callHeap has := by
    obtain ⟨i,I,sh,a,b,c,old,heap⟩ := inv.callHeap has
    obtain ⟨sh',found,_,_,heap',_⟩ := same.symm.back old
    exact ⟨i,I,sh',a,b,c,found,heap'.trans heap⟩
  callInst := inv.callInst
  dyingHeap has := by
    obtain ⟨sh,old,refs⟩ := inv.dyingHeap has
    obtain ⟨sh',found,_,_,_,refs'⟩ := same.symm.back old
    exact ⟨sh',found,refs'.trans refs⟩
  dyingOne := inv.dyingOne
  dead found none := by
    obtain ⟨sh,old,_,_,_,refs⟩ := same.back found
    exact inv.dead old (refs.trans none)
  mapLive found some := by
    obtain ⟨sh,old,inst,_,heap,refs⟩ := same.back found
    rw [← inst,← heap]
    exact inv.mapLive old (refs ▸ some)
  mapHeap found use := by
    obtain ⟨h,sh,old,inst,base,size,live,dead⟩ := inv.mapHeap found use
    obtain ⟨sh',found',inst',_,heap,refs⟩ := same.symm.back old
    rw [← heap] at base size
    rw [← refs] at live
    exact ⟨h,sh',found',inst'.trans inst,base,size,live,dead⟩
  mapOne := inv.mapOne
  mapLarge := inv.mapLarge

end SameHeaps

theorem moveSlots_some {moved : Nat → Slot → Bool} {holder : Holder} {b : Nat} {sl' : Slot} :
    (s.moveSlots moved holder).slots b = some sl' ↔ ∃ sl, s.slots b = some sl ∧
      sl' = if moved b sl then { sl with holder := holder } else sl := by
  simp only [State.moveSlots,Option.map_eq_some_iff]
  exact exists_congr fun sl => and_congr_right fun _ => eq_comm

/-- Moving blocks between holders does not move them in memory. -/
theorem SlotInv.moveSlots {heaps bags} (inv : SlotInv heaps s.slots bags)
    (moved : Nat → Slot → Bool) (holder : Holder) :
    SlotInv heaps (s.moveSlots moved holder).slots bags := by
  have back : ∀ {b sl'}, (s.moveSlots moved holder).slots b = some sl' →
      ∃ sl, s.slots b = some sl ∧ sl.heap = sl'.heap ∧ sl.node = sl'.node ∧
        sl.cls = sl'.cls := by
    intro b sl' h
    obtain ⟨sl,found,rfl⟩ := moveSlots_some.mp h
    refine ⟨sl,found,?_⟩
    split <;> exact ⟨rfl,rfl,rfl⟩
  refine ⟨fun h => ?_,fun h h' ne => ?_,inv.bump,fun {bag b} mem has => ?_,fun h => ?_,inv.bagCls⟩
  · obtain ⟨sl,found,heap,node,cls⟩ := back h
    rw [← heap,← node,← cls]
    exact inv.ok found
  · obtain ⟨sl,found,_,_,cls⟩ := back h
    obtain ⟨sl',found',_,_,cls'⟩ := back h'
    rw [← cls,← cls']
    exact inv.apart found found' ne
  · obtain ⟨hd,found⟩ := inv.bag mem has
    by_cases hit : moved b ⟨bag.heap,bag.node,bag.cls,hd⟩ = true
    · exact ⟨holder,moveSlots_some.mpr ⟨_,found,by rw [if_pos hit]⟩⟩
    · exact ⟨hd,moveSlots_some.mpr ⟨_,found,by rw [if_neg hit]⟩⟩
  · obtain ⟨sl,found,heap,node,cls⟩ := back h
    rw [← heap,← node,← cls]
    exact inv.bagOf found

/-- Blocks that neither leave nor reach the caller do not concern live allocations. -/
theorem LiveInv.moveSlots {live maps insts call} (inv : LiveInv P live s.slots maps insts call)
    {moved : Nat → Slot → Bool} {holder : Holder} (target : holder ≠ .user)
    (source : ∀ {b sl}, s.slots b = some sl → moved b sl = true → sl.holder ≠ .user) :
    LiveInv P live (s.moveSlots moved holder).slots maps insts call :=
  { inv with
    backed := by
      intro a live
      refine (inv.backed live).mono (fun {sl _ _} found user _ _ _ => ?_) (fun found _ _ => found)
        fun {I _} hi hx => ⟨I,hi,hx⟩
      refine moveSlots_some.mpr ⟨sl,found,?_⟩
      rw [if_neg fun hit => source found hit user]
    ofSlot := by
      intro b sl' i I x h user hi hx addr
      obtain ⟨sl,found,rfl⟩ := moveSlots_some.mp h
      by_cases hit : moved b sl = true
      · rw [if_pos hit] at user
        exact absurd user target
      · rw [if_neg hit] at user addr
        exact inv.ofSlot found user hi hx addr }

/-! The view after blocks changed hands. -/

theorem blockOf_moveSlots_other {moved : Nat → Slot → Bool} {holder : Holder} {u : Nat}
    (target : holder ≠ .thread u)
    (source : ∀ {b sl}, s.slots b = some sl → moved b sl = true → sl.holder ≠ .thread u) :
    (s.moveSlots moved holder).blockOf u = s.blockOf u := by
  funext b
  simp only [State.blockOf,State.moveSlots]
  cases found : s.slots b with
  | none => rfl
  | some sl =>
    by_cases hit : moved b sl = true
    · simp [hit,target,source found hit]
    · simp [hit]

/-- Bump offsets only grow, within the region. -/
theorem SlotInv.grow {heaps heaps' : Nat → Option SharedHeap} {slots bags}
    (inv : SlotInv heaps slots bags) (same : SameHeaps heaps heaps')
    (grow : ∀ {h sh sh'}, heaps h = some sh → heaps' h = some sh' → ∀ n < sh.heap.numNodes,
      sh.bump n ≤ sh'.bump n ∧ sh'.bump n ≤ sh.heap.regionSize) : SlotInv heaps' slots bags :=
  { inv with
    ok := by
      intro b sl found
      obtain ⟨sh,old,refs,node,cls,low,high,dvd⟩ := inv.ok found
      obtain ⟨sh',new,_,_,heap,refs'⟩ := same.symm.back old
      have := (grow old new _ node).1
      rw [← refs'] at refs
      rw [← heap] at node low high
      exact ⟨sh',new,refs,node,cls,low,by omega,dvd⟩
    bump := by
      intro h sh' n new node
      obtain ⟨sh,old,_,_,heap,_⟩ := same.back new
      rw [← heap] at node ⊢
      exact (grow old new n node).2 }

/-- The heap of an operation's allocator has a reference left. -/
theorem HeapInv.call_refs {heaps insts nextInst tls hand dying call threads maps}
    (inv : HeapInv heaps insts nextInst tls hand dying call threads maps) {r : HeapRef}
    {sh : SharedHeap} (has : (call t).heap = some r) (found : heaps r.handle.addr = some sh) :
    sh.refs ≠ [] ∧ sh.heap = r.geom := by
  obtain ⟨i,I,sh',_,hi,hx,found',geom⟩ := inv.callHeap has
  obtain rfl := Option.some.inj (found.symm.trans found')
  obtain ⟨inst,_⟩ := inv.instHeap hi hx
  have mem : Ref.inst i ∈ sh.refs := (inv.refInst found).mpr ⟨I,hi,by rw [hx,← inst]⟩
  exact ⟨fun none => by simp [none] at mem,geom⟩

theorem loadHead_kept {k : StackRef} {r : Nat} (inv : Inv P s)
    (run : exec P strict t (.loadHead k) ch s = some (r,s')) :
    Kept P t s s' (step P strict (.loadHead k) (s.view t) r (s'.view t)) := by
  simp only [exec,Option.bind_eq_bind,Option.bind_eq_some_iff,Option.some.injEq,
    Prod.mk.injEq] at run
  obtain ⟨sh,_,_,rfl⟩ := run
  exact ⟨inv,rfl,fun _ _ => rfl⟩

/-- The head word of one stack after a successful exchange. -/
def SharedHeap.setHead (sh : SharedHeap) (n c new : Nat) : SharedHeap :=
  { sh with head := replace sh.head n (replace (sh.head n) c new) }

theorem SharedHeap.setHead_same (sh : SharedHeap) (n c new : Nat) :
    (sh.setHead n c new).head n c = new := by simp [setHead]

theorem SharedHeap.setHead_other {sh : SharedHeap} {n c n' c' : Nat} (new : Nat)
    (ne : ¬(n' = n ∧ c' = c)) : (sh.setHead n c new).head n' c' = sh.head n' c' := by
  by_cases node : n' = n
  · subst node
    have cls : c' ≠ c := fun eq => ne ⟨rfl,eq⟩
    simp [setHead,replace_other cls]
  · simp [setHead,replace_other node]

/-- A head word changed together with the blocks of its stack. -/
theorem Inv.exchange (inv : Inv P s) {k : StackRef} {sh : SharedHeap} {new : Nat}
    {moved : Nat → Slot → Bool} {holder : Holder} (found : s.heaps k.heap = some sh)
    (target : holder ≠ .user)
    (source : ∀ {b sl}, s.slots b = some sl → moved b sl = true → sl.holder ≠ .user)
    (others : ∀ {b sl} k', s.slots b = some sl → moved b sl = true → k' ≠ k →
      sl.holder ≠ .stack k' ∧ holder ≠ .stack k')
    (ref : ∀ {b sl k'}, s.slots b = some sl → moved b sl = true → holder = .stack k' → sl.ref = k')
    (chain : sh.refs ≠ [] → k.node < sh.heap.numNodes → k.cls < numSizeClasses →
      ∃ l, Links s.lastLink (TreiberStack.unpack new).1 l none ∧ l.Nodup ∧
      ∀ b, b ∈ l ↔ ∃ sl, (s.moveSlots moved holder).slots b = some sl ∧ sl.holder = .stack k) :
    Inv P ((s.setHeap k.heap (sh.setHead k.node k.cls new)).moveSlots moved holder) := by
  have same : SameHeaps s.heaps (replace s.heaps k.heap (some (sh.setHead k.node k.cls new))) :=
    .replace found rfl
  have slots : SlotInv (replace s.heaps k.heap (some (sh.setHead k.node k.cls new))) s.slots
      s.bags := by
    refine inv.slots.grow same fun {h sh₀ sh'} old new n node => ?_
    by_cases eq : h = k.heap
    · subst eq
      rw [replace_same,Option.some.injEq] at new
      obtain rfl := Option.some.inj (found.symm.trans old)
      subst new
      have := inv.slots.bump old node
      exact ⟨le_rfl,this⟩
    · rw [replace_other eq,old,Option.some.injEq] at new
      subst new
      exact ⟨le_rfl,inv.slots.bump old node⟩
  refine ⟨inv.maps,same.heapInv inv.heaps,slots.moveSlots moved holder,⟨?_,?_⟩,inv.mem,
    inv.live.moveSlots target source⟩
  · intro h sh' n c heap refs node cls
    by_cases eq : h = k.heap ∧ n = k.node ∧ c = k.cls
    · obtain ⟨rfl,rfl,rfl⟩ := eq
      obtain rfl : sh.setHead k.node k.cls new = sh' := by
        simpa [State.moveSlots,State.setHeap] using heap
      rw [SharedHeap.setHead_same]
      exact chain refs node cls
    · have ne : (⟨h,n,c⟩ : StackRef) ≠ k := fun same => eq (by subst same; simp)
      have old : ∃ sh₀, s.heaps h = some sh₀ ∧ sh₀.refs ≠ [] ∧ n < sh₀.heap.numNodes ∧
          sh'.head n c = sh₀.head n c := by
        by_cases at_ : h = k.heap
        · subst at_
          obtain rfl : sh.setHead k.node k.cls new = sh' := by
            simpa [State.moveSlots,State.setHeap] using heap
          exact ⟨sh,found,refs,node,SharedHeap.setHead_other new fun h => eq ⟨rfl,h⟩⟩
        · have heap' : s.heaps h = some sh' := by
            simpa [State.moveSlots,State.setHeap,replace_other at_] using heap
          exact ⟨sh',heap',refs,node,rfl⟩
      obtain ⟨sh₀,found₀,refs₀,node₀,head⟩ := old
      obtain ⟨l,links,nodup,mem⟩ := inv.nodes.chain found₀ refs₀ node₀ cls
      rw [head]
      refine ⟨l,links,nodup,fun b => (mem b).trans ?_⟩
      constructor
      · rintro ⟨sl,at_,on⟩
        refine ⟨sl,moveSlots_some.mpr ⟨sl,at_,?_⟩,on⟩
        rw [if_neg fun hit => (others _ at_ hit ne).1 on]
      · rintro ⟨sl',at_,on⟩
        obtain ⟨sl,old,rfl⟩ := moveSlots_some.mp at_
        by_cases hit : moved b sl = true
        · rw [if_pos hit] at on
          exact absurd on (others _ old hit ne).2
        · rw [if_neg hit] at on
          exact ⟨sl,old,on⟩
  · intro b sl' k' at_ on
    obtain ⟨sl,old,rfl⟩ := moveSlots_some.mp at_
    by_cases hit : moved b sl = true
    · rw [if_pos hit] at on ⊢
      exact @ref b sl k' old hit on
    · rw [if_neg hit] at on ⊢
      exact inv.nodes.ref old on

/-- The blocks a push moves are exactly the chain it was given. -/
theorem Inv.chained_eq (inv : Inv P s) {k : StackRef} {sh : SharedHeap} {first : Nat}
    {l : List Nat} (found : s.heaps k.heap = some sh)
    (chain : (s.view t).Chain k first l (TreiberStack.unpack (sh.head k.node k.cls)).1) :
    s.chained t first = l ∧ Links s.lastLink (some first) l
      (TreiberStack.unpack (sh.head k.node k.cls)).1 ∧
      (∀ b ∈ l, ∃ sl, s.slots b = some sl ∧ sl.holder = .thread t ∧ sl.ref = k) ∧
      sh.refs ≠ [] ∧ k.node < sh.heap.numNodes ∧ k.cls < numSizeClasses := by
  have held : ∀ b ∈ l, ∃ sl, s.slots b = some sl ∧ sl.holder = .thread t ∧ sl.ref = k := by
    intro b mem
    obtain ⟨B,block,ref⟩ := Option.map_eq_some_iff.mp (chain.ref b mem)
    obtain ⟨sl,found,holder,rfl⟩ := view_block block
    exact ⟨sl,found,holder,ref⟩
  have links : Links s.lastLink (some first) l (TreiberStack.unpack (sh.head k.node k.cls)).1 := by
    refine (links_congr fun b mem => ?_).mp chain.links
    obtain ⟨sl,found,holder,_⟩ := held b mem
    simp [View.link,view_block_some found holder]
  obtain ⟨b,inside⟩ := List.exists_mem_of_ne_nil l chain.nonempty
  obtain ⟨sl,at_,_,rfl⟩ := held b inside
  obtain ⟨sh',found',refs,node,cls,_⟩ := inv.slots.ok at_
  obtain rfl := Option.some.inj (found.symm.trans found')
  refine ⟨?_,links,held,refs,node,cls⟩
  obtain ⟨m,stack,_,mem⟩ := inv.nodes.chain found refs node cls
  refine walk_eq links (fun b mem => ?_) (fun b head => ?_) _
    (inv.nodup_length chain.nodup fun b mem => (held b mem).imp fun _ h => h.1)
  · obtain ⟨sl',at',holder,_⟩ := held b mem
    simp [State.heldBy,at',holder]
  · -- the chain ends where the stack begins, and stacked blocks are nobody's
    have first := stack.head
    have top : b ∈ m := List.mem_of_head? (first.symm.trans head)
    obtain ⟨sl',at',on⟩ := (mem b).mp top
    simp [State.heldBy,at',on]

theorem casHead_push {k : StackRef} {sh : SharedHeap} {first new : Nat} {l : List Nat}
    (inv : Inv P s) (found : s.heaps k.heap = some sh)
    (head : (TreiberStack.unpack new).1 = some first)
    (chain : (s.view t).Chain k first l (TreiberStack.unpack (sh.head k.node k.cls)).1) :
    Inv P ((s.setHeap k.heap (sh.setHead k.node k.cls new)).moveSlots (fun b _ => b ∈ l)
      (.stack k)) := by
  obtain ⟨_,links,held,_⟩ := inv.chained_eq found chain
  have mine : ∀ {b sl}, s.slots b = some sl → decide (b ∈ l) = true →
      sl.holder = .thread t ∧ sl.ref = k := by
    intro b sl at_ mem
    obtain ⟨sl',at',holder,ref⟩ := held b (of_decide_eq_true mem)
    obtain rfl := Option.some.inj (at_.symm.trans at')
    exact ⟨holder,ref⟩
  refine inv.exchange found (by simp) (fun at_ mem => ?_) (fun k' at_ mem ne => ?_)
    (fun at_ mem on => ?_) fun refs node cls => ?_
  · simp [(mine at_ mem).1]
  · simp [(mine at_ mem).1,ne.symm]
  · obtain rfl := Holder.stack.inj on
    exact (mine at_ mem).2
  · obtain ⟨m,stack,nodup,mem⟩ := inv.nodes.chain found refs node cls
    rw [head]
    refine ⟨l ++ m,links_append.mpr ⟨_,links,stack⟩,?_,fun b => ?_⟩
    · refine List.nodup_append'.mpr ⟨chain.nodup,nodup,fun b hl hm => ?_⟩
      obtain ⟨sl,at_,on⟩ := (mem b).mp hm
      simp [(mine at_ (decide_eq_true hl)).1] at on
    · rw [List.mem_append,mem b]
      constructor
      · rintro (hl | ⟨sl,at_,on⟩)
        · obtain ⟨sl,at_,_⟩ := held b hl
          exact ⟨_,moveSlots_some.mpr ⟨sl,at_,rfl⟩,by simp [hl]⟩
        · refine ⟨sl,moveSlots_some.mpr ⟨sl,at_,?_⟩,on⟩
          rw [if_neg fun hl => by simp [(mine at_ hl).1] at on]
      · rintro ⟨sl',at',on⟩
        obtain ⟨sl,at_,rfl⟩ := moveSlots_some.mp at'
        by_cases hl : b ∈ l
        · exact Or.inl hl
        · rw [if_neg (by simpa using hl)] at on
          exact Or.inr ⟨sl,at_,on⟩

theorem casHead_take {k : StackRef} {sh : SharedHeap} {new : Nat} (inv : Inv P s)
    (found : s.heaps k.heap = some sh) (head : (TreiberStack.unpack new).1 = none) :
    Inv P ((s.setHeap k.heap (sh.setHead k.node k.cls new)).moveSlots
      (fun _ sl => sl.holder = .stack k) (.thread t)) := by
  refine inv.exchange found (by simp) (fun at_ on => ?_) (fun k' at_ on ne => ?_)
    (fun at_ on eq => by simp at eq) fun refs node cls => ?_
  · simp [of_decide_eq_true on]
  · simp [of_decide_eq_true on,ne.symm]
  · refine ⟨[],head,List.nodup_nil,fun b => ?_⟩
    simp only [List.not_mem_nil,false_iff,not_exists,not_and]
    intro sl' at' on
    obtain ⟨sl,at_,rfl⟩ := moveSlots_some.mp at'
    split at on
    case isTrue => simp at on
    case isFalse other => exact other (decide_eq_true on)

theorem pushed_view {k : StackRef} {l : List Nat} (sh : SharedHeap) (heap : Nat)
    (mine : ∀ b ∈ l, ∃ sl, s.slots b = some sl ∧ sl.holder = .thread t ∧ sl.ref = k) (u : Nat) :
    ((s.setHeap heap sh).moveSlots (fun b _ => b ∈ l) (.stack k)).view u =
      if u = t then (s.view t).without l else s.view u := by
  by_cases same : u = t
  · subst same
    rw [if_pos rfl]
    have blocks : ((s.setHeap heap sh).moveSlots (fun b _ => b ∈ l) (.stack k)).blockOf u =
        ((s.view u).without l).blocks := by
      funext b
      by_cases mem : b ∈ l
      · obtain ⟨sl,at_,_⟩ := mine b mem
        simp [State.blockOf,State.moveSlots,State.setHeap,without,mem,at_]
      · simp only [State.blockOf,State.moveSlots,State.setHeap,without,mem,State.view,if_false]
        cases s.slots b <;> rfl
    exact view_is rfl rfl rfl rfl rfl blocks rfl
  · rw [if_neg same]
    refine view_eq rfl rfl rfl rfl rfl ?_ rfl
    refine blockOf_moveSlots_other (s := s.setHeap heap sh) (by simp) fun {b sl} at_ mem => ?_
    obtain ⟨sl',at',holder,_⟩ := mine b (of_decide_eq_true mem)
    obtain rfl := Option.some.inj ((show s.slots b = some sl from at_).symm.trans at')
    simpa [holder] using Ne.symm same

theorem taken_view {k : StackRef} {sh sh' : SharedHeap} {l : List Nat} (inv : Inv P s)
    (links : Links s.lastLink (TreiberStack.unpack (sh.head k.node k.cls)).1 l none)
    (nodup : l.Nodup)
    (mem : ∀ b, b ∈ l ↔ ∃ sl, s.slots b = some sl ∧ sl.holder = .stack k) (heap : Nat) :
    (s.view t).Gained
      (((s.setHeap heap sh').moveSlots (fun _ sl => sl.holder = .stack k) (.thread t)).view t) k
      (TreiberStack.unpack (sh.head k.node k.cls)).1 l := by
  have gained : ∀ b ∈ l, ∃ sl, s.slots b = some sl ∧ sl.holder = .stack k ∧
      ((s.setHeap heap sh').moveSlots (fun _ sl => sl.holder = .stack k) (.thread t)).blockOf t b =
        some ⟨k,s.lastLink b⟩ := by
    intro b inside
    obtain ⟨sl,at_,on⟩ := (mem b).mp inside
    refine ⟨sl,at_,on,?_⟩
    have ref := inv.nodes.ref at_ on
    simp only [Slot.ref] at ref
    simp [State.blockOf,State.moveSlots,State.setHeap,at_,on,Slot.ref,ref]
  refine ⟨?_,nodup,fun b inside => ?_,fun b inside => ?_,fun b inside => ?_,rfl,fun b out => ?_⟩
  · refine (links_congr fun b inside => ?_).mp links
    obtain ⟨sl,_,_,block⟩ := gained b inside
    simp [View.link,State.view,block]
  · obtain ⟨sl,at_,on,_⟩ := gained b inside
    simp [State.view,State.blockOf,at_,on]
  · obtain ⟨sl,_,_,block⟩ := gained b inside
    simp [View.ref,State.view,block]
  · obtain ⟨sl,at_,_⟩ := gained b inside
    exact inv.slot_user_addr at_
  · simp only [State.view,State.blockOf,State.moveSlots,State.setHeap]
    cases at_ : s.slots b with
    | none => rfl
    | some sl =>
      have off : sl.holder ≠ .stack k := fun on => out ((mem b).mpr ⟨sl,at_,on⟩)
      simp [off]

/-- Exchanging the head word moves a whole chain between its thread and the stack. -/
theorem casHead_kept {k : StackRef} {current new : Nat} {r : Bool} (inv : Inv P s)
    (safe : safe P strict (.casHead k current new) (s.view t))
    (run : exec P strict t (.casHead k current new) ch s = some (r,s')) :
    Kept P t s s' (step P strict (.casHead k current new) (s.view t) r (s'.view t)) := by
  have failed : r = false → s' = s →
      Kept P t s s' (step P strict (.casHead k current new) (s.view t) r (s'.view t)) := by
    rintro rfl rfl
    exact ⟨inv,by simp [step],fun _ _ => rfl⟩
  simp only [exec,Option.bind_eq_bind,Option.bind_eq_some_iff] at run
  obtain ⟨sh,found,run⟩ := run
  split at run
  case h_1 =>
    obtain ⟨rfl,rfl⟩ := Prod.mk.inj (Option.some.inj run)
    exact failed rfl rfl
  case h_2 =>
  split at run
  case isFalse =>
    obtain ⟨rfl,rfl⟩ := Prod.mk.inj (Option.some.inj run)
    exact failed rfl rfl
  case isTrue current_eq =>
  subst current_eq
  obtain ⟨_,enough⟩ := safe
  cases head : (TreiberStack.unpack new).1 with
  | none =>
    simp only [head] at enough run
    obtain ⟨rfl,rfl⟩ := Prod.mk.inj (Option.some.inj run)
    obtain ⟨ref,has,addr,node,cls⟩ := enough
    rw [← addr] at found
    obtain ⟨refs,geom⟩ := inv.heaps.call_refs has found
    rw [addr] at found
    obtain ⟨l,links,nodup,mem⟩ := inv.nodes.chain found refs (geom ▸ node) cls
    refine ⟨casHead_take inv found head,?_,fun u ne => ?_⟩
    · simp only [step,head,if_true]
      exact ⟨l,taken_view inv links nodup mem k.heap⟩
    · refine view_eq rfl rfl rfl rfl rfl ?_ rfl
      refine blockOf_moveSlots_other (s := s.setHeap _ _) (by simpa using ne.symm) fun at_ on => ?_
      simp [of_decide_eq_true on]
  | some first =>
    simp only [head] at enough run
    obtain ⟨rfl,rfl⟩ := Prod.mk.inj (Option.some.inj run)
    obtain ⟨l,chain⟩ := enough
    obtain ⟨eq,_,mine,_⟩ := inv.chained_eq found chain
    have view := pushed_view (sh.setHead k.node k.cls new) k.heap mine
    rw [eq]
    refine ⟨casHead_push inv found head chain,?_,fun u ne => ?_⟩
    · simp only [step,head,if_true]
      intro m chain'
      rw [← (inv.chained_eq found chain').1,eq]
      exact (view t).trans (if_pos rfl)
    · exact (view u).trans (if_neg ne)

/-! Carving a bag off the unused end of a region. -/

/-- No block reaches into the unused end of a region. -/
theorem Inv.slot_apart_tail (inv : Inv P s) {h n b : Nat} {sh : SharedHeap} {sl : Slot}
    (found : s.heaps h = some sh) (refs : sh.refs ≠ []) (node : n < sh.heap.numNodes)
    (at_ : s.slots b = some sl) :
    Apart b (sizeForClass sl.cls) (sh.heap.base + n * sh.heap.regionSize + sh.bump n)
      (sh.heap.regionSize - sh.bump n) := by
  have bump := inv.slots.bump found node
  by_cases same : sl.heap = h
  · obtain ⟨sh',found',_,node',_,low,high,_⟩ := inv.slots.ok at_
    rw [same] at found'
    obtain rfl := Option.some.inj (found.symm.trans found')
    rw [(inv.heaps.geom found).node _ node'] at low high
    by_cases here : sl.node = n
    · subst here
      exact Or.inl high
    · have bump' := inv.slots.bump found node'
      simp only at low high
      exact Apart.mono (GlobalHeap.nodes_apart sh.heap here) low (by omega) (by omega) (by omega)
  · obtain ⟨sh',found',refs',node',_,low,high⟩ := inv.slot_region at_
    obtain ⟨id,m,hm,use,_,base,size⟩ := inv.heaps.mapLive found refs
    obtain ⟨id',m',hm',use',_,base',size'⟩ := inv.heaps.mapLive found' refs'
    have other : id' ≠ id := by
      rintro rfl
      obtain rfl := Option.some.inj (hm.symm.trans hm')
      exact same (inv.heaps.one found' found (by simpa [use] using use'.symm))
    have valid := inv.heaps.geom found
    have valid' := inv.heaps.geom found'
    have := valid.node_upper node
    have := valid'.node_upper node'
    have := valid.lower
    have := valid.upper
    have := valid'.lower
    have := valid'.upper
    exact Apart.mono (inv.maps.apart hm' hm other) (by omega) (by omega) (by omega) (by omega)

/-- The bag a successful exchange of the bump offset carves. -/
structure Carved (sh : SharedHeap) (n new : Nat) (bag : Bag) : Prop where
  node : n < sh.heap.numNodes
  cls : bag.cls < numSizeClasses
  low : sh.heap.base + n * sh.heap.regionSize + sh.bump n ≤ bag.addr
  high : bag.addr + bagSizeForClass bag.cls = sh.heap.base + n * sh.heap.regionSize + new
  fits : new ≤ sh.heap.regionSize
  dvd : sizeForClass bag.cls ∣ bag.addr

theorem Carved.of_nextBag {sh : SharedHeap} {n cls new aligned : Nat} (heap : Nat) (valid : sh.heap.Valid)
    (node : n < sh.heap.numNodes) (small : cls < numSizeClasses)
    (bag : (sh.heap.nodeRegion n).nextBag (bagSizeForClass cls) (sh.bump n) = some (aligned,new)) :
    Carved sh n new ⟨heap,n,cls,(sh.heap.nodeRegion n).base + (new - bagSizeForClass cls)⟩ := by
  have eq := bagSizeForClass_eq small
  have le : max 15 (cls + 3) ≤ 64 := by unfold numSizeClasses at small; omega
  rw [eq] at bag
  obtain ⟨above,rfl,fits,dvd⟩ := NodeRegion.nextBag_spec le bag
  rw [← eq] at dvd fits ⊢
  rw [valid.node _ node] at fits dvd ⊢
  simp only [Nat.add_sub_cancel] at fits dvd ⊢
  exact ⟨node,small,by simp only; omega,by simp only; omega,fits,
    (sizeForClass_dvd_bag small).trans dvd⟩

section Carving

variable {sh : SharedHeap} {n new b : Nat} {bag : Bag}

theorem Carved.slot (carved : Carved sh n new bag) (has : bag.HasSlot b) :
    sh.heap.base + n * sh.heap.regionSize + sh.bump n ≤ b ∧
      b + sizeForClass bag.cls ≤ sh.heap.base + n * sh.heap.regionSize + new ∧
      sizeForClass bag.cls ∣ b := by
  have high := carved.high
  have low := carved.low
  obtain ⟨i,hi,rfl⟩ := List.mem_map.mp ((Bag.mem_objects carved.cls).mpr has)
  have step := Nat.mul_le_mul_right (sizeForClass bag.cls)
    (Nat.succ_le_of_lt (List.mem_range.mp hi))
  rw [Nat.succ_mul,objectsPerBag_mul carved.cls] at step
  exact ⟨by omega,by omega,(Nat.dvd_add_right carved.dvd).mpr (Nat.dvd_mul_left _ _)⟩

theorem Carved.apart (carved : Carved sh n new bag) {b' : Nat} (has : bag.HasSlot b)
    (has' : bag.HasSlot b') (ne : b ≠ b') :
    Apart b (sizeForClass bag.cls) b' (sizeForClass bag.cls) := by
  obtain ⟨i,_,rfl⟩ := List.mem_map.mp ((Bag.mem_objects carved.cls).mpr has)
  obtain ⟨j,_,rfl⟩ := List.mem_map.mp ((Bag.mem_objects carved.cls).mpr has')
  rcases Nat.lt_or_gt_of_ne (fun eq : i = j => ne (by rw [eq])) with lt | gt
  · have := Nat.mul_le_mul_right (sizeForClass bag.cls) (Nat.succ_le_of_lt lt)
    rw [Nat.succ_mul] at this
    exact Or.inl (by omega)
  · have := Nat.mul_le_mul_right (sizeForClass bag.cls) (Nat.succ_le_of_lt gt)
    rw [Nat.succ_mul] at this
    exact Or.inr (by omega)

theorem Inv.carved_fresh (inv : Inv P s) (carved : Carved sh n new bag)
    (found : s.heaps bag.heap = some sh) (refs : sh.refs ≠ []) (has : bag.HasSlot b) :
    s.slots b = none := by
  cases at_ : s.slots b with
  | none => rfl
  | some sl =>
    have apart := inv.slot_apart_tail found refs carved.node at_
    obtain ⟨low,high,_⟩ := carved.slot has
    have := carved.fits
    have := sizeForClass_pos carved.cls
    have := inv.slot_eight at_
    unfold Apart at apart
    omega

/-- The state after a bag was carved. -/
def State.carve (s : State) (t n new : Nat) (bag : Bag) (sh : SharedHeap) : State :=
  { s.setHeap bag.heap { sh with bump := replace sh.bump n new } with
    bags := bag :: s.bags
    slots := fun b => if bag.HasSlot b then some ⟨bag.heap,bag.node,bag.cls,.thread t⟩
      else s.slots b }

theorem Inv.carve_slot (inv : Inv P s) (carved : Carved sh n new bag)
    (found : s.heaps bag.heap = some sh) (refs : sh.refs ≠ []) (t : Nat) {sl : Slot} :
    (s.carve t n new bag sh).slots b = some sl ↔
      (bag.HasSlot b ∧ sl = ⟨bag.heap,bag.node,bag.cls,.thread t⟩) ∨ s.slots b = some sl := by
  by_cases has : bag.HasSlot b
  · have none := inv.carved_fresh carved found refs has
    simp [State.carve,has,none,eq_comm]
  · simp [State.carve,has]

theorem Inv.carve (inv : Inv P s) (carved : Carved sh n new bag) (atNode : bag.node = n)
    (found : s.heaps bag.heap = some sh) (refs : sh.refs ≠ []) :
    Inv P (s.carve t n new bag sh) := by
  have same : SameHeaps s.heaps
      (replace s.heaps bag.heap (some { sh with bump := replace sh.bump n new })) :=
    .replace found rfl
  have slot {b sl} : (s.carve t n new _ sh).slots b = some sl ↔ _ :=
    inv.carve_slot carved found refs t
  have low := carved.low
  have high := carved.high
  have fits := carved.fits
  have old := inv.slots.grow same fun {h sh₀ sh'} heap heap' n' node => by
    by_cases eq : h = bag.heap
    · subst eq
      rw [replace_same,Option.some.injEq] at heap'
      obtain rfl := Option.some.inj (found.symm.trans heap)
      subst heap'
      by_cases here : n' = n
      · subst here
        simp only [replace_same]
        exact ⟨by omega,fits⟩
      · simp only [replace_other here]
        exact ⟨le_rfl,inv.slots.bump heap node⟩
    · rw [replace_other eq,heap,Option.some.injEq] at heap'
      subst heap'
      exact ⟨le_rfl,inv.slots.bump heap node⟩
  have grown : (s.carve t n new bag sh).heaps bag.heap =
      some { sh with bump := replace sh.bump n new } := by simp [State.carve,State.setHeap]
  refine ⟨inv.maps,same.heapInv inv.heaps,⟨?_,?_,old.bump,?_,?_,?_⟩,⟨?_,?_⟩,inv.mem,?_⟩
  · intro b sl at_
    rcases slot.mp at_ with ⟨has,rfl⟩ | before
    · obtain ⟨lo,hi,dvd⟩ := carved.slot has
      refine ⟨_,grown,refs,atNode ▸ carved.node,carved.cls,?_⟩
      rw [atNode,(inv.heaps.geom found).node _ carved.node]
      exact ⟨by simp only; omega,by simpa using hi,dvd⟩
    · exact old.ok before
  · intro b b' sl sl' at_ at' ne
    rcases slot.mp at_ with ⟨has,rfl⟩ | before <;> rcases slot.mp at' with ⟨has',rfl⟩ | before'
    · exact carved.apart has has' ne
    · obtain ⟨lo,hi,_⟩ := carved.slot has
      exact (Apart.mono (inv.slot_apart_tail found refs carved.node before') le_rfl le_rfl lo
        (by simp only; omega)).symm
    · obtain ⟨lo,hi,_⟩ := carved.slot has'
      exact Apart.mono (inv.slot_apart_tail found refs carved.node before) le_rfl le_rfl lo
        (by simp only; omega)
    · exact inv.slots.apart before before' ne
  · intro bag' b mem has
    rcases List.mem_cons.mp mem with rfl | before
    · exact ⟨_,slot.mpr (Or.inl ⟨has,rfl⟩)⟩
    · obtain ⟨hd,at_⟩ := inv.slots.bag before has
      exact ⟨hd,slot.mpr (Or.inr at_)⟩
  · intro b sl at_
    rcases slot.mp at_ with ⟨has,rfl⟩ | before
    · exact ⟨bag,List.mem_cons_self,has,rfl,rfl,rfl⟩
    · obtain ⟨bag',mem,rest⟩ := inv.slots.bagOf before
      exact ⟨bag',List.mem_cons_of_mem _ mem,rest⟩
  · intro bag' mem
    rcases List.mem_cons.mp mem with rfl | before
    · exact carved.cls
    · exact inv.slots.bagCls before
  · intro h sh' n' c heap refs' node cls
    obtain ⟨sh₀,heap₀,_,_,geom,eq⟩ := same.back heap
    have head : sh'.head = sh₀.head := by
      by_cases at_ : h = bag.heap
      · subst at_
        obtain rfl := Option.some.inj (found.symm.trans heap₀)
        rw [grown,Option.some.injEq] at heap
        subst heap
        rfl
      · rw [State.carve,State.setHeap] at heap
        simp only [replace_other at_,heap₀,Option.some.injEq] at heap
        rw [heap]
    obtain ⟨l,links,nodup,mem⟩ := inv.nodes.chain heap₀ (eq ▸ refs') (geom ▸ node) cls
    rw [head]
    refine ⟨l,links,nodup,fun b => (mem b).trans ?_⟩
    constructor
    · rintro ⟨sl,at_,on⟩
      exact ⟨sl,slot.mpr (Or.inr at_),on⟩
    · rintro ⟨sl,at_,on⟩
      rcases slot.mp at_ with ⟨_,rfl⟩ | before
      · simp at on
      · exact ⟨sl,before,on⟩
  · intro b sl k at_ on
    rcases slot.mp at_ with ⟨_,rfl⟩ | before
    · simp at on
    · exact inv.nodes.ref before on
  · refine { inv.live with backed := fun {a} live => ?_, ofSlot := fun at_ user => ?_ }
    · exact (inv.live.backed live).mono (fun before _ _ _ _ => slot.mpr (Or.inr before))
        (fun found _ _ => found) fun {I _} hi hx => ⟨I,hi,hx⟩
    · rcases slot.mp at_ with ⟨_,rfl⟩ | before
      · simp at user
      · exact inv.live.ofSlot before user

end Carving

theorem loadBump_kept {h n r : Nat} (inv : Inv P s)
    (run : exec P strict t (.loadBump h n) ch s = some (r,s')) :
    Kept P t s s' (step P strict (.loadBump h n) (s.view t) r (s'.view t)) := by
  simp only [exec,Option.bind_eq_bind,Option.bind_eq_some_iff,Option.some.injEq,
    Prod.mk.injEq] at run
  obtain ⟨sh,_,_,rfl⟩ := run
  exact ⟨inv,rfl,fun _ _ => rfl⟩

theorem casBump_kept {h n c current new : Nat} {r : Bool} (inv : Inv P s)
    (safe : safe P strict (.casBump h n c current new) (s.view t))
    (run : exec P strict t (.casBump h n c current new) ch s = some (r,s')) :
    Kept P t s s' (step P strict (.casBump h n c current new) (s.view t) r (s'.view t)) := by
  have failed : r = false → s' = s →
      Kept P t s s' (step P strict (.casBump h n c current new) (s.view t) r (s'.view t)) := by
    rintro rfl rfl
    exact ⟨inv,by simp [step],fun _ _ => rfl⟩
  simp only [exec,Option.bind_eq_bind,Option.bind_eq_some_iff] at run
  obtain ⟨sh,found,run⟩ := run
  split at run
  case h_1 =>
    obtain ⟨rfl,rfl⟩ := Prod.mk.inj (Option.some.inj run)
    exact failed rfl rfl
  case h_2 =>
  split at run
  case isFalse =>
    obtain ⟨rfl,rfl⟩ := Prod.mk.inj (Option.some.inj run)
    exact failed rfl rfl
  case isTrue current_eq =>
  subst current_eq
  obtain ⟨rfl,rfl⟩ := Prod.mk.inj (Option.some.inj run)
  obtain ⟨ref,aligned,has,rfl,node,cls,fits⟩ := safe
  obtain ⟨refs,geom⟩ := inv.heaps.call_refs has found
  rw [← geom] at node fits
  have valid := inv.heaps.geom found
  have carved := Carved.of_nextBag ref.handle.addr valid node cls fits
  have slot {b sl} : (s.carve t n new _ sh).slots b = some sl ↔ _ :=
    inv.carve_slot carved found refs t
  have fresh {b} := inv.carved_fresh (b := b) carved found refs
  have carvedInv : Inv P (s.carve t n new _ sh) := inv.carve carved rfl found refs
  refine ⟨carvedInv,?_,fun u ne => ?_⟩
  · simp only [step,if_true]
    refine ⟨ref,(sh.heap.nodeRegion n).base + (new - bagSizeForClass c),_,has,by rw [geom],rfl,fun b inside => ?_,fun b outside => ?_⟩
    · have at_ := slot.mpr (Or.inl ⟨inside,rfl⟩)
      refine ⟨by simp [State.view,State.blockOf,fresh inside],carvedInv.slot_user_addr at_,?_⟩
      simp [State.blockOf,inside,Slot.ref]
    · simp [State.view,State.blockOf,outside,State.setHeap]
  · refine view_eq rfl rfl rfl rfl rfl ?_ rfl
    funext b
    by_cases inside : (⟨ref.handle.addr,n,c,(sh.heap.nodeRegion n).base +
        (new - bagSizeForClass c)⟩ : Bag).HasSlot b
    · simp [State.blockOf,inside,fresh inside,ne.symm]
    · simp [State.blockOf,inside,State.setHeap]

end Numalloc
