import Numalloc.Sound.Callers

/-! What callers start: operations, and the end of an allocator's life. -/
namespace Numalloc

open Concurrent View

variable {P : Platform} {s s' : State} {t inst : Nat}

/-- What a thread between operations sees after a caller asked it to run a request. -/
def Started (v v' : View) : Request → Prop
  | .alloc inst _ | .allocZeroed inst _ => ∃ known, v' = { v with call := ⟨some inst,known⟩ }
  | .dealloc inst ptr layout | .realloc inst ptr layout _ => ∃ known a, a.ptr = ptr ∧
      a.layout = layout ∧ a.inst = inst ∧
      v' = { v with call := ⟨some inst,known⟩, pin := some a }
  | .exit => v' = v
  | .drop inst => v' = v ∨ ∃ h, h.inst = inst ∧ v' = { v with hand := some h }

theorem Layout.eq_of {l l' : Layout} (size : l.size = l'.size) (align : l.align = l'.align) :
    l = l' := by
  cases l
  cases l'
  simp only at size align
  subst size align
  rfl

/-- An operation begins on an allocator that exists. -/
theorem Inv.enter (inv : Inv P s) (free : s.pinned t = none)
    (run : s.enter t inst = some s') :
    Inv P s' ∧ (∃ known, s'.view t = { s.view t with call := ⟨some inst,known⟩ }) ∧
      (∀ u, u ≠ t → s'.view u = s.view u) ∧ s'.live = s.live ∧ s'.slots = s.slots ∧
      s'.maps = s.maps ∧ s'.insts = s.insts ∧ (s'.call t).inst = some inst ∧
      (∀ I x, s.insts inst = some I → I.heap = some x → ∃ r, (s'.call t).heap = some r) := by
  simp only [State.enter,Option.bind_eq_bind,Option.bind_eq_some_iff,Option.some.injEq] at run
  obtain ⟨I,hi,rfl⟩ := run
  refine ⟨{ inv with heaps := { inv.heaps with callHeap := fun {u r} has => ?_, callInst := fun {u i} has => ?_ }, live := { inv.live with pin := fun {a u} live pin => ?_ } },
    ⟨_,view_is rfl replace_same rfl rfl rfl rfl rfl⟩,
    fun u ne => view_eq rfl (replace_other ne) rfl rfl rfl rfl rfl,rfl,rfl,rfl,rfl,by simp,
    fun J x hj hx => ?_⟩
  · by_cases same : u = t
    · subst same
      simp only [replace_same,Option.bind_eq_some_iff,Option.map_eq_some_iff] at has
      obtain ⟨x,hx,sh,found,rfl⟩ := has
      exact ⟨inst,I,sh,by simp,hi,hx,found,rfl⟩
    · simp only [replace_other same] at has ⊢
      exact inv.heaps.callHeap has
  · by_cases same : u = t
    · subst same
      obtain rfl : inst = i := by simpa using has
      exact ⟨⟨I,hi⟩,List.mem_cons_self⟩
    · simp only [replace_other same] at has
      obtain ⟨known,mem⟩ := inv.heaps.callInst has
      exact ⟨known,List.mem_cons_of_mem _ mem⟩
  · have ne : u ≠ t := by
      rintro rfl
      exact pinned_none free a live pin
    simp only [replace_other ne]
    exact inv.live.pin live pin
  · obtain rfl := Option.some.inj (hi.symm.trans hj)
    obtain ⟨_,sh,found,_⟩ := inv.heaps.instHeap hi hx
    exact ⟨⟨x,sh.heap⟩,by simp [hx,found]⟩

/-- Live allocations start at different addresses. -/
theorem Inv.live_ptr (inv : Inv P s) {a b : Alloc} (ha : a ∈ s.live) (hb : b ∈ s.live)
    (ptr : a.ptr = b.ptr) : a = b := by
  by_contra ne
  have keys := inv.live.keys ha hb ne
  have backed := inv.live.backed ha
  have backed' := inv.live.backed hb
  have mixed : ∀ {p id sl m}, s.slots p = some sl → s.maps id = some m → m.holder = .user →
      Placed P m p b.layout ∨ Placed P m p a.layout → False := by
    intro p id sl m found at_ user placed
    have apart := inv.slot_apart_map found at_ (by simp [user])
    have := inv.slot_eight found
    have header : m.base + headerSize ≤ p := placed.elim Placed.header Placed.header
    have inside : p < m.base + m.size := placed.elim Placed.inside Placed.inside
    unfold Apart at apart
    omega
  cases kind : a.source with
  | stray => simp only [Backed,kind] at backed
  | slot =>
    simp only [Backed,kind] at backed
    obtain ⟨sl,_,_,found,_⟩ := backed
    cases kind' : b.source with
    | stray => simp only [Backed,kind'] at backed'
    | slot => exact keys (by simp [Alloc.key,kind,kind',ptr])
    | mapping id =>
      simp only [Backed,kind'] at backed'
      obtain ⟨m,at_,user,_,_,placed⟩ := backed'
      exact mixed found at_ user (Or.inl (ptr ▸ placed))
  | mapping id =>
    simp only [Backed,kind] at backed
    obtain ⟨m,at_,user,_,payload,placed⟩ := backed
    cases kind' : b.source with
    | stray => simp only [Backed,kind'] at backed'
    | slot =>
      simp only [Backed,kind'] at backed'
      obtain ⟨sl,_,_,found,_⟩ := backed'
      exact mixed found at_ user (Or.inr (ptr ▸ placed))
    | mapping id' =>
      simp only [Backed,kind'] at backed'
      obtain ⟨m',at',_,_,payload',_⟩ := backed'
      rw [← ptr] at payload'
      have same := inv.payload_unique at_ payload at' payload'
      exact keys (by simp [Alloc.key,kind,kind',same])

/-- The record of an allocation a caller passed to thread `t`. -/
def Alloc.passed (t inst ptr : Nat) (layout : Layout) (a : Alloc) : Alloc :=
  if a.Matches inst ptr layout then { a with pin := some t } else a

theorem Inv.pin (inv : Inv P s) {ptr : Nat} {layout : Layout} (free : s.pinned t = none)
    (call : (s.call t).inst = some inst)
    (known : ∀ I x, s.insts inst = some I → I.heap = some x → ∃ r, (s.call t).heap = some r)
    (run : s.pin t inst ptr layout = some s') :
    Inv P s' ∧ (∃ a, a.ptr = ptr ∧ a.layout = layout ∧ a.inst = inst ∧
      s'.view t = { s.view t with pin := some a }) ∧ ∀ u, u ≠ t → s'.view u = s.view u := by
  simp only [State.pin] at run
  split at run
  case isFalse => cases run
  case isTrue hit =>
  obtain ⟨a,live,same⟩ := List.any_eq_true.mp hit
  have same : a.Matches inst ptr layout := of_decide_eq_true same
  have only : ∀ b ∈ s.live, b.Matches inst ptr layout → b = a := fun b mem matched =>
    inv.live_ptr mem live (matched.1.trans same.1.symm)
  obtain rfl := Option.some.inj run
  have pins : ∀ b ∈ s.live, ∀ u, (b.passed t inst ptr layout).pin = some u →
      (b = a ∧ u = t ∧ b.Matches inst ptr layout) ∨ (b.pin = some u ∧ u ≠ t ∧
        b.passed t inst ptr layout = b) := by
    intro b mem u has
    by_cases matched : b.Matches inst ptr layout
    · simp only [Alloc.passed,matched,if_true,Option.some.injEq] at has
      exact Or.inl ⟨only b mem matched,has.symm,matched⟩
    · simp only [Alloc.passed,matched,if_false] at has
      refine Or.inr ⟨has,?_,by simp [Alloc.passed,matched]⟩
      rintro rfl
      exact pinned_none free b mem has
  have keep : Inv P { s with live := s.live.map (Alloc.passed t inst ptr layout) } := by
    refine { inv with live := inv.live.map ?_ ?_ ?_ ?_ }
    · intro b mem
      unfold Alloc.passed
      split <;> exact ⟨rfl,rfl⟩
    · intro b mem
      have backed := inv.live.backed mem
      unfold Alloc.passed
      split <;> exact backed
    · intro b mem u has
      rcases pins b mem u has with ⟨rfl,rfl,matched⟩ | ⟨pin,_,eq⟩
      · have owner : b.inst = inst := matched.2.2.2.1
        simp only [Alloc.passed,matched,if_true,owner]
        refine ⟨call,fun kind => ?_⟩
        have backed := inv.live.backed mem
        simp only [Backed,kind,owner] at backed
        obtain ⟨_,I,x,_,_,_,hi,hx,_⟩ := backed
        exact known I x hi hx
      · rw [eq]
        exact inv.live.pin mem pin
    · intro b mem b' mem' u has has'
      rcases pins b mem u has with ⟨same,here,_⟩ | ⟨pin,ne,eq⟩ <;>
        rcases pins b' mem' u has' with ⟨same',here',_⟩ | ⟨pin',ne',eq'⟩
      · rw [same,same']
      · exact absurd here ne'
      · exact absurd here' ne
      · rw [eq,eq']
        exact inv.live.pinOne mem mem' pin pin'
  refine ⟨keep,⟨a.passed t inst ptr layout,?_,?_,?_,?_⟩,fun u ne => ?_⟩
  · simp [Alloc.passed,same,same.1]
  · rw [Alloc.passed,if_pos same]
    exact Layout.eq_of same.2.1 same.2.2.1
  · simp [Alloc.passed,same,same.2.2.2.1]
  · refine view_is rfl rfl rfl rfl ?_ rfl rfl
    exact keep.pinned_eq (List.mem_map_of_mem live) (by simp [Alloc.passed,same])
  · refine view_eq rfl rfl rfl rfl (pinned_map s (fun b mem => ?_) fun b mem has => ?_) rfl rfl
    · by_cases matched : b.Matches inst ptr layout
      · simp [matched,matched.2.2.2.2,ne.symm]
      · simp [matched]
    · have unmatched : ¬b.Matches inst ptr layout := fun matched => by
        simp [matched.2.2.2.2] at has
      simp [unmatched]

/-- Dropping an allocator value ends its small allocations and passes its reference to
the thread that drops it. -/
theorem Inv.abandon (inv : Inv P s) (free : s.hand t = none)
    (run : s.abandon t inst = some s') :
    Inv P s' ∧ (s'.view t = s.view t ∨ ∃ h, h.inst = inst ∧
      s'.view t = { s.view t with hand := some h }) ∧ ∀ u, u ≠ t → s'.view u = s.view u := by
  simp only [State.abandon,Option.bind_eq_bind,Option.bind_eq_some_iff] at run
  obtain ⟨I,hi,run⟩ := run
  split at run
  case isFalse => cases run
  case isTrue unused =>
  have idle : ∀ {u}, (s.call u).inst ≠ some inst := by
    intro u has
    have := List.all_eq_true.mp unused u (inv.heaps.callInst has).2
    simp [has] at this
  have sub : ∀ {i J}, replace s.insts inst none i = some J → s.insts i = some J ∧ i ≠ inst := by
    intro i J h
    by_cases same : i = inst
    · subst same
      simp at h
    · exact ⟨by simpa only [replace_other same] using h,same⟩
  have used : ∀ {u i}, (s.call u).inst = some i → replace s.insts inst none i = s.insts i := by
    intro u i has
    refine replace_other fun same => ?_
    subst same
    exact idle has
  have live : LiveInv P (s.live.filter fun a => ¬(a.inst = inst ∧ a.source = .slot)) s.slots s.maps
      (replace s.insts inst none) s.call := by
    refine ⟨fun {a} h => ?_,inv.live.distinct.filter _,fun {b sl i J x} found user hj hx heap => ?_,
      fun {id m} found user => ?_,fun h => inv.live.pin (List.mem_of_mem_filter h),
      fun h h' => inv.live.pinOne (List.mem_of_mem_filter h) (List.mem_of_mem_filter h')⟩
    · obtain ⟨mem,kept⟩ := List.mem_filter.mp h
      have backed := inv.live.backed mem
      cases kind : a.source with
      | stray => simp only [Backed,kind] at backed
      | mapping id => simpa only [Backed,kind] using backed
      | slot =>
        have other : a.inst ≠ inst := by simpa [kind] using kept
        simpa only [Backed,kind,replace_other other] using backed
    · obtain ⟨hj,other⟩ := sub hj
      obtain ⟨a,mem,kind,ptr⟩ := inv.live.ofSlot found user hj hx heap
      refine ⟨a,List.mem_filter.mpr ⟨mem,?_⟩,kind,ptr⟩
      -- both allocators would own the heap of the block
      have backed := inv.live.backed mem
      simp only [Backed,kind] at backed
      obtain ⟨sl',K,y,found',_,_,hk,hy,heap'⟩ := backed
      rw [ptr] at found'
      obtain rfl := Option.some.inj (found.symm.trans found')
      obtain ⟨_,sh,at_,own⟩ := inv.heaps.instHeap hj hx
      obtain ⟨_,sh',at',own'⟩ := inv.heaps.instHeap hk hy
      rw [heap] at at_
      rw [heap'] at at'
      obtain rfl := Option.some.inj (at_.symm.trans at')
      have : a.inst ≠ inst := by rw [← own',own]; exact other
      simp [this]
    · obtain ⟨a,mem,kind⟩ := inv.live.ofMap found user
      exact ⟨a,List.mem_filter.mpr ⟨mem,by simp [kind]⟩,kind⟩
  have pinned : ∀ u, ({ s with live := s.live.filter fun a => ¬(a.inst = inst ∧ a.source = .slot) } :
      State).pinned u = s.pinned u := fun u => pinned_filter s fun a mem pin => by
    have : a.inst ≠ inst := by
      rintro rfl
      exact idle (inv.live.pin mem pin).1
    simp [this]
  cases hx : I.heap with
  | none =>
    simp only [hx,Option.some.injEq] at run
    subst run
    refine ⟨{ inv with heaps := inv.heaps.rerefs (fun _ => rfl) (fun h => (sub h).1) used inv.heaps.count ?_ inv.heaps.refSlot inv.heaps.refOp inv.heaps.slotOk inv.heaps.handOk, live := live },
      Or.inl (view_eq rfl rfl rfl rfl (pinned t) rfl rfl),
      fun u _ => view_eq rfl rfl rfl rfl (pinned u) rfl rfl⟩
    intro h sh i found
    rw [inv.heaps.refInst found]
    constructor
    · rintro ⟨J,hj,hy⟩
      have ne : i ≠ inst := by
        rintro rfl
        obtain rfl := Option.some.inj (hi.symm.trans hj)
        simp [hx] at hy
      exact ⟨J,(replace_other ne).trans hj,hy⟩
    · rintro ⟨J,hj,hy⟩
      exact ⟨J,(sub hj).1,hy⟩
  | some x =>
    simp only [hx,Option.bind_eq_some_iff,Option.some.injEq] at run
    obtain ⟨sh,found,rfl⟩ := run
    obtain ⟨own,sh',found',inst_eq⟩ := inv.heaps.instHeap hi hx
    obtain rfl := Option.some.inj (found.symm.trans found')
    obtain ⟨length,nodup⟩ := inv.heaps.count found
    have here : Ref.inst inst ∈ sh.refs := (inv.heaps.refInst found).mpr ⟨I,hi,by rw [hx,← own]⟩
    have noOp : Ref.op t ∉ sh.refs := fun mem => by
      obtain ⟨y,has,_⟩ := (inv.heaps.refOp found).mp mem
      simp [free] at has
    have left : sh.refs ≠ [] := List.ne_nil_of_mem here
    have total := List.length_erase_of_mem here
    have pos := List.length_pos_of_mem here
    have heaps : HeapInv (replace s.heaps x.addr (some { sh with
        refs := .op t :: sh.refs.erase (.inst inst) })) (replace s.insts inst none) s.nextInst s.tls
        (replace s.hand t (some x)) s.dying s.call s.threads s.maps := by
      refine inv.heaps.setRefs found (shape_refs left (by simp)) (fun h => (sub h).1) used ?_ ?_ ?_
        ?_ ?_ (fun _ => Iff.rfl) ?_ inv.heaps.slotOk ?_
      · refine ⟨by simp only [List.length_cons]; omega,List.nodup_cons.mpr ⟨?_,nodup.erase _⟩⟩
        exact fun mem => noOp (List.mem_of_mem_erase mem)
      · intro i
        rw [List.mem_cons,nodup.mem_erase_iff,inv.heaps.refInst found]
        by_cases same : i = inst
        · subst same
          simp
        · simp [same,replace_other same]
      · intro u
        rw [List.mem_cons,nodup.mem_erase_iff,inv.heaps.refSlot found]
        simp
      · intro u
        rw [List.mem_cons,nodup.mem_erase_iff,inv.heaps.refOp found]
        by_cases same : u = t
        · subst same
          simp
        · simp [same,replace_other same]
      · intro h i ne
        by_cases same : i = inst
        · subst same
          simp only [replace_same,reduceCtorEq,false_and,exists_false,false_iff]
          rintro ⟨J,hj,hy⟩
          obtain rfl := Option.some.inj (hi.symm.trans hj)
          exact ne (congrArg HeapHandle.addr (Option.some.inj (hx.symm.trans hy))).symm
        · simp [replace_other same]
      · intro h u ne
        by_cases same : u = t
        · subst same
          simp [free,ne.symm]
        · simp [replace_other same]
      · intro u y h
        by_cases same : u = t
        · subst same
          obtain rfl : x = y := by simpa using h
          exact ⟨sh,found,inst_eq.trans own.symm⟩
        · exact inv.heaps.handOk (by simpa only [replace_other same] using h)
    exact ⟨{ inv with
      heaps := heaps
      slots := inv.slots.shape found (by simp)
      nodes := inv.nodes.shape found left
      live := live },
      Or.inr ⟨x,own,view_is rfl rfl replace_same rfl (pinned t) rfl rfl⟩,
      fun u ne => view_eq rfl rfl (replace_other ne) rfl (pinned u) rfl rfl⟩

/-- Starting a request keeps the invariant and shows the thread its operands only. -/
theorem Inv.start (inv : Inv P s) {request : Request} (free : s.pinned t = none)
    (hand : s.hand t = none) (run : s.start t request = some s') :
    Inv P s' ∧ Started (s.view t) (s'.view t) request ∧ ∀ u, u ≠ t → s'.view u = s.view u := by
  have entered : ∀ {inst s'}, s.enter t inst = some s' → Inv P s' ∧
      (∃ known, s'.view t = { s.view t with call := ⟨some inst,known⟩ }) ∧
      ∀ u, u ≠ t → s'.view u = s.view u := by
    intro inst s' run
    obtain ⟨keep,seen,others,_⟩ := inv.enter free run
    exact ⟨keep,seen,others⟩
  have passed : ∀ {inst ptr layout s'}, ((s.enter t inst).bind fun s => s.pin t inst ptr layout) =
      some s' → Inv P s' ∧ (∃ known a, a.ptr = ptr ∧ a.layout = layout ∧ a.inst = inst ∧
        s'.view t = { s.view t with call := ⟨some inst,known⟩, pin := some a }) ∧
      ∀ u, u ≠ t → s'.view u = s.view u := by
    intro inst ptr layout s' run
    obtain ⟨s₁,enter,pin⟩ := Option.bind_eq_some_iff.mp run
    obtain ⟨keep,⟨known,seen⟩,others,live,_,_,insts,call,heap⟩ := inv.enter free enter
    have free₁ : s₁.pinned t = none := by
      unfold State.pinned
      rw [live]
      exact free
    obtain ⟨keep',⟨a,ha,hl,hn,seen'⟩,others'⟩ := keep.pin free₁ call (insts ▸ heap) pin
    refine ⟨keep',⟨known,a,ha,hl,hn,by rw [seen',seen]⟩,fun u ne => (others' u ne).trans (others u ne)⟩
  cases request with
  | alloc inst layout => exact entered run
  | allocZeroed inst layout => exact entered run
  | dealloc inst ptr layout => exact passed run
  | realloc inst ptr layout size => exact passed run
  | exit =>
    obtain rfl := Option.some.inj run
    exact ⟨inv,rfl,fun _ _ => rfl⟩
  | drop inst => exact inv.abandon hand run

/-- A new allocator has no heap yet. -/
theorem Inv.createInst (inv : Inv P s) (numNodes regionSize : Nat) :
    Inv P { s with
      insts := replace s.insts s.nextInst (some ⟨numNodes,regionSize,none,0⟩)
      nextInst := s.nextInst + 1 } := by
  have fresh := inv.heaps.instFresh le_rfl
  have old : ∀ {i J x}, replace s.insts s.nextInst (some ⟨numNodes,regionSize,none,0⟩) i = some J →
      J.heap = some x → s.insts i = some J := by
    intro i J x h hx
    by_cases same : i = s.nextInst
    · subst same
      obtain rfl : (⟨numNodes,regionSize,none,0⟩ : Instance) = J := by simpa using h
      simp at hx
    · simpa only [replace_other same] using h
  have keep : ∀ {i J}, s.insts i = some J →
      replace s.insts s.nextInst (some ⟨numNodes,regionSize,none,0⟩) i = some J := by
    intro i J h
    refine (replace_other fun same => ?_).trans h
    simp [same,fresh] at h
  refine { inv with
    heaps := { inv.heaps with
      refInst := fun found => (inv.heaps.refInst found).trans ?_
      back := fun {h sh J} found hj => ?_, instHeap := fun hi hx => inv.heaps.instHeap (old hi hx) hx
      instFresh := fun {i} le => ?_, heapOld := fun found => ?_
      callHeap := fun has => ?_, callInst := fun has => ?_, mapLarge := fun found use => ?_ }
    live := { inv.live with
      backed := fun live => (inv.live.backed live).mono (fun found _ _ _ _ => found)
        (fun found _ _ => found) fun {I _} hi hx => ⟨I,keep hi,hx⟩
      ofSlot := fun found user hi hx => inv.live.ofSlot found user (old hi hx) hx } }
  · constructor
    · rintro ⟨J,hj,hx⟩
      exact ⟨J,keep hj,hx⟩
    · rintro ⟨J,hj,hx⟩
      exact ⟨J,old hj hx,hx⟩
  · have ne : sh.inst ≠ s.nextInst := ne_of_lt (inv.heaps.heapOld found)
    exact inv.heaps.back found (by simpa only [replace_other ne] using hj)
  · have ne : i ≠ s.nextInst := by
      rintro rfl
      simp at le
    exact (replace_other ne).trans (inv.heaps.instFresh (by simp only at le; omega))
  · exact Nat.lt_succ_of_lt (inv.heaps.heapOld found)
  · obtain ⟨i,J,sh,ci,hj,rest⟩ := inv.heaps.callHeap has
    exact ⟨i,J,sh,ci,keep hj,rest⟩
  · obtain ⟨⟨J,hj⟩,mem⟩ := inv.heaps.callInst has
    exact ⟨⟨J,keep hj⟩,mem⟩
  · obtain ⟨holder,lt⟩ := inv.heaps.mapLarge found use
    exact ⟨holder,Nat.lt_succ_of_lt lt⟩

theorem Inv.initial (mem : Bytes) : Inv P (.initial mem) := by
  refine ⟨⟨?_,?_,?_,?_,?_,?_⟩,⟨?_,?_,?_,?_,?_,?_,?_,?_,?_,?_,?_,?_,?_,?_,?_,?_,?_,?_,?_,?_,?_⟩,
    ⟨?_,?_,?_,?_,?_,?_⟩,⟨?_,?_⟩,⟨?_,?_⟩,⟨?_,?_,?_,?_,?_,?_⟩⟩ <;> simp [State.initial]

end Numalloc
