import Numalloc.Sound.Blocks

/-! Actions on thread-local slots and on the references to a shared heap. The last
reference to go hands the heap's mapping to the thread that dropped it. -/
namespace Numalloc

open Concurrent View

variable {P : Platform} {strict : Bool} {s s' : State} {t : Nat} {ch : Choice}

/-- What every fact but the counts depends on. -/
def SharedHeap.shape (sh : SharedHeap) : Nat × GlobalHeap × Bool := (sh.inst,sh.heap,sh.refs.isEmpty)

def SameShape (heaps heaps' : Nat → Option SharedHeap) : Prop :=
  ∀ h, (heaps' h).map SharedHeap.shape = (heaps h).map SharedHeap.shape

namespace SameShape

variable {heaps heaps' : Nat → Option SharedHeap} {h : Nat} {sh sh' : SharedHeap}

theorem symm (same : SameShape heaps heaps') : SameShape heaps' heaps := fun h => (same h).symm

theorem back (same : SameShape heaps heaps') (found : heaps' h = some sh') :
    ∃ sh, heaps h = some sh ∧ sh.inst = sh'.inst ∧ sh.heap = sh'.heap ∧
      (sh.refs = [] ↔ sh'.refs = []) := by
  have eq := same h
  rw [found,Option.map_some] at eq
  obtain ⟨sh,found',shape⟩ := Option.map_eq_some_iff.mp eq.symm
  simp only [SharedHeap.shape,Prod.mk.injEq] at shape
  refine ⟨sh,found',shape.1,shape.2.1,?_⟩
  rw [← List.isEmpty_iff,← List.isEmpty_iff,shape.2.2]

theorem replace (found : heaps h = some sh) (shape : sh'.shape = sh.shape) :
    SameShape heaps (Concurrent.replace heaps h (some sh')) := by
  intro h'
  by_cases eq : h' = h
  · subst eq
    simp [found,shape]
  · rw [replace_other eq]

end SameShape

section Refs

variable {heaps heaps' : Nat → Option SharedHeap} {insts insts' : Nat → Option Instance}
  {nextInst : Nat} {tls tls' : Nat → ThreadHeapSlot} {hand hand' : Nat → Option HeapHandle}
  {dying : Nat → Option Nat} {call : Nat → Call} {threads : List Nat}
  {maps : Nat → Option Mapping}

/-- References changed hands, but no heap gained its first or lost its last. -/
theorem HeapInv.rerefs
    (inv : HeapInv heaps insts nextInst tls hand dying call threads maps)
    (same : SameShape heaps heaps') (sub : ∀ {i I}, insts' i = some I → insts i = some I)
    (used : ∀ {u i}, (call u).inst = some i → insts' i = insts i)
    (count : ∀ {h sh}, heaps' h = some sh → sh.references = sh.refs.length ∧ sh.refs.Nodup)
    (refInst : ∀ {h sh i}, heaps' h = some sh →
      (Ref.inst i ∈ sh.refs ↔ ∃ I, insts' i = some I ∧ I.heap = some ⟨h,i⟩))
    (refSlot : ∀ {h sh t}, heaps' h = some sh →
      (Ref.slot t ∈ sh.refs ↔ ∃ th, tls' t = .alive th ∧ th.globalHeap.addr = h))
    (refOp : ∀ {h sh t}, heaps' h = some sh →
      (Ref.op t ∈ sh.refs ↔ ∃ x, hand' t = some x ∧ x.addr = h))
    (slotOk : ∀ {t th}, tls' t = .alive th → ∃ sh, heaps th.globalHeap.addr = some sh ∧
      sh.inst = th.globalHeap.inst ∧ th.nodeId < sh.heap.numNodes)
    (handOk : ∀ {t x}, hand' t = some x → ∃ sh, heaps x.addr = some sh ∧ sh.inst = x.inst) :
    HeapInv heaps' insts' nextInst tls' hand' dying call threads maps where
  geom found := by
    obtain ⟨sh,old,_,heap,_⟩ := same.back found
    exact heap ▸ inv.geom old
  count := count
  refInst := refInst
  refSlot := refSlot
  refOp := refOp
  one found found' eq := by
    obtain ⟨sh,old,inst,_⟩ := same.back found
    obtain ⟨sh',old',inst',_⟩ := same.back found'
    exact inv.one old old' (inst.trans (eq.trans inst'.symm))
  back found hi := by
    obtain ⟨sh,old,inst,_⟩ := same.back found
    rw [← inst] at hi ⊢
    exact inv.back old (sub hi)
  instHeap hi hx := by
    obtain ⟨eq,sh,old,inst⟩ := inv.instHeap (sub hi) hx
    obtain ⟨sh',found,inst',_⟩ := same.symm.back old
    exact ⟨eq,sh',found,inst'.trans inst⟩
  instFresh le := by
    by_contra some
    obtain ⟨I,hi⟩ := Option.ne_none_iff_exists'.mp some
    exact absurd (sub hi) (by simp [inv.instFresh le])
  heapOld found := by
    obtain ⟨sh,old,inst,_⟩ := same.back found
    exact inst ▸ inv.heapOld old
  slotOk alive := by
    obtain ⟨sh,old,inst,node⟩ := slotOk alive
    obtain ⟨sh',found,inst',heap,_⟩ := same.symm.back old
    exact ⟨sh',found,inst'.trans inst,heap ▸ node⟩
  handOk has := by
    obtain ⟨sh,old,inst⟩ := handOk has
    obtain ⟨sh',found,inst',_⟩ := same.symm.back old
    exact ⟨sh',found,inst'.trans inst⟩
  callHeap has := by
    obtain ⟨i,I,sh,inst,hi,hx,old,heap⟩ := inv.callHeap has
    obtain ⟨sh',found,_,heap',_⟩ := same.symm.back old
    exact ⟨i,I,sh',inst,(used inst).trans hi,hx,found,heap'.trans heap⟩
  callInst has := by
    obtain ⟨⟨I,hi⟩,mem⟩ := inv.callInst has
    exact ⟨⟨I,(used has).trans hi⟩,mem⟩
  dyingHeap has := by
    obtain ⟨sh,old,refs⟩ := inv.dyingHeap has
    obtain ⟨sh',found,_,_,empty⟩ := same.symm.back old
    exact ⟨sh',found,empty.mpr refs⟩
  dyingOne := inv.dyingOne
  dead found none := by
    obtain ⟨sh,old,_,_,empty⟩ := same.back found
    exact inv.dead old (empty.mpr none)
  mapLive found some := by
    obtain ⟨sh,old,inst,heap,empty⟩ := same.back found
    rw [← inst,← heap]
    exact inv.mapLive old (mt empty.mp some)
  mapHeap found use := by
    obtain ⟨h,sh,old,inst,base,size,live,dead⟩ := inv.mapHeap found use
    obtain ⟨sh',found',inst',heap,empty⟩ := same.symm.back old
    rw [← heap] at base size
    exact ⟨h,sh',found',inst'.trans inst,base,size,fun some => live (mt empty.mpr some),dead⟩
  mapOne := inv.mapOne
  mapLarge := inv.mapLarge

/-- The references to one heap changed; `sh'` has as many as before or still some. -/
theorem HeapInv.setRefs {a : Nat} {sh sh' : SharedHeap}
    (inv : HeapInv heaps insts nextInst tls hand dying call threads maps)
    (found : heaps a = some sh) (shape : sh'.shape = sh.shape)
    (sub : ∀ {i I}, insts' i = some I → insts i = some I)
    (used : ∀ {u i}, (call u).inst = some i → insts' i = insts i)
    (count : sh'.references = sh'.refs.length ∧ sh'.refs.Nodup)
    (refInst : ∀ {i}, Ref.inst i ∈ sh'.refs ↔ ∃ I, insts' i = some I ∧ I.heap = some ⟨a,i⟩)
    (refSlot : ∀ {t}, Ref.slot t ∈ sh'.refs ↔ ∃ th, tls' t = .alive th ∧ th.globalHeap.addr = a)
    (refOp : ∀ {t}, Ref.op t ∈ sh'.refs ↔ ∃ x, hand' t = some x ∧ x.addr = a)
    (instElse : ∀ {h i}, h ≠ a → ((∃ I, insts' i = some I ∧ I.heap = some ⟨h,i⟩) ↔
      ∃ I, insts i = some I ∧ I.heap = some ⟨h,i⟩))
    (slotElse : ∀ {h t}, h ≠ a → ((∃ th, tls' t = .alive th ∧ th.globalHeap.addr = h) ↔
      ∃ th, tls t = .alive th ∧ th.globalHeap.addr = h))
    (opElse : ∀ {h t}, h ≠ a → ((∃ x, hand' t = some x ∧ x.addr = h) ↔
      ∃ x, hand t = some x ∧ x.addr = h))
    (slotOk : ∀ {t th}, tls' t = .alive th → ∃ sh, heaps th.globalHeap.addr = some sh ∧
      sh.inst = th.globalHeap.inst ∧ th.nodeId < sh.heap.numNodes)
    (handOk : ∀ {t x}, hand' t = some x → ∃ sh, heaps x.addr = some sh ∧ sh.inst = x.inst) :
    HeapInv (replace heaps a (some sh')) insts' nextInst tls' hand' dying call threads maps := by
  refine inv.rerefs (.replace found shape) sub used ?_ ?_ ?_ ?_ slotOk handOk
  · intro h sh₀ at_
    by_cases eq : h = a
    · subst eq
      obtain rfl : sh' = sh₀ := by simpa using at_
      exact count
    · exact inv.count (by simpa only [replace_other eq] using at_)
  · intro h sh₀ i at_
    by_cases eq : h = a
    · subst eq
      obtain rfl : sh' = sh₀ := by simpa using at_
      exact refInst
    · rw [instElse eq]
      exact inv.refInst (by simpa only [replace_other eq] using at_)
  · intro h sh₀ u at_
    by_cases eq : h = a
    · subst eq
      obtain rfl : sh' = sh₀ := by simpa using at_
      exact refSlot
    · rw [slotElse eq]
      exact inv.refSlot (by simpa only [replace_other eq] using at_)
  · intro h sh₀ u at_
    by_cases eq : h = a
    · subst eq
      obtain rfl : sh' = sh₀ := by simpa using at_
      exact refOp
    · rw [opElse eq]
      exact inv.refOp (by simpa only [replace_other eq] using at_)

/-- Geometry and stacks do not depend on who refers to a heap. -/
theorem SlotInv.shape {slots bags} {a : Nat} {sh : SharedHeap} {refs : List Ref} {n : Nat}
    (inv : SlotInv heaps slots bags) (found : heaps a = some sh) (left : refs ≠ []) :
    SlotInv (replace heaps a (some { sh with references := n, refs := refs })) slots bags := by
  refine { inv with ok := fun {b sl} at_ => ?_, bump := fun {h sh' n'} at_ node => ?_ }
  · obtain ⟨sh₀,old,refs₀,rest⟩ := inv.ok at_
    by_cases eq : sl.heap = a
    · rw [eq] at old ⊢
      obtain rfl := Option.some.inj (found.symm.trans old)
      exact ⟨_,replace_same,left,rest⟩
    · exact ⟨sh₀,(replace_other eq).trans old,refs₀,rest⟩
  · by_cases eq : h = a
    · subst eq
      obtain rfl : { sh with references := n, refs := refs } = sh' := by simpa using at_
      have := inv.bump found node
      exact this
    · exact inv.bump (by simpa only [replace_other eq] using at_) node

theorem StackInv.shape {slots lastLink} {a : Nat} {sh : SharedHeap} {refs : List Ref} {n : Nat}
    (inv : StackInv heaps slots lastLink) (found : heaps a = some sh) (left : sh.refs ≠ []) :
    StackInv (replace heaps a (some { sh with references := n, refs := refs })) slots lastLink := by
  refine ⟨fun {h sh' _ _} at_ refs' node cls => ?_,inv.ref⟩
  by_cases eq : h = a
  · subst eq
    obtain rfl : { sh with references := n, refs := refs } = sh' := by simpa using at_
    have := inv.chain found left node cls
    exact this
  · exact inv.chain (by simpa only [replace_other eq] using at_) refs' node cls

end Refs

/-! Thread-local slots. -/

theorem slotGet_kept {r : ThreadHeapSlot} (inv : Inv P s)
    (run : exec P strict t .slotGet ch s = some (r,s')) :
    Kept P t s s' (step P strict .slotGet (s.view t) r (s'.view t)) := by
  obtain ⟨rfl,rfl⟩ := Prod.mk.inj (Option.some.inj run)
  exact ⟨inv,⟨rfl,rfl⟩,fun _ _ => rfl⟩

theorem takeHeap_kept {r : Option HeapHandle} (inv : Inv P s)
    (run : exec P strict t .takeHeap ch s = some (r,s')) :
    Kept P t s s' (step P strict .takeHeap (s.view t) r (s'.view t)) := by
  obtain ⟨rfl,rfl⟩ := Prod.mk.inj (Option.some.inj run)
  exact ⟨inv,⟨rfl,rfl⟩,fun _ _ => rfl⟩

theorem thread_kept {r : PerThreadHeap} (inv : Inv P s)
    (run : exec P strict t .thread ch s = some (r,s')) :
    Kept P t s s' (step P strict .thread (s.view t) r (s'.view t)) := by
  cases alive : s.tls t with
  | empty => simp [exec,alive] at run
  | destroyed => simp [exec,alive] at run
  | alive th =>
    simp only [exec,alive,Option.some.injEq,Prod.mk.injEq] at run
    obtain ⟨rfl,rfl⟩ := run
    refine ⟨inv,⟨rfl,alive,fun ref present => ?_⟩,fun _ _ => rfl⟩
    obtain ⟨_,has,same⟩ := present
    obtain ⟨sh,found,_,node⟩ := inv.heaps.slotOk alive
    rw [same] at found
    exact (inv.heaps.call_refs has found).2 ▸ node

/-- A cache changed, but neither its heap nor its node. -/
theorem Inv.setThread (inv : Inv P s) {th th' : PerThreadHeap} (alive : s.tls t = .alive th)
    (heap : th'.globalHeap = th.globalHeap) (node : th'.nodeId = th.nodeId) :
    Inv P (s.setThread t th') := by
  have tls : ∀ {u y}, (s.setThread t th').tls u = .alive y →
      ∃ x, s.tls u = .alive x ∧ y.globalHeap = x.globalHeap ∧ y.nodeId = x.nodeId := by
    intro u y h
    by_cases same : u = t
    · subst same
      obtain rfl : th' = y := by simpa [State.setThread] using h
      exact ⟨th,alive,heap,node⟩
    · exact ⟨y,by simpa [State.setThread,replace_other same] using h,rfl,rfl⟩
  have back : ∀ {u x}, s.tls u = .alive x →
      ∃ y, (s.setThread t th').tls u = .alive y ∧ y.globalHeap = x.globalHeap := by
    intro u x h
    by_cases same : u = t
    · subst same
      obtain rfl := ThreadHeapSlot.alive.inj (alive.symm.trans h)
      exact ⟨th',by simp [State.setThread],heap⟩
    · exact ⟨x,by simpa [State.setThread,replace_other same] using h,rfl⟩
  refine { inv with heaps := { inv.heaps with refSlot := fun {h sh u} found => ?_, slotOk := fun h => ?_ } }
  · rw [inv.heaps.refSlot found]
    constructor
    · rintro ⟨x,old,addr⟩
      obtain ⟨y,new,eq⟩ := back old
      exact ⟨y,new,by rw [eq,addr]⟩
    · rintro ⟨y,new,addr⟩
      obtain ⟨x,old,eq,_⟩ := tls new
      exact ⟨x,old,by rw [← eq,addr]⟩
  · obtain ⟨x,old,eq,eq'⟩ := tls h
    rw [eq,eq']
    exact inv.heaps.slotOk old

theorem view_setThread (th : PerThreadHeap) (u : Nat) :
    (s.setThread t th).view u = if u = t then { s.view t with slot := .alive th } else s.view u := by
  by_cases same : u = t
  · subst same
    simp only [State.view,State.setThread,replace_same,if_true]
    rfl
  · rw [if_neg same]
    exact view_eq (replace_other same) rfl rfl rfl rfl rfl rfl

theorem setFreelist_kept {c : Nat} {fl : ThreadFreelist} (inv : Inv P s)
    (run : exec P strict t (.setFreelist c fl) ch s = some ((),s')) :
    Kept P t s s' (step P strict (.setFreelist c fl) (s.view t) () (s'.view t)) := by
  cases alive : s.tls t with
  | empty => simp [exec,alive] at run
  | destroyed => simp [exec,alive] at run
  | alive th =>
    simp only [exec,alive,Option.some.injEq,Prod.mk.injEq,true_and] at run
    subst run
    refine ⟨inv.setThread alive rfl rfl,⟨th,alive,?_⟩,fun u ne => ?_⟩
    · simp only [view_setThread,if_true]
    · simp only [view_setThread,ne,if_false]

theorem setLargeCache_kept {cache : LargeCache} (inv : Inv P s)
    (run : exec P strict t (.setLargeCache cache) ch s = some ((),s')) :
    Kept P t s s' (step P strict (.setLargeCache cache) (s.view t) () (s'.view t)) := by
  cases alive : s.tls t with
  | empty => simp [exec,alive] at run
  | destroyed => simp [exec,alive] at run
  | alive th =>
    simp only [exec,alive,Option.some.injEq,Prod.mk.injEq,true_and] at run
    subst run
    refine ⟨inv.setThread alive rfl rfl,⟨th,alive,?_⟩,fun u ne => ?_⟩
    · simp only [view_setThread,if_true]
    · simp only [view_setThread,ne,if_false]

/-! References. -/

section OneHeap

variable {a n : Nat} {sh : SharedHeap} {refs : List Ref}

theorem shape_refs (left : sh.refs ≠ []) (left' : refs ≠ []) :
    ({ sh with references := n, refs := refs } : SharedHeap).shape = sh.shape := by
  simp only [SharedHeap.shape,Prod.mk.injEq,true_and]
  cases h : sh.refs with
  | nil => exact absurd h left
  | cons r rest =>
    cases h' : refs with
    | nil => exact absurd h' left'
    | cons r' rest' => rfl

/-- A cache that is taken out of its slot keeps its reference, in the thread's hands. -/
theorem Inv.takeSlot (inv : Inv P s) {th : PerThreadHeap} {rest : ThreadHeapSlot}
    (alive : s.tls t = .alive th) (dead : ∀ y, rest ≠ .alive y) (free : s.hand t = none)
    (found : s.heaps th.globalHeap.addr = some sh) :
    Inv P { s with
      heaps := replace s.heaps th.globalHeap.addr
        (some { sh with refs := .op t :: sh.refs.erase (.slot t) })
      tls := replace s.tls t rest
      hand := replace s.hand t (some th.globalHeap) } := by
  obtain ⟨length,nodup⟩ := inv.heaps.count found
  have here : Ref.slot t ∈ sh.refs := (inv.heaps.refSlot found).mpr ⟨th,alive,rfl⟩
  have noOp : Ref.op t ∉ sh.refs := fun mem => by
    obtain ⟨x,has,_⟩ := (inv.heaps.refOp found).mp mem
    simp [free] at has
  have left : sh.refs ≠ [] := List.ne_nil_of_mem here
  have total := List.length_erase_of_mem here
  have pos := List.length_pos_of_mem here
  refine { inv with heaps := inv.heaps.setRefs found (shape_refs left (by simp)) id (fun _ => rfl) ?_ ?_ ?_ ?_ (fun _ => Iff.rfl) ?_ ?_ ?_ ?_, slots := inv.slots.shape found (by simp), nodes := inv.nodes.shape found left }
  · refine ⟨by simp only [List.length_cons]; omega,List.nodup_cons.mpr ⟨?_,nodup.erase _⟩⟩
    exact fun mem => noOp (List.mem_of_mem_erase mem)
  · intro i
    rw [← inv.heaps.refInst found,List.mem_cons,nodup.mem_erase_iff]
    simp
  · intro u
    rw [List.mem_cons,nodup.mem_erase_iff,inv.heaps.refSlot found]
    by_cases same : u = t
    · subst same
      simp [dead]
    · simp [same,replace_other same]
  · intro u
    rw [List.mem_cons,nodup.mem_erase_iff,inv.heaps.refOp found]
    by_cases same : u = t
    · subst same
      simp
    · simp [same,replace_other same]
  · intro h u ne
    by_cases same : u = t
    · subst same
      simp [dead,alive,ne.symm]
    · simp [replace_other same]
  · intro h u ne
    by_cases same : u = t
    · subst same
      simp [free,ne.symm]
    · simp [replace_other same]
  · intro u y h
    by_cases same : u = t
    · subst same
      exact absurd (by simpa using h) (dead y)
    · exact inv.heaps.slotOk (by simpa only [replace_other same] using h)
  · intro u x h
    by_cases same : u = t
    · subst same
      obtain rfl : th.globalHeap = x := by simpa using h
      obtain ⟨sh',found',inst,_⟩ := inv.heaps.slotOk alive
      exact ⟨sh',found',inst⟩
    · exact inv.heaps.handOk (by simpa only [replace_other same] using h)

/-- A new cache receives the reference in the thread's hands. -/
theorem Inv.putSlot (inv : Inv P s) {th : PerThreadHeap} (empty : ∀ y, s.tls t ≠ .alive y)
    (has : s.hand t = some th.globalHeap) (found : s.heaps th.globalHeap.addr = some sh)
    (node : th.nodeId < sh.heap.numNodes) :
    Inv P { s with
      heaps := replace s.heaps th.globalHeap.addr
        (some { sh with refs := .slot t :: sh.refs.erase (.op t) })
      tls := replace s.tls t (.alive th)
      hand := replace s.hand t none } := by
  obtain ⟨length,nodup⟩ := inv.heaps.count found
  have here : Ref.op t ∈ sh.refs := (inv.heaps.refOp found).mpr ⟨_,has,rfl⟩
  have noSlot : Ref.slot t ∉ sh.refs := fun mem => by
    obtain ⟨x,alive,_⟩ := (inv.heaps.refSlot found).mp mem
    exact empty x alive
  have left : sh.refs ≠ [] := List.ne_nil_of_mem here
  have total := List.length_erase_of_mem here
  have pos := List.length_pos_of_mem here
  refine { inv with heaps := inv.heaps.setRefs found (shape_refs left (by simp)) id (fun _ => rfl) ?_ ?_ ?_ ?_ (fun _ => Iff.rfl) ?_ ?_ ?_ ?_, slots := inv.slots.shape found (by simp), nodes := inv.nodes.shape found left }
  · refine ⟨by simp only [List.length_cons]; omega,List.nodup_cons.mpr ⟨?_,nodup.erase _⟩⟩
    exact fun mem => noSlot (List.mem_of_mem_erase mem)
  · intro i
    rw [← inv.heaps.refInst found,List.mem_cons,nodup.mem_erase_iff]
    simp
  · intro u
    rw [List.mem_cons,nodup.mem_erase_iff,inv.heaps.refSlot found]
    by_cases same : u = t
    · subst same
      simp
    · simp [same,replace_other same]
  · intro u
    rw [List.mem_cons,nodup.mem_erase_iff,inv.heaps.refOp found]
    by_cases same : u = t
    · subst same
      simp
    · simp [same,replace_other same]
  · intro h u ne
    by_cases same : u = t
    · subst same
      simp [empty,ne.symm]
    · simp [replace_other same]
  · intro h u ne
    by_cases same : u = t
    · subst same
      simp [has,ne.symm]
    · simp [replace_other same]
  · intro u y h
    by_cases same : u = t
    · subst same
      obtain rfl : th = y := by simpa using h
      obtain ⟨sh',found',inst⟩ := inv.heaps.handOk has
      obtain rfl := Option.some.inj (found.symm.trans found')
      exact ⟨sh,found,inst,node⟩
    · exact inv.heaps.slotOk (by simpa only [replace_other same] using h)
  · intro u x h
    by_cases same : u = t
    · subst same
      simp at h
    · exact inv.heaps.handOk (by simpa only [replace_other same] using h)

/-- Cloning a handle puts a second reference into the thread's hands. -/
theorem Inv.addRef (inv : Inv P s) {x : HeapHandle} (free : s.hand t = none)
    (found : s.heaps x.addr = some sh) (inst : sh.inst = x.inst) (left : sh.refs ≠ []) :
    Inv P { s with
      heaps := replace s.heaps x.addr
        (some { sh with references := sh.references + 1, refs := .op t :: sh.refs })
      hand := replace s.hand t (some x) } := by
  obtain ⟨length,nodup⟩ := inv.heaps.count found
  have noOp : Ref.op t ∉ sh.refs := fun mem => by
    obtain ⟨y,has,_⟩ := (inv.heaps.refOp found).mp mem
    simp [free] at has
  refine { inv with heaps := inv.heaps.setRefs found (shape_refs left (by simp)) id (fun _ => rfl) ?_ ?_ ?_ ?_ (fun _ => Iff.rfl) (fun _ => Iff.rfl) ?_ inv.heaps.slotOk ?_, slots := inv.slots.shape found (by simp), nodes := inv.nodes.shape found left }
  · exact ⟨by simp only [List.length_cons]; omega,List.nodup_cons.mpr ⟨noOp,nodup⟩⟩
  · intro i
    rw [← inv.heaps.refInst found,List.mem_cons]
    simp
  · intro u
    rw [List.mem_cons,inv.heaps.refSlot found]
    simp
  · intro u
    rw [List.mem_cons,inv.heaps.refOp found]
    by_cases same : u = t
    · subst same
      simp
    · simp [same,replace_other same]
  · intro h u ne
    by_cases same : u = t
    · subst same
      simp [free,ne.symm]
    · simp [replace_other same]
  · intro u y h
    by_cases same : u = t
    · subst same
      obtain rfl : x = y := by simpa using h
      exact ⟨sh,found,inst⟩
    · exact inv.heaps.handOk (by simpa only [replace_other same] using h)

/-- Dropping a handle that is not the last. -/
theorem Inv.subRef (inv : Inv P s) {x : HeapHandle} (has : s.hand t = some x)
    (found : s.heaps x.addr = some sh) (more : sh.references ≠ 1) :
    Inv P { s with
      heaps := replace s.heaps x.addr
        (some { sh with references := sh.references - 1, refs := sh.refs.erase (.op t) })
      hand := replace s.hand t none } := by
  obtain ⟨length,nodup⟩ := inv.heaps.count found
  have here : Ref.op t ∈ sh.refs := (inv.heaps.refOp found).mpr ⟨_,has,rfl⟩
  have left : sh.refs ≠ [] := List.ne_nil_of_mem here
  have total := List.length_erase_of_mem here
  have pos := List.length_pos_of_mem here
  have left' : sh.refs.erase (.op t) ≠ [] := by
    apply List.ne_nil_of_length_pos
    omega
  refine { inv with heaps := inv.heaps.setRefs found (shape_refs left left') id (fun _ => rfl) ?_ ?_ ?_ ?_ (fun _ => Iff.rfl) (fun _ => Iff.rfl) ?_ inv.heaps.slotOk ?_, slots := inv.slots.shape found left', nodes := inv.nodes.shape found left }
  · exact ⟨by simp only; omega,nodup.erase _⟩
  · intro i
    rw [← inv.heaps.refInst found,nodup.mem_erase_iff]
    simp
  · intro u
    rw [nodup.mem_erase_iff,inv.heaps.refSlot found]
    simp
  · intro u
    rw [nodup.mem_erase_iff,inv.heaps.refOp found]
    by_cases same : u = t
    · subst same
      simp
    · simp [same,replace_other same]
  · intro h u ne
    by_cases same : u = t
    · subst same
      simp [has,ne.symm]
    · simp [replace_other same]
  · intro u y h
    by_cases same : u = t
    · subst same
      simp at h
    · exact inv.heaps.handOk (by simpa only [replace_other same] using h)

end OneHeap

/-! The last reference. -/

theorem MapInv.reholder {maps nextMap unmaps} (inv : MapInv P maps nextMap unmaps)
    {f : Mapping → Mapping} (same : ∀ m, (f m).base = m.base ∧ (f m).size = m.size ∧
      (f m).extent = m.extent) : MapInv P (fun id => (maps id).map f) nextMap unmaps where
  ok h := by
    obtain ⟨m,found,rfl⟩ := Option.map_eq_some_iff.mp h
    obtain ⟨base,size,extent⟩ := same m
    obtain ⟨base_pos,size_pos,bound,page,whole⟩ := inv.ok found
    refine ⟨base ▸ base_pos,size ▸ size_pos,?_,base ▸ page,?_⟩
    · rw [base,size]
      exact bound
    · rw [base,size,extent]
      exact whole
  fresh le := by simp [inv.fresh le]
  apart h h' ne := by
    obtain ⟨m,found,rfl⟩ := Option.map_eq_some_iff.mp h
    obtain ⟨m',found',rfl⟩ := Option.map_eq_some_iff.mp h'
    rw [(same m).1,(same m).2.1,(same m').1,(same m').2.1]
    exact inv.apart found found' ne
  present h := inv.present fun none => h (by simp [none])
  unborn := inv.unborn
  gone lt h := inv.gone lt (by simpa using h)

section Last

variable {a : Nat} {sh : SharedHeap}

/-- The heap's mapping changes hands, no other. -/
def handOver (t inst : Nat) (m : Mapping) : Mapping :=
  if m.use = .heap inst then { m with holder := .thread t } else m

theorem handOver_heap {inst : Nat} {m : Mapping} (use : m.use = .heap inst) :
    handOver t inst m = { m with holder := .thread t } := if_pos use

theorem handOver_other {inst : Nat} {m : Mapping} (use : m.use ≠ .heap inst) :
    handOver t inst m = m := if_neg use

@[simp] theorem handOver_use (t inst : Nat) (m : Mapping) : (handOver t inst m).use = m.use := by
  unfold handOver
  split <;> rfl

@[simp] theorem handOver_base (t inst : Nat) (m : Mapping) :
    (handOver t inst m).base = m.base := by
  unfold handOver
  split <;> rfl

@[simp] theorem handOver_size (t inst : Nat) (m : Mapping) :
    (handOver t inst m).size = m.size := by
  unfold handOver
  split <;> rfl

theorem handOver_same (t inst : Nat) (m : Mapping) : (handOver t inst m).base = m.base ∧
    (handOver t inst m).size = m.size ∧ (handOver t inst m).extent = m.extent := by
  refine ⟨handOver_base t inst m,handOver_size t inst m,?_⟩
  unfold handOver
  split <;> rfl

theorem HeapInv.retire {heaps insts nextInst tls hand dying call threads maps} {x : HeapHandle}
    (inv : HeapInv heaps insts nextInst tls hand dying call threads maps)
    (has : hand t = some x) (idle : dying t = none) (found : heaps x.addr = some sh)
    (last : sh.refs = [.op t]) :
    HeapInv (replace heaps x.addr (some { sh with references := 0, refs := [] })) insts nextInst
      tls (replace hand t none) (replace dying t (some x.addr)) call threads
      (fun id => (maps id).map (handOver t sh.inst)) := by
  have away : ∀ {h}, h ≠ x.addr →
      replace heaps x.addr (some { sh with references := 0, refs := [] }) h = heaps h :=
    fun ne => replace_other ne
  have back : ∀ {h sh'},
      replace heaps x.addr (some { sh with references := 0, refs := [] }) h = some sh' →
      ∃ sh₀, heaps h = some sh₀ ∧ sh₀.inst = sh'.inst ∧ sh₀.heap = sh'.heap := by
    intro h sh' at_
    by_cases eq : h = x.addr
    · subst eq
      obtain rfl : { sh with references := 0, refs := [] } = sh' := by simpa using at_
      exact ⟨sh,found,rfl,rfl⟩
    · exact ⟨sh',by simpa only [away eq] using at_,rfl,rfl⟩
  have forth : ∀ {h sh₀}, heaps h = some sh₀ → ∃ sh',
      replace heaps x.addr (some { sh with references := 0, refs := [] }) h = some sh' ∧
        sh'.inst = sh₀.inst ∧ sh'.heap = sh₀.heap := by
    intro h sh₀ at_
    by_cases eq : h = x.addr
    · subst eq
      obtain rfl := Option.some.inj (found.symm.trans at_)
      exact ⟨_,replace_same,rfl,rfl⟩
    · exact ⟨sh₀,(away eq).trans at_,rfl,rfl⟩
  have undead : ∀ {u h}, dying u = some h → h ≠ x.addr := by
    rintro u h dies rfl
    obtain ⟨sh',found',none⟩ := inv.dyingHeap dies
    obtain rfl := Option.some.inj (found.symm.trans found')
    simp [last] at none
  refine { inv with
    geom := ?_, count := ?_, refInst := ?_, refSlot := ?_, refOp := ?_, one := ?_, back := ?_
    instHeap := ?_, heapOld := ?_, slotOk := ?_, handOk := ?_, callHeap := ?_, dyingHeap := ?_
    dyingOne := ?_, dead := ?_, mapLive := ?_, mapHeap := ?_, mapOne := ?_, mapLarge := ?_ }
  · intro h sh' at_
    obtain ⟨sh₀,old,_,heap⟩ := back at_
    exact heap ▸ inv.geom old
  · intro h sh' at_
    by_cases eq : h = x.addr
    · subst eq
      obtain rfl : { sh with references := 0, refs := [] } = sh' := by simpa using at_
      exact ⟨rfl,List.nodup_nil⟩
    · exact inv.count (by simpa only [away eq] using at_)
  · intro h sh' i at_
    by_cases eq : h = x.addr
    · subst eq
      obtain rfl : { sh with references := 0, refs := [] } = sh' := by simpa using at_
      rw [← inv.refInst found,last]
      simp
    · exact inv.refInst (by simpa only [away eq] using at_)
  · intro h sh' u at_
    by_cases eq : h = x.addr
    · subst eq
      obtain rfl : { sh with references := 0, refs := [] } = sh' := by simpa using at_
      rw [← inv.refSlot found,last]
      simp
    · exact inv.refSlot (by simpa only [away eq] using at_)
  · intro h sh' u at_
    by_cases eq : h = x.addr
    · subst eq
      obtain rfl : { sh with references := 0, refs := [] } = sh' := by simpa using at_
      have old := inv.refOp (t := u) found
      rw [last] at old
      by_cases same : u = t
      · subst same
        simp
      · rw [replace_other same,← old]
        simp [same]
    · have old := inv.refOp (t := u) (show heaps h = some sh' by simpa only [away eq] using at_)
      by_cases same : u = t
      · subst same
        rw [old,has]
        simp [Ne.symm eq]
      · rw [old,replace_other same]
  · intro h h' sh₁ sh₂ at₁ at₂ eq
    obtain ⟨_,old₁,inst₁,_⟩ := back at₁
    obtain ⟨_,old₂,inst₂,_⟩ := back at₂
    exact inv.one old₁ old₂ (inst₁.trans (eq.trans inst₂.symm))
  · intro h sh' I at_ hi
    obtain ⟨_,old,inst,_⟩ := back at_
    rw [← inst] at hi ⊢
    exact inv.back old hi
  · intro i I y hi hy
    obtain ⟨eq,sh₀,old,inst⟩ := inv.instHeap hi hy
    obtain ⟨sh',new,inst',_⟩ := forth old
    exact ⟨eq,sh',new,inst'.trans inst⟩
  · intro h sh' at_
    obtain ⟨_,old,inst,_⟩ := back at_
    exact inst ▸ inv.heapOld old
  · intro u th alive
    obtain ⟨sh₀,old,inst,node⟩ := inv.slotOk alive
    obtain ⟨sh',new,inst',heap⟩ := forth old
    exact ⟨sh',new,inst'.trans inst,heap ▸ node⟩
  · intro u y holds
    have holds' : hand u = some y := by
      by_cases same : u = t
      · subst same
        simp at holds
      · simpa only [replace_other same] using holds
    obtain ⟨sh₀,old,inst⟩ := inv.handOk holds'
    obtain ⟨sh',new,inst',_⟩ := forth old
    exact ⟨sh',new,inst'.trans inst⟩
  · intro u r called
    obtain ⟨i,I,sh₀,inst,hi,hx,old,heap⟩ := inv.callHeap called
    obtain ⟨sh',new,_,heap'⟩ := forth old
    exact ⟨i,I,sh',inst,hi,hx,new,heap'.trans heap⟩
  · intro u h dies
    by_cases same : u = t
    · subst same
      obtain rfl : x.addr = h := by simpa using dies
      exact ⟨_,replace_same,rfl⟩
    · rw [replace_other same] at dies
      obtain ⟨sh',old,none⟩ := inv.dyingHeap dies
      exact ⟨sh',(away (undead dies)).trans old,none⟩
  · intro u u' h dies dies'
    by_cases same : u = t <;> by_cases same' : u' = t
    · rw [same,same']
    · rw [same,replace_same,Option.some.injEq] at dies
      rw [replace_other same'] at dies'
      exact absurd dies.symm (undead dies')
    · rw [same',replace_same,Option.some.injEq] at dies'
      rw [replace_other same] at dies
      exact absurd dies'.symm (undead dies)
    · rw [replace_other same] at dies
      rw [replace_other same'] at dies'
      exact inv.dyingOne dies dies'
  · intro h sh' at_ none
    by_cases eq : h = x.addr
    · exact ⟨t,by rw [replace_same,eq]⟩
    · obtain ⟨u,dies⟩ := inv.dead (by simpa only [away eq] using at_) none
      have ne : u ≠ t := by
        rintro rfl
        simp [idle] at dies
      exact ⟨u,by rw [replace_other ne,dies]⟩
  · intro h sh' at_ refs
    have eq : h ≠ x.addr := by
      rintro rfl
      obtain rfl : { sh with references := 0, refs := [] } = sh' := by simpa using at_
      exact refs rfl
    rw [away eq] at at_
    obtain ⟨id,m,at_map,use,holder,rest⟩ := inv.mapLive at_ refs
    have other : m.use ≠ .heap sh.inst := by
      rw [use]
      exact fun same => eq (inv.one at_ found (Use.heap.inj same))
    exact ⟨id,m,by simp [at_map,handOver_other other],use,holder,rest⟩
  · intro id m' i at_map use
    obtain ⟨m,old,rfl⟩ := Option.map_eq_some_iff.mp at_map
    rw [handOver_use] at use
    obtain ⟨h,sh₀,at_,inst,base,size,live,dead⟩ := inv.mapHeap old use
    by_cases eq : h = x.addr
    · subst eq
      obtain rfl := Option.some.inj (found.symm.trans at_)
      refine ⟨x.addr,_,replace_same,inst,by simpa using base,by simpa using size,
        fun refs => absurd rfl refs,fun u dies => ?_⟩
      have same : u = t := by
        by_contra ne
        rw [replace_other ne] at dies
        exact undead dies rfl
      rw [handOver_heap (by rw [use,inst]),same]
    · have other : m.use ≠ .heap sh.inst := by
        rw [use,← inst]
        exact fun same => eq (inv.one at_ found (Use.heap.inj same))
      rw [handOver_other other]
      refine ⟨h,sh₀,(away eq).trans at_,inst,base,size,live,fun u dies => ?_⟩
      by_cases same : u = t
      · rw [same,replace_same,Option.some.injEq] at dies
        exact absurd dies.symm eq
      · exact dead u (by simpa only [replace_other same] using dies)
  · intro id id' m m' i at_ at' use use'
    obtain ⟨m₀,old,rfl⟩ := Option.map_eq_some_iff.mp at_
    obtain ⟨m₀',old',rfl⟩ := Option.map_eq_some_iff.mp at'
    rw [handOver_use] at use use'
    exact inv.mapOne old old' use use'
  · intro id m' i at_ use
    obtain ⟨m,old,rfl⟩ := Option.map_eq_some_iff.mp at_
    rw [handOver_use] at use
    rw [handOver_other (by simp [use])]
    exact inv.mapLarge old use

/-- Nobody else reaches a heap whose only reference is in the hands of `t`. -/
theorem Inv.sole (inv : Inv P s) {x : HeapHandle} (found : s.heaps x.addr = some sh)
    (last : sh.refs = [.op t]) :
    (∀ u, u ≠ t → ¬(s.view u).Keeps x.addr) ∧
      ¬({ s.view t with hand := none } : View).Keeps x.addr := by
  have only : ∀ r ∈ sh.refs, r = .op t := by simp [last]
  have call : ∀ u r, (s.call u).heap = some r → r.handle.addr ≠ x.addr := by
    intro u r has eq
    obtain ⟨i,I,_,_,hi,hx,_⟩ := inv.heaps.callHeap has
    obtain ⟨inst,_⟩ := inv.heaps.instHeap hi hx
    have mem := (inv.heaps.refInst found (i := i)).mpr ⟨I,hi,by rw [hx,← inst,← eq]⟩
    simpa using only _ mem
  have slot : ∀ u th, s.tls u = .alive th → th.globalHeap.addr ≠ x.addr := by
    intro u th alive eq
    simpa using only _ ((inv.heaps.refSlot found).mpr ⟨th,alive,eq⟩)
  constructor
  · rintro u ne (⟨r,has,eq⟩ | ⟨th,alive,eq⟩ | ⟨y,has,eq⟩)
    · exact call u r has eq
    · exact slot u th alive eq
    · have := only _ ((inv.heaps.refOp found).mpr ⟨y,has,eq⟩)
      exact ne (by simpa using this)
  · rintro (⟨r,has,eq⟩ | ⟨th,alive,eq⟩ | ⟨y,has,eq⟩)
    · exact call t r has eq
    · exact slot t th alive eq
    · simp at has

theorem Inv.retire (inv : Inv P s) {x : HeapHandle} (has : s.hand t = some x)
    (idle : s.dying t = none) (found : s.heaps x.addr = some sh) (last : sh.refs = [.op t]) :
    Inv P (({ s.setHeap x.addr { sh with references := 0, refs := [] } with
      hand := replace s.hand t none } : State).retire t x.addr sh.inst) := by
  have kept : ∀ {b sl}, ((s.slots b).filter fun sl => sl.heap ≠ x.addr) = some sl ↔
      s.slots b = some sl ∧ sl.heap ≠ x.addr := by
    intro b sl
    rw [Option.filter_eq_some_iff]
    simp
  refine ⟨inv.maps.reholder (handOver_same t sh.inst),inv.heaps.retire has idle found last,
    ⟨?_,?_,?_,?_,?_,?_⟩,⟨?_,?_⟩,⟨inv.mem.link,?_⟩,?_⟩
  · intro b sl at_
    obtain ⟨old,ne⟩ := kept.mp at_
    obtain ⟨sh₀,heap,rest⟩ := inv.slots.ok old
    exact ⟨sh₀,(replace_other ne).trans heap,rest⟩
  · intro b b' sl sl' at_ at' ne
    exact inv.slots.apart (kept.mp at_).1 (kept.mp at').1 ne
  · intro h sh' n at_ node
    by_cases eq : h = x.addr
    · subst eq
      obtain rfl : { sh with references := 0, refs := [] } = sh' := by
        simpa [State.retire,State.setHeap] using at_
      have := inv.slots.bump found node
      exact this
    · exact inv.slots.bump (by simpa [State.retire,State.setHeap,replace_other eq] using at_) node
  · intro bag b mem has
    obtain ⟨mem,ne⟩ := List.mem_filter.mp mem
    obtain ⟨hd,at_⟩ := inv.slots.bag mem has
    exact ⟨hd,kept.mpr ⟨at_,by simpa using ne⟩⟩
  · intro b sl at_
    obtain ⟨old,ne⟩ := kept.mp at_
    obtain ⟨bag,mem,has,heap,rest⟩ := inv.slots.bagOf old
    exact ⟨bag,List.mem_filter.mpr ⟨mem,by simpa [heap] using ne⟩,has,heap,rest⟩
  · intro bag mem
    exact inv.slots.bagCls (List.mem_filter.mp mem).1
  · intro h sh' n c at_ refs node cls
    have eq : h ≠ x.addr := by
      rintro rfl
      obtain rfl : { sh with references := 0, refs := [] } = sh' := by
        simpa [State.retire,State.setHeap] using at_
      exact refs rfl
    have old : s.heaps h = some sh' := by
      simpa [State.retire,State.setHeap,replace_other eq] using at_
    obtain ⟨l,links,nodup,mem⟩ := inv.nodes.chain old refs node cls
    refine ⟨l,links,nodup,fun b => (mem b).trans (exists_congr fun sl => ?_)⟩
    refine and_congr_left fun on => ?_
    refine Iff.trans (and_iff_left_of_imp fun at_ => ?_).symm kept.symm
    have ref := congrArg StackRef.heap (inv.nodes.ref at_ on)
    simp only [Slot.ref] at ref
    exact ref ▸ eq
  · intro b sl k at_ on
    exact inv.nodes.ref (kept.mp at_).1 on
  · intro id m' p at_ payload
    obtain ⟨m,old,rfl⟩ := Option.map_eq_some_iff.mp at_
    by_cases use : m.use = .heap sh.inst
    · rw [if_pos use] at payload
      obtain ⟨⟨i,large⟩,_⟩ := inv.mem.header old payload
      simp [use] at large
    · rw [if_neg use] at payload ⊢
      exact inv.mem.header old payload
  · refine { inv.live with backed := fun {b} live => ?_, ofSlot := fun at_ => ?_, ofMap := fun {id m'} at_ user => ?_ }
    · refine (inv.live.backed live).mono (fun {sl I y} at_ user hi hy addr => ?_)
        (fun {id m} at_ user payload => ?_) fun {I _} hi hx => ⟨I,hi,hx⟩
      · -- a live block keeps its allocator, and the allocator its heap
        refine kept.mpr ⟨at_,fun eq => ?_⟩
        obtain ⟨inst,_⟩ := inv.heaps.instHeap hi hy
        have mem := (inv.heaps.refInst found).mpr ⟨I,hi,by rw [hy,← inst,← eq,← addr]⟩
        simp [last] at mem
      · have other : m.use ≠ .heap sh.inst := by
          obtain ⟨⟨i,large⟩,_⟩ := inv.mem.header at_ payload
          simp [large]
        simp [State.retire,State.setHeap,at_,other]
    · exact inv.live.ofSlot (kept.mp at_).1
    · obtain ⟨m,old,rfl⟩ := Option.map_eq_some_iff.mp at_
      by_cases use : m.use = .heap sh.inst
      · rw [if_pos use] at user
        simp at user
      · rw [if_neg use] at user
        exact inv.live.ofMap old user

end Last

/-! The actions. -/

theorem slotTake_kept {destroy : Bool} {r : ThreadHeapSlot} (inv : Inv P s)
    (safe : safe P strict (.slotTake destroy) (s.view t))
    (run : exec P strict t (.slotTake destroy) ch s = some (r,s')) :
    Kept P t s s' (step P strict (.slotTake destroy) (s.view t) r (s'.view t)) := by
  have free : s.hand t = none := safe
  have rest : ∀ y, (if destroy then ThreadHeapSlot.destroyed else .empty) ≠ .alive y := by
    intro y
    split <;> simp
  have leave : (∀ y, s.tls t ≠ .alive y) → Inv P { s with
      tls := replace s.tls t (if destroy then .destroyed else .empty) } := by
    intro empty
    refine { inv with heaps := { inv.heaps with refSlot := fun {h sh u} found => ?_, slotOk := fun {u th} alive => ?_ } }
    · rw [inv.heaps.refSlot found]
      by_cases same : u = t
      · subst same
        simp [empty,rest]
      · simp [replace_other same]
    · by_cases same : u = t
      · subst same
        exact absurd (by simpa using alive) (rest th)
      · exact inv.heaps.slotOk (by simpa only [replace_other same] using alive)
  cases alive : s.tls t with
  | alive th =>
    simp only [exec,alive,Option.bind_eq_bind,Option.bind_eq_some_iff,Option.some.injEq,
      Prod.mk.injEq] at run
    obtain ⟨sh,found,rfl,rfl⟩ := run
    refine ⟨inv.takeSlot alive rest free found,⟨alive.symm,?_⟩,fun u ne => ?_⟩
    · simp only [State.view,State.setHeap,alive,replace_same]
      rfl
    · exact view_eq (replace_other ne) rfl (replace_other ne) rfl rfl rfl rfl
  | empty =>
    simp only [exec,alive,Option.some.injEq,Prod.mk.injEq] at run
    obtain ⟨rfl,rfl⟩ := run
    refine ⟨leave (by simp [alive]),⟨alive.symm,?_⟩,fun u ne => ?_⟩
    · simp only [State.view,alive,replace_same,free]
      rfl
    · exact view_eq (replace_other ne) rfl rfl rfl rfl rfl rfl
  | destroyed =>
    simp only [exec,alive,Option.some.injEq,Prod.mk.injEq] at run
    obtain ⟨rfl,rfl⟩ := run
    refine ⟨leave (by simp [alive]),⟨alive.symm,?_⟩,fun u ne => ?_⟩
    · simp only [State.view,alive,replace_same,free]
      rfl
    · exact view_eq (replace_other ne) rfl rfl rfl rfl rfl rfl

theorem slotSet_kept {th : PerThreadHeap} (inv : Inv P s)
    (safe : safe P strict (.slotSet th) (s.view t))
    (run : exec P strict t (.slotSet th) ch s = some ((),s')) :
    Kept P t s s' (step P strict (.slotSet th) (s.view t) () (s'.view t)) := by
  obtain ⟨ref,call,handle,has,node,empty,_⟩ := safe
  simp only [exec,Option.bind_eq_bind,Option.bind_eq_some_iff,Option.some.injEq,
    Prod.mk.injEq,true_and] at run
  obtain ⟨sh,found,rfl⟩ := run
  have geom := (inv.heaps.call_refs call (by rw [← handle]; exact found)).2
  refine ⟨inv.putSlot empty has found (geom ▸ node),?_,fun u ne => ?_⟩
  · simp only [step,State.view,State.setHeap,State.setThread,replace_same]
    rfl
  · exact view_eq (replace_other ne) rfl (replace_other ne) rfl rfl rfl rfl

theorem fetchAddNode_kept {inst r : Nat} (inv : Inv P s)
    (run : exec P strict t (.fetchAddNode inst) ch s = some (r,s')) :
    Kept P t s s' (step P strict (.fetchAddNode inst) (s.view t) r (s'.view t)) := by
  simp only [exec,Option.bind_eq_bind,Option.bind_eq_some_iff,Option.some.injEq,
    Prod.mk.injEq] at run
  obtain ⟨I₀,at_,_,rfl⟩ := run
  -- only the round-robin counter of the allocator changed
  have back : ∀ {i I}, replace s.insts inst (some { I₀ with
      nextNode := (I₀.nextNode + 1) % 2 ^ 64 }) i = some I →
      ∃ J, s.insts i = some J ∧ J.heap = I.heap := by
    intro i I h
    by_cases same : i = inst
    · subst same
      obtain rfl : { I₀ with nextNode := (I₀.nextNode + 1) % 2 ^ 64 } = I := by simpa using h
      exact ⟨I₀,at_,rfl⟩
    · exact ⟨I,by simpa only [replace_other same] using h,rfl⟩
  have forth : ∀ {i J}, s.insts i = some J → ∃ I, replace s.insts inst (some { I₀ with
      nextNode := (I₀.nextNode + 1) % 2 ^ 64 }) i = some I ∧ I.heap = J.heap := by
    intro i J h
    by_cases same : i = inst
    · subst same
      obtain rfl := Option.some.inj (at_.symm.trans h)
      exact ⟨_,replace_same,rfl⟩
    · exact ⟨J,(replace_other same).trans h,rfl⟩
  refine ⟨{ inv with
    heaps := { inv.heaps with
      refInst := fun found => (inv.heaps.refInst found).trans ?_
      back := fun found hi => ?_, instHeap := fun hi hx => ?_, instFresh := fun {i} le => ?_
      callHeap := fun has => ?_, callInst := fun has => ?_ }
    live := { inv.live with
      backed := fun live => (inv.live.backed live).mono (fun found _ _ _ _ => found)
        (fun found _ _ => found) fun hi hx => ?_
      ofSlot := fun found user hi hx => ?_ } },rfl,fun _ _ => rfl⟩
  · constructor
    · rintro ⟨J,hj,hx⟩
      obtain ⟨I,hi,eq⟩ := forth hj
      exact ⟨I,hi,eq.trans hx⟩
    · rintro ⟨I,hi,hx⟩
      obtain ⟨J,hj,eq⟩ := back hi
      exact ⟨J,hj,eq.trans hx⟩
  · obtain ⟨J,hj,eq⟩ := back hi
    exact eq ▸ inv.heaps.back found hj
  · obtain ⟨J,hj,eq⟩ := back hi
    exact inv.heaps.instHeap hj (eq.trans hx)
  · have none := inv.heaps.instFresh le
    have same : i ≠ inst := by
      rintro rfl
      simp [at_] at none
    exact (replace_other same).trans none
  · obtain ⟨i,J,sh,inst',hj,hx,rest⟩ := inv.heaps.callHeap has
    obtain ⟨I,hi,eq⟩ := forth hj
    exact ⟨i,I,sh,inst',hi,eq.trans hx,rest⟩
  · obtain ⟨⟨J,hj⟩,mem⟩ := inv.heaps.callInst has
    obtain ⟨I,hi,_⟩ := forth hj
    exact ⟨⟨I,hi⟩,mem⟩
  · obtain ⟨I,hi',eq⟩ := forth hi
    exact ⟨I,hi',eq.trans hx⟩
  · obtain ⟨J,hj,eq⟩ := back hi
    exact inv.live.ofSlot found user hj (eq.trans hx)

theorem fetchAddRefs_kept {h : HeapHandle} {r : Nat} (inv : Inv P s)
    (safe : safe P strict (.fetchAddRefs h) (s.view t))
    (run : exec P strict t (.fetchAddRefs h) ch s = some (r,s')) :
    Kept P t s s' (step P strict (.fetchAddRefs h) (s.view t) r (s'.view t)) := by
  obtain ⟨free,ref,call,rfl⟩ := safe
  simp only [exec,Option.bind_eq_bind,Option.bind_eq_some_iff,Option.some.injEq,
    Prod.mk.injEq] at run
  obtain ⟨sh,found,_,rfl⟩ := run
  obtain ⟨i,I,sh',_,hi,hx,found',_⟩ := inv.heaps.callHeap call
  obtain rfl := Option.some.inj (found.symm.trans found')
  obtain ⟨inst,sh'',found'',inst'⟩ := inv.heaps.instHeap hi hx
  obtain rfl := Option.some.inj (found.symm.trans found'')
  refine ⟨inv.addRef free found (inst'.trans inst.symm) (inv.heaps.call_refs call found).1,?_,
    fun u ne => ?_⟩
  · simp only [step,State.view,State.setHeap,replace_same]
    rfl
  · exact view_eq rfl rfl (replace_other ne) rfl rfl rfl rfl

/-- The mapping of the retired heap joins the thread's; no other view changes. -/
theorem Inv.retire_view (inv : Inv P s) {x : HeapHandle} {sh : SharedHeap}
    (rooted : ∀ u, (s.view u).Rooted) (has : s.hand t = some x)
    (found : s.heaps x.addr = some sh) (last : sh.refs = [.op t])
    (own : ∀ b B, (s.view t).blocks b = some B → B.ref.heap ≠ x.addr) :
    (∃ id m, (s.view t).maps id = none ∧ MapOk P m ∧ m.use = .heap x.inst ∧
      (({ s.setHeap x.addr { sh with references := 0, refs := [] } with
        hand := replace s.hand t none } : State).retire t x.addr sh.inst).view t =
        { s.view t with
          hand := none
          dying := some x.addr
          maps := replace (s.view t).maps id (some m) }) ∧
    ∀ u, u ≠ t → (({ s.setHeap x.addr { sh with references := 0, refs := [] } with
      hand := replace s.hand t none } : State).retire t x.addr sh.inst).view u = s.view u := by
  have inst : sh.inst = x.inst := by
    obtain ⟨sh',found',inst⟩ := inv.heaps.handOk has
    obtain rfl := Option.some.inj (found.symm.trans found')
    exact inst
  have foreign : ∀ {u b B}, (s.view u).blocks b = some B → B.ref.heap ≠ x.addr := by
    intro u b B block
    by_cases same : u = t
    · subst same
      exact own b B block
    · exact fun eq => (inv.sole found last).1 u same (eq ▸ rooted u b B block)
  have blocks : ∀ u, (({ s.setHeap x.addr { sh with references := 0, refs := [] } with
      hand := replace s.hand t none } : State).retire t x.addr sh.inst).blockOf u =
      s.blockOf u := by
    intro u
    funext b
    simp only [State.blockOf,State.retire,State.setHeap]
    cases at_ : s.slots b with
    | none => simp
    | some sl =>
      by_cases away : sl.heap = x.addr
      · have notMine : sl.holder ≠ .thread u := fun mine =>
          foreign (view_block_some at_ mine) away
        simp [Option.filter,away,notMine]
      · simp [Option.filter,away]
  obtain ⟨id,m,at_,use,holder,_⟩ := inv.heaps.mapLive found (by simp [last])
  have only : ∀ {id' m'}, s.maps id' = some m' → id' ≠ id → m'.use ≠ .heap sh.inst :=
    fun at' ne use' => ne (inv.heaps.mapOne at' at_ use' use)
  constructor
  · refine ⟨id,{ m with holder := .thread t },?_,?_,by rw [← inst]; exact use,?_⟩
    · simp [State.view,State.mapOf,at_,holder]
    · obtain ⟨a,b,c,d,e⟩ := inv.maps.ok at_
      exact ⟨a,b,c,d,e⟩
    · have maps : (({ s.setHeap x.addr { sh with references := 0, refs := [] } with
          hand := replace s.hand t none } : State).retire t x.addr sh.inst).mapOf t =
          replace (s.mapOf t) id (some { m with holder := .thread t }) := by
        funext id'
        by_cases same : id' = id
        · subst same
          simp [State.mapOf,State.retire,State.setHeap,at_,use]
        · rw [replace_other same]
          simp only [State.mapOf,State.retire,State.setHeap]
          cases at' : s.maps id' with
          | none => rfl
          | some m' => simp [only at' same]
      exact view_is rfl rfl replace_same replace_same rfl (blocks t) maps
  · intro u ne
    refine view_eq rfl rfl (replace_other ne) (replace_other ne) rfl (blocks u) ?_
    funext id'
    simp only [State.mapOf,State.retire,State.setHeap]
    cases at' : s.maps id' with
    | none => rfl
    | some m' =>
      by_cases same : id' = id
      · subst same
        obtain rfl := Option.some.inj (at_.symm.trans at')
        simp [use,holder,ne.symm]
      · simp [only at' same]

theorem fetchSubRefs_kept {h : HeapHandle} {r : Nat} (inv : Inv P s)
    (rooted : ∀ u, (s.view u).Rooted) (safe : safe P strict (.fetchSubRefs h) (s.view t))
    (run : exec P strict t (.fetchSubRefs h) ch s = some (r,s')) :
    Kept P t s s' (step P strict (.fetchSubRefs h) (s.view t) r (s'.view t)) := by
  obtain ⟨has,idle,keeps⟩ := safe
  simp only [exec,Option.bind_eq_bind,Option.bind_eq_some_iff,Option.some.injEq,
    Prod.mk.injEq] at run
  obtain ⟨sh,found,rfl,rfl⟩ := run
  by_cases one : sh.references = 1
  · obtain ⟨length,nodup⟩ := inv.heaps.count found
    have here : Ref.op t ∈ sh.refs := (inv.heaps.refOp found).mpr ⟨_,has,rfl⟩
    have last : sh.refs = [.op t] := by
      obtain ⟨r,eq⟩ := List.length_eq_one_iff.mp (length.symm.trans one)
      rw [eq] at here ⊢
      rw [List.mem_singleton.mp here]
    have own : ∀ b B, (s.view t).blocks b = some B → B.ref.heap ≠ h.addr :=
      fun b B block eq => (inv.sole found last).2 (keeps b B block eq)
    have state : { sh with references := sh.references - 1, refs := sh.refs.erase (.op t) } =
        { sh with references := 0, refs := [] } := by simp [one,last]
    obtain ⟨⟨id,m,fresh,ok,use,view⟩,others⟩ := inv.retire_view rooted has found last own
    rw [if_pos one,state]
    refine ⟨inv.retire has idle found last,?_,others⟩
    simp only [step,one,if_true]
    exact ⟨own,id,m,fresh,ok,use,view⟩
  · rw [if_neg one]
    refine ⟨inv.subRef has found one,?_,fun u ne => ?_⟩
    · simp only [step,one,if_false,State.view,State.setHeap,replace_same]
      rfl
    · exact view_eq rfl rfl (replace_other ne) rfl rfl rfl rfl

theorem extent_kept {h : HeapHandle} {r : Nat × Nat} (inv : Inv P s)
    (safe : safe P strict (.extent h) (s.view t))
    (run : exec P strict t (.extent h) ch s = some (r,s')) :
    Kept P t s s' (step P strict (.extent h) (s.view t) r (s'.view t)) := by
  simp only [exec,Option.bind_eq_bind,Option.bind_eq_some_iff,Option.some.injEq,
    Prod.mk.injEq] at run
  obtain ⟨sh,found,rfl,rfl⟩ := run
  refine ⟨inv,⟨rfl,fun id m held use => ?_⟩,fun _ _ => rfl⟩
  -- a heap mapping in a thread's hands is that of the heap it is destroying
  obtain ⟨at_,holder⟩ := view_map.mp held
  obtain ⟨a,sh',found',_,base,size,live,dead⟩ := inv.heaps.mapHeap at_ use
  have none : sh'.refs = [] := by
    by_contra some
    simp [holder] at live
    exact some live
  obtain ⟨u,dies⟩ := inv.heaps.dead found' none
  have mine := dead u dies
  rw [holder,MapHolder.thread.injEq] at mine
  subst mine
  obtain rfl : h.addr = a := Option.some.inj (Eq.trans (Eq.symm safe) dies)
  obtain rfl := Option.some.inj (found.symm.trans found')
  exact ⟨base,size⟩

theorem HeapInv.free {heaps insts nextInst tls hand dying call threads maps} {a : Nat}
    {sh : SharedHeap} (inv : HeapInv heaps insts nextInst tls hand dying call threads maps)
    (dies : dying t = some a) (found : heaps a = some sh) (unreferenced : sh.refs = [])
    (unmapped : ∀ {id m}, maps id = some m → m.use ≠ .heap sh.inst) :
    HeapInv (replace heaps a none) insts nextInst tls hand (replace dying t none) call threads
      maps := by
  have old : ∀ {h sh'}, replace heaps a none h = some sh' → h ≠ a ∧ heaps h = some sh' := by
    intro h sh' at_
    by_cases eq : h = a
    · subst eq
      simp at at_
    · exact ⟨eq,by simpa only [replace_other eq] using at_⟩
  have nobody : ∀ r, r ∉ sh.refs := by simp [unreferenced]
  have others : ∀ {u h}, replace dying t none u = some h → u ≠ t ∧ dying u = some h := by
    intro u h dies'
    by_cases eq : u = t
    · subst eq
      simp at dies'
    · exact ⟨eq,by simpa only [replace_other eq] using dies'⟩
  have instAway : ∀ {i I x}, insts i = some I → I.heap = some x → x.addr ≠ a := by
    intro i I x hi hx eq
    obtain ⟨inst,_⟩ := inv.instHeap hi hx
    exact nobody _ ((inv.refInst found).mpr ⟨I,hi,by rw [hx,← inst,← eq]⟩)
  refine { inv with
    geom := fun at_ => inv.geom (old at_).2, count := fun at_ => inv.count (old at_).2
    refInst := fun at_ => inv.refInst (old at_).2, refSlot := fun at_ => inv.refSlot (old at_).2
    refOp := fun at_ => inv.refOp (old at_).2
    one := fun at_ at' => inv.one (old at_).2 (old at').2
    back := fun at_ => inv.back (old at_).2
    heapOld := fun at_ => inv.heapOld (old at_).2
    mapLive := fun at_ => inv.mapLive (old at_).2
    instHeap := ?_, slotOk := ?_, handOk := ?_, callHeap := ?_, dyingHeap := ?_, dyingOne := ?_
    dead := ?_, mapHeap := ?_ }
  · intro i I x hi hx
    obtain ⟨inst,sh',at_,eq⟩ := inv.instHeap hi hx
    exact ⟨inst,sh',(replace_other (instAway hi hx)).trans at_,eq⟩
  · intro u th alive
    obtain ⟨sh',at_,rest⟩ := inv.slotOk alive
    have away : th.globalHeap.addr ≠ a := fun eq =>
      nobody _ ((inv.refSlot found).mpr ⟨th,alive,eq⟩)
    exact ⟨sh',(replace_other away).trans at_,rest⟩
  · intro u x has
    obtain ⟨sh',at_,rest⟩ := inv.handOk has
    have away : x.addr ≠ a := fun eq => nobody _ ((inv.refOp found).mpr ⟨x,has,eq⟩)
    exact ⟨sh',(replace_other away).trans at_,rest⟩
  · intro u r has
    obtain ⟨i,I,sh',inst,hi,hx,at_,geom⟩ := inv.callHeap has
    exact ⟨i,I,sh',inst,hi,hx,(replace_other (instAway hi hx)).trans at_,geom⟩
  · intro u h dies'
    obtain ⟨ne,before⟩ := others dies'
    obtain ⟨sh',at_,empty⟩ := inv.dyingHeap before
    have away : h ≠ a := fun eq => ne (inv.dyingOne before (eq ▸ dies))
    exact ⟨sh',(replace_other away).trans at_,empty⟩
  · intro u u' h dies₁ dies₂
    exact inv.dyingOne (others dies₁).2 (others dies₂).2
  · intro h sh' at_ empty
    obtain ⟨ne,at_⟩ := old at_
    obtain ⟨u,dies'⟩ := inv.dead at_ empty
    have other : u ≠ t := by
      rintro rfl
      exact ne (Option.some.inj (dies'.symm.trans dies))
    exact ⟨u,(replace_other other).trans dies'⟩
  · intro id m i at_map use
    obtain ⟨h,sh',at_,inst,base,size,live,dead⟩ := inv.mapHeap at_map use
    have away : h ≠ a := by
      rintro rfl
      obtain rfl := Option.some.inj (found.symm.trans at_)
      exact unmapped at_map (inst ▸ use)
    exact ⟨h,sh',(replace_other away).trans at_,inst,base,size,live,
      fun u dies' => dead u (others dies').2⟩

theorem sysDealloc_kept {h : HeapHandle} (inv : Inv P s)
    (safe : safe P strict (.sysDealloc h) (s.view t))
    (run : exec P strict t (.sysDealloc h) ch s = some ((),s')) :
    Kept P t s s' (step P strict (.sysDealloc h) (s.view t) () (s'.view t)) := by
  obtain ⟨dies,unmapped⟩ := safe
  simp only [exec,Option.some.injEq,Prod.mk.injEq,true_and] at run
  subst run
  obtain ⟨sh,found,unreferenced⟩ := inv.heaps.dyingHeap dies
  have gone : ∀ {id m}, s.maps id = some m → m.use ≠ .heap sh.inst := by
    intro id m at_ use
    obtain ⟨a,sh',found',inst,_,_,_,dead⟩ := inv.heaps.mapHeap at_ use
    obtain rfl := inv.heaps.one found found' inst.symm
    exact unmapped id m _ (view_map.mpr ⟨at_,dead t dies⟩) use
  have away : ∀ {a sh'}, s.heaps a = some sh' → sh'.refs ≠ [] → a ≠ h.addr := by
    rintro a sh' at_ refs rfl
    obtain rfl := Option.some.inj (found.symm.trans at_)
    exact refs unreferenced
  have old : ∀ {a sh'}, replace s.heaps h.addr none a = some sh' → s.heaps a = some sh' := by
    intro a sh' at_
    by_cases eq : a = h.addr
    · subst eq
      simp at at_
    · simpa only [replace_other eq] using at_
  refine ⟨{ inv with
    heaps := inv.heaps.free dies found unreferenced gone
    slots := { inv.slots with ok := fun at_ => ?_, bump := fun at_ => inv.slots.bump (old at_) }
    nodes := ⟨fun at_ => inv.nodes.chain (old at_),inv.nodes.ref⟩ },?_,fun u ne => ?_⟩
  · obtain ⟨sh',at',refs,rest⟩ := inv.slots.ok at_
    exact ⟨sh',(replace_other (away at' refs)).trans at',refs,rest⟩
  · simp only [step,State.view,replace_same]
    rfl
  · exact view_eq rfl rfl rfl (replace_other ne) rfl rfl rfl

end Numalloc
