import Numalloc.History

/-! The route a deallocation takes. There are no headers on small blocks: the layout and
an address test decide, and they decide as the allocation did, whatever it fell back to. -/
namespace Numalloc

open Concurrent View

/-- What was written in front of the payload of a mapping when it was handed out. -/
def State.Header (s : State) (ptr original size : Nat) : Prop :=
  readLE s.mem (ptr - headerSize) 8 = original ∧ readLE s.mem (ptr - headerSize + 8) 8 = size

variable {P : Platform} {strict : Bool} {c c₀ c₁ : World P strict} {t ptr inst id : Nat}
  {layout : Layout} {a : Alloc} {m : Mapping} {v v' : View} {k : Unit → Prog allocI Unit}

/-- What the operation knows of its operand between the release and the end of the route. -/
def Operand.Known (v : View) (a : Alloc) : Prop :=
  match a.source with
  | .slot => ∃ r n cls link, v.call.heap = some r ∧ r.geom.nodeForPtr a.ptr = some n ∧
      sizeClassIndex a.layout.effective = some cls ∧
      v.blocks a.ptr = some ⟨⟨r.handle.addr,n,cls⟩,link⟩ ∧ 0 < a.ptr
  | .mapping id => ∃ m, v.maps id = some m ∧ m.payload = some a.ptr ∧ m.use = .large a.inst ∧
      m.base ≤ a.ptr ∧ a.ptr < m.base + m.size ∧ 0 < a.ptr
  | .stray => False

/-- The operation that is left when the route is decided. -/
def Operand.Routed (k : Unit → Prog allocI Unit) (prog : Prog allocI Unit) (v : View) (a : Alloc) :
    Prop :=
  match a.source with
  | .slot => ∃ r n cls link, r.geom.nodeForPtr a.ptr = some n ∧
      sizeClassIndex a.layout.effective = some cls ∧ v.call.heap = some r ∧
      v.blocks a.ptr = some ⟨⟨r.handle.addr,n,cls⟩,link⟩ ∧
      prog = (deallocSmall a.inst a.ptr r n cls).bind k
  | .mapping id => (∃ m, v.maps id = some m ∧ m.payload = some a.ptr) ∧
      prog = (deallocLarge a.inst a.ptr).bind k
  | .stray => False

theorem Operand.known_of_release (pin : v.pin = some a)
    (released : (allocLogic P strict).step .release v () v') : Operand.Known v' a := by
  obtain ⟨a',pin',taken⟩ := released
  obtain rfl := Option.some.inj (pin.symm.trans pin')
  unfold Operand.Known
  cases source : a.source with
  | slot =>
    simp only [source] at taken ⊢
    obtain ⟨r,n,cls,link,call,node,index,_,user,rfl⟩ := taken
    exact ⟨r,n,cls,link,call,node,index,replace_same,user.1⟩
  | mapping id =>
    simp only [source] at taken ⊢
    obtain ⟨m,_,_,payload,use,placed,pos,_,rfl⟩ := taken
    exact ⟨m,replace_same,payload,use,(Nat.le_add_right _ _).trans placed.header,placed.inside,pos⟩
  | stray => simp only [source] at taken

theorem Operand.known_pos (known : Operand.Known v a) : 0 < a.ptr := by
  unfold Operand.Known at known
  cases source : a.source with
  | slot =>
    simp only [source] at known
    obtain ⟨_,_,_,_,_,_,_,_,pos⟩ := known
    exact pos
  | mapping id =>
    simp only [source] at known
    obtain ⟨_,_,_,_,_,_,pos⟩ := known
    exact pos
  | stray => simp only [source] at known

/-- Above the limit nothing is left to decide; the operand cannot be a block. -/
theorem Operand.routed_big (known : Operand.Known v a) (big : smallLimit < a.layout.effective) :
    Operand.Routed k ((dealloc a.inst a.ptr a.layout).bind k) v a := by
  have pos := Operand.known_pos known
  have route : dealloc a.inst a.ptr a.layout = deallocLarge a.inst a.ptr := by
    unfold dealloc
    rw [if_neg (by omega),if_pos big]
  unfold Operand.Routed
  unfold Operand.Known at known
  cases source : a.source with
  | slot =>
    simp only [source] at known
    obtain ⟨_,_,_,_,_,_,index,_⟩ := known
    have := (sizeClassIndex_spec index).2.2.1
    omega
  | mapping id =>
    simp only [source] at known
    obtain ⟨m,held,payload,_⟩ := known
    exact ⟨⟨m,held,payload⟩,congrArg (Prog.bind · k) route⟩
  | stray => simp only [source] at known

/-- The steps of a deallocation up to the address test. -/
theorem dealloc_small_eq (pos : 0 < ptr) (small : ¬smallLimit < layout.effective) :
    (dealloc inst ptr layout).bind k = .act (I := allocI) (.heap inst) fun heap =>
      (match heap.geom.nodeForPtr ptr with
        | none => deallocLarge inst ptr
        | some n => match sizeClassIndex layout.effective with
          | none => .ret ()
          | some cls => deallocSmall inst ptr heap n cls).bind k := by
  unfold dealloc
  rw [if_neg (by omega),if_neg small]
  rfl

/-- The address test sends a block to its node and a mapping to the large path. -/
theorem Operand.routed_small {heap : HeapRef} (known : Operand.Known v a)
    (named : (allocLogic P strict).step (.heap a.inst) v heap v') :
    Operand.Routed k ((match heap.geom.nodeForPtr a.ptr with
        | none => deallocLarge a.inst a.ptr
        | some n => match sizeClassIndex a.layout.effective with
          | none => .ret ()
          | some cls => deallocSmall a.inst a.ptr heap n cls).bind k) v' a := by
  obtain ⟨rfl,once,_,_,_,outside,_⟩ := named
  unfold Operand.Routed
  unfold Operand.Known at known
  cases source : a.source with
  | slot =>
    simp only [source] at known ⊢
    obtain ⟨r,n,cls,link,call,node,index,block,_⟩ := known
    obtain rfl := once r call
    exact ⟨heap,n,cls,link,node,index,rfl,block,by rw [node,index]⟩
  | mapping id =>
    simp only [source] at known ⊢
    obtain ⟨m,held,payload,use,low,high,_⟩ := known
    exact ⟨⟨m,held,payload⟩,by rw [outside id m a.inst a.ptr held use low high]⟩
  | stray => simp only [source] at known

/-- How far a deallocation has come after `n` steps of its own. -/
def Operand.Phase (k : Unit → Prog allocI Unit) (a : Alloc) : Nat → Prog allocI Unit → View → Prop
  | 0, prog, v => prog = ((act .release).bind fun _ => (dealloc a.inst a.ptr a.layout).bind k) ∧
      v.pin = some a
  | 1, prog, v => prog = (dealloc a.inst a.ptr a.layout).bind k ∧ Operand.Known v a
  | _, prog, v => Operand.Routed k prog v a

theorem Operand.Routed.busy {prog : Prog allocI Unit} (routed : Operand.Routed k prog v a) :
    prog ≠ .ret () := by
  rintro rfl
  unfold Operand.Routed at routed
  split at routed
  · obtain ⟨_,_,_,_,_,_,_,_,eq⟩ := routed
    cases eq
  · exact nomatch routed.2
  · exact routed

theorem Operand.Phase.busy {n : Nat} {prog : Prog allocI Unit} (phase : Operand.Phase k a n prog v) :
    prog ≠ .ret () := by
  match n with
  | 0 =>
    obtain ⟨rfl,_⟩ := phase
    exact fun eq => nomatch eq
  | 1 =>
    obtain ⟨rfl,known⟩ := phase
    by_cases big : smallLimit < a.layout.effective
    · exact (Operand.routed_big (k := k) known big).busy
    · rw [dealloc_small_eq (Operand.known_pos known) big]
      exact fun eq => nomatch eq
  | _ + 2 => exact Operand.Routed.busy phase

/-- Once the thread that deallocates has made its decision, in whatever interleaving, the
operand goes where it came from. -/
theorem World.Fine.routed {schedule : List Label} (fine : Fine P strict c₀)
    (at_ : c₀.prog t = (act .release).bind fun _ => (dealloc a.inst a.ptr a.layout).bind k)
    (pinned : c₀.state.pinned t = some a) (run : c₀.execute schedule = some c)
    (decided : World.turns t schedule = if smallLimit < a.layout.effective then 1 else 2) :
    Operand.Routed k (c.prog t) (c.state.view t) a := by
  have followed : Operand.Phase k a (0 + World.turns t schedule) (c.prog t) (c.state.view t) :=
    World.Fine.follow fine run (fun _ _ _ phase => phase.busy) ⟨at_,pinned⟩ ?_
  · rw [Nat.zero_add,decided] at followed
    split at followed
    case isTrue big =>
      obtain ⟨prog,known⟩ := followed
      rw [prog]
      exact Operand.routed_big known big
    case isFalse small => exact followed
  intro i c c' ch fine bound phase step
  rw [Nat.zero_add,decided] at bound
  match i with
  | 0 =>
    obtain ⟨prog,pin⟩ := phase
    obtain ⟨_,released,prog'⟩ := World.Fine.turn fine step prog
    exact ⟨prog',Operand.known_of_release pin released⟩
  | 1 =>
    obtain ⟨prog,known⟩ := phase
    split at bound
    case isTrue big => omega
    case isFalse small =>
      rw [dealloc_small_eq (Operand.known_pos known) small] at prog
      obtain ⟨heap,named,prog'⟩ := World.Fine.turn fine step prog
      have route := Operand.routed_small (k := k) known named
      rw [← prog'] at route
      exact route
  | i + 2 => split at bound <;> omega

/-- A mapping that backs an allocation is the one in front of whose payload the header was
written, at any time. -/
theorem Inv.header {s : State} (inv : Inv P s) (live : a ∈ s.live) (source : a.source = .mapping id) :
    ∃ m, s.maps id = some m ∧ s.Header a.ptr m.base m.size := by
  have backed := inv.live.backed live
  simp only [Backed,source] at backed
  obtain ⟨m,found,_,_,payload,_⟩ := backed
  obtain ⟨_,_,_,original,size⟩ := inv.mem.header found payload
  exact ⟨m,found,original,size⟩

theorem prog_next_bind {α β : Type} {p : Prog allocI α} {f : α → Prog allocI β} {x : Act}
    (next : p.next = some x) : (p.bind f).next = some x := by
  cases p with
  | act y k => exact next
  | ret b => cases next
  | loop body i k => cases next

/-- A deallocation takes the large path exactly for what a mapping backs, and then the words
in front of the pointer are what they were whenever the mapping was handed out; anything
else goes to a list of its own class and node. This is where the deallocation of a request
stands, and the one at the end of a reallocation. -/
theorem dealloc_route {schedule : List Label} (reachable : c₀.Reachable)
    (at_ : c₀.prog t = (act .release).bind fun _ => (dealloc a.inst a.ptr a.layout).bind k)
    (pinned : c₀.state.pinned t = some a) (run : c₀.execute schedule = some c)
    (decided : World.turns t schedule = if smallLimit < a.layout.effective then 1 else 2) :
    (c.prog t = (deallocLarge a.inst a.ptr).bind k ↔ ∃ id, a.source = .mapping id) ∧
    (∀ id, a.source = .mapping id → ∃ m, c.state.maps id = some m ∧
      c.state.Header a.ptr m.base m.size ∧
      ∀ (c₁ : World P strict) earlier (a₁ : Alloc), c₁.Reachable → c₁.execute earlier = some c₀ → a₁ ∈ c₁.state.live →
        a₁.source = .mapping id → c₁.state.Header a₁.ptr m.base m.size) ∧
    ((∀ id, a.source ≠ .mapping id) → ∃ sl r, c.state.slots a.ptr = some sl ∧
      (∃ bag ∈ c.state.bags, bag.HasSlot a.ptr ∧ bag.heap = sl.heap ∧ bag.node = sl.node ∧
        bag.cls = sl.cls) ∧
      r.handle.addr = sl.heap ∧ r.geom.nodeForPtr a.ptr = some sl.node ∧
      c.prog t = (deallocSmall a.inst a.ptr r sl.node sl.cls).bind k) := by
  have fine₀ := World.Reachable.fine reachable
  have fine := World.Fine.execute fine₀ run
  have routed := World.Fine.routed fine₀ at_ pinned run decided
  obtain ⟨live,_⟩ := pinned_some pinned
  have backed := fine₀.inv.live.backed live
  unfold Operand.Routed at routed
  cases source : a.source with
  | stray => simp only [Backed,source] at backed
  | slot =>
    simp only [source] at routed
    obtain ⟨r,n,cls,link,node,_,_,block,prog⟩ := routed
    refine ⟨⟨fun large => ?_,by simp⟩,by simp,fun _ => ?_⟩
    · -- one starts at the thread-local slot, the other at the header
      have small : (c.prog t).next = some .slotGet := by
        rw [prog]
        exact prog_next_bind rfl
      rw [large] at small
      cases small
    · obtain ⟨sl,found,_,same⟩ := view_block block
      simp only [Block.mk.injEq,Slot.ref,StackRef.mk.injEq] at same
      obtain ⟨⟨heap,rfl,rfl⟩,_⟩ := same
      obtain ⟨bag,mem,has,rest⟩ := fine.inv.slots.bagOf found
      exact ⟨sl,r,found,⟨bag,mem,has,rest⟩,heap,node,prog⟩
  | mapping id =>
    simp only [source] at routed
    obtain ⟨⟨m,held,payload⟩,prog⟩ := routed
    obtain ⟨found,_⟩ := view_map.mp held
    obtain ⟨_,_,_,original,size⟩ := fine.inv.mem.header found payload
    refine ⟨⟨fun _ => ⟨id,rfl⟩,fun _ => prog⟩,fun id' same => ?_,fun other => absurd rfl (other id)⟩
    obtain rfl := Source.mapping.inj same
    refine ⟨m,found,⟨original,size⟩,fun c₁ earlier a₁ reachable₁ run₁ live₁ source₁ => ?_⟩
    have fine₁ := World.Reachable.fine reachable₁
    obtain ⟨m₁,found₁,header⟩ := fine₁.inv.header live₁ source₁
    have same := World.Fine.shape_run fine₁ (World.execute_trans run₁ run) (fine₁.inv.maps.old found₁)
    rw [found,found₁] at same
    simp only [Option.map_some,Option.some.injEq,Mapping.shape,Prod.mk.injEq,reduceCtorEq,or_false]
      at same
    rw [same.2.1,same.2.2.1]
    exact header

/-- The operand of a deallocation that a caller starts. -/
theorem World.Fine.operand (fine : Fine P strict c)
    (step : c.advance (.start t (.dealloc inst ptr layout)) = some c₀) : ∃ a,
      c₀.state.pinned t = some a ∧ a.ptr = ptr ∧ a.layout = layout ∧ a.inst = inst := by
  simp only [World.advance] at step
  split at step
  case h_2 => cases step
  rename_i rest
  obtain ⟨s,run,rfl⟩ := Option.map_eq_some_iff.mp step
  have idle := Good.resting fine rest
  obtain ⟨_,⟨known,a,ptr,layout,inst,seen⟩,_⟩ := fine.inv.start idle.pin idle.hand run
  exact ⟨a,congrArg View.pin seen,ptr,layout,inst⟩

namespace Sample

/-- Thread 1 frees its block. -/
def freeing : List Label := schedule ++ [.start 1 (.dealloc 0 278528 (Sample.layout 16384 small_bound))]

end Sample

set_option maxRecDepth 4000 in
theorem sample_dealloc_route : ∃ (c₀ c : World Sample.platform false) (sl : Slot) (r : HeapRef),
    (World.initial fun _ => 0).execute Sample.freeing = some c₀ ∧
    c₀.execute (Sample.go 1 2) = some c ∧ c.state.slots 278528 = some sl ∧ sl.cls = 11 ∧
    c.prog 1 = (deallocSmall 0 278528 r sl.node sl.cls).bind fun _ => act .finish := by
  have ends : ((World.initial fun _ => 0 : World Sample.platform false).execute
      Sample.schedule).map (fun c => ((c.advance (.start 1 (.dealloc 0 278528
        (Sample.layout 16384 (by decide))))).bind fun c₀ => (c₀.execute (Sample.go 1 2)).map
          fun c => ((c₀.state.pinned 1).map Alloc.source,(c.state.slots 278528).map Slot.cls))) =
        some (some (some .slot,some 11)) := by decide +kernel
  obtain ⟨c',run',eq⟩ := Option.map_eq_some_iff.mp ends
  obtain ⟨c₀,start,eq⟩ := Option.bind_eq_some_iff.mp eq
  obtain ⟨c,run,eq⟩ := Option.map_eq_some_iff.mp eq
  obtain ⟨source,cls⟩ := Prod.mk.inj eq
  obtain ⟨a,pinned,ptr,layout,inst⟩ :=
    World.Fine.operand (World.Reachable.fine ⟨_,_,run'⟩) start
  have begun : (World.initial fun _ => 0 : World Sample.platform false).execute Sample.freeing =
      some c₀ := World.execute_trans run' (by simp [World.execute,start])
  have small : ¬smallLimit < a.layout.effective := by
    rw [layout]
    decide
  rw [pinned] at source
  obtain ⟨sl,r,found,_,_,_,prog⟩ := (dealloc_route (k := fun _ => act .finish) ⟨_,_,begun⟩
    (by rw [ptr,layout,inst]; exact World.started start) pinned run
    (by rw [if_neg small]; decide)).2.2 (by simp [Option.some.inj source])
  rw [ptr,inst] at prog
  rw [ptr] at found
  rw [found] at cls
  exact ⟨c₀,c,sl,r,begun,run,found,Option.some.inj cls,prog⟩

end Numalloc
