import Numalloc.Demands
import Numalloc.Retention

/-! Once the destructor of a thread has marked its slot, the thread has no cache any more, and
never gets one again: what it allocates is mapped for it alone, and it keeps nothing. -/
namespace Numalloc

open Concurrent View Logic

/-- A slot that is marked is neither emptied nor filled. -/
def Seals : Act → View → Prop
  | .slotTake destroy, v => v.slot = .destroyed → destroy = true
  | .slotSet _, v => v.slot ≠ .destroyed
  | _, _ => True

/-- The demands alone, along what safe steps make of the view: safety is shown elsewhere. -/
@[reducible] def askLogic (P : Platform) (strict : Bool) (A : Act → View → Prop) :
    Logic allocI View where
  always _ := True
  safe := A
  step x v r v' := safe P strict x v ∧ step P strict x v r v'

variable {P : Platform} {strict : Bool} {A : Act → View → Prop} {c c₀ c' : World P strict} {t : Nat}
  {v v' : View} {inst : Nat} {layout : Layout} {α β : Type} {p : Prog allocI α}
  {Q R : α → View → Prop} {s s' : State}

/-- A safe program whose demands are met. -/
theorem wp_ask (pre : (allocLogic P strict).wp p Q v) (ask : (askLogic P strict A).wp p R v) :
    (demandLogic P strict A).wp p (fun a v => Q a v ∧ R a v) v := by
  induction p generalizing v with
  | ret a => exact ⟨pre.1,pre.2,ask.2⟩
  | act x k ih =>
    exact ⟨pre.1,⟨pre.2.1,ask.2.1⟩,fun r v' st =>
      ih r (pre.2.2 r v' st) (ask.2.2 r v' ⟨pre.2.1,st⟩)⟩
  | loop body s k ihBody ihK =>
    obtain ⟨always,inv,start,keep⟩ := pre
    obtain ⟨_,inv',start',keep'⟩ := ask
    refine ⟨always,fun s v => inv s v ∧ inv' s v,⟨start,start'⟩,fun s v both => ?_⟩
    refine wp_mono (ihBody s (keep s v both.1) (keep' s v both.2)) fun r v _ post => ?_
    cases r with
    | inl s => exact post
    | inr b => exact ihK b post.1 post.2

/-! What concerns the slot of a thread, and the node it is assigned to, happens in `threadHeap`
and at the exit of the thread. All else keeps what is known of them. -/

def Act.tends : Act → Bool
  | .slotTake _ | .slotSet _ | .fetchAddNode _ => true
  | _ => false

abbrev Stays (x : allocI.Op) : Prop := Act.tends x = false

theorem Lists.stays (x : allocI.Op) (h : Lists x) : Stays x := by
  cases x <;> first | rfl | cases h

theorem Sheds.stays (x : allocI.Op) (h : Sheds x) : Stays x := by
  cases x <;> first | rfl | cases h

theorem Recycles.stays (x : allocI.Op) (h : Recycles x) : Stays x := by
  cases x <;> first | rfl | cases h

section Lasting

variable {W : Type} {L : Logic allocI W} {I : W → Prop}

/-- The program keeps what is known. -/
def Lasting (L : Logic allocI W) (I : W → Prop) (p : Prog allocI α) : Prop :=
  ∀ w, I w → L.wp p (fun _ => I) w

/-- Known facts that the two programs keep, and all other actions. -/
structure Tended (L : Logic allocI W) (I : W → Prop) : Prop where
  always : ∀ w, I w → L.always w
  still : ∀ {x w}, Stays x → I w → L.safe x w ∧ ∀ r w', L.step x w r w' → I w'
  heap : ∀ inst, Lasting L I (threadHeap inst)
  exit : Lasting L I exitThread

theorem Lasting.bind {f : α → Prog allocI β} (first : Lasting L I p) (rest : ∀ a, Lasting L I (f a)) :
    Lasting L I (p.bind f) := fun w known =>
  wp_seq (first w known) fun a w' _ known' => rest a w' known'

namespace Tended

theorem ret (tended : Tended L I) (a : α) : Lasting L I (.ret a) := fun w known =>
  ⟨tended.always w known,known⟩

theorem only (tended : Tended L I) (only : p.Only Stays) : Lasting L I p := fun _ known =>
  wp_only (L := L) I only tended.always (fun _ _ stays known => tended.still stays known) known

theorem call (tended : Tended L I) {x : Act} (stays : Stays x) : Lasting L I (act x) :=
  tended.only (.call stays)

theorem lists (tended : Tended L I) (only : p.Only Lists) : Lasting L I p :=
  tended.only (only.mono Lists.stays)

theorem sheds (tended : Tended L I) (only : p.Only Sheds) : Lasting L I p :=
  tended.only (only.mono Sheds.stays)

theorem mapLarge (tended : Tended L I) (size node : Nat) (layout : Layout) :
    Lasting L I (mapLarge size node layout) := by
  rw [mapLarge_eq]
  refine .bind (tended.call rfl) fun raw => ?_
  cases raw with
  | none => exact tended.ret _
  | some raw =>
    exact .bind (tended.call rfl) fun _ => .bind (.bind (tended.call rfl) fun _ => tended.ret _)
      fun _ => tended.ret _

theorem allocLargeTracked (tended : Tended L I) (inst : Nat) (layout : Layout) :
    Lasting L I (allocLargeTracked P inst layout) := by
  cases fits : largeAllocSize P layout with
  | none =>
    unfold Numalloc.allocLargeTracked
    rw [fits]
    exact tended.ret _
  | some needed =>
    rw [allocLargeTracked_eq fits]
    refine .bind (tended.heap inst) fun ok => ?_
    split
    · refine .bind (tended.call rfl) fun th => ?_
      split
      · exact .bind (tended.call rfl) fun _ => .bind (.bind (tended.call rfl) fun _ => tended.ret _)
          fun _ => tended.ret _
      · exact tended.mapLarge _ _ _
    · exact tended.mapLarge _ _ _

theorem allocLarge (tended : Tended L I) (inst : Nat) (layout : Layout) :
    Lasting L I (allocLarge P inst layout) :=
  .bind (tended.allocLargeTracked inst layout) fun _ => tended.ret _

theorem takeChain (tended : Tended L I) (cls : Nat) (k : StackRef) : Lasting L I (takeChain cls k) := by
  rw [takeChain_eq]
  refine .bind (tended.call rfl) fun th => .bind (tended.call rfl) fun _ => ?_
  split
  · exact tended.ret _
  · exact tended.sheds (onStack_sheds _ _)

theorem allocSmall (tended : Tended L I) (inst : Nat) (layout : Layout) (cls : Nat) :
    Lasting L I (allocSmall P inst layout cls) := by
  rw [allocSmall_eq]
  refine .bind (tended.call rfl) fun th => .bind (tended.lists (freelistMut_lists cls _)) fun x => ?_
  cases x with
  | some block => exact tended.ret _
  | none =>
    refine .bind (tended.call rfl) fun heap => .bind (tended.takeChain cls _) fun x => ?_
    cases x with
    | some first => exact .bind (tended.lists (refill_lists cls first)) fun _ => tended.ret _
    | none =>
      refine .bind (tended.only (Prog.Only.lift fun x => by cases x <;> rfl)) fun bag => ?_
      cases bag with
      | none => exact tended.allocLarge inst layout
      | some bag =>
        exact .bind (tended.lists (carve_lists cls bag _ _ 0)) fun _ =>
          .bind (tended.lists (popUnwrap_lists cls)) fun _ => tended.ret _

theorem alloc (tended : Tended L I) (inst : Nat) (layout : Layout) :
    Lasting L I (alloc P inst layout) := by
  unfold Numalloc.alloc
  split
  · exact tended.allocLarge inst layout
  · split
    · exact tended.ret _
    · refine .bind (tended.heap inst) fun ok => ?_
      split
      · exact tended.allocSmall inst layout _
      · exact tended.allocLarge inst layout

theorem deallocLarge (tended : Tended L I) (inst ptr : Nat) : Lasting L I (deallocLarge inst ptr) :=
  tended.only ((deallocLarge_recycles inst ptr).mono Recycles.stays)

theorem deallocLocal (tended : Tended L I) (k : StackRef) (block : Nat) :
    Lasting L I (deallocLocal k block) := by
  rw [deallocLocal_eq]
  refine .bind (tended.lists (freelistDo_lists _ _)) fun _ => .bind (tended.call rfl) fun th => ?_
  split
  · refine .bind (tended.lists (freelistMut_lists _ _)) fun x => ?_
    split
    · exact tended.sheds (onStack_sheds _ _)
    · exact tended.ret _
  · exact tended.ret _

theorem deallocSmall (tended : Tended L I) (inst ptr : Nat) (heap : HeapRef) (n cls : Nat) :
    Lasting L I (deallocSmall inst ptr heap n cls) := by
  rw [deallocSmall_eq]
  refine .bind (tended.heap inst) fun ok => ?_
  split
  · refine .bind (tended.call rfl) fun th => ?_
    split
    · exact tended.deallocLocal _ _
    · exact tended.sheds (onStack_sheds _ _)
  · exact tended.sheds (onStack_sheds _ _)

theorem dealloc (tended : Tended L I) (inst ptr : Nat) (layout : Layout) :
    Lasting L I (dealloc inst ptr layout) := by
  unfold Numalloc.dealloc
  split
  · exact tended.ret _
  · split
    · exact tended.deallocLarge inst ptr
    · refine .bind (tended.call rfl) fun heap => ?_
      split
      · exact tended.deallocLarge inst ptr
      · split
        · exact tended.ret _
        · exact tended.deallocSmall _ _ _ _ _

theorem allocZeroed (tended : Tended L I) (inst : Nat) (layout : Layout) :
    Lasting L I (allocZeroed P inst layout) := by
  rw [allocZeroed_eq]
  split
  · refine .bind (tended.allocLargeTracked inst layout) fun x => ?_
    split
    · split
      · exact .bind (tended.call rfl) fun _ => tended.ret _
      · exact tended.ret _
    · exact tended.ret _
  · refine .bind (tended.alloc inst layout) fun x => ?_
    cases x with
    | none => exact tended.ret _
    | some p => exact .bind (tended.call rfl) fun _ => tended.ret _

theorem reallocMove (tended : Tended L I) (inst ptr newSize : Nat) :
    Lasting L I (reallocMove P inst ptr layout newSize) := by
  cases resized : layout.resize newSize with
  | none =>
    unfold Numalloc.reallocMove
    rw [resized]
    exact tended.ret _
  | some newLayout =>
    rw [reallocMove_eq resized]
    refine .bind (tended.alloc inst newLayout) fun x => ?_
    cases x with
    | none => exact tended.ret _
    | some newPtr =>
      exact .bind (tended.call rfl) fun _ => .bind (tended.call rfl) fun _ =>
        .bind (tended.dealloc inst ptr layout) fun _ => tended.ret _

theorem realloc (tended : Tended L I) (inst ptr newSize : Nat) :
    Lasting L I (realloc P inst ptr layout newSize) := by
  unfold Numalloc.realloc
  simp only
  split
  · refine .bind (tended.call rfl) fun heap => ?_
    split
    · exact tended.ret _
    · exact tended.reallocMove inst ptr newSize
  · exact tended.reallocMove inst ptr newSize

theorem dropInstance (tended : Tended L I) : Lasting L I dropInstance := by
  refine .bind (tended.call rfl) fun h => ?_
  cases h with
  | none => exact tended.ret _
  | some h => exact tended.sheds (dropHandle_sheds h)

theorem answer (tended : Tended L I) (layout : Layout) (x : Option Nat) :
    Lasting L I (answer layout x) := by
  cases x with
  | none => exact tended.ret _
  | some p => exact tended.call rfl

/-- Whatever is asked of a thread keeps them. -/
theorem code (tended : Tended L I) (request : Request) : Lasting L I (request.code P) := by
  refine .bind ?_ fun _ => tended.call rfl
  cases request with
  | alloc inst layout => exact .bind (tended.alloc inst layout) fun x => tended.answer layout x
  | allocZeroed inst layout =>
    exact .bind (tended.allocZeroed inst layout) fun x => tended.answer layout x
  | dealloc inst ptr layout => exact .bind (tended.call rfl) fun _ => tended.dealloc inst ptr layout
  | realloc inst ptr layout newSize =>
    refine .bind (tended.realloc inst ptr newSize) fun x => ?_
    split
    · exact tended.answer _ x
    · exact tended.ret _
  | exit => exact tended.exit
  | drop inst => exact tended.dropInstance

end Tended

end Lasting

/-! The mark. -/

theorem Stays.seals (x : allocI.Op) (h : Stays x) (v : View) : Seals x v := by
  cases x <;> trivial

/-- An empty slot stays empty meanwhile. -/
theorem wp_vacant (only : p.Only Moves) (empty : v.slot = .empty) :
    (askLogic P strict Seals).wp p (fun _ v => v.slot = .empty) v := by
  refine wp_only (L := askLogic P strict Seals) (fun v => v.slot = .empty) only (fun _ _ => trivial)
    (fun x v moves empty => ⟨?_,fun r v' st => (slot_moves moves st.1 st.2).trans empty⟩) empty
  cases x <;> trivial

theorem wp_initThreadHeap_seals (inst : Nat) (heap : HeapRef) (fresh : v.slot ≠ .destroyed) :
    (askLogic P strict Seals).wp (initThreadHeap inst heap) (fun _ _ => True) v := by
  rw [initThreadHeap_eq]
  refine ⟨trivial,fun gone => absurd gone fresh,fun old v₁ st => ?_⟩
  obtain ⟨_,_,taken⟩ := st
  have empty : v₁.slot = .empty := by rw [taken]; rfl
  simp only [Prog.bind_ret]
  refine wp_seq (wp_vacant ?_ empty) fun _ v₂ _ empty₂ => ?_
  · cases old with
    | alive th => exact (dropThreadHeap_sheds th).mono Sheds.moves
    | _ => trivial
  refine wp_seq (wp_vacant (.call rfl) empty₂) fun next v₃ _ empty₃ => ?_
  refine wp_seq (wp_vacant (.call rfl) empty₃) fun previous v₄ _ empty₄ => ?_
  split
  · exact ⟨trivial,trivial,fun e => Empty.elim e⟩
  · refine ⟨trivial,?_,fun _ _ _ => ⟨trivial,trivial⟩⟩
    simp [Seals,empty₄]

theorem threadHeap_seals (inst : Nat) :
    Lasting (askLogic P strict Seals) (fun _ => True) (threadHeap inst) := by
  intro v _
  rw [threadHeap_eq]
  refine ⟨trivial,trivial,fun slot v₁ st => ?_⟩
  obtain ⟨_,same,kept⟩ := st
  obtain rfl : v₁ = v := kept
  have made : ∀ {v' : View} {heap : HeapRef}, v'.slot ≠ .destroyed → (askLogic P strict Seals).wp
      ((initThreadHeap inst heap).bind fun _ => .ret true) (fun _ _ => True) v' :=
    fun fresh => wp_seq (wp_initThreadHeap_seals inst _ fresh) fun _ _ _ _ => ⟨trivial,trivial⟩
  cases slot with
  | destroyed => exact ⟨trivial,trivial⟩
  | empty =>
    refine ⟨trivial,trivial,fun heap v₂ st => made ?_⟩
    have slot₂ : v₂.slot = v₁.slot := by rw [st.2.1]
    rw [slot₂,← same]
    simp
  | alive th =>
    refine ⟨trivial,trivial,fun heap v₂ st => ?_⟩
    have slot₂ : v₂.slot = v₁.slot := by rw [st.2.1]
    simp only [Prog.bind_ret]
    split
    · exact ⟨trivial,trivial⟩
    · refine made ?_
      rw [slot₂,← same]
      simp

theorem seals_tended : Tended (askLogic P strict Seals) fun _ => True where
  always _ _ := trivial
  still stays _ := ⟨Stays.seals _ stays _,fun _ _ _ => trivial⟩
  heap := threadHeap_seals
  exit v _ := by
    rw [exitThread_eq]
    refine ⟨trivial,fun _ => rfl,fun old v₁ _ => ?_⟩
    cases old with
    | alive th =>
      exact wp_only (L := askLogic P strict Seals) (fun _ => True) (dropThreadHeap_sheds th)
        (fun _ _ => trivial) (fun x v sheds _ => ⟨Stays.seals x (Sheds.stays x sheds) v,
          fun _ _ _ => trivial⟩) trivial
    | _ => exact ⟨trivial,trivial⟩

/-! Runs. -/

theorem World.Reachable.sealed {x : Act} (reachable : c.Reachable)
    (at_ : (c.prog t).next = some x) : Seals x (c.state.view t) :=
  (wp_next (reachable.demanded fun {_ v' request} idle started =>
    wp_mono (wp_ask (wp_request idle started) (seals_tended.code request v' trivial))
      fun _ _ _ _ => trivial) at_).2

theorem start_tls {request : Request} (run : s.start t request = some s') : s'.tls = s.tls := by
  have entered : ∀ {inst s'}, s.enter t inst = some s' → s'.tls = s.tls := by
    intro inst s' run
    simp only [State.enter,Option.bind_eq_bind,Option.bind_eq_some_iff,Option.some.injEq] at run
    obtain ⟨I,_,rfl⟩ := run
    rfl
  have passed : ∀ {inst ptr layout s'},
      ((s.enter t inst).bind fun s => s.pin t inst ptr layout) = some s' → s'.tls = s.tls := by
    intro inst ptr layout s' run
    obtain ⟨s₁,enter,run⟩ := Option.bind_eq_some_iff.mp run
    simp only [State.pin,Option.ite_none_right_eq_some,Option.some.injEq] at run
    obtain ⟨_,rfl⟩ := run
    have same : s₁.tls = s.tls := entered enter
    exact same
  cases request with
  | alloc inst layout | allocZeroed inst layout => exact entered run
  | dealloc inst ptr layout | realloc inst ptr layout newSize => exact passed run
  | exit =>
    obtain rfl := Option.some.inj run
    rfl
  | drop inst =>
    simp only [State.start,State.abandon,Option.bind_eq_bind,Option.bind_eq_some_iff,
      Option.ite_none_right_eq_some] at run
    obtain ⟨I,_,_,run⟩ := run
    split at run
    · obtain rfl := Option.some.inj run
      rfl
    · obtain ⟨sh,_,run⟩ := Option.bind_eq_some_iff.mp run
      obtain rfl := Option.some.inj run
      rfl

theorem place_destroyed {slot : ThreadHeapSlot} (same : slot.place = .destroyed) : slot = .destroyed := by
  cases slot with
  | destroyed => rfl
  | alive th => cases same
  | empty => cases same

/-- An action that respects the mark leaves it. -/
theorem exec_destroyed {x : Act} {r : x.Res} {ch : Choice} (gone : s.tls t = .destroyed)
    (seals : Seals x (s.view t)) (run : exec P strict t x ch s = some (r,s')) :
    s'.tls t = .destroyed := by
  cases stays : Act.rehouses x with
  | false =>
    refine place_destroyed (((exec_leaves run : Leaves t 0 x s s').slot stays).trans ?_)
    rw [gone]
    rfl
  | true =>
    cases x with
    | slotTake destroy =>
      obtain rfl : destroy = true := seals gone
      simp only [exec,gone,Option.some.injEq,Prod.mk.injEq] at run
      obtain ⟨_,rfl⟩ := run
      simp
    | slotSet th => exact absurd gone seals
    | _ => cases stays

/-- What a label does to the state: one action, a turn of a loop, a request, a caller's write, a
new allocator. -/
inductive World.Advanced (c c' : World P strict) : Label → Prop
  | act {u : Nat} {ch : Choice} {x : Act} {r : x.Res} {k : x.Res → Prog allocI Unit}
      (prog : c.prog u = .act x k) (run : exec P strict u x ch c.state = some (r,c'.state)) :
      Advanced c c' (.step u ch)
  | loop {u : Nat} {ch : Choice} (prog : (c.prog u).next = none) (same : c'.state = c.state) :
      Advanced c c' (.step u ch)
  | start {u : Nat} {request : Request} (run : c.state.start u request = some c'.state) :
      Advanced c c' (.start u request)
  | write {addr : Nat} {value : UInt8}
      (stored : c'.state = c.state.store addr 1 (fill c.state.mem addr 1 value)) :
      Advanced c c' (.write addr value)
  | create {numNodes regionSize : Nat}
      (made : c'.state = { c.state with
        insts := replace c.state.insts c.state.nextInst (some ⟨numNodes,regionSize,none,0⟩)
        nextInst := c.state.nextInst + 1 }) :
      Advanced c c' (.create numNodes regionSize)

theorem World.advanced {label : Label} (step : c.advance label = some c') : c.Advanced c' label := by
  cases label with
  | step u ch =>
    simp only [World.advance,Config.advance] at step
    cases prog : c.prog u with
    | ret a => simp only [prog,reduceCtorEq] at step
    | loop body i k =>
      simp only [prog,Option.some.injEq] at step
      exact .loop (by rw [prog]; rfl) (step ▸ rfl)
    | act x k =>
      simp only [prog,Option.map_eq_some_iff] at step
      obtain ⟨⟨r,s'⟩,run,rfl⟩ := step
      exact .act prog run
  | start u request =>
    simp only [World.advance] at step
    split at step
    case h_2 => cases step
    obtain ⟨s',run,rfl⟩ := Option.map_eq_some_iff.mp step
    exact .start run
  | write addr value =>
    simp only [World.advance,Option.ite_none_right_eq_some,Option.some.injEq] at step
    obtain ⟨_,rfl⟩ := step
    exact .write rfl
  | create numNodes regionSize =>
    obtain rfl := Option.some.inj step
    exact .create rfl

/-- No label takes the mark away. -/
theorem World.Reachable.destroyed_step {label : Label} (reachable : c.Reachable)
    (gone : c.state.tls t = .destroyed) (step : c.advance label = some c') :
    c'.state.tls t = .destroyed := by
  have fine := World.Reachable.fine reachable
  cases World.advanced step with
  | act prog run =>
    rename_i u ch x r k
    by_cases same : t = u
    · subst same
      exact exec_destroyed gone (reachable.sealed (by rw [prog]; rfl)) run
    · exact (congrArg View.slot (World.Fine.frame fine step same).2).trans gone
  | loop _ same => rwa [same]
  | start run => exact (congrFun (start_tls run) t).trans gone
  | write stored => rwa [stored]
  | create made => rwa [made]

theorem World.Reachable.destroyed_run {schedule : List Label} (reachable : c₀.Reachable)
    (gone : c₀.state.tls t = .destroyed) (run : c₀.execute schedule = some c) :
    c.Reachable ∧ c.state.tls t = .destroyed := by
  induction schedule generalizing c₀ with
  | nil => exact Option.some.inj run ▸ ⟨reachable,gone⟩
  | cons label rest ih =>
    obtain ⟨c₁,step,run⟩ := Option.bind_eq_some_iff.mp run
    exact ih (reachable.advance step) (reachable.destroyed_step gone step) run

/-- A thread past having a cache: what it hands out is the block its caller had already, or a
mapping made through its allocator, and between operations it keeps nothing. -/
structure Uncached (c : World P strict) (t : Nat) : Prop where
  slot : c.state.tls t = .destroyed
  gives : ∀ {p layout}, (c.prog t).next = some (.give p layout) →
    (∃ a, c.state.pinned t = some a ∧ a.ptr = p ∧ a.source = .slot) ∨
    ∃ id m i, c.state.maps id = some m ∧ m.payload = some p ∧ (c.state.call t).inst = some i ∧
      m.use = .large i ∧ Placed P m p layout
  keeps : c.prog t = .ret () →
    (∀ b, c.state.heldBy t b = false) ∧ ∀ id m, c.state.maps id = some m → m.holder ≠ .thread t

/-- A destroyed slot is never filled again, whatever the thread is asked for and whatever
others do. -/
theorem destroyed_stays {schedule : List Label} (reachable : c₀.Reachable)
    (gone : c₀.state.tls t = .destroyed) (run : c₀.execute schedule = some c) : Uncached c t := by
  obtain ⟨later,slot⟩ := reachable.destroyed_run gone run
  have fine := World.Reachable.fine later
  have bare : ∀ th, c.state.tls t ≠ .alive th := fun th alive => by simp [slot] at alive
  refine ⟨slot,fun {p layout} at_ => ?_,fun rest => (World.Fine.isolated fine).rest rest bare⟩
  rcases fine.safe at_ with ⟨a,pinned,ptr,source,_⟩ | ⟨_,_,th,_,_,⟨alive,_⟩,_⟩ |
    ⟨_,id,m,i,held,payload,call,use,placed,_⟩
  · exact Or.inl ⟨a,pinned,ptr,source⟩
  · exact absurd alive (bare th)
  · exact Or.inr ⟨id,m,i,(view_map.mp held).1,payload,call,use,placed⟩

namespace Sample

def marked : ThreadHeapSlot → Bool
  | .destroyed => true
  | _ => false

theorem marked_destroyed {slot : ThreadHeapSlot} (h : marked slot = true) : slot = .destroyed := by
  cases slot with
  | destroyed => rfl
  | alive th => cases h
  | empty => cases h

/-- After its exit thread 1 allocates once more. -/
def returning : List Label :=
  [.start 1 (.alloc 0 (Sample.layout 16384 small_bound))] ++ go 1 2 ++ [.step 1 (.addr 12288000)] ++ go 1 4

end Sample

set_option maxRecDepth 8000 in
theorem sample_destroyed_stays : ∃ c₀ c : World Sample.platform false,
    (World.initial fun _ => 0).execute Sample.leaving = some c₀ ∧
    c₀.execute Sample.returning = some c ∧ c.state.live.map Alloc.ptr = [12288016] ∧ Uncached c 1 := by
  have ends : ((World.initial fun _ => 0 : World Sample.platform false).execute Sample.leaving).bind
      (fun c₀ => (c₀.execute Sample.returning).map fun c =>
        (Sample.marked (c₀.state.tls 1),c.state.live.map Alloc.ptr)) = some (true,[12288016]) := by
    decide +kernel
  obtain ⟨c₀,run₀,eq⟩ := Option.bind_eq_some_iff.mp ends
  obtain ⟨c,run,eq⟩ := Option.map_eq_some_iff.mp eq
  obtain ⟨gone,live⟩ := Prod.mk.inj eq
  exact ⟨c₀,c,run₀,run,live,destroyed_stays ⟨_,_,run₀⟩ (Sample.marked_destroyed gone) run⟩

end Numalloc
