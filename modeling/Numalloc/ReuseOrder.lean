import Numalloc.ClassRules

/-! The order in which blocks of one class come back: what was freed last first, and a
detached chain from its head on. -/
namespace Numalloc

open Concurrent View Logic

variable {P : Platform} {strict : Bool} {c c' : World P strict} {t cls b p : Nat}
  {f f' : Forecast} {es post : List ClassEvent} {ps rest : List Nat} {schedule : List Label}

/-- As far as both go, two lists are the same. -/
def Agree {α : Type} (l m : List α) : Prop := l <+: m ∨ m <+: l

namespace Agree

variable {α : Type} {l m m' : List α} {a : α}

theorem nil_left : Agree [] l := Or.inl List.nil_prefix

theorem nil_right : Agree l [] := Or.inr List.nil_prefix

theorem cons (agree : Agree l m) : Agree (a :: l) (a :: m) :=
  agree.imp (fun h => List.cons_prefix_cons.mpr ⟨rfl,h⟩) fun h => List.cons_prefix_cons.mpr ⟨rfl,h⟩

theorem shorten (agree : Agree l m) (le : m' <+: m) : Agree l m' := by
  rcases agree with short | long
  · exact List.prefix_or_prefix_of_prefix short le
  · exact Or.inr (le.trans long)

end Agree

namespace ClassEvent

/-- What callers do and get; the stack of the node is not their concern. -/
def visible : ClassEvent → Bool
  | .looked | .took _ => false
  | _ => true

/-- Allocations that return the blocks in this order. -/
def served (ps : List Nat) : List ClassEvent := ps.flatMap fun p => [.asked,.gave p]

@[simp] theorem served_nil : served [] = [] := rfl

@[simp] theorem served_cons : served (p :: ps) = .asked :: .gave p :: served ps := rfl

theorem served_prefix (le : ps <+: rest) : served ps <+: served rest := by
  obtain ⟨more,rfl⟩ := le
  simp only [served,List.flatMap_append]
  exact List.prefix_append _ _

end ClassEvent

open ClassEvent

namespace Forecast

/-- The next events of callers: a block for the allocation in progress, and then one each. -/
def coming (f : Forecast) : List ClassEvent :=
  match f.waiting, f.next with
  | true, b :: rest => .gave b :: served rest
  | true, [] => []
  | false, next => served next

/-- Allocations after which nobody releases anything or gives up the cache return what
is forecast, if the stack has not been consulted for it. -/
theorem run_coming (whole : f.whole = false) (run : (monitor cls).run f es = some f')
    (only : ∀ e ∈ es.filter visible, e = .asked ∨ ∃ p, e = .gave p) :
    Agree (es.filter visible) f.coming := by
  induction es generalizing f with
  | nil => exact .nil_left
  | cons e es ih =>
    obtain ⟨f₁,first,later⟩ := Option.bind_eq_some_iff.mp run
    have rest : ∀ e' ∈ es.filter visible, e' = .asked ∨ ∃ p, e' = .gave p := fun e' mem =>
      only e' (List.mem_filter.mpr ⟨List.mem_cons_of_mem e (List.mem_filter.mp mem).1,
        (List.mem_filter.mp mem).2⟩)
    obtain ⟨next,_,waiting⟩ := f
    obtain rfl : _ = false := whole
    have first : after cls ⟨next,false,waiting⟩ e = some f₁ := first
    cases e with
    | asked =>
      rw [List.filter_cons_of_pos rfl]
      cases next with
      | nil => cases waiting <;> exact .nil_right
      | cons b more =>
        cases waiting with
        | true => simp [after] at first
        | false =>
          obtain rfl : _ = f₁ := by simpa [after] using first
          exact (ih rfl later rest).cons
    | gave p =>
      rw [List.filter_cons_of_pos rfl]
      cases next with
      | nil => cases waiting <;> exact .nil_right
      | cons b more =>
        cases waiting with
        | false => simp [after] at first
        | true =>
          obtain ⟨rfl,rfl⟩ : p = b ∧ (⟨more,false,false⟩ : Forecast) = f₁ := by simpa [after] using first
          exact (ih rfl later rest).cons
    | looked =>
      rw [List.filter_cons_of_neg (by simp [visible])]
      obtain rfl : _ = f₁ := by simpa [after] using first
      exact ih rfl later rest
    | took chain =>
      cases next with
      | nil => cases waiting <;> exact .nil_right
      | cons b more => simp [after] at first
    | _ => exact absurd (only _ (List.mem_filter.mpr ⟨List.mem_cons_self,rfl⟩)) (by simp)

/-- Blocks released to a list that keeps them all come back in the reverse order. -/
theorem run_freed (done : List Nat) (run : (monitor cls).run f es = some f')
    (stacked : done = [] ∨ f.whole = false ∧ f.waiting = false ∧ done.reverse <+: f.next)
    (few : (done ++ ps).length ≤ maxThreadCache cls / 2)
    (trace : es.filter visible = ps.map .freed ++ post)
    (only : ∀ e ∈ post, e = .asked ∨ ∃ p, e = .gave p) :
    Agree post (served (done ++ ps).reverse) := by
  induction es generalizing f done ps with
  | nil =>
    have empty : post = [] := (List.append_eq_nil_iff.mp trace.symm).2
    rw [empty]
    exact .nil_left
  | cons e es ih =>
    cases ps with
    | nil =>
      rw [List.append_nil]
      rcases stacked with rfl | ⟨whole,waiting,next⟩
      · exact .nil_right
      · rw [List.map_nil,List.nil_append] at trace
        have agree := run_coming whole run (by rwa [trace])
        rw [trace] at agree
        refine agree.shorten ?_
        simpa [coming,waiting] using served_prefix next
    | cons p ps =>
      obtain ⟨f₁,first,later⟩ := Option.bind_eq_some_iff.mp run
      have first : after cls f e = some f₁ := first
      have more : (done ++ [p] ++ ps).length ≤ maxThreadCache cls / 2 := by
        simpa [Nat.add_assoc,Nat.add_comm] using few
      by_cases seen : visible e = true
      · rw [List.filter_cons_of_pos seen,List.map_cons,List.cons_append] at trace
        obtain ⟨rfl,tail⟩ := List.cons_eq_cons.mp trace
        obtain rfl : _ = f₁ := Option.some.inj first
        have agree := ih (done ++ [p]) later (Or.inr ⟨rfl,rfl,?_⟩) more tail
        · simpa using agree
        · rw [List.reverse_append,List.reverse_singleton,List.singleton_append]
          refine List.prefix_take_iff.mpr ⟨List.cons_prefix_cons.mpr ⟨rfl,?_⟩,?_⟩
          · rcases stacked with rfl | ⟨whole,_,next⟩
            · exact List.nil_prefix
            · simpa [whole] using next
          · simp only [List.length_append,List.length_cons,List.length_reverse] at more ⊢
            omega
      · rw [List.filter_cons_of_neg seen] at trace
        refine ih done later ?_ few trace
        refine stacked.imp_right fun kept => ?_
        obtain ⟨next,_,_⟩ := f
        obtain ⟨rfl,rfl,kept⟩ := kept
        cases e with
        | looked =>
          obtain rfl : _ = f₁ := by simpa [after] using first
          exact ⟨rfl,rfl,kept⟩
        | took chain => simp [after] at first
        | _ => exact absurd rfl seen

end Forecast

/-- In every reachable state some forecast holds of the class. -/
theorem Reachable.forecast (reachable : c.Reachable) (t cls : Nat) :
    ∃ f, (classLogic cls P strict).wp (c.prog t) (AtRest (Forecast.Rest cls))
      (c.state.view t,some f) :=
  World.Reachable.watched (classScribe_sustains cls) reachable (k := Forecast.blank) fun _ _ bare =>
    ⟨fun _ => ⟨rfl,rfl⟩,fun alive => absurd alive (bare _),fun _ => ⟨rfl,rfl⟩⟩

/-- Freed blocks of the own node are what the next allocations of the class return, the
last one first, as long as no more were freed than a drain keeps: whatever the thread does
with other classes and others do meanwhile, and whether or not the list was drained. -/
theorem freed_blocks_return (reachable : c.Reachable) (run : c.execute schedule = some c')
    (few : ps.length ≤ maxThreadCache cls / 2)
    (trace : (c.trace (classScribe cls) t schedule).filter visible = ps.map .freed ++ post)
    (only : ∀ e ∈ post, e = .asked ∨ ∃ p, e = .gave p) : Agree post (served ps.reverse) := by
  obtain ⟨f,pre⟩ := Reachable.forecast reachable t cls
  obtain ⟨f',accepted,_⟩ := World.Fine.watch_run (classScribe_sustains cls)
    (World.Reachable.fine reachable) run pre
  exact Forecast.run_freed [] accepted (Or.inl rfl) few trace only

namespace Sample

/-- Thread 1 obtains both objects of a bag. -/
def twoBlocks : List Label :=
  [.create 1 262144,.start 1 (.alloc 0 (layout 16384 small_bound))] ++ go 1 1 ++
    [.step 1 (.place 4096 64)] ++ go 1 26 ++ [.start 1 (.alloc 0 (layout 16384 small_bound))] ++ go 1 8

/-- It frees them, and asks for two again. -/
def freeingBoth : List Label :=
  [.start 1 (.dealloc 0 262144 (layout 16384 small_bound))] ++ go 1 10 ++
    [.start 1 (.dealloc 0 278528 (layout 16384 small_bound))] ++ go 1 10

def asking (t : Nat) : List Label := [.start t (.alloc 0 (layout 16384 small_bound))] ++ go t 8

end Sample

set_option maxRecDepth 8000 in
theorem sample_freed_blocks_return : ∃ c c' : World Sample.platform false,
    (World.initial fun _ => 0).execute Sample.twoBlocks = some c ∧
    c.execute (Sample.freeingBoth ++ Sample.asking 1 ++ Sample.asking 1) = some c' ∧
    Agree [.asked,.gave 278528,.asked,.gave 262144] (served [278528,262144]) := by
  have ends : ((World.initial fun _ => 0 : World Sample.platform false).execute
      Sample.twoBlocks).bind (fun c => (c.execute (Sample.freeingBoth ++ Sample.asking 1 ++
        Sample.asking 1)).map fun _ => (c.trace (classScribe 11) 1 (Sample.freeingBoth ++ Sample.asking 1 ++
          Sample.asking 1)).filter visible) = some ([262144,278528].map .freed ++
            [.asked,.gave 278528,.asked,.gave 262144]) := by decide +kernel
  obtain ⟨c,start,eq⟩ := Option.bind_eq_some_iff.mp ends
  obtain ⟨c',run,trace⟩ := Option.map_eq_some_iff.mp eq
  exact ⟨c,c',start,run,freed_blocks_return ⟨_,_,start⟩ run (by decide) trace (by simp)⟩

/-! Detached chains. -/

namespace Forecast

/-- A forecast that leaves nothing else: once its blocks are handed out, the next allocation
has to look at the stack again. -/
def ending (f : Forecast) : List ClassEvent :=
  match f.waiting, f.next with
  | true, b :: rest => .gave b :: served rest ++ [.asked,.looked]
  | true, [] => [.looked]
  | false, next => served next ++ [.asked,.looked]

theorem run_ending (whole : f.whole = true) (run : (monitor cls).run f es = some f')
    (only : ∀ e ∈ es, e ≠ .switched ∧ ∀ p, e ≠ .freed p ∧ e ≠ .freedAway p) :
    Agree es f.ending := by
  induction es generalizing f with
  | nil => exact .nil_left
  | cons e es ih =>
    obtain ⟨f₁,first,later⟩ := Option.bind_eq_some_iff.mp run
    have rest : ∀ e' ∈ es, e' ≠ .switched ∧ ∀ p, e' ≠ .freed p ∧ e' ≠ .freedAway p :=
      fun e' mem => only e' (List.mem_cons_of_mem e mem)
    obtain ⟨next,_,waiting⟩ := f
    obtain rfl : _ = true := whole
    have first : after cls ⟨next,true,waiting⟩ e = some f₁ := first
    cases e with
    | asked =>
      obtain ⟨rfl,rfl⟩ : waiting = false ∧ (⟨next,true,true⟩ : Forecast) = f₁ := by
        simpa [after] using first
      have agree := ih rfl later rest
      cases next with
      | nil => exact agree.cons
      | cons b more => exact agree.cons
    | gave p =>
      cases next with
      | nil => simp [after] at first
      | cons b more =>
        cases waiting with
        | false => simp [after] at first
        | true =>
          obtain ⟨rfl,rfl⟩ : p = b ∧ (⟨more,true,false⟩ : Forecast) = f₁ := by simpa [after] using first
          exact (ih rfl later rest).cons
    | looked =>
      cases next with
      | cons b more => simp [after] at first
      | nil =>
        cases waiting with
        | false => simp [after] at first
        | true => exact Or.inr (List.cons_prefix_cons.mpr ⟨rfl,List.nil_prefix⟩)
    | took chain => simp [after] at first
    | switched => exact absurd rfl (only _ List.mem_cons_self).1
    | freed p => exact absurd rfl ((only _ List.mem_cons_self).2 p).1
    | freedAway p => exact absurd rfl ((only _ List.mem_cons_self).2 p).2

end Forecast

namespace World

/-- A step of the thread that detaches a chain from its node's stack of the class. -/
def Detaches (c c' : World P strict) (t cls : Nat) (chain : List Nat) : Prop :=
  ∃ ch k current new s, (c.prog t).next = some (.casHead k current new) ∧
    (c.state.view t).home cls = some k ∧ (TreiberStack.unpack new).1 = none ∧
    exec P strict t (.casHead k current new) ch c.state = some (true,s) ∧
    c.advance (.step t ch) = some c' ∧
    Links (c'.state.view t).link (TreiberStack.unpack current).1 chain none

variable {chain : List Nat}

theorem Detaches.event (detaches : c.Detaches c' t cls chain) :
    ∃ ch, c.advance (.step t ch) = some c' ∧
      c.event (classScribe cls) c' t (.step t ch) = [.took chain] := by
  obtain ⟨ch,k,current,new,s,at_,home,empty,done,step,links⟩ := detaches
  refine ⟨ch,step,?_⟩
  cases prog : c.prog t with
  | act x g =>
    rw [prog] at at_
    obtain rfl := Option.some.inj at_
    have reached : s = c'.state := by
      simp only [World.advance,Config.advance,prog,Option.map_eq_some_iff] at step
      obtain ⟨⟨r,s'⟩,run,rfl⟩ := step
      exact congrArg Prod.snd (Option.some.inj (done.symm.trans run))
    simp only [World.event,if_pos,prog,done]
    simp [classScribe,home,empty,reached,View.spelled_eq links]
  | _ =>
    rw [prog] at at_
    cases at_

end World

/-! The links that a refill reads. -/

/-- Notes the blocks whose link is read. -/
def linkScribe : Scribe Nat where
  note
    | .link (.readNext b), _, _, _ => [b]
    | _, _, _, _ => []
  asks _ _ := []

/-- Accepts so many events. -/
def atMost {E : Type} (limit : Nat) : Monitor E Nat := ⟨fun n _ => if n < limit then some (n + 1) else none⟩

theorem atMost_run {E : Type} {es : List E} {limit n n' : Nat} (le : n ≤ limit)
    (run : (atMost limit).run n es = some n') : n + es.length ≤ limit := by
  induction es generalizing n with
  | nil => exact le
  | cons e es ih =>
    obtain ⟨n₁,first,later⟩ := Option.bind_eq_some_iff.mp run
    have first : (if n < limit then some (n + 1) else none) = some n₁ := first
    split at first
    · obtain rfl := Option.some.inj first
      have := ih ‹_› later
      rw [List.length_cons]
      omega
    · cases first

theorem wp_refillWalk_reads {v : View} {first : Nat} :
    (linkScribe.trail (atMost refillBatch) P strict).wp (refillWalk cls first) (fun _ _ => True)
      (v,some 0) := by
  rw [refillWalk_eq]
  refine wp_iter (L := linkScribe.trail (atMost refillBatch) P strict)
    (fun x w => x.2 ≤ refillBatch ∧ ∃ n, w.2 = some n ∧ n + 1 = x.2) ⟨trivial,0,rfl⟩
    ⟨show 1 ≤ refillBatch by decide,0,rfl,rfl⟩ fun x w inv => ?_
  obtain ⟨v,o⟩ := w
  obtain ⟨bound,n,rfl,count⟩ := inv
  refine ⟨⟨trivial,n,rfl⟩,trivial,fun next w st => ?_⟩
  obtain ⟨v,o⟩ := w
  obtain rfl : o = some (n + 1) := st.2.trans (Monitor.run_single.trans (if_pos (by omega)))
  simp only [Prog.bind_ret]
  split
  · refine ⟨⟨trivial,_,rfl⟩,trivial,fun th w st => ?_⟩
    obtain ⟨v,o⟩ := w
    obtain rfl : o = some (n + 1) := st.2
    refine ⟨⟨trivial,_,rfl⟩,trivial,fun _ w st => ?_⟩
    obtain ⟨v,o⟩ := w
    obtain rfl : o = some (n + 1) := st.2
    refine ⟨⟨trivial,_,rfl⟩,trivial,fun _ w st => ?_⟩
    obtain ⟨v,o⟩ := w
    obtain rfl : o = some (n + 1) := st.2
    exact ⟨⟨trivial,_,rfl⟩,trivial⟩
  · cases next with
    | some b => exact ⟨⟨trivial,_,rfl⟩,by omega,n + 1,rfl,by omega⟩
    | none => exact ⟨⟨trivial,_,rfl⟩,trivial⟩

/-- The blocks of a detached chain are what the next allocations of the class return, in
their order and without a look at the stack, whatever happens to it meanwhile; the
allocation behind the last one looks again. The walk of a refill reads at most a batch
of links, in any run. -/
theorem detached_chain_in_order (reachable : c.Reachable) :
    (∀ {cm c' : World P strict} {schedule : List Label}, c.Detaches cm t cls (b :: rest) →
      cm.execute schedule = some c' →
      (∀ e ∈ cm.trace (classScribe cls) t schedule,
        e ≠ .switched ∧ ∀ p, e ≠ .freed p ∧ e ≠ .freedAway p) →
      Agree (cm.trace (classScribe cls) t schedule)
        (.gave b :: served rest ++ [.asked,.looked])) ∧
    ∀ {c' : World P strict} {schedule : List Label} {first : Nat} {g : Nat × Nat → Prog allocI Unit},
      c.prog t = (refillWalk cls first).bind g → c.execute schedule = some c' →
      (∀ request, .start t request ∉ schedule) →
      ∃ before after cm, schedule = before ++ after ∧ c.execute before = some cm ∧
        (c.trace linkScribe t before).length ≤ refillBatch ∧ (after = [] ∨ ∃ x, cm.prog t = g x) := by
  have fine := World.Reachable.fine reachable
  refine ⟨fun {cm c' schedule} detaches run only => ?_,fun {c' schedule first g} at_ run fresh => ?_⟩
  · obtain ⟨f,pre⟩ := Reachable.forecast reachable t cls
    obtain ⟨ch,step,event⟩ := detaches.event
    obtain ⟨f₁,taken,pre₁⟩ := World.Fine.watch_step (classScribe_sustains cls) fine step pre
    rw [event,Monitor.run_single] at taken
    have taken : (if f.next = [] ∧ f.waiting = true ∧ f.whole = false then
      some ⟨b :: rest,true,true⟩ else none) = some f₁ := taken
    split at taken
    · obtain rfl := Option.some.inj taken
      obtain ⟨f',accepted,_⟩ := World.Fine.watch_run (classScribe_sustains cls)
        (World.Fine.advance fine step) run pre₁
      exact Forecast.run_ending (f := ⟨b :: rest,true,true⟩) rfl accepted only
    · cases taken
  · have safe := fine.wp t
    rw [at_] at safe
    have walk : (linkScribe.trail (atMost refillBatch) P strict).wp (refillWalk cls first)
        (fun _ _ => True) (c.state.view t,some 0) := wp_refillWalk_reads
    have pre := wp_watched (wp_resident (wp_bind.mp safe)) walk
    obtain ⟨before,after,cm,k,eq,front,_,reads,ends⟩ := World.Fine.watch_split fine run fresh at_ pre
    have few := atMost_run (Nat.zero_le _) reads
    rw [Nat.zero_add] at few
    exact ⟨before,after,cm,eq,front,few,ends.imp_right fun ⟨x,through,_⟩ => ⟨x,through⟩⟩

/-- The exchange a thread is about to attempt on a stack. -/
def casing : Prog allocI Unit → Option (StackRef × Nat × Nat)
  | .act (.casHead k current new) _ => some (k,current,new)
  | _ => none

theorem casing_some {prog : Prog allocI Unit} {k : StackRef} {current new : Nat}
    (h : casing prog = some (k,current,new)) : prog.next = some (.casHead k current new) := by
  unfold casing at h
  split at h
  · cases h
    rfl
  · cases h

namespace Sample

/-- Thread 1 exits; thread 2 is about to detach what it left. -/
def handover : List Label :=
  twoBlocks ++ freeingBoth ++ [.start 1 .exit] ++ go 1 7 ++
    [.start 2 (.alloc 0 (layout 16384 small_bound))] ++ go 2 14

def consuming : List Label := go 2 12 ++ asking 2 ++ asking 2 ++ go 2 2

/-- The exchange succeeds and leaves thread 2 with a chain of two blocks. -/
def detached (c cm : World platform false) : Prop :=
  casing (c.prog 2) = some (⟨64,0,11⟩,281474976989184,562949953421312) ∧
    (c.state.view 2).home 11 = some ⟨64,0,11⟩ ∧
    (exec platform false 2 (.casHead ⟨64,0,11⟩ 281474976989184 562949953421312) .go c.state).map
      Prod.fst = some true ∧
    Links (cm.state.view 2).link (some 278528) [278528,262144] none ∧
    cm.trace (classScribe 11) 2 consuming = [.gave 278528,.asked,.gave 262144,.asked,.looked]

noncomputable instance (c cm : World platform false) : Decidable (detached c cm) := by
  unfold detached
  infer_instance

end Sample

set_option maxRecDepth 8000 in
theorem sample_detached_chain_in_order : ∃ c cm c' : World Sample.platform false,
    (World.initial fun _ => 0).execute Sample.handover = some c ∧
    c.Detaches cm 2 11 [278528,262144] ∧ cm.execute Sample.consuming = some c' ∧
    Agree (cm.trace (classScribe 11) 2 Sample.consuming)
      [.gave 278528,.asked,.gave 262144,.asked,.looked] := by
  have ends : ((World.initial fun _ => 0 : World Sample.platform false).execute
      Sample.handover).bind (fun c => (c.advance (.step 2 .go)).bind fun cm =>
        (cm.execute Sample.consuming).map fun _ => decide (Sample.detached c cm)) = some true := by
    decide +kernel
  obtain ⟨c,start,eq⟩ := Option.bind_eq_some_iff.mp ends
  obtain ⟨cm,step,eq⟩ := Option.bind_eq_some_iff.mp eq
  obtain ⟨c',run,facts⟩ := Option.map_eq_some_iff.mp eq
  obtain ⟨at_,home,done,links,trace⟩ := of_decide_eq_true facts
  obtain ⟨⟨_,s⟩,done,rfl⟩ := Option.map_eq_some_iff.mp done
  have detaches : c.Detaches cm 2 11 [278528,262144] :=
    ⟨.go,_,_,_,s,casing_some at_,home,by decide,done,step,links⟩
  exact ⟨c,cm,c',start,detaches,run,(detached_chain_in_order ⟨_,_,start⟩).1 detaches run
    (by rw [trace]; simp)⟩

end Numalloc
