import Numalloc.Concurrent.Monitor
import Numalloc.Custody

/-! The trace of one thread: what its requests and its steps leave for a monitor to read, in
any interleaving with the others. -/
namespace Numalloc

open Concurrent View

variable {P : Platform} {strict : Bool} {s : State} {c c' : World P strict} {t inst : Nat}
  {r : HeapRef} {a : Alloc} {E K : Type} {α : Type}

/-- A block passed to an operation lies in the heap of its allocator, in the region of its
node, and is of the class that the layout names. -/
theorem Inv.pinned_ref {sl : Slot} (inv : Inv P s) (pinned : s.pinned t = some a)
    (source : a.source = .slot) (slot : s.slots a.ptr = some sl) (call : (s.call t).heap = some r) :
    r.handle.addr = sl.heap ∧ r.geom.nodeForPtr a.ptr = some sl.node ∧
      sizeClassIndex a.layout.effective = some sl.cls := by
  obtain ⟨live,pin⟩ := pinned_some pinned
  obtain ⟨i,I,sh,called,known,heap,found,geom⟩ := inv.heaps.callHeap call
  obtain rfl := Option.some.inj ((inv.live.pin live pin).1.symm.trans called)
  have backed := inv.live.backed live
  simp only [Backed,source] at backed
  obtain ⟨sl',I',x,slot',_,index,known',heap',addr⟩ := backed
  obtain rfl := Option.some.inj (slot.symm.trans slot')
  obtain rfl := Option.some.inj (known.symm.trans known')
  obtain rfl := Option.some.inj (heap.symm.trans heap')
  obtain ⟨sh',found',_,node,cls,low,high⟩ := inv.slot_region slot
  rw [← addr] at found'
  obtain rfl := Option.some.inj (found.symm.trans found')
  have pos := sizeForClass_pos cls
  refine ⟨addr,?_,index⟩
  rw [← geom]
  exact (inv.heaps.geom found).nodeForPtr_mem node low (by omega)

theorem Inv.pinned_owned (inv : Inv P s) (pinned : s.pinned t = some a) (source : a.source = .slot)
    (call : (s.call t).heap = some r) : r.geom.isOwned a.ptr = true := by
  have backed := inv.live.backed (pinned_some pinned).1
  simp only [Backed,source] at backed
  obtain ⟨sl,_,_,slot,_⟩ := backed
  rw [GlobalHeap.isOwned,(inv.pinned_ref pinned source slot call).2.1]
  rfl

/-- The rules of the allocator, and that naming the heap finds the operand in it. -/
@[reducible] def residentLogic (P : Platform) (strict : Bool) : Logic allocI View where
  always := (allocLogic P strict).always
  safe := (allocLogic P strict).safe
  step x v r v' := step P strict x v r v' ∧ match x, r with
    | .heap _, r => ∀ a, v.pin = some a → a.source = .slot → r.geom.isOwned a.ptr = true
    | _, _ => True

theorem wp_resident {p : Prog allocI α} {Q : α → View → Prop} {v : View}
    (pre : (allocLogic P strict).wp p Q v) : (residentLogic P strict).wp p Q v :=
  Logic.wp_refine (L := allocLogic P strict) (fun _ h => h) (fun _ _ h => h)
    (fun _ _ _ _ st => And.left st) pre

/-- What is written down about a thread: on each of its steps, and when it is asked. -/
structure Scribe (E : Type) where
  note : (x : Act) → View → x.Res → View → List E
  asks : Request → View → List E

/-- The logic of a thread whose trace is read by a monitor. -/
@[reducible] def Scribe.logic (scribe : Scribe E) (m : Monitor E K) (P : Platform) (strict : Bool) :
    Logic allocI (View × Option K) := (residentLogic P strict).watched m scribe.note

namespace World

/-- What one label leaves in the trace of thread `t`. -/
def event (scribe : Scribe E) (c c' : World P strict) (t : Nat) : Label → List E
  | .step u ch =>
    if u = t then
      match c.prog t with
      | .act x _ => match exec P strict t x ch c.state with
        | some (r,s) => scribe.note x (c.state.view t) r (s.view t)
        | none => []
      | _ => []
    else []
  | .start u request => if u = t then scribe.asks request (c'.state.view t) else []
  | _ => []

def trace (scribe : Scribe E) (c : World P strict) (t : Nat) : List Label → List E
  | [] => []
  | label :: rest => match c.advance label with
    | some c' => c.event scribe c' t label ++ trace scribe c' t rest
    | none => []

variable {scribe : Scribe E} {m : Monitor E K} {label : Label} {k : K}

theorem trace_cons {rest : List Label} (step : c.advance label = some c') :
    c.trace scribe t (label :: rest) = c.event scribe c' t label ++ c'.trace scribe t rest := by
  simp only [trace,step]

theorem trace_append {before after : List Label} (run : c.execute before = some c') :
    c.trace scribe t (before ++ after) = c.trace scribe t before ++ c'.trace scribe t after := by
  induction before generalizing c with
  | nil =>
    obtain rfl := Option.some.inj run
    rfl
  | cons label rest ih =>
    obtain ⟨c₁,step,run⟩ := Option.bind_eq_some_iff.mp run
    rw [List.cons_append,trace_cons step,trace_cons step,ih run,List.append_assoc]

/-- Labels of others leave nothing. -/
theorem event_other (other : label.thread ≠ some t) : c.event scribe c' t label = [] := by
  cases label with
  | step u ch => exact if_neg fun same => other (congrArg some same)
  | start u request => exact if_neg fun same => other (congrArg some same)
  | _ => rfl

/-- Only a thread at rest is asked. -/
theorem start_rest {request : Request} (step : c.advance (.start t request) = some c') :
    c.prog t = .ret () := by
  simp only [World.advance] at step
  split at step
  · assumption
  · cases step

/-- What remains of a watched program keeps its precondition, whoever moves, and the monitor
accepts what it leaves. -/
theorem Fine.watch_advance {p : Prog allocI α} {f : α → Prog allocI Unit}
    {Q : α → View × Option K → Prop} (fine : Fine P strict c) (step : c.advance label = some c')
    (at_ : c.prog t = p.bind f) (busy : ∀ a, p ≠ .ret a)
    (pre : (scribe.logic m P strict).wp p Q (c.state.view t,some k)) :
    ∃ (p' : Prog allocI α) (k' : K), c'.prog t = p'.bind f ∧
      m.run k (c.event scribe c' t label) = some k' ∧
      (scribe.logic m P strict).wp p' Q (c'.state.view t,some k') := by
  by_cases own : ∃ ch, label = .step t ch
  · obtain ⟨ch,rfl⟩ := own
    rcases World.front step at_ busy with ⟨x,g,r,rfl,run,prog⟩ | ⟨σ,β,body,i,g,rfl,same,prog⟩
    · have safe := fine.safe (t := t) (x := x) (by rw [at_]; rfl)
      obtain ⟨inv,seen,_⟩ := exec_sound.keep fine.inv fine.always safe run
      have left : c.event scribe c' t (.step t ch) =
          scribe.note x (c.state.view t) r (c'.state.view t) := by
        have run : exec P strict t x ch c.state = some (r,c'.state) := run
        simp only [event,if_pos,at_,Prog.bind,run]
      have resident : (residentLogic P strict).step x (c.state.view t) r (c'.state.view t) := by
        refine ⟨seen,?_⟩
        cases x with
        | heap inst =>
          intro a pinned source
          obtain ⟨view,_⟩ := seen
          have call : (c'.state.call t).heap = some r := congrArg (fun v => v.call.heap) view
          have kept : c'.state.pinned t = c.state.pinned t := congrArg View.pin view
          exact inv.pinned_owned (kept.trans pinned) source call
        | _ => trivial
      have next := pre.2.2 r (c'.state.view t,m.run k (c.event scribe c' t (.step t ch)))
        ⟨resident,by rw [left]; rfl⟩
      obtain ⟨_,k',accepted⟩ := Logic.wp_always next
      rw [show m.run k (c.event scribe c' t (.step t ch)) = some k' from accepted] at next
      exact ⟨g r,k',prog,accepted,next⟩
    · have silent : c.event scribe c' t (.step t ch) = [] := by
        simp only [event,if_pos,at_,Prog.bind]
      refine ⟨_,k,prog,by rw [silent]; rfl,?_⟩
      rw [same]
      exact Logic.wp_unroll pre
  · have other : ∀ ch, label ≠ .step t ch := fun ch same => own ⟨ch,same⟩
    have running : c.prog t ≠ .ret () := by
      rw [at_]
      cases p with
      | ret a => exact absurd rfl (busy a)
      | act x g => simp [Prog.bind]
      | loop body i g => simp [Prog.bind]
    obtain ⟨prog,view⟩ := World.Fine.bystander fine step running other
    have silent : c.event scribe c' t label = [] := by
      refine event_other fun same => ?_
      cases label with
      | step u ch => exact other ch (by rw [Option.some.inj same])
      | start u request =>
        obtain rfl := Option.some.inj same
        exact running (start_rest step)
      | _ => cases same
    exact ⟨p,k,prog.trans at_,by rw [silent]; rfl,by rw [view]; exact pre⟩

end World

/-- The postcondition of an operation: its thread is at rest, in a state that fits what the
monitor has read. -/
abbrev AtRest (J : View → K → Prop) (_ : Unit) (w : View × Option K) : Prop :=
  ∃ k, w.2 = some k ∧ J w.1 k

/-- Whatever is asked of a thread at rest, the monitor accepts what that leaves, and the thread
comes to rest again. -/
def Scribe.Sustains (scribe : Scribe E) (m : Monitor E K) (P : Platform) (strict : Bool)
    (J : View → K → Prop) : Prop :=
  ∀ {v v' : View} {request : Request} {k : K}, Idle P strict v → J v k → Started v v' request →
    ∃ k', m.run k (scribe.asks request v') = some k' ∧
      (scribe.logic m P strict).wp (request.code P) (AtRest J) (v',some k')

namespace World

variable {scribe : Scribe E} {m : Monitor E K} {label : Label} {k : K} {J : View → K → Prop}

/-- One label, whoever it is for. -/
theorem Fine.watch_step (sustains : scribe.Sustains m P strict J) (fine : Fine P strict c)
    (step : c.advance label = some c')
    (pre : (scribe.logic m P strict).wp (c.prog t) (AtRest J) (c.state.view t,some k)) :
    ∃ k', m.run k (c.event scribe c' t label) = some k' ∧
      (scribe.logic m P strict).wp (c'.prog t) (AtRest J) (c'.state.view t,some k') := by
  by_cases busy : ∀ a, c.prog t ≠ .ret a
  · obtain ⟨p',k',prog,accepted,next⟩ := Fine.watch_advance (p := c.prog t) fine step
      (Prog.bind_pure _).symm busy pre
    rw [Prog.bind_pure] at prog
    exact ⟨k',accepted,by rw [prog]; exact next⟩
  · obtain ⟨u,rest⟩ := not_forall_not.mp busy
    by_cases asked : ∃ request, label = .start t request
    · obtain ⟨request,rfl⟩ := asked
      have idle := Good.resting fine rest
      have code := started step
      simp only [World.advance,rest,Option.map_eq_some_iff] at step
      obtain ⟨s,run,rfl⟩ := step
      obtain ⟨_,begun,_⟩ := fine.inv.start idle.pin idle.hand run
      rw [rest] at pre
      obtain ⟨_,k₀,same,settled⟩ := pre
      obtain rfl := Option.some.inj same
      obtain ⟨k',accepted,next⟩ := sustains idle settled begun
      refine ⟨k',?_,by rw [code]; exact next⟩
      simpa only [event,if_pos] using accepted
    · have other : ∀ ch, label ≠ .step t ch := by
        rintro ch rfl
        simp [World.advance,Config.advance,rest] at step
      have fresh : ∀ request, label ≠ .start t request := fun request same => asked ⟨request,same⟩
      have silent : c.event scribe c' t label = [] := by
        refine event_other fun same => ?_
        cases label with
        | step u ch => exact other ch (by rw [Option.some.inj same])
        | start u request => exact fresh request (by rw [Option.some.inj same])
        | _ => cases same
      refine ⟨k,by rw [silent]; rfl,?_⟩
      rw [World.prog_same step other fresh,(Fine.others fine step other fresh).view]
      exact pre

theorem Fine.watch_run {schedule : List Label} (sustains : scribe.Sustains m P strict J)
    (fine : Fine P strict c) (run : c.execute schedule = some c')
    (pre : (scribe.logic m P strict).wp (c.prog t) (AtRest J) (c.state.view t,some k)) :
    ∃ k', m.run k (c.trace scribe t schedule) = some k' ∧
      (scribe.logic m P strict).wp (c'.prog t) (AtRest J) (c'.state.view t,some k') := by
  induction schedule generalizing c k with
  | nil =>
    obtain rfl := Option.some.inj run
    exact ⟨k,rfl,pre⟩
  | cons label rest ih =>
    obtain ⟨c₁,step,run⟩ := Option.bind_eq_some_iff.mp run
    obtain ⟨k₁,first,pre⟩ := Fine.watch_step sustains fine step pre
    obtain ⟨k',later,post⟩ := ih (World.Fine.advance fine step) run pre
    refine ⟨k',?_,post⟩
    rw [trace_cons step,Monitor.run_append,first]
    exact later

/-- From the empty process on, the monitor accepts the whole trace. -/
theorem Reachable.watched (sustains : scribe.Sustains m P strict J) (reachable : c.Reachable)
    (start : ∀ v, Idle P strict v → (∀ th, v.slot ≠ .alive th) → J v k) :
    ∃ k', (scribe.logic m P strict).wp (c.prog t) (AtRest J) (c.state.view t,some k') := by
  obtain ⟨mem,schedule,run⟩ := reachable
  have fine : Fine P strict (World.initial mem) := World.initial_fine mem
  have idle := Good.resting (t := t) fine rfl
  have pre : (scribe.logic m P strict).wp (.ret ()) (AtRest J) ((State.initial mem).view t,some k) :=
    ⟨⟨idle.holds.always,k,rfl⟩,k,rfl,start _ idle nofun⟩
  obtain ⟨k',_,post⟩ := Fine.watch_run sustains fine run pre
  exact ⟨k',post⟩

/-- A watched part of an operation, followed through a run: it is still in progress at the
end, or returned at some point. -/
theorem Fine.watch_through {schedule : List Label} {p : Prog allocI α} {f : α → Prog allocI Unit}
    {Q : α → View × Option K → Prop} (fine : Fine P strict c) (run : c.execute schedule = some c')
    (fresh : ∀ request, .start t request ∉ schedule) (at_ : c.prog t = p.bind f)
    (pre : (scribe.logic m P strict).wp p Q (c.state.view t,some k)) :
    (∃ (p' : Prog allocI α) (k' : K), c'.prog t = p'.bind f ∧ (∀ a, p' ≠ .ret a) ∧
      m.run k (c.trace scribe t schedule) = some k') ∨
    ∃ before after cm k' a, schedule = before ++ after ∧ c.execute before = some cm ∧
      cm.execute after = some c' ∧ m.run k (c.trace scribe t before) = some k' ∧
      cm.prog t = f a ∧ Q a (cm.state.view t,some k') := by
  by_cases through : ∃ a, p = .ret a
  · obtain ⟨a,rfl⟩ := through
    exact Or.inr ⟨[],schedule,c,k,a,rfl,rfl,run,rfl,at_,pre.2⟩
  have busy := not_exists.mp through
  induction schedule generalizing c p k with
  | nil =>
    obtain rfl := Option.some.inj run
    exact Or.inl ⟨p,k,at_,busy,rfl⟩
  | cons label rest ih =>
    obtain ⟨c₁,step,later⟩ := Option.bind_eq_some_iff.mp run
    obtain ⟨p',k₁,prog,accepted,next⟩ := Fine.watch_advance fine step at_ busy pre
    have once : c.execute [label] = some c₁ := by simp [World.execute,step]
    have alone : c.trace scribe t [label] = c.event scribe c₁ t label :=
      (trace_cons step).trans (List.append_nil _)
    by_cases through : ∃ a, p' = .ret a
    · obtain ⟨a,rfl⟩ := through
      exact Or.inr ⟨[label],rest,c₁,k₁,a,rfl,once,later,by rw [alone]; exact accepted,prog,next.2⟩
    · rcases ih (World.Fine.advance fine step) later
        (fun request mem => fresh request (List.mem_cons_of_mem label mem)) prog next through
        (not_exists.mp through) with
        ⟨p'',k',prog',busy',more⟩ | ⟨before,after,cm,k',a,eq,front,back,more,ends⟩
      · refine Or.inl ⟨p'',k',prog',busy',?_⟩
        rw [trace_cons step,Monitor.run_append,accepted]
        exact more
      · refine Or.inr ⟨label :: before,after,cm,k',a,by rw [eq]; rfl,?_,back,?_,ends⟩
        · exact World.execute_trans once front
        · rw [trace_cons step,Monitor.run_append,accepted]
          exact more

/-- However far it got, the monitor accepted what it left. -/
theorem Fine.watch_split {schedule : List Label} {p : Prog allocI α} {f : α → Prog allocI Unit}
    {Q : α → View × Option K → Prop} (fine : Fine P strict c) (run : c.execute schedule = some c')
    (fresh : ∀ request, .start t request ∉ schedule) (at_ : c.prog t = p.bind f)
    (pre : (scribe.logic m P strict).wp p Q (c.state.view t,some k)) :
    ∃ before after cm k', schedule = before ++ after ∧ c.execute before = some cm ∧
      cm.execute after = some c' ∧ m.run k (c.trace scribe t before) = some k' ∧
      (after = [] ∨ ∃ a, cm.prog t = f a ∧ Q a (cm.state.view t,some k')) := by
  rcases Fine.watch_through fine run fresh at_ pre with
    ⟨_,k',_,_,accepted⟩ | ⟨before,after,cm,k',a,eq,front,back,accepted,prog,post⟩
  · exact ⟨schedule,[],c',k',(List.append_nil _).symm,run,rfl,accepted,Or.inl rfl⟩
  · exact ⟨before,after,cm,k',eq,front,back,accepted,Or.inr ⟨a,prog,post⟩⟩

end World

end Numalloc
