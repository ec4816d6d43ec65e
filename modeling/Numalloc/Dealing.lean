import Numalloc.Carving
import Numalloc.Seating
import Mathlib.Data.Int.CardIntervalMod

/-! How an allocator deals out its nodes. The threads share one counter; whatever the order
they get to it in, the nodes come round in turn. -/
namespace Numalloc

open Concurrent

variable {P : Platform} {strict : Bool} {c c' : World P strict} {t inst : Nat} {s s' : State}
  {ch : Choice} {label : Label}

/-! The counter of an allocator. -/

def State.nextNode (s : State) (i : Nat) : Option Nat := (s.insts i).map Instance.nextNode

/-- As many nodes as the heap of the allocator gets. -/
def Instance.nodes (I : Instance) : Nat := max 1 (min I.numNodes maxNodes)

/-- What an action makes of an allocator: it gets its heap, or its counter moves on. -/
theorem exec_inst {x : Act} {r : x.Res} (run : exec P strict t x ch s = some (r,s')) (i : Nat) :
    s'.insts i = s.insts i ∨ ∃ I, s.insts i = some I ∧
      ((x = .heap i ∧ ∃ h, s'.insts i = some { I with heap := some h }) ∨
        (x = .fetchAddNode i ∧
          s'.insts i = some { I with nextNode := (I.nextNode + 1) % 2 ^ 64 })) := by
  by_cases heap : ∃ inst, x = .heap inst
  · obtain ⟨inst,rfl⟩ := heap
    simp only [exec,Option.bind_eq_bind,Option.bind_eq_some_iff] at run
    obtain ⟨I,known,run⟩ := run
    cases heap : I.heap with
    | some x =>
      simp only [heap,Option.bind_eq_some_iff,Option.some.injEq,Prod.mk.injEq] at run
      obtain ⟨sh,_,_,rfl⟩ := run
      exact Or.inl rfl
    | none =>
      simp only [heap,Option.bind_eq_some_iff] at run
      obtain ⟨res,reserved,run⟩ := run
      cases ch with
      | place raw addr =>
        simp only at run
        split at run
        case isFalse => cases run
        obtain ⟨_,rfl⟩ := Prod.mk.inj (Option.some.inj run)
        by_cases here : i = inst
        · subst here
          exact Or.inr ⟨I,known,Or.inl ⟨rfl,_,replace_same⟩⟩
        · exact Or.inl (replace_other here)
      | _ => cases run
  by_cases draw : ∃ inst, x = .fetchAddNode inst
  · obtain ⟨inst,rfl⟩ := draw
    simp only [exec,Option.bind_eq_bind,Option.bind_eq_some_iff,Option.some.injEq,
      Prod.mk.injEq] at run
    obtain ⟨I,known,_,rfl⟩ := run
    by_cases here : i = inst
    · subst here
      exact Or.inr ⟨I,known,Or.inr ⟨rfl,replace_same⟩⟩
    · exact Or.inl (replace_other here)
  · exact Or.inl (congrFun (exec_insts run (not_exists.mp heap) (not_exists.mp draw)) i)

/-- Only drawing moves a counter. -/
theorem exec_nextNode {x : Act} {r : x.Res} (run : exec P strict t x ch s = some (r,s')) {i : Nat}
    (other : x ≠ .fetchAddNode i) : s'.nextNode i = s.nextNode i := by
  rcases exec_inst run i with same | ⟨I,known,⟨_,h,now⟩ | ⟨here,_⟩⟩
  · rw [State.nextNode,State.nextNode,same]
  · simp [State.nextNode,known,now]
  · exact absurd here other

/-! How many nodes there are. -/

/-- The heap of an allocator has the nodes it was asked for. -/
structure State.Sized (s : State) : Prop where
  nodes : ∀ {i I h sh}, s.insts i = some I → I.heap = some h → s.heaps h.addr = some sh →
    sh.heap.numNodes = I.nodes

theorem reserve_nodes {numNodes size : Nat} {r : Reservation}
    (reserved : GlobalHeap.reserve numNodes size = some r) :
    r.numNodes = max 1 (min numNodes maxNodes) := by
  simp only [GlobalHeap.reserve,Option.bind_eq_bind,Option.bind_eq_some_iff,
    Option.ite_none_left_eq_some,Option.some.injEq] at reserved
  obtain ⟨_,_,_,_,_,_,_,rfl⟩ := reserved
  rfl

/-- The geometry of a heap stays as it was made. -/
theorem exec_geom {x : Act} {r : x.Res} (run : exec P strict t x ch s = some (r,s'))
    (making : ∀ i, x ≠ .heap i) {h : Nat} {sh' : SharedHeap} (found : s'.heaps h = some sh') :
    ∃ sh, s.heaps h = some sh ∧ sh'.heap = sh.heap := by
  by_cases bag : ∃ a n cls old new, x = .casBump a n cls old new
  · obtain ⟨a,n,cls,old,new,rfl⟩ := bag
    simp only [exec,Option.bind_eq_bind,Option.bind_eq_some_iff] at run
    obtain ⟨sh,there,run⟩ := run
    split at run
    case h_1 =>
      obtain ⟨_,rfl⟩ := Prod.mk.inj (Option.some.inj run)
      exact ⟨sh',found,rfl⟩
    case h_2 =>
    split at run
    case isFalse =>
      obtain ⟨_,rfl⟩ := Prod.mk.inj (Option.some.inj run)
      exact ⟨sh',found,rfl⟩
    case isTrue =>
    obtain ⟨_,rfl⟩ := Prod.mk.inj (Option.some.inj run)
    by_cases same : h = a
    · subst same
      obtain rfl := Option.some.inj (replace_same.symm.trans found)
      exact ⟨sh,there,rfl⟩
    · exact ⟨sh',(replace_other same).symm.trans found,rfl⟩
  · obtain ⟨uncarved,_⟩ := exec_uncarved run making fun a n cls old new same =>
      bag ⟨a,n,cls,old,new,same⟩
    obtain ⟨sh,there,geom,_⟩ := uncarved.heaps found
    exact ⟨sh,there,geom⟩

theorem exec_sized {x : Act} {r : x.Res} (inv : Inv P s) (sized : s.Sized)
    (run : exec P strict t x ch s = some (r,s')) : s'.Sized := by
  by_cases heap : ∃ inst, x = .heap inst
  · obtain ⟨inst,rfl⟩ := heap
    simp only [exec,Option.bind_eq_bind,Option.bind_eq_some_iff] at run
    obtain ⟨I,known,run⟩ := run
    cases named : I.heap with
    | some x =>
      simp only [named,Option.bind_eq_some_iff,Option.some.injEq,Prod.mk.injEq] at run
      obtain ⟨sh,_,_,rfl⟩ := run
      exact ⟨sized.nodes⟩
    | none =>
      simp only [named,Option.bind_eq_some_iff] at run
      obtain ⟨res,reserved,run⟩ := run
      cases ch with
      | place raw addr =>
        simp only at run
        split at run
        case isFalse => cases run
        rename_i room
        obtain ⟨_,rfl⟩ := Prod.mk.inj (Option.some.inj run)
        refine ⟨fun {i I' h sh'} known' named' found' => ?_⟩
        by_cases here : i = inst
        · subst here
          obtain rfl := Option.some.inj (replace_same.symm.trans known')
          obtain rfl := Option.some.inj named'
          obtain rfl := Option.some.inj (replace_same.symm.trans found')
          exact reserve_nodes reserved
        · have known' := (replace_other here).symm.trans known'
          -- a new heap is not where another allocator has its own
          obtain ⟨_,sh,found,_⟩ := inv.heaps.instHeap known' named'
          have other : h.addr ≠ addr := fun same => by
            have free := Option.isNone_iff_eq_none.mp room.2.2
            rw [← same,found] at free
            cases free
          exact sized.nodes known' named' ((replace_other other).symm.trans found')
      | _ => cases run
  · refine ⟨fun {i I' h sh'} known' named' found' => ?_⟩
    obtain ⟨sh,found,geom⟩ := exec_geom run (not_exists.mp heap) found'
    rw [geom]
    rcases exec_inst run i with same | ⟨I,known,⟨here,_⟩ | ⟨_,now⟩⟩
    · exact sized.nodes (same.symm.trans known') named' found
    · exact absurd ⟨i,here⟩ heap
    · obtain rfl := Option.some.inj (now.symm.trans known')
      exact show sh.heap.numNodes = I.nodes from sized.nodes known named' found

theorem World.Fine.sized_step (fine : Fine P strict c) (step : c.advance label = some c')
    (sized : c.state.Sized) : c'.state.Sized := by
  cases World.advanced step with
  | act _ run => exact exec_sized fine.inv sized run
  | loop _ same => rwa [same]
  | start run =>
    refine ⟨fun {i I h sh'} known named found' => ?_⟩
    obtain ⟨sh,found,geom,_⟩ := (start_uncarved run).heaps found'
    rcases (start_begun run).insts i with same | gone
    · rw [geom]
      exact sized.nodes (same.symm.trans known) named found
    · simp [gone] at known
  | write stored =>
    rw [stored]
    exact ⟨sized.nodes⟩
  | create made =>
    rw [made]
    refine ⟨fun {i I h sh} known named found => ?_⟩
    by_cases here : i = c.state.nextInst
    · subst here
      obtain rfl := Option.some.inj (replace_same.symm.trans known)
      cases named
    · exact sized.nodes ((replace_other here).symm.trans known) named found

theorem World.Reachable.sized (reachable : c.Reachable) : c.state.Sized := by
  obtain ⟨mem,schedule,run⟩ := reachable
  have along : ∀ {schedule : List Label} {c₀ : World P strict}, Fine P strict c₀ → c₀.state.Sized →
      c₀.execute schedule = some c → c.state.Sized := by
    intro schedule
    induction schedule with
    | nil => exact fun _ sized run => Option.some.inj run ▸ sized
    | cons label rest ih =>
      intro c₀ fine sized run
      obtain ⟨c₁,step,run⟩ := Option.bind_eq_some_iff.mp run
      exact ih (World.Fine.advance fine step) (World.Fine.sized_step fine step sized) run
  exact along (World.initial_fine mem) ⟨fun known => by cases known⟩ run

/-- An allocator that is still there has the nodes it had. -/
theorem nodes_step (step : c.advance label = some c') (old : inst < c.state.nextInst) {I' : Instance}
    (known : c'.state.insts inst = some I') :
    ∃ I, c.state.insts inst = some I ∧ I.nodes = I'.nodes := by
  cases World.advanced step with
  | act _ run =>
    rcases exec_inst run inst with same | ⟨I,before,⟨_,h,now⟩ | ⟨_,now⟩⟩
    · exact ⟨I',same.symm.trans known,rfl⟩
    · obtain rfl := Option.some.inj (now.symm.trans known)
      exact ⟨I,before,rfl⟩
    · obtain rfl := Option.some.inj (now.symm.trans known)
      exact ⟨I,before,rfl⟩
  | loop _ same => exact ⟨I',same ▸ known,rfl⟩
  | start run =>
    rcases (start_begun run).insts inst with same | gone
    · exact ⟨I',same.symm.trans known,rfl⟩
    · simp [gone] at known
  | write stored =>
    rw [stored] at known
    exact ⟨I',known,rfl⟩
  | create made =>
    rw [made] at known
    exact ⟨I',(replace_other (Nat.ne_of_lt old)).symm.trans known,rfl⟩

/-- Every cache of the allocator is put on one of its nodes. -/
theorem seated_nodes {schedule : List Label} {node m nodes : Nat} (fine : Fine P strict c)
    (sized : c.state.Sized) (run : c.execute schedule = some c') (old : inst < c.state.nextInst)
    (size : ∀ I, c.state.insts inst = some I → I.nodes = nodes)
    (seated : .seated inst node m ∈ c.trace seatScribe t schedule) : m = nodes := by
  induction schedule generalizing c with
  | nil => cases seated
  | cons label rest ih =>
    obtain ⟨c₁,step,run⟩ := Option.bind_eq_some_iff.mp run
    rw [World.trace_cons step] at seated
    rcases List.mem_append.mp seated with here | later
    · cases label with
      | step u ch =>
        simp only [World.event] at here
        split at here
        case isFalse => cases here
        rename_i own
        subst own
        cases prog : c.prog u with
        | act x k =>
          cases run' : exec P strict u x ch c.state with
          | none => simp [prog,run'] at here
          | some pair =>
            obtain ⟨r,s'⟩ := pair
            simp only [prog,run'] at here
            have safe := fine.safe (t := u) (x := x) (by rw [prog]; rfl)
            cases x with
            | slotSet th =>
              obtain ⟨ref,called,handle,_⟩ := safe
              obtain ⟨i,I,sh,_,known,named,found,geom⟩ := fine.inv.heaps.callHeap called
              obtain ⟨own,_⟩ := fine.inv.heaps.instHeap known named
              simp only [seatScribe,called,List.mem_singleton,SeatEvent.seated.injEq,
                Option.map_some,Option.getD_some] at here
              obtain ⟨rfl,_,rfl⟩ := here
              rw [← geom,sized.nodes known named found]
              refine size I ?_
              rw [handle,own]
              exact known
            | fetchAddNode j => simp [seatScribe] at here
            | _ => cases here
        | _ => simp [prog] at here
      | start u request => simp [World.event,seatScribe] at here
      | _ => cases here
    · refine ih (World.Fine.advance fine step) (World.Fine.sized_step fine step sized) run
        (lt_of_lt_of_le old (World.Fine.steady fine step).nextInst) (fun I' known => ?_) later
      obtain ⟨I,before,same⟩ := nodes_step step old known
      exact same ▸ size I before

/-! Dealing. -/

/-- The number an event draws from the counter of an allocator. -/
def drawnFrom (i : Nat) : SeatEvent → Option Nat
  | .drawn j n => if j = i then some n else none
  | .seated _ _ _ => none

namespace World

/-- The numbers a label draws. -/
def draw (c c' : World P strict) (i : Nat) (label : Label) : List Nat :=
  label.thread.elim [] fun t => (c.event seatScribe c' t label).filterMap (drawnFrom i)

/-- The numbers all threads draw, in the order of the run. -/
def draws (c : World P strict) (i : Nat) : List Label → List Nat
  | [] => []
  | label :: rest => match c.advance label with
    | some c' => c.draw c' i label ++ draws c' i rest
    | none => []

end World

/-- A label draws what the counter says, and moves it on. -/
theorem draw_counter (step : c.advance label = some c')
    (old : inst < c.state.nextInst) :
    (c.draw c' inst label = [] ∧ (c'.state.nextNode inst = c.state.nextNode inst ∨
      c'.state.nextNode inst = none)) ∨
    ∃ n, c.state.nextNode inst = some n ∧ c.draw c' inst label = [n] ∧
      c'.state.nextNode inst = some ((n + 1) % 2 ^ 64) := by
  cases World.advanced step with
  | act prog run =>
    rename_i u ch x r k
    by_cases here : x = .fetchAddNode inst
    · subst here
      simp only [exec,Option.bind_eq_bind,Option.bind_eq_some_iff,Option.some.injEq,
        Prod.mk.injEq] at run
      obtain ⟨I,known,rfl,after⟩ := run
      refine Or.inr ⟨I.nextNode,by rw [State.nextNode,known]; rfl,?_,?_⟩
      · simp [World.draw,Label.thread,World.event,prog,exec,known,seatScribe,drawnFrom]
      · simp [State.nextNode,← after]
    · refine Or.inl ⟨?_,Or.inl (exec_nextNode run here)⟩
      simp only [World.draw,Label.thread,World.event,prog,run,Option.elim_some,if_true]
      cases x with
      | fetchAddNode j =>
        have ne : j ≠ inst := fun eq => here (congrArg Act.fetchAddNode eq)
        simp [seatScribe,drawnFrom,ne]
      | slotSet th => rfl
      | _ => rfl
  | loop prog same =>
    rename_i u ch
    refine Or.inl ⟨?_,Or.inl (by rw [same])⟩
    cases at_ : c.prog u with
    | act x k => rw [at_] at prog; cases prog
    | _ => simp [World.draw,Label.thread,World.event,at_]
  | start run =>
    refine Or.inl ⟨by simp [World.draw,Label.thread,World.event,seatScribe],?_⟩
    exact ((start_begun run).insts inst).imp (congrArg (Option.map Instance.nextNode))
      (congrArg (Option.map Instance.nextNode))
  | write stored => exact Or.inl ⟨rfl,Or.inl (by rw [stored]; rfl)⟩
  | create made =>
    refine Or.inl ⟨rfl,Or.inl ?_⟩
    rw [made]
    exact congrArg (Option.map Instance.nextNode) (replace_other (Nat.ne_of_lt old))

/-- The numbers are drawn in turn. -/
theorem draws_in_turn {schedule : List Label} {n : Nat} (fine : Fine P strict c)
    (run : c.execute schedule = some c') (old : inst < c.state.nextInst)
    (counter : ∀ m, c.state.nextNode inst = some m → m = n % 2 ^ 64) :
    c.draws inst schedule =
      (List.range' n (c.draws inst schedule).length).map fun j => j % 2 ^ 64 := by
  induction schedule generalizing c n with
  | nil => rfl
  | cons label rest ih =>
    obtain ⟨c₁,step,run⟩ := Option.bind_eq_some_iff.mp run
    have fine₁ := World.Fine.advance fine step
    have old₁ := lt_of_lt_of_le old (World.Fine.steady fine step).nextInst
    have cons : c.draws inst (label :: rest) = c.draw c₁ inst label ++ c₁.draws inst rest := by
      simp only [World.draws,step]
    rw [cons]
    rcases draw_counter step old with ⟨none_,same | gone⟩ | ⟨m,now,drawn,next⟩
    · rw [none_,List.nil_append]
      exact ih fine₁ run old₁ fun m found => counter m (same.symm.trans found)
    · rw [none_,List.nil_append]
      exact ih fine₁ run old₁ fun m found => by rw [gone] at found; cases found
    · obtain rfl := counter m now
      have later := ih (n := n + 1) fine₁ run old₁ fun m found => by
        rw [next] at found
        obtain rfl := Option.some.inj found
        exact Nat.mod_add_mod n (2 ^ 64) 1
      rw [drawn,List.singleton_append,List.length_cons,List.range'_succ,List.map_cons,← later]

/-- What one thread draws is part of it. -/
theorem drawn_sublist {schedule : List Label} (t : Nat) (run : c.execute schedule = some c') :
    ((c.trace seatScribe t schedule).filterMap (drawnFrom inst)).Sublist (c.draws inst schedule) := by
  induction schedule generalizing c with
  | nil => exact List.Sublist.refl _
  | cons label rest ih =>
    obtain ⟨c₁,step,run⟩ := Option.bind_eq_some_iff.mp run
    have cons : c.draws inst (label :: rest) = c.draw c₁ inst label ++ c₁.draws inst rest := by
      simp only [World.draws,step]
    rw [cons,World.trace_cons step,List.filterMap_append]
    refine List.Sublist.append ?_ (ih run)
    by_cases own : label.thread = some t
    · rw [World.draw,own]
      exact List.Sublist.refl _
    · have silent : c.event seatScribe c₁ t label = [] := by
        cases label with
        | step u ch => exact if_neg fun same => own (congrArg some same)
        | start u request => exact if_neg fun same => own (congrArg some same)
        | _ => rfl
      rw [silent]
      exact List.nil_sublist _

/-- In turn, each residue comes equally often, up to one. -/
theorem residues_balanced {len nodes k₁ k₂ : Nat} (node : k₂ < nodes) :
    ((List.range len).map (· % nodes)).count k₁ ≤ ((List.range len).map (· % nodes)).count k₂ + 1 := by
  have positive : 0 < nodes := Nat.zero_lt_of_lt node
  have counted : ∀ {k}, k < nodes → ((List.range len).map (· % nodes)).count k =
      len / nodes + if k < len % nodes then 1 else 0 := by
    intro k small
    have card := Nat.count_modEq_card len positive k
    rw [Nat.mod_eq_of_lt small] at card
    rw [← card,List.count_eq_countP,List.countP_map,Nat.count]
    refine List.countP_congr fun j _ => ?_
    simp [Nat.ModEq,Nat.mod_eq_of_lt small]
  by_cases small : k₁ < nodes
  · rw [counted small,counted node]
    split <;> split <;> omega
  · have absent : k₁ ∉ (List.range len).map (· % nodes) := by
      simp only [List.mem_map,List.mem_range,not_exists,not_and]
      rintro j _ rfl
      exact small (Nat.mod_lt j positive)
    rw [List.count_eq_zero.mpr absent]
    exact Nat.zero_le _

/-- The caches of an allocator are dealt out to its nodes in turn: the numbers its threads
draw are those from zero on, however the draws interleave, a cache goes on the node of the
number its thread has just drawn, and no node is drawn more often than another, up to one. -/
structure Dealt (c : World P strict) (inst nodes : Nat) (schedule : List Label) : Prop where
  turn : c.draws inst schedule =
    (List.range (c.draws inst schedule).length).map fun j => j % 2 ^ 64
  part : ∀ t, ((c.trace seatScribe t schedule).filterMap (drawnFrom inst)).Sublist
    (c.draws inst schedule)
  seat : ∀ {t node m before rest}, c.prog t = .ret () →
    c.trace seatScribe t schedule = before ++ .seated inst node m :: rest →
      m = nodes ∧ ∃ front n, before = front ++ [.drawn inst n] ∧ node = n % nodes
  even : ∀ {k₁ k₂}, (c.draws inst schedule).length ≤ 2 ^ 64 → k₂ < nodes →
    ((c.draws inst schedule).map (· % nodes)).count k₁ ≤
      ((c.draws inst schedule).map (· % nodes)).count k₂ + 1

/-- From where nothing was drawn yet, an allocator deals its nodes out in turn. -/
theorem nodes_dealt {schedule : List Label} {I : Instance} (reachable : c.Reachable)
    (run : c.execute schedule = some c') (known : c.state.insts inst = some I)
    (fresh : I.nextNode = 0) : Dealt c inst I.nodes schedule := by
  have fine := World.Reachable.fine reachable
  have old : inst < c.state.nextInst := by
    by_contra le
    rw [fine.inv.heaps.instFresh (Nat.le_of_not_lt le)] at known
    cases known
  have counter : c.state.nextNode inst = some 0 := by rw [State.nextNode,known,← fresh]; rfl
  have turn := draws_in_turn (n := 0) fine run old fun m found => by
    rw [counter] at found
    exact (Option.some.inj found).symm
  rw [← List.range_eq_range'] at turn
  refine ⟨turn,fun t => drawn_sublist t run,fun {t node m before rest} idle trace => ?_,
    fun {k₁ k₂} few node => ?_⟩
  · have always := (Good.resting fine idle).holds.always
    obtain ⟨k,accepted,_⟩ := World.Fine.watch_run (seat_sustains P strict) fine run
      (show (seatScribe.logic Seating.monitor P strict).wp (c.prog t) _ _ by
        rw [idle]; exact ⟨⟨always,none,rfl⟩,none,rfl,rfl⟩)
    rw [trace] at accepted
    obtain rfl : m = I.nodes := seated_nodes fine (World.Reachable.sized reachable) run old
      (fun I' known' => by rw [Option.some.inj (known'.symm.trans known)])
      (trace ▸ List.mem_append_right before List.mem_cons_self)
    exact ⟨rfl,Seating.seat_drawn accepted⟩
  · have small : c.draws inst schedule = List.range (c.draws inst schedule).length := by
      refine turn.trans ((List.map_congr_left fun j mem => ?_).trans (List.map_id _))
      exact Nat.mod_eq_of_lt (lt_of_lt_of_le (List.mem_range.mp mem) few)
    rw [small]
    exact residues_balanced node

namespace Sample

/-- Two threads use an allocator with two nodes for the first time. -/
def arriving : List Label :=
  [.start 1 (.alloc 0 (layout 16384 small_bound))] ++ go 1 1 ++ [.step 1 (.place 4096 64)] ++
    go 1 26 ++ [.start 2 (.alloc 0 (layout 16384 small_bound))] ++ go 2 26

end Sample

set_option maxRecDepth 8000 in
theorem sample_nodes_dealt : ∃ c c' : World Sample.platform false,
    (World.initial fun _ => 0).execute [.create 2 262144] = some c ∧
    c.execute Sample.arriving = some c' ∧ c.draws 0 Sample.arriving = [0,1] ∧
    c.trace seatScribe 2 Sample.arriving = [.drawn 0 1,.seated 0 1 2] ∧
    Dealt c 0 2 Sample.arriving := by
  have ends : ((World.initial fun _ => 0 : World Sample.platform false).execute
      [.create 2 262144]).bind (fun c => (c.execute Sample.arriving).map fun _ =>
        ((c.state.insts 0).map fun I => (I.nextNode,I.nodes),c.draws 0 Sample.arriving,
          c.trace seatScribe 2 Sample.arriving)) =
            some (some (0,2),[0,1],[.drawn 0 1,.seated 0 1 2]) := by decide +kernel
  obtain ⟨c,start,eq⟩ := Option.bind_eq_some_iff.mp ends
  obtain ⟨c',run,shown⟩ := Option.map_eq_some_iff.mp eq
  obtain ⟨made,shown⟩ := Prod.mk.inj shown
  obtain ⟨drawn,trace⟩ := Prod.mk.inj shown
  obtain ⟨I,known,counts⟩ := Option.map_eq_some_iff.mp made
  obtain ⟨fresh,two⟩ := Prod.mk.inj counts
  exact ⟨c,c',start,run,drawn,trace,two ▸ nodes_dealt ⟨_,_,start⟩ run known fresh⟩

end Numalloc
