import Numalloc.Capacity

/-! The node of a large mapping. A mapping is bound to the node of the thread it was made
for; the cache forgets that node, so a mapping freed on another node is handed out there. -/
namespace Numalloc

open Concurrent View

variable {P : Platform} {strict : Bool} {t : Nat}

/-- What a thread hands out lies in a mapping bound to the node its cache is assigned to. -/
def GivesLocal (c : World P strict) : Prop :=
  ∀ t p layout th id m, (c.prog t).next = some (.give p layout) → c.state.tls t = .alive th →
    c.state.maps id = some m → m.holder = .thread t → m.payload = some p → m.node = some th.nodeId

/-- Whether a label that releases an allocation does so on the node of its mapping. -/
def releasesHome (c : World P strict) : Label → Bool
  | .step t _ => match (c.prog t).next with
    | some .release => (c.state.pinned t).all fun a => homeward c.state t a
    | _ => true
  | _ => true

/-- Whether every label of a run does. -/
def homewardRun (c : World P strict) : List Label → Bool
  | [] => true
  | label :: rest => releasesHome c label && (c.advance label).all fun c' => homewardRun c' rest

namespace World

/-- The same configuration on the machine that refuses other releases. -/
def guarded (c : World P false) : World P true := ⟨c.state,c.prog⟩

/-- Both machines agree on every action but the release. -/
theorem exec_guarded {x : Act} {ch : Choice} {s : State} {a : x.Res × State}
    (run : exec P false t x ch s = some a)
    (home : x = .release → ∀ a, s.pinned t = some a → homeward s t a = true) :
    exec P true t x ch s = some a := by
  cases x with
  | release =>
    simp only [exec,Option.bind_eq_bind,Option.bind_eq_some_iff] at run ⊢
    obtain ⟨a,pinned,run⟩ := run
    exact ⟨a,pinned,by simpa [home rfl a pinned] using run⟩
  | link x => cases x <;> exact run
  | _ => exact run

theorem advance_guarded {c c' : World P false} {label : Label} (step : c.advance label = some c')
    (home : releasesHome c label = true) : c.guarded.advance label = some c'.guarded := by
  cases label with
  | step t ch =>
    simp only [World.advance,Config.advance,guarded] at step ⊢
    cases prog : c.prog t with
    | ret a => simp [prog] at step
    | act x k =>
      simp only [prog,Option.map_eq_some_iff] at step ⊢
      obtain ⟨a,run,rfl⟩ := step
      refine ⟨a,exec_guarded run fun same b pinned => ?_,rfl⟩
      subst same
      simpa [releasesHome,prog,Prog.next,pinned] using home
    | loop body i k =>
      simp only [prog,Option.some.injEq] at step ⊢
      rw [← step]
  | start t request =>
    simp only [World.advance,guarded] at step ⊢
    cases prog : c.prog t with
    | ret a =>
      simp only [prog,Option.map_eq_some_iff] at step ⊢
      obtain ⟨s,run,rfl⟩ := step
      exact ⟨s,run,rfl⟩
    | act x k => simp [prog] at step
    | loop body i k => simp [prog] at step
  | write addr value =>
    simp only [World.advance,Option.ite_none_right_eq_some,Option.some.injEq] at step ⊢
    obtain ⟨writable,rfl⟩ := step
    exact ⟨writable,rfl⟩
  | create numNodes regionSize =>
    obtain rfl := Option.some.inj step
    rfl

/-- A run that releases mappings on their own node is a run of the guarded machine. -/
theorem execute_guarded {c c' : World P false} {schedule : List Label}
    (run : c.execute schedule = some c') (home : homewardRun c schedule = true) :
    c.guarded.execute schedule = some c'.guarded := by
  induction schedule generalizing c with
  | nil =>
    obtain rfl := Option.some.inj run
    rfl
  | cons label rest ih =>
    obtain ⟨c₁,step,later⟩ := Option.bind_eq_some_iff.mp run
    simp only [homewardRun,Bool.and_eq_true,step,Option.all_some] at home
    simp only [World.execute,Option.bind_eq_bind,advance_guarded step home.1,Option.bind_some]
    exact ih later home.2

/-- On the guarded machine every cached mapping is bound to the node of its cache. -/
theorem Fine.gives_local {c : World P true} (fine : Fine P true c) : GivesLocal c := by
  intro t p layout th id m at_ alive found holder payload
  rcases fine.safe at_ with ⟨a,pinned,ptr,source,_⟩ | ⟨_,B,_,_,block,_⟩ |
    ⟨_,id',m',_,held,payload',_,_,_,bound⟩
  · obtain ⟨live,_⟩ := pinned_some pinned
    have backed := fine.inv.live.backed live
    simp only [Backed,source] at backed
    obtain ⟨sl,_,_,slot,_⟩ := backed
    rw [ptr,fine.inv.payload_no_slot found payload] at slot
    cases slot
  · obtain ⟨sl,slot,_⟩ := view_block block
    rw [fine.inv.payload_no_slot found payload] at slot
    cases slot
  · obtain ⟨found',_⟩ := view_map.mp held
    obtain rfl := fine.inv.payload_unique found' payload' found payload
    obtain rfl := Option.some.inj (found.symm.trans found')
    exact bound rfl th alive

end World

/-- In a run whose deallocations all release on the node their mapping is bound to, or where
it cannot be cached, every allocation is local. -/
theorem local_allocations {c : World P false} {mem : Bytes} {schedule : List Label}
    (run : (World.initial mem).execute schedule = some c)
    (home : homewardRun (World.initial mem : World P false) schedule = true) : GivesLocal c := by
  have fine : Fine P true c.guarded :=
    World.Reachable.fine ⟨mem,schedule,World.execute_guarded run home⟩
  exact World.Fine.gives_local fine

/-! Threads 1 and 2 run on nodes 0 and 1, and each maps a large object. One of them frees
the first of the two and asks for another. -/
namespace Sample

def large : Layout := layout 262145 large_bound

def first : List Label :=
  [.create 2 262144,.start 1 (.alloc 0 large)] ++ go 1 1 ++ [.step 1 (.place 4096 64)] ++ go 1 5 ++
    [.step 1 (.addr 8192000)] ++ go 1 4

def second : List Label :=
  first ++ [.start 2 (.alloc 0 large)] ++ go 2 7 ++ [.step 2 (.addr 16384000)] ++ go 2 4

def again (t : Nat) : List Label :=
  second ++ [.start t (.dealloc 0 8192016 large)] ++ go t 9 ++ [.start t (.alloc 0 large)] ++ go t 5

def node (s : State) (t : Nat) : Option Nat :=
  match s.tls t with
  | .alive th => some th.nodeId
  | _ => none

theorem node_some {s : State} {t n : Nat} (h : node s t = some n) :
    ∃ th, s.tls t = .alive th ∧ th.nodeId = n := by
  unfold node at h
  split at h
  case h_1 th alive => exact ⟨th,alive,Option.some.inj h⟩
  case h_2 => cases h

end Sample

set_option maxRecDepth 4000 in
theorem sample_local_allocations : ∃ (c : World Sample.platform false) (layout : Layout)
    (th : PerThreadHeap) (m : Mapping),
    (World.initial fun _ => 0).execute (Sample.again 1) = some c ∧
    (c.prog 1).next = some (.give 8192016 layout) ∧ c.state.tls 1 = .alive th ∧
    c.state.maps 1 = some m ∧ m.node = some th.nodeId := by
  have ends : ((World.initial fun _ => 0 : World Sample.platform false).execute
      (Sample.again 1)).map (fun c => (giving (c.prog 1),Sample.node c.state 1,
        (c.state.maps 1).map fun m => (m.holder,m.payload))) =
      some (some 8192016,some 0,some (.thread 1,some 8192016)) := by decide +kernel
  have home : homewardRun (World.initial fun _ => 0 : World Sample.platform false)
      (Sample.again 1) = true := by decide +kernel
  obtain ⟨c,run,eq⟩ := Option.map_eq_some_iff.mp ends
  simp only [Prod.mk.injEq] at eq
  obtain ⟨gives,alive,mapped⟩ := eq
  obtain ⟨layout,at_⟩ := giving_some gives
  obtain ⟨th,alive,_⟩ := Sample.node_some alive
  obtain ⟨m,found,eq⟩ := Option.map_eq_some_iff.mp mapped
  obtain ⟨holder,payload⟩ := Prod.mk.inj eq
  exact ⟨c,layout,th,m,run,at_,alive,found,
    local_allocations run home 1 _ layout th 1 m at_ alive found holder payload⟩

set_option maxRecDepth 4000 in
/-- Thread 2, on node 1, gets the mapping that was bound to node 0. -/
theorem cached_node_forgotten : ∃ c : World Sample.platform false, c.Reachable ∧ ¬GivesLocal c := by
  have ends : ((World.initial fun _ => 0 : World Sample.platform false).execute
      (Sample.again 2)).map (fun c => (giving (c.prog 2),Sample.node c.state 2)) =
      some (some 8192016,some 1) := by decide +kernel
  have maps : ((World.initial fun _ => 0 : World Sample.platform false).execute
      (Sample.again 2)).bind (fun c => (c.state.maps 1).map fun m => (m.holder,m.payload,m.node)) =
      some (.thread 2,some 8192016,some 0) := by decide +kernel
  obtain ⟨c,run,eq⟩ := Option.map_eq_some_iff.mp ends
  obtain ⟨gives,alive⟩ := Prod.mk.inj eq
  obtain ⟨layout,at_⟩ := giving_some gives
  obtain ⟨th,alive,here⟩ := Sample.node_some alive
  rw [run] at maps
  obtain ⟨m,found,eq⟩ := Option.map_eq_some_iff.mp maps
  simp only [Prod.mk.injEq] at eq
  obtain ⟨holder,payload,bound⟩ := eq
  refine ⟨c,⟨_,_,run⟩,fun local_ => ?_⟩
  have same := local_ 2 _ layout th 1 m at_ alive found holder payload
  rw [bound,here] at same
  cases same

end Numalloc
