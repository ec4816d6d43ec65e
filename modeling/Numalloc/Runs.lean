import Numalloc.Sound.Step
import Numalloc.Spec.Requests

/-! Every configuration a schedule can reach is good: the shared invariant holds, and
each thread is somewhere in a program whose precondition its view satisfies. -/
namespace Numalloc

open Concurrent View

variable {P : Platform} {strict : Bool} {c c' : World P strict} {t : Nat}

/-- A reachable configuration. -/
abbrev Fine (P : Platform) (strict : Bool) (c : World P strict) : Prop :=
  Good (machine P strict) (allocLogic P strict) State.view (Inv P) (Idle P strict) c

namespace World

theorem initial_fine (mem : Bytes) : Fine P strict (initial mem) where
  inv := .initial mem
  wp t := by
    have idle : Idle P strict ((State.initial mem).view t) := by
      refine ⟨Or.inr ⟨?_,⟨?_,?_,?_,?_⟩,?_,?_,?_⟩,rfl,rfl,rfl,rfl⟩ <;>
        simp [State.view,State.initial,State.blockOf,State.mapOf,Rooted]
    exact ⟨idle.holds.always,idle⟩

/-- What others see is what they saw before. -/
theorem Fine.seen {s : State} (fine : Fine P strict c) (inv : Inv P s)
    (same : ∀ u, s.view u = c.state.view u) : Fine P strict ⟨s,c.prog⟩ where
  inv := inv
  wp u := by
    rw [same u]
    exact fine.wp u

theorem Fine.start {s : State} {request : Request} (fine : Fine P strict c)
    (rest : c.prog t = .ret ()) (run : c.state.start t request = some s) :
    Fine P strict ⟨s,replace c.prog t (request.code P)⟩ := by
  have idle := Good.resting fine rest
  obtain ⟨inv,started,others⟩ := fine.inv.start idle.pin idle.hand run
  refine ⟨inv,fun u => ?_⟩
  by_cases same : u = t
  · subst same
    simpa only [replace_same] using wp_request idle started
  · simpa only [replace_other same,others u same] using fine.wp u

/-- One label, whichever it is, leads from good to good. -/
theorem Fine.advance {label : Label} (fine : Fine P strict c) (step : c.advance label = some c') :
    Fine P strict c' := by
  cases label with
  | step t ch => exact Good.advance exec_sound fine step
  | start t request =>
    cases rest : c.prog t with
    | ret a =>
      simp only [World.advance,rest,Option.map_eq_some_iff] at step
      obtain ⟨s,run,rfl⟩ := step
      exact Fine.start fine rest run
    | act x k => simp [World.advance,rest] at step
    | loop body s k => simp [World.advance,rest] at step
  | write addr value =>
    simp only [World.advance,Option.ite_none_right_eq_some,Option.some.injEq] at step
    obtain ⟨writable,rfl⟩ := step
    obtain ⟨inv,same⟩ := callerWrite_kept value fine.inv writable
    exact Fine.seen fine inv same
  | create numNodes regionSize =>
    obtain rfl := Option.some.inj step
    exact Fine.seen fine (fine.inv.createInst numNodes regionSize) fun _ => rfl

theorem Fine.execute {schedule : List Label} (fine : Fine P strict c)
    (run : c.execute schedule = some c') : Fine P strict c' := by
  induction schedule generalizing c with
  | nil => exact Option.some.inj run ▸ fine
  | cons label rest ih =>
    obtain ⟨c₁,step,run⟩ := Option.bind_eq_some_iff.mp run
    exact ih (Fine.advance fine step) run

theorem Reachable.fine (reachable : c.Reachable) : Fine P strict c := by
  obtain ⟨mem,schedule,run⟩ := reachable
  exact Fine.execute (initial_fine mem) run

/-- A started operation is the code of its request. -/
theorem started {request : Request} (step : c.advance (.start t request) = some c') :
    c'.prog t = request.code P := by
  simp only [World.advance] at step
  split at step
  case h_2 => cases step
  obtain ⟨s,_,rfl⟩ := Option.map_eq_some_iff.mp step
  exact replace_same

/-- The steps of thread `t` in a schedule. -/
def turns (t : Nat) (schedule : List Label) : Nat :=
  schedule.countP fun label => match label with
    | .step u _ => u = t
    | _ => false

/-- A step of another thread is invisible to `t`. -/
theorem Fine.frame {u : Nat} {ch : Choice} (fine : Fine P strict c)
    (step : c.advance (.step u ch) = some c') (ne : t ≠ u) :
    c'.prog t = c.prog t ∧ c'.state.view t = c.state.view t := by
  simp only [World.advance,Config.advance] at step
  cases prog : c.prog u with
  | ret a => simp [prog] at step
  | act x k =>
    simp only [prog,Option.map_eq_some_iff] at step
    obtain ⟨⟨r,s'⟩,run,rfl⟩ := step
    have safe := fine.safe (t := u) (x := x) (by rw [prog]; rfl)
    obtain ⟨_,_,frame⟩ := exec_sound.keep fine.inv fine.always safe run
    exact ⟨replace_other ne,frame t ne⟩
  | loop body s k =>
    simp only [prog,Option.some.injEq] at step
    subst step
    exact ⟨replace_other ne,rfl⟩

/-- A label that is not a step of `t` leaves a running operation of `t`, and what it sees,
alone. -/
theorem Fine.bystander {label : Label} (fine : Fine P strict c) (step : c.advance label = some c')
    (busy : c.prog t ≠ .ret ()) (other : ∀ ch, label ≠ .step t ch) :
    c'.prog t = c.prog t ∧ c'.state.view t = c.state.view t := by
  cases label with
  | step u ch => exact Fine.frame fine step fun same => other ch (same ▸ rfl)
  | start u request =>
    cases rest : c.prog u with
    | ret a =>
      have ne : t ≠ u := by
        rintro rfl
        exact busy rest
      simp only [World.advance,rest,Option.map_eq_some_iff] at step
      obtain ⟨s,run,rfl⟩ := step
      have idle := Good.resting fine rest
      exact ⟨replace_other ne,(fine.inv.start idle.pin idle.hand run).2.2 t ne⟩
    | act x k => simp [World.advance,rest] at step
    | loop body s k => simp [World.advance,rest] at step
  | write addr value =>
    simp only [World.advance,Option.ite_none_right_eq_some,Option.some.injEq] at step
    obtain ⟨writable,rfl⟩ := step
    exact ⟨rfl,(callerWrite_kept value fine.inv writable).2 t⟩
  | create numNodes regionSize =>
    obtain rfl := Option.some.inj step
    exact ⟨rfl,rfl⟩

/-- A step of `t` at an action acts on its view as the program logic says. -/
theorem Fine.turn {x : Act} {k : x.Res → Prog allocI Unit} {ch : Choice} (fine : Fine P strict c)
    (step : c.advance (.step t ch) = some c') (at_ : c.prog t = .act (I := allocI) x k) :
    ∃ r, (allocLogic P strict).step x (c.state.view t) r (c'.state.view t) ∧ c'.prog t = k r := by
  simp only [World.advance,Config.advance,at_,Option.map_eq_some_iff] at step
  obtain ⟨⟨r,s'⟩,run,rfl⟩ := step
  have safe := fine.safe (t := t) (x := x) (by rw [at_]; rfl)
  exact ⟨r,(exec_sound.keep fine.inv fine.always safe run).2.1,replace_same⟩

/-- An operation followed through a run: `phase n` says where it is after `n` steps of its
own thread, whatever the others do. -/
theorem Fine.follow {schedule : List Label} {phase : Nat → Prog allocI Unit → View → Prop} {n : Nat}
    (fine : Fine P strict c) (run : c.execute schedule = some c')
    (busy : ∀ i p v, phase i p v → p ≠ .ret ()) (start : phase n (c.prog t) (c.state.view t))
    (turn : ∀ i (c c' : World P strict) ch, Fine P strict c → i < n + turns t schedule →
      phase i (c.prog t) (c.state.view t) → c.advance (.step t ch) = some c' →
      phase (i + 1) (c'.prog t) (c'.state.view t)) :
    phase (n + turns t schedule) (c'.prog t) (c'.state.view t) := by
  induction schedule generalizing c n with
  | nil => exact Option.some.inj run ▸ start
  | cons label rest ih =>
    obtain ⟨c₁,step,later⟩ := Option.bind_eq_some_iff.mp run
    clear run
    have fine₁ := Fine.advance fine step
    by_cases mine : ∃ ch, label = .step t ch
    · obtain ⟨ch,rfl⟩ := mine
      have count : turns t (.step t ch :: rest) = turns t rest + 1 := by simp [turns]
      rw [count] at turn ⊢
      rw [show n + (turns t rest + 1) = n + 1 + turns t rest by omega] at turn ⊢
      exact ih fine₁ later (turn n c c₁ ch fine (by omega) start step) turn
    · have count : turns t (label :: rest) = turns t rest := by
        unfold turns
        rw [List.countP_cons]
        cases label with
        | step u ch =>
          have ne : u ≠ t := fun same => mine ⟨ch,same ▸ rfl⟩
          simp [ne]
        | _ => rfl
      rw [count] at turn ⊢
      obtain ⟨prog,view⟩ := Fine.bystander fine step (busy n _ _ start) fun ch same => mine ⟨ch,same⟩
      exact ih fine₁ later (by rw [prog,view]; exact start) turn

theorem execute_append (first rest : List Label) :
    c.execute (first ++ rest) = (c.execute first).bind fun c' => c'.execute rest := by
  induction first generalizing c with
  | nil => rfl
  | cons label first ih =>
    simp only [List.cons_append,World.execute]
    cases c.advance label with
    | none => rfl
    | some c₁ => exact ih

theorem execute_trans {c₁ c₂ : World P strict} {first rest : List Label}
    (run : c.execute first = some c₁) (later : c₁.execute rest = some c₂) :
    c.execute (first ++ rest) = some c₂ := by
  rw [execute_append,run]
  exact later

theorem Reachable.advance {label : Label} (reachable : c.Reachable)
    (step : c.advance label = some c') : c'.Reachable := by
  obtain ⟨mem,schedule,run⟩ := reachable
  exact ⟨mem,schedule ++ [label],execute_trans run (by simp [World.execute,step])⟩

end World

/-! A sample run: thread 1 takes a block of 16384 bytes, whose bag leaves a second one in
its list, and a large object behind a header. -/
namespace Sample

def platform : Platform := ⟨4096,12,rfl,by decide,by decide⟩

def layout (size : Nat) (bound : size + 7 ≤ isizeMax) : Layout := ⟨size,8,⟨3,rfl⟩,bound⟩

theorem small_bound : 16384 + 7 ≤ isizeMax := by decide
theorem large_bound : 262145 + 7 ≤ isizeMax := by decide

def go (t n : Nat) : List Label := List.replicate n (.step t .go)

def schedule : List Label :=
  [.create 1 262144,.start 1 (.alloc 0 (layout 16384 (by decide)))] ++ go 1 1 ++
    [.step 1 (.place 4096 64)] ++ go 1 26 ++
    [.start 1 (.alloc 0 (layout 262145 (by decide)))] ++ go 1 3 ++ [.step 1 (.addr 8192000)] ++
    go 1 4

set_option maxRecDepth 4000 in
theorem run : ∃ c : World platform false, (World.initial fun _ => 0).execute schedule = some c ∧
    c.state.live.map Alloc.ptr = [8192016,278528] ∧ c.state.bags.map Bag.addr = [262144] := by
  have ends : ((World.initial fun _ => 0 : World platform false).execute schedule).map
      (fun c => (c.state.live.map Alloc.ptr,c.state.bags.map Bag.addr)) =
        some ([8192016,278528],[262144]) := by decide +kernel
  obtain ⟨c,run,eq⟩ := Option.map_eq_some_iff.mp ends
  exact ⟨c,run,Prod.mk.inj eq⟩

end Sample

end Numalloc
