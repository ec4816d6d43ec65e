import Numalloc.Concurrent.Prog

/-! Clients of a shared object. A thread calls one operation at a time; the call is in
progress until a step leaves it nothing more to do, and returns with that step. -/
namespace Concurrent

/-- A machine with the operations it offers. `enter` is what a client must respect when it
begins a call, and what is recorded then. -/
structure Object (I : Interface) extends Machine I where
  Request : Type
  Answer : Type
  code : Request → Prog I Answer
  enter : Nat → Request → State → Option State

section

variable {I : Interface}

/-- A call in progress. `since` counts the calls that had returned when it began. -/
structure Running (O : Object I) where
  request : O.Request
  since : Nat
  rest : Prog I O.Answer

/-- A call that has returned. -/
structure Returned (O : Object I) where
  thread : Nat
  request : O.Request
  since : Nat
  answer : O.Answer

structure Session (O : Object I) where
  state : O.State
  calls : Nat → Option (Running O)
  log : List (Returned O)

inductive Event (O : Object I) where
  | call (thread : Nat) (request : O.Request)
  | step (thread : Nat) (choice : O.Choice)

variable {O : Object I}

namespace Session

/-- Nothing called yet. -/
def fresh (s : O.State) : Session O := ⟨s,fun _ => none,[]⟩

/-- A call that has come to its answer returns. -/
def settle (c : Session O) (t : Nat) (run : Running O) (s : O.State) : Session O :=
  match run.rest with
  | .ret a => ⟨s,replace c.calls t none,c.log ++ [⟨t,run.request,run.since,a⟩]⟩
  | _ => ⟨s,replace c.calls t (some run),c.log⟩

def advance (c : Session O) : Event O → Option (Session O)
  | .call t request =>
    match c.calls t with
    | none => (O.enter t request c.state).map fun s =>
        c.settle t ⟨request,c.log.length,O.code request⟩ s
    | some _ => none
  | .step t choice =>
    match c.calls t with
    | none => none
    | some run =>
      match run.rest with
      | .ret _ => none
      | .act x k => (O.exec t x choice c.state).map fun r =>
          c.settle t { run with rest := k r.1 } r.2
      | .loop body i k => some (c.settle t { run with rest := .unroll body i k } c.state)

def execute (c : Session O) : List (Event O) → Option (Session O)
  | [] => some c
  | event :: rest => do (← c.advance event).execute rest

variable {c c' : Session O} {t : Nat} {run : Running O} {s : O.State}

theorem settle_ret {request : O.Request} {since : Nat} {a : O.Answer} :
    c.settle t ⟨request,since,.ret a⟩ s =
      ⟨s,replace c.calls t none,c.log ++ [⟨t,request,since,a⟩]⟩ := rfl

theorem settle_busy (busy : ∀ a, run.rest ≠ .ret a) :
    c.settle t run s = ⟨s,replace c.calls t (some run),c.log⟩ := by
  unfold settle
  split
  case h_1 a rest => exact absurd rest (busy a)
  case h_2 => rfl

/-- What every event keeps holds after every run. -/
theorem execute_keeps (inv : Session O → Prop) (keep : ∀ {c event c'}, inv c →
    c.advance event = some c' → inv c') {events : List (Event O)} (start : inv c)
    (run : c.execute events = some c') : inv c' := by
  induction events generalizing c with
  | nil => exact Option.some.inj run ▸ start
  | cons event rest ih =>
    obtain ⟨c₁,step,run⟩ := Option.bind_eq_some_iff.mp run
    exact ih (keep start step) run

end Session

end

end Concurrent
