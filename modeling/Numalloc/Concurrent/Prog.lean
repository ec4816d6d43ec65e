import Mathlib.Logic.Function.Basic

/-! Programs of one thread, as trees of atomic actions with retry loops, and
machines that interleave the programs of any number of threads. One scheduled
step is one action; unrolling a loop is a silent step that leaves the state alone. -/
namespace Concurrent

/-- The atomic actions a program may take and what each of them answers. -/
structure Interface where
  Op : Type
  Res : Op → Type

inductive Prog (I : Interface) : Type → Type 1 where
  | ret {α : Type} (a : α) : Prog I α
  | act {α : Type} (x : I.Op) (k : I.Res x → Prog I α) : Prog I α
  | loop {α σ β : Type} (body : σ → Prog I (σ ⊕ β)) (s : σ) (k : β → Prog I α) : Prog I α

namespace Prog

variable {I J : Interface} {α β σ : Type}

def bind : Prog I α → (α → Prog I β) → Prog I β
  | .ret a, f => f a
  | .act x k, f => .act x fun r => bind (k r) f
  | .loop body s k, f => .loop body s fun b => bind (k b) f

instance : Monad (Prog I) where
  pure := .ret
  bind := bind

/-- A single action whose answer is the program's value. -/
def call (x : I.Op) : Prog I (I.Res x) := .act x .ret

/-- Repeat the body until it answers `.inr`. -/
def iter (body : σ → Prog I (σ ⊕ β)) (s : σ) : Prog I β := .loop body s .ret

/-- Run a program over another interface that offers the same answers. -/
def lift (f : I.Op → J.Op) (e : ∀ x, J.Res (f x) → I.Res x) : {α : Type} → Prog I α → Prog J α
  | _, .ret a => .ret a
  | _, .act x k => .act (f x) fun r => lift f e (k (e x r))
  | _, .loop body s k => .loop (fun s => lift f e (body s)) s fun b => lift f e (k b)

/-- One silent unrolling of a loop. -/
def unroll (body : σ → Prog I (σ ⊕ β)) (s : σ) (k : β → Prog I α) : Prog I α :=
  bind (body s) fun
    | .inl s => .loop body s k
    | .inr b => k b

theorem bind_assoc {γ : Type} (p : Prog I α) (f : α → Prog I β) (g : β → Prog I γ) :
    bind (bind p f) g = bind p fun a => bind (f a) g := by
  induction p with
  | ret a => rfl
  | act x k ih => simp only [bind,ih]
  | loop body s k ihBody ihK => simp only [bind,ihK]

theorem bind_pure (p : Prog I α) : bind p .ret = p := by
  induction p with
  | ret a => rfl
  | act x k ih => simp only [bind,ih]
  | loop body s k ihBody ihK => simp only [bind,ihK]

theorem unroll_bind {body : σ → Prog I (σ ⊕ β)} {s : σ} {k : β → Prog I α} {γ : Type}
    (f : α → Prog I γ) : bind (unroll body s k) f = unroll body s fun b => bind (k b) f := by
  simp only [unroll,bind_assoc]
  congr 1
  funext r
  cases r <;> rfl

/-- The action a program takes next, if it is at one. -/
def next : Prog I α → Option I.Op
  | .act x _ => some x
  | _ => none

@[simp] theorem pure_eq (a : α) : (pure a : Prog I α) = .ret a := rfl
@[simp] theorem bind_eq (p : Prog I α) (f : α → Prog I β) : (p >>= f) = bind p f := rfl
@[simp] theorem bind_ret (a : α) (f : α → Prog I β) : bind (.ret a) f = f a := rfl

theorem lift_bind (f : I.Op → J.Op) (e : ∀ x, J.Res (f x) → I.Res x) (p : Prog I α)
    (k : α → Prog I β) : lift f e (bind p k) = bind (lift f e p) fun a => lift f e (k a) := by
  induction p with
  | ret a => rfl
  | act x k ih => simp only [bind,lift,ih]
  | loop body s k ihBody ihK => simp only [bind,lift,ihK]

end Prog

/-- Replace the value of a function at one argument. -/
def replace {κ α : Type*} [DecidableEq κ] (f : κ → α) (key : κ) (value : α) : κ → α :=
  fun other => if other = key then value else f other

section Replace

variable {κ α : Type*} [DecidableEq κ] {f : κ → α} {key other : κ} {value : α}

@[simp] theorem replace_same : replace f key value key = value := by simp [replace]

theorem replace_other (h : other ≠ key) : replace f key value other = f other := by
  simp [replace,h]

theorem replace_twice (value' : α) :
    replace (replace f key value') key value = replace f key value := by
  funext other
  by_cases h : other = key <;> simp [replace,h]

@[simp] theorem replace_self : replace f key (f key) = f := by
  funext other
  by_cases h : other = key <;> simp [replace,h]

end Replace

/-- Shared states, the resolved nondeterminism of a step, and what each action does. -/
structure Machine (I : Interface) where
  State : Type
  Choice : Type
  exec : Nat → (x : I.Op) → Choice → State → Option (I.Res x × State)

structure Config {I : Interface} (M : Machine I) where
  state : M.State
  prog : Nat → Prog I Unit

namespace Config

variable {I : Interface} {M : Machine I}

/-- Schedule one step of one thread. A finished thread has no step. -/
def advance (thread : Nat) (choice : M.Choice) (c : Config M) : Option (Config M) :=
  match c.prog thread with
  | .ret _ => none
  | .act x k => (M.exec thread x choice c.state).map fun r =>
      ⟨r.2, replace c.prog thread (k r.1)⟩
  | .loop body s k => some ⟨c.state, replace c.prog thread (Prog.unroll body s k)⟩

/-- Between operations. -/
def Idle (c : Config M) (thread : Nat) : Prop := c.prog thread = .ret ()

end Config

end Concurrent
