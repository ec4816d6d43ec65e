import Numalloc.Concurrent.Rules

/-! A program that runs alone, from its first action to its value. The rules of a program
logic apply to such a run as they do to one step of an interleaving. -/
namespace Concurrent

section

variable {I : Interface} {S α β : Type} {step : (x : I.Op) → S → I.Res x → S → Prop}

/-- `p` takes the state `s` to `s'` and answers `a`. -/
inductive Runs (step : (x : I.Op) → S → I.Res x → S → Prop) :
    {α : Type} → Prog I α → S → α → S → Prop where
  | ret {α : Type} {a : α} {s : S} : Runs step (.ret a) s a s
  | act {α : Type} {x : I.Op} {k : I.Res x → Prog I α} {r : I.Res x} {a : α} {s s₁ s' : S}
      (first : step x s r s₁) (rest : Runs step (k r) s₁ a s') : Runs step (.act x k) s a s'
  | loop {α σ β : Type} {body : σ → Prog I (σ ⊕ β)} {i : σ} {k : β → Prog I α} {a : α} {s s' : S}
      (rest : Runs step (.unroll body i k) s a s') : Runs step (.loop body i k) s a s'

/-- The run of `p` from `s` arrives at the action `x` in the state `s₁`. -/
inductive Meets (step : (x : I.Op) → S → I.Res x → S → Prop) :
    {α : Type} → Prog I α → S → I.Op → S → Prop where
  | here {α : Type} {x : I.Op} {k : I.Res x → Prog I α} {s : S} : Meets step (.act x k) s x s
  | act {α : Type} {x y : I.Op} {k : I.Res x → Prog I α} {r : I.Res x} {s s₁ s₂ : S}
      (first : step x s r s₁) (rest : Meets step (k r) s₁ y s₂) : Meets step (.act x k) s y s₂
  | loop {α σ β : Type} {y : I.Op} {body : σ → Prog I (σ ⊕ β)} {i : σ} {k : β → Prog I α}
      {s s₂ : S} (rest : Meets step (.unroll body i k) s y s₂) : Meets step (.loop body i k) s y s₂

variable {L : Logic I S} {p : Prog I α} {f : α → Prog I β} {Q : α → S → Prop} {s s' s₁ : S}
  {a : α} {b : β} {x : I.Op}

/-- A run ends where the weakest precondition says. -/
theorem Runs.post (run : Runs L.step p s a s') (pre : L.wp p Q s) : Q a s' := by
  induction run with
  | ret => exact pre.2
  | act first rest ih => exact ih (pre.2.2 _ _ first)
  | loop rest ih => exact ih (Logic.wp_unroll pre)

/-- Every action a run arrives at is taken under its precondition. -/
theorem Meets.safe (meets : Meets L.step p s x s₁) (pre : L.wp p Q s) :
    L.always s₁ ∧ L.safe x s₁ := by
  induction meets with
  | here => exact ⟨pre.1,pre.2.1⟩
  | act first rest ih => exact ih (pre.2.2 _ _ first)
  | loop rest ih => exact ih (Logic.wp_unroll pre)

theorem Runs.bind (first : Runs step p s a s₁) (rest : Runs step (f a) s₁ b s') :
    Runs step (p.bind f) s b s' := by
  induction first with
  | ret => exact rest
  | act action _ ih => exact .act action (ih rest)
  | loop _ ih =>
    have inner := ih rest
    rw [Prog.unroll_bind] at inner
    exact .loop inner

/-- An iteration that goes round again, and the last one. -/
theorem Runs.again {σ : Type} {body : σ → Prog I (σ ⊕ β)} {i j : σ}
    (once : Runs step (body i) s (.inl j) s₁) (rest : Runs step (.iter body j) s₁ b s') :
    Runs step (.iter body i) s b s' :=
  .loop (once.bind rest)

theorem Runs.last {σ : Type} {body : σ → Prog I (σ ⊕ β)} {i : σ}
    (once : Runs step (body i) s (.inr b) s') : Runs step (.iter body i) s b s' :=
  .loop (once.bind .ret)

/-- The rules of a step relation alone: nothing is required of an action. -/
@[reducible] def Logic.plain (step : (x : I.Op) → S → I.Res x → S → Prop) : Logic I S :=
  ⟨fun _ => True,fun _ _ => True,step⟩

/-- Where nothing is required, nothing has to be known. -/
theorem Logic.plain_any {p : Prog I α} : (Logic.plain step).wp p (fun _ _ => True) s := by
  induction p generalizing s with
  | ret a => exact ⟨trivial,trivial⟩
  | act x k ih => exact ⟨trivial,trivial,fun r _ _ => ih r⟩
  | loop body i k ihBody ihK =>
    refine ⟨trivial,fun _ _ => True,trivial,fun i s _ => wp_mono (ihBody i) fun r s _ _ => ?_⟩
    cases r with
    | inl j => trivial
    | inr b => exact ihK b

/-- Run a program alone for a number of steps; `none` when it is stuck or needs more. -/
def Prog.runFor (exec : (x : I.Op) → S → Option (I.Res x × S)) :
    Nat → Prog I α → S → Option (α × S)
  | 0, _, _ => none
  | _ + 1, .ret a, s => some (a,s)
  | n + 1, .act x k, s => (exec x s).bind fun r => runFor exec n (k r.1) r.2
  | n + 1, .loop body i k, s => runFor exec n (.unroll body i k) s

/-- A program that is run to its end has a run. -/
theorem Runs.of_runFor {exec : (x : I.Op) → S → Option (I.Res x × S)}
    (sub : ∀ {x s r s'}, exec x s = some (r,s') → step x s r s') (n : Nat)
    (run : p.runFor exec n s = some (a,s')) : Runs step p s a s' := by
  induction n generalizing p s with
  | zero => cases run
  | succ n ih =>
    cases p with
    | ret b =>
      obtain ⟨rfl,rfl⟩ := Prod.mk.inj (Option.some.inj run)
      exact .ret
    | act x k =>
      obtain ⟨⟨r,s₁⟩,first,rest⟩ := Option.bind_eq_some_iff.mp run
      exact .act (sub first) (ih rest)
    | loop body i k => exact .loop (ih run)

/-- Run a program without loops to its end; `none` where an action has no answer. -/
def Prog.straight (exec : (x : I.Op) → S → Option (I.Res x × S)) :
    {α : Type} → Prog I α → S → Option (α × S)
  | _, .ret a, s => some (a,s)
  | _, .act x k, s => (exec x s).bind fun r => straight exec (k r.1) r.2
  | _, .loop _ _ _, _ => none

theorem Prog.straight_bind {exec : (x : I.Op) → S → Option (I.Res x × S)}
    (ends : p.straight exec s = some (a,s₁)) :
    (p.bind f).straight exec s = (f a).straight exec s₁ := by
  induction p generalizing s with
  | ret b =>
    obtain ⟨rfl,rfl⟩ := Prod.mk.inj (Option.some.inj ends)
    rfl
  | act x k ih =>
    obtain ⟨⟨r,s₂⟩,first,rest⟩ := Option.bind_eq_some_iff.mp ends
    simp only [Prog.bind,Prog.straight,first,Option.bind_some]
    exact ih r rest
  | loop body i k => cases ends

end

end Concurrent
