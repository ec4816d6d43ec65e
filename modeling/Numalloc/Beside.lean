import Numalloc.Concurrent.Only
import Numalloc.Runs

/-! A second program logic for one thread, beside the one that shows every configuration
good: it may look at more of the state than the view, and relies on what is known there. -/
namespace Numalloc

open Concurrent View

/-- The steps of thread `t` are sound for what it looks at, and nobody else changes that. -/
structure Beside (P : Platform) (strict : Bool) {W : Type} (L : Logic allocI W)
    (look : Nat → State → W) : Prop where
  own : ∀ {t x ch s r s'}, Inv P s → (∀ u, (allocLogic P strict).always (s.view u)) →
    safe P strict x (s.view t) → L.safe x (look t s) → exec P strict t x ch s = some (r,s') →
    L.step x (look t s) r (look t s')
  others : ∀ {c c' : World P strict} {label t}, Fine P strict c → c.advance label = some c' →
    (∀ ch, label ≠ .step t ch) → (∀ request, label ≠ .start t request) →
    look t c'.state = look t c.state

variable {P : Platform} {strict : Bool} {W : Type} {L : Logic allocI W} {look : Nat → State → W}
  {c c' : World P strict} {t : Nat} {α : Type}

/-- Only steps of `t` itself, and requests to it, change its program. -/
theorem World.prog_same {label : Label} (step : c.advance label = some c')
    (other : ∀ ch, label ≠ .step t ch) (fresh : ∀ request, label ≠ .start t request) :
    c'.prog t = c.prog t := by
  cases label with
  | step u ch =>
    have ne : t ≠ u := fun same => other ch (same ▸ rfl)
    simp only [World.advance,Config.advance] at step
    cases prog : c.prog u with
    | ret a => simp [prog] at step
    | act x k =>
      simp only [prog,Option.map_eq_some_iff] at step
      obtain ⟨a,_,rfl⟩ := step
      exact replace_other ne
    | loop body i k =>
      simp only [prog,Option.some.injEq] at step
      subst step
      exact replace_other ne
  | start u request =>
    have ne : t ≠ u := fun same => fresh request (same ▸ rfl)
    simp only [World.advance] at step
    split at step
    case h_2 => cases step
    obtain ⟨s,_,rfl⟩ := Option.map_eq_some_iff.mp step
    exact replace_other ne
  | write addr value =>
    simp only [World.advance,Option.ite_none_right_eq_some,Option.some.injEq] at step
    obtain ⟨_,rfl⟩ := step
    rfl
  | create numNodes regionSize =>
    obtain rfl := Option.some.inj step
    rfl

/-- The thread that acts or is asked to. -/
def Label.thread : Label → Option Nat
  | .step t _ | .start t _ => some t
  | .write _ _ | .create _ _ => none

theorem World.prog_run {schedule : List Label} (run : c.execute schedule = some c')
    (silent : ∀ label ∈ schedule, label.thread ≠ some t) : c'.prog t = c.prog t := by
  induction schedule generalizing c with
  | nil => exact Option.some.inj run ▸ rfl
  | cons label rest ih =>
    obtain ⟨c₁,step,run⟩ := Option.bind_eq_some_iff.mp run
    have first := silent label List.mem_cons_self
    rw [ih run fun label mem => silent label (List.mem_cons_of_mem _ mem)]
    exact World.prog_same step (fun ch same => first (same ▸ rfl)) fun request same => first (same ▸ rfl)

/-- Whether the label is a step of `t` at such an action. -/
def World.takes (c : World P strict) (t : Nat) (f : Act → Bool) : Label → Bool
  | .step u _ => u = t && (c.prog t).next.any f
  | _ => false

/-- How many such actions thread `t` takes in a run. -/
def World.count (c : World P strict) (t : Nat) (f : Act → Bool) : List Label → Nat
  | [] => 0
  | label :: rest => (if c.takes t f label then 1 else 0) +
      match c.advance label with
      | some c' => World.count c' t f rest
      | none => 0

theorem World.count_append {before after : List Label} {f : Act → Bool}
    (run : c.execute before = some c') :
    c.count t f (before ++ after) = c.count t f before + c'.count t f after := by
  induction before generalizing c with
  | nil =>
    obtain rfl := Option.some.inj run
    simp [World.count]
  | cons label rest ih =>
    obtain ⟨c₁,step,run⟩ := Option.bind_eq_some_iff.mp run
    simp only [List.cons_append,World.count,step,ih run,Nat.add_assoc]

/-- A step of `t`, taken from the front of a program: an action, or a loop unrolled. -/
theorem World.front {ch : Choice} {p : Prog allocI α} {k : α → Prog allocI Unit}
    (step : c.advance (.step t ch) = some c') (at_ : c.prog t = p.bind k) (busy : ∀ a, p ≠ .ret a) :
    (∃ x f r, p = .act x f ∧ exec P strict t x ch c.state = some (r,c'.state) ∧
      c'.prog t = (f r).bind k) ∨
    ∃ (σ β : Type) (body : σ → Prog allocI (σ ⊕ β)) (i : σ) (f : β → Prog allocI α),
      p = .loop body i f ∧ c'.state = c.state ∧ c'.prog t = (Prog.unroll body i f).bind k := by
  simp only [World.advance,Config.advance,at_] at step
  cases p with
  | ret a => exact absurd rfl (busy a)
  | act x f =>
    simp only [Prog.bind,Option.map_eq_some_iff] at step
    obtain ⟨⟨r,s⟩,run,rfl⟩ := step
    exact Or.inl ⟨x,f,r,rfl,run,replace_same⟩
  | loop body i f =>
    simp only [Prog.bind,Option.some.injEq] at step
    subst step
    exact Or.inr ⟨_,_,body,i,f,rfl,rfl,by rw [Prog.unroll_bind]; exact replace_same⟩

namespace Beside

/-- What remains of a program keeps its precondition, whoever moves. -/
theorem advance {label : Label} {p : Prog allocI α} {k : α → Prog allocI Unit} {Q : α → W → Prop}
    (beside : Beside P strict L look) (fine : Fine P strict c) (step : c.advance label = some c')
    (fresh : ∀ request, label ≠ .start t request) (at_ : c.prog t = p.bind k)
    (busy : ∀ a, p ≠ .ret a) (pre : L.wp p Q (look t c.state)) : ∃ p' : Prog allocI α,
      c'.prog t = p'.bind k ∧ (∀ ok, p.Only ok → p'.Only ok) ∧ L.wp p' Q (look t c'.state) := by
  by_cases own : ∃ ch, label = .step t ch
  · obtain ⟨ch,rfl⟩ := own
    rcases World.front step at_ busy with ⟨x,f,r,rfl,run,prog⟩ | ⟨σ,β,body,i,f,rfl,same,prog⟩
    · have safe := fine.safe (t := t) (x := x) (by rw [at_]; rfl)
      have next := beside.own fine.inv fine.always safe pre.2.1 run
      exact ⟨f r,prog,fun _ only => only.2 r,pre.2.2 r _ next⟩
    · exact ⟨_,prog,fun _ only => only.unroll,by rw [same]; exact Logic.wp_unroll pre⟩
  · have other : ∀ ch, label ≠ .step t ch := fun ch same => own ⟨ch,same⟩
    exact ⟨p,(World.prog_same step other fresh).trans at_,fun _ => id,
      by rw [beside.others fine step other fresh]; exact pre⟩

theorem keeps {label : Label} {Q : Unit → W → Prop} (beside : Beside P strict L look)
    (fine : Fine P strict c) (step : c.advance label = some c')
    (fresh : ∀ request, label ≠ .start t request) (pre : L.wp (c.prog t) Q (look t c.state)) :
    L.wp (c'.prog t) Q (look t c'.state) := by
  by_cases busy : ∀ a, c.prog t ≠ .ret a
  · obtain ⟨p',prog,_,pre'⟩ := beside.advance (p := c.prog t) fine step fresh
      (Prog.bind_pure _).symm busy pre
    rw [prog,Prog.bind_pure]
    exact pre'
  · obtain ⟨a,rest⟩ := not_forall_not.mp busy
    have other : ∀ ch, label ≠ .step t ch := by
      rintro ch rfl
      simp [World.advance,Config.advance,rest] at step
    rw [World.prog_same step other fresh,beside.others fine step other fresh]
    exact pre

/-- An operation keeps its precondition until its thread is asked for another. -/
theorem run {schedule : List Label} {Q : Unit → W → Prop} (beside : Beside P strict L look)
    (fine : Fine P strict c) (run : c.execute schedule = some c')
    (fresh : ∀ request, .start t request ∉ schedule) (pre : L.wp (c.prog t) Q (look t c.state)) :
    L.wp (c'.prog t) Q (look t c'.state) := by
  induction schedule generalizing c with
  | nil => exact Option.some.inj run ▸ pre
  | cons label rest ih =>
    obtain ⟨c₁,step,later⟩ := Option.bind_eq_some_iff.mp run
    have first : ∀ request, label ≠ .start t request := fun request same =>
      fresh request (same ▸ List.mem_cons_self)
    exact ih (World.Fine.advance fine step) later
      (fun request mem => fresh request (List.mem_cons_of_mem label mem))
      (beside.keeps fine step first pre)

/-- A program in progress, followed through a run: it is still in progress at the end, or it
was through at some point and the rest is left. -/
theorem split {schedule : List Label} {p : Prog allocI α} {k : α → Prog allocI Unit}
    {Q : α → W → Prop} {ok : Act → Prop} (beside : Beside P strict L look) (fine : Fine P strict c)
    (run : c.execute schedule = some c') (fresh : ∀ request, .start t request ∉ schedule)
    (at_ : c.prog t = p.bind k) (only : p.Only ok) (pre : L.wp p Q (look t c.state)) :
    ((∀ x, (c'.prog t).next = some x → ok x) ∧
      ∀ f : Act → Bool, (∀ x, ok x → f x = false) → c.count t f schedule = 0) ∨
    ∃ before after cm a, schedule = before ++ after ∧ c.execute before = some cm ∧
      cm.execute after = some c' ∧ cm.prog t = k a ∧ Q a (look t cm.state) ∧
      ∀ f : Act → Bool, (∀ x, ok x → f x = false) → c.count t f before = 0 := by
  by_cases through : ∃ a, p = .ret a
  · obtain ⟨a,rfl⟩ := through
    exact Or.inr ⟨[],schedule,c,a,rfl,rfl,run,at_,pre.2,fun _ _ => rfl⟩
  have busy := not_exists.mp through
  induction schedule generalizing c p with
  | nil =>
    obtain rfl := Option.some.inj run
    refine Or.inl ⟨fun x next => only.next ?_,fun _ _ => rfl⟩
    rw [at_] at next
    cases p with
    | act y f => exact next
    | ret a => exact absurd rfl (busy a)
    | loop body i f => cases next
  | cons label rest ih =>
    obtain ⟨c₁,step,later⟩ := Option.bind_eq_some_iff.mp run
    have first : ∀ request, label ≠ .start t request := fun request same =>
      fresh request (same ▸ List.mem_cons_self)
    have quiet : ∀ f : Act → Bool, (∀ x, ok x → f x = false) → ∀ rest',
        c.count t f (label :: rest') = c₁.count t f rest' := by
      intro f none_ rest'
      have untaken : c.takes t f label = false := by
        cases label with
        | step u ch =>
          by_cases same : u = t
          · simp only [World.takes,same,decide_true,Bool.true_and,at_]
            cases p with
            | act y g => exact none_ y only.1
            | ret a => exact absurd rfl (busy a)
            | loop body i g => rfl
          · simp [World.takes,same]
        | _ => rfl
      simp [World.count,untaken,step]
    obtain ⟨p',prog,keeps,pre'⟩ := beside.advance fine step first at_ busy pre
    have fine₁ := World.Fine.advance fine step
    have fresh₁ : ∀ request, Label.start t request ∉ rest := fun request mem =>
      fresh request (List.mem_cons_of_mem label mem)
    by_cases through : ∃ a, p' = .ret a
    · obtain ⟨a,rfl⟩ := through
      refine Or.inr ⟨[label],rest,c₁,a,rfl,?_,later,prog,pre'.2,fun f none_ => ?_⟩
      · simp [World.execute,step]
      · rw [quiet f none_]
        rfl
    · rcases ih fine₁ later fresh₁ prog (keeps ok only) pre' through (not_exists.mp through) with
        ⟨next,count⟩ | ⟨before,after,cm,a,eq,front,back,here,post,count⟩
      · exact Or.inl ⟨next,fun f none_ => (quiet f none_ rest).trans (count f none_)⟩
      · refine Or.inr ⟨label :: before,after,cm,a,by rw [eq]; rfl,?_,back,here,post,
          fun f none_ => (quiet f none_ before).trans (count f none_)⟩
        simp only [World.execute,step,Option.bind_eq_bind,Option.bind_some]
        exact front

end Beside

end Numalloc
