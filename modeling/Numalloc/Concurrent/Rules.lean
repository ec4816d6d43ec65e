import Numalloc.Concurrent.Prog

/-! A program logic for interleaved programs. A thread reasons about its own view
of the shared state; `safe` is what an action requires of the view, `step` what it
may make of it. `always` holds at every point of an operation, so it is available
in every reachable state, not only between operations. -/
namespace Concurrent

structure Logic (I : Interface) (V : Type) where
  always : V → Prop
  safe : I.Op → V → Prop
  step : (x : I.Op) → V → I.Res x → V → Prop

namespace Logic

variable {I J : Interface} {V α β σ : Type} {L : Logic I V}

/-- The weakest precondition of a program; a loop is governed by an invariant. -/
def wp (L : Logic I V) : {α : Type} → Prog I α → (α → V → Prop) → V → Prop
  | _, .ret a, Q, v => L.always v ∧ Q a v
  | _, .act x k, Q, v => L.always v ∧ L.safe x v ∧ ∀ r v', L.step x v r v' → wp L (k r) Q v'
  | _, @Prog.loop _ _ σ _ body s k, Q, v => L.always v ∧ ∃ inv : σ → V → Prop, inv s v ∧
      ∀ s v, inv s v → wp L (body s) (fun r v => match r with
        | .inl s => inv s v
        | .inr b => wp L (k b) Q v) v

theorem wp_always {p : Prog I α} {Q : α → V → Prop} {v : V} (h : L.wp p Q v) : L.always v := by
  cases p <;> exact h.1

@[simp] theorem wp_ret {a : α} {Q : α → V → Prop} {v : V} :
    L.wp (.ret a) Q v ↔ L.always v ∧ Q a v := Iff.rfl

theorem wp_mono {p : Prog I α} {P Q : α → V → Prop} {v : V} (h : L.wp p P v)
    (imp : ∀ a v, L.always v → P a v → Q a v) : L.wp p Q v := by
  induction p generalizing v with
  | ret a => exact ⟨h.1,imp a v h.1 h.2⟩
  | act x k ih => exact ⟨h.1,h.2.1,fun r v' st => ih r (h.2.2 r v' st) imp⟩
  | loop body s k ihBody ihK =>
    obtain ⟨always,inv,start,keep⟩ := h
    refine ⟨always,inv,start,fun s v hs => ihBody s (keep s v hs) ?_⟩
    intro r v _ hr
    cases r with
    | inl s => exact hr
    | inr b => exact ihK b hr imp

theorem wp_bind {p : Prog I α} {f : α → Prog I β} {Q : β → V → Prop} {v : V} :
    L.wp (p.bind f) Q v ↔ L.wp p (fun a v => L.wp (f a) Q v) v := by
  induction p generalizing v with
  | ret a => exact ⟨fun h => ⟨wp_always h,h⟩,fun h => h.2⟩
  | act x k ih =>
    refine and_congr_right fun _ => and_congr_right fun _ => ?_
    exact forall_congr' fun r => forall_congr' fun v' => imp_congr_right fun _ => ih r
  | loop body s k ihBody ihK =>
    constructor
    · rintro ⟨always,inv,start,keep⟩
      refine ⟨always,inv,start,fun s v hs => wp_mono (keep s v hs) ?_⟩
      intro r v _ hr
      cases r with
      | inl s => exact hr
      | inr b => exact (ihK b).mp hr
    · rintro ⟨always,inv,start,keep⟩
      refine ⟨always,inv,start,fun s v hs => wp_mono (keep s v hs) ?_⟩
      intro r v _ hr
      cases r with
      | inl s => exact hr
      | inr b => exact (ihK b).mpr hr

/-- What is known of a program in one logic holds beside what is shown in another whose
steps say as much. -/
theorem wp_along {W : Type} {M : Logic I W} (look : W → V)
    (step : ∀ x w r w', M.step x w r w' → L.step x (look w) r (look w')) {p : Prog I α}
    {Q : α → V → Prop} {R : α → W → Prop} {w : W} (pre : L.wp p Q (look w)) (beside : M.wp p R w) :
    M.wp p (fun a w => Q a (look w) ∧ R a w) w := by
  induction p generalizing w with
  | ret a => exact ⟨beside.1,pre.2,beside.2⟩
  | act x k ih =>
    exact ⟨beside.1,beside.2.1,fun r w' st =>
      ih r (pre.2.2 r (look w') (step x w r w' st)) (beside.2.2 r w' st)⟩
  | loop body s k ihBody ihK =>
    obtain ⟨_,inv,start,keep⟩ := pre
    obtain ⟨always,inv',start',keep'⟩ := beside
    refine ⟨always,fun s w => inv s (look w) ∧ inv' s w,⟨start,start'⟩,fun s w both => ?_⟩
    refine wp_mono (ihBody s (keep s _ both.1) (keep' s w both.2)) fun r w _ post => ?_
    cases r with
    | inl s => exact post
    | inr b => exact ihK b post.1 post.2

theorem wp_call {x : I.Op} {Q : I.Res x → V → Prop} {v : V} (always : L.always v)
    (safe : L.safe x v) (post : ∀ r v', L.step x v r v' → L.always v' ∧ Q r v') :
    L.wp (.call x) Q v :=
  ⟨always,safe,post⟩

/-- Loop rule: an invariant that the body keeps, or leaves with the postcondition. -/
theorem wp_iter {body : σ → Prog I (σ ⊕ β)} {s : σ} {Q : β → V → Prop} {v : V}
    (inv : σ → V → Prop) (always : L.always v) (start : inv s v)
    (keep : ∀ s v, inv s v → L.wp (body s) (fun r v => match r with
      | .inl s => inv s v
      | .inr b => Q b v) v) : L.wp (.iter body s) Q v := by
  refine ⟨always,inv,start,fun s v hs => wp_mono (keep s v hs) ?_⟩
  intro r v alwaysV hr
  cases r with
  | inl s => exact hr
  | inr b => exact ⟨alwaysV,hr⟩

theorem wp_unroll {body : σ → Prog I (σ ⊕ β)} {s : σ} {k : β → Prog I α} {Q : α → V → Prop}
    {v : V} (h : L.wp (.loop body s k) Q v) : L.wp (Prog.unroll body s k) Q v := by
  obtain ⟨_,inv,start,keep⟩ := h
  refine wp_bind.mpr (wp_mono (keep s v start) ?_)
  intro r v always hr
  cases r with
  | inl s => exact ⟨always,inv,hr,keep⟩
  | inr b => exact hr

/-- Composition: what the first part establishes is what the second starts from. -/
theorem wp_seq {p : Prog I α} {f : α → Prog I β} {P : α → V → Prop} {Q : β → V → Prop} {v : V}
    (first : L.wp p P v) (rest : ∀ a v, L.always v → P a v → L.wp (f a) Q v) :
    L.wp (p.bind f) Q v :=
  wp_bind.mpr (wp_mono first rest)

/-- The rules of a larger interface, seen from programs over a smaller one. -/
def pull (K : Logic J V) (f : I.Op → J.Op) (e : ∀ x, J.Res (f x) → I.Res x) : Logic I V where
  always := K.always
  safe x := K.safe (f x)
  step x v r v' := ∃ r', e x r' = r ∧ K.step (f x) v r' v'

theorem wp_lift {K : Logic J V} {f : I.Op → J.Op} {e : ∀ x, J.Res (f x) → I.Res x}
    {p : Prog I α} {Q : α → V → Prop} {v : V} (h : (K.pull f e).wp p Q v) :
    K.wp (p.lift f e) Q v := by
  induction p generalizing v with
  | ret a => exact h
  | act x k ih => exact ⟨h.1,h.2.1,fun r v' st => ih (e x r) (h.2.2 _ v' ⟨r,rfl,st⟩)⟩
  | loop body s k ihBody ihK =>
    obtain ⟨always,inv,start,keep⟩ := h
    refine ⟨always,inv,start,fun s v hs => ihBody s (wp_mono (keep s v hs) ?_)⟩
    intro r v _ hr
    cases r with
    | inl s => exact hr
    | inr b => exact ihK b hr

/-- At an action the program logic hands out the action's precondition. -/
theorem wp_next {p : Prog I α} {Q : α → V → Prop} {v : V} {x : I.Op} (h : L.wp p Q v)
    (at_ : p.next = some x) : L.safe x v := by
  cases p with
  | act y k =>
    obtain rfl := Option.some.inj at_
    exact h.2.1
  | ret a => simp [Prog.next] at at_
  | loop body s k => simp [Prog.next] at at_

end Logic

section Soundness

variable {I : Interface} {M : Machine I} {V : Type}

/-- Every action is sound for the shared invariant and for all views: it keeps the
invariant, acts on the view of its own thread as the logic says, and is invisible
in the view of every other thread. -/
structure Sound (M : Machine I) (L : Logic I V) (view : Nat → M.State → V)
    (inv : M.State → Prop) : Prop where
  keep : ∀ {t x ch s r s'}, inv s → (∀ u, L.always (view u s)) → L.safe x (view t s) →
    M.exec t x ch s = some (r,s') →
    inv s' ∧ L.step x (view t s) r (view t s') ∧ ∀ u, u ≠ t → view u s' = view u s

/-- The invariant of whole configurations: every thread is in the middle of a
program whose weakest precondition its view satisfies. -/
structure Good (M : Machine I) (L : Logic I V) (view : Nat → M.State → V)
    (inv : M.State → Prop) (idle : V → Prop) (c : Config M) : Prop where
  inv : inv c.state
  wp : ∀ t, L.wp (c.prog t) (fun _ v => idle v) (view t c.state)

variable {L : Logic I V} {view : Nat → M.State → V} {inv : M.State → Prop} {idle : V → Prop}

theorem Good.always {c : Config M} (good : Good M L view inv idle c) (t : Nat) :
    L.always (view t c.state) := Logic.wp_always (good.wp t)

theorem Good.resting {c : Config M} {t : Nat} (good : Good M L view inv idle c) (rest : c.Idle t) :
    idle (view t c.state) := by
  have h := good.wp t
  rw [show c.prog t = .ret () from rest] at h
  exact h.2

theorem Good.safe {c : Config M} {t : Nat} {x : I.Op} (good : Good M L view inv idle c)
    (at_ : (c.prog t).next = some x) : L.safe x (view t c.state) :=
  Logic.wp_next (good.wp t) at_

/-- One scheduled step of any thread keeps the configuration good. -/
theorem Good.advance {c c' : Config M} {t : Nat} {ch : M.Choice}
    (sound : Sound M L view inv) (good : Good M L view inv idle c)
    (step : c.advance t ch = some c') : Good M L view inv idle c' := by
  have own := good.wp t
  unfold Config.advance at step
  cases h : c.prog t with
  | ret a => simp [h] at step
  | act x k =>
    rw [h] at own
    simp only [h,Option.map_eq_some_iff] at step
    obtain ⟨⟨r,s'⟩,run,rfl⟩ := step
    obtain ⟨keep,act,frame⟩ := sound.keep good.inv good.always own.2.1 run
    refine ⟨keep,fun u => ?_⟩
    by_cases same : u = t
    · subst same
      simpa only [replace_same] using own.2.2 r _ act
    · simpa only [replace_other same,frame u same] using good.wp u
  | loop body s k =>
    rw [h] at own
    simp only [h,Option.some.injEq] at step
    subst step
    refine ⟨good.inv,fun u => ?_⟩
    by_cases same : u = t
    · subst same
      simpa only [replace_same] using Logic.wp_unroll own
    · simpa only [replace_other same] using good.wp u

end Soundness

end Concurrent
