import Numalloc.Concurrent.Only

/-! Monitors: automata that read the events a program's actions leave, and may reject one.
A logic that carries the automaton along proves what a program's trace looks like. -/
namespace Concurrent

/-- What an event makes of the state of the automaton, if it is accepted. -/
structure Monitor (E K : Type) where
  after : K → E → Option K

namespace Monitor

variable {E K : Type} {m : Monitor E K} {k : K} {e : E} {es fs : List E}

def run (m : Monitor E K) (k : K) : List E → Option K
  | [] => some k
  | e :: es => (m.after k e).bind fun k => m.run k es

@[simp] theorem run_nil : m.run k [] = some k := rfl

@[simp] theorem run_single : m.run k [e] = m.after k e := by
  simp [run]

theorem run_append : m.run k (es ++ fs) = (m.run k es).bind fun k => m.run k fs := by
  induction es generalizing k with
  | nil => rfl
  | cons e es ih =>
    simp only [List.cons_append,run]
    cases m.after k e with
    | none => rfl
    | some k => exact ih

/-- Accepts everything, and writes it down. -/
def recorder : Monitor E (List E) := ⟨fun es e => some (es ++ [e])⟩

theorem recorder_run : recorder.run es fs = some (es ++ fs) := by
  induction fs generalizing es with
  | nil => rw [List.append_nil,run_nil]
  | cons e fs ih =>
    have rest : recorder.run (es ++ [e]) fs = some (es ++ [e] ++ fs) := ih
    rw [List.append_assoc] at rest
    exact rest

end Monitor

namespace Logic

variable {I : Interface} {V E K α β : Type} {L : Logic I V} {m : Monitor E K}
  {note : (x : I.Op) → V → I.Res x → V → List E}

/-- The logic beside a monitor, which has accepted what happened so far. -/
@[reducible] def watched (L : Logic I V) (m : Monitor E K)
    (note : (x : I.Op) → V → I.Res x → V → List E) : Logic I (V × Option K) where
  always w := L.always w.1 ∧ ∃ k, w.2 = some k
  safe x w := L.safe x w.1
  step x w r w' := L.step x w.1 r w'.1 ∧ w'.2 = w.2.bind fun k => m.run k (note x w.1 r w'.1)

variable {p : Prog I α} {f : α → Prog I β} {Q : α → V → Prop} {v : V} {k : K} {o : Option K}

/-- What safe steps make of views, with nothing required: safety is shown elsewhere. -/
@[reducible] def loose (L : Logic I V) : Logic I V where
  always _ := True
  safe _ _ := True
  step x v r v' := L.safe x v ∧ L.step x v r v'

/-- A program whose actions keep an invariant of the view, and do not move the monitor
while it holds. -/
theorem wp_silent {ok : I.Op → Prop} (inv : V → Prop) (only : p.Only ok) (start : inv v)
    (keep : ∀ x v r v', ok x → inv v → L.safe x v → L.step x v r v' →
      inv v' ∧ m.run k (note x v r v') = some k) :
    (L.loose.watched m note).wp p (fun _ w => inv w.1 ∧ w.2 = some k) (v,some k) := by
  refine wp_only (L := L.loose.watched m note) (fun w : V × Option K => inv w.1 ∧ w.2 = some k) only
    (fun w now => ⟨trivial,k,now.2⟩) (fun x w ok now => ⟨trivial,fun r w' st => ?_⟩) ⟨start,rfl⟩
  obtain ⟨⟨safe,step⟩,moved⟩ := st
  obtain ⟨kept,still⟩ := keep x w.1 r w'.1 ok now.1 safe step
  rw [now.2] at moved
  exact ⟨kept,moved.trans still⟩

/-- What is known without the monitor, and what the steps alone tell of it. -/
theorem wp_watched {A : α → V × Option K → Prop} (pre : L.wp p Q v)
    (watch : (L.loose.watched m note).wp p A (v,o)) :
    (L.watched m note).wp p (fun a w => Q a w.1 ∧ A a w) (v,o) := by
  induction p generalizing v o with
  | ret a => exact ⟨⟨pre.1,watch.1.2⟩,pre.2,watch.2⟩
  | act x next ih =>
    exact ⟨⟨pre.1,watch.1.2⟩,pre.2.1,fun r w st =>
      ih r (pre.2.2 r w.1 st.1) (watch.2.2 r w ⟨⟨pre.2.1,st.1⟩,st.2⟩)⟩
  | loop body s next ihBody ihNext =>
    obtain ⟨here,inv,first,again⟩ := pre
    obtain ⟨always,inv',first',again'⟩ := watch
    refine ⟨⟨here,always.2⟩,fun s w => inv s w.1 ∧ inv' s w,⟨first,first'⟩,fun s w both => ?_⟩
    refine wp_mono (ihBody s (again s w.1 both.1) (again' s w both.2)) fun r w _ post => ?_
    cases r with
    | inl s => exact post
    | inr b => exact ihNext b post.1 post.2

/-- Steps that say more allow as much to be proved. -/
theorem wp_refine {L' : Logic I V} (always : ∀ v, L.always v → L'.always v)
    (safe : ∀ x v, L.safe x v → L'.safe x v)
    (step : ∀ x v r v', L'.step x v r v' → L.step x v r v') (pre : L.wp p Q v) : L'.wp p Q v := by
  induction p generalizing v with
  | ret a => exact ⟨always v pre.1,pre.2⟩
  | act x next ih =>
    exact ⟨always v pre.1,safe x v pre.2.1,fun r v' st => ih r (pre.2.2 r v' (step x v r v' st))⟩
  | loop body s next ihBody ihNext =>
    obtain ⟨here,inv,first,again⟩ := pre
    refine ⟨always v here,inv,first,fun s v hs => wp_mono (ihBody s (again s v hs)) fun r v _ post => ?_⟩
    cases r with
    | inl s => exact post
    | inr b => exact ihNext b post

theorem wp_loose {A : α → V × Option K → Prop} (pre : (L.watched m note).wp p A (v,o)) :
    (L.loose.watched m note).wp p A (v,o) :=
  wp_refine (L := L.watched m note) (fun _ always => ⟨trivial,always.2⟩) (fun _ _ _ => trivial)
    (fun _ _ _ _ st => ⟨st.1.2,st.2⟩) pre

end Logic

end Concurrent
