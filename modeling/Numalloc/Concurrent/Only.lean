import Numalloc.Concurrent.Rules

/-! Which actions a program can take at all. What every such action preserves, the program
preserves, wherever it goes. -/
namespace Concurrent

namespace Prog

variable {I J : Interface} {α β σ : Type} {ok ok' : I.Op → Prop} {p : Prog I α}

/-- Every action of the program satisfies `ok`. -/
def Only (ok : I.Op → Prop) : {α : Type} → Prog I α → Prop
  | _, .ret _ => True
  | _, .act x k => ok x ∧ ∀ r, Only ok (k r)
  | _, .loop body _ k => (∀ s, Only ok (body s)) ∧ ∀ b, Only ok (k b)

theorem Only.mono (only : p.Only ok) (imp : ∀ x, ok x → ok' x) : p.Only ok' := by
  induction p with
  | ret a => trivial
  | act x k ih => exact ⟨imp x only.1,fun r => ih r (only.2 r)⟩
  | loop body s k ihBody ihK => exact ⟨fun s => ihBody s (only.1 s),fun b => ihK b (only.2 b)⟩

theorem Only.bind {f : α → Prog I β} (first : p.Only ok) (rest : ∀ a, (f a).Only ok) :
    (p.bind f).Only ok := by
  induction p with
  | ret a => exact rest a
  | act x k ih => exact ⟨first.1,fun r => ih r (first.2 r) rest⟩
  | loop body s k ihBody ihK => exact ⟨first.1,fun b => ihK b (first.2 b) rest⟩

theorem Only.call {x : I.Op} (h : ok x) : (Prog.call x).Only ok := ⟨h,fun _ => trivial⟩

theorem Only.iter {body : σ → Prog I (σ ⊕ β)} {s : σ} (each : ∀ s, (body s).Only ok) :
    (Prog.iter body s).Only ok := ⟨each,fun _ => trivial⟩

theorem Only.unroll {body : σ → Prog I (σ ⊕ β)} {s : σ} {k : β → Prog I α}
    (only : (Prog.loop body s k).Only ok) : (Prog.unroll body s k).Only ok := by
  refine .bind (only.1 s) fun x => ?_
  cases x with
  | inl s => exact only
  | inr b => exact only.2 b

/-- Over a larger interface a program takes the actions its own stand for. -/
theorem Only.lift {f : I.Op → J.Op} {e : ∀ x, J.Res (f x) → I.Res x} {good : J.Op → Prop}
    (each : ∀ x, good (f x)) : (p.lift f e).Only good := by
  induction p with
  | ret a => trivial
  | act x k ih => exact ⟨each x,fun r => ih (e x r)⟩
  | loop body s k ihBody ihK => exact ⟨ihBody,ihK⟩

theorem Only.next {x : I.Op} (only : p.Only ok) (at_ : p.next = some x) : ok x := by
  cases p with
  | act y k =>
    obtain rfl := Option.some.inj at_
    exact only.1
  | ret a => cases at_
  | loop body s k => cases at_

end Prog

namespace Logic

variable {I : Interface} {V α : Type} {L : Logic I V} {p : Prog I α} {ok : I.Op → Prop}
  {v : V}

/-- An invariant that all actions of a program keep holds after the program. -/
theorem wp_only (inv : V → Prop) (only : p.Only ok) (always : ∀ v, inv v → L.always v)
    (keep : ∀ x v, ok x → inv v → L.safe x v ∧ ∀ r v', L.step x v r v' → inv v') (start : inv v) :
    L.wp p (fun _ v => inv v) v := by
  induction p generalizing v with
  | ret a => exact ⟨always v start,start⟩
  | act x k ih =>
    obtain ⟨safe,next⟩ := keep x v only.1 start
    exact ⟨always v start,safe,fun r v' st => ih r (only.2 r) (next r v' st)⟩
  | loop body s k ihBody ihK =>
    refine ⟨always v start,fun _ v => inv v,start,fun s v hs => ?_⟩
    refine wp_mono (ihBody s (only.1 s) hs) fun r v _ hv => ?_
    cases r with
    | inl s => exact hv
    | inr b => exact ihK b (only.2 b) hv

/-- A logic with a side condition: as long as it holds, the allowed actions keep it and
behave as they do without. -/
@[reducible] def guard (L : Logic I V) (ok : I.Op → Prop) : Logic I (V × Prop) where
  always w := L.always w.1
  safe x w := L.safe x w.1
  step x w r w' := ok x → w.2 → L.step x w.1 r w'.1 ∧ w'.2

/-- A program of allowed actions keeps the side condition on its way. -/
theorem wp_guard {Q : α → V → Prop} {side : Prop} (only : p.Only ok) (pre : L.wp p Q v) (h : side) :
    (L.guard ok).wp p (fun a w => w.2 ∧ Q a w.1) (v,side) := by
  induction p generalizing v side with
  | ret a => exact ⟨pre.1,h,pre.2⟩
  | act x k ih =>
    refine ⟨pre.1,pre.2.1,fun r w st => ?_⟩
    obtain ⟨step,kept⟩ := st only.1 h
    exact ih r (only.2 r) (pre.2.2 r w.1 step) kept
  | loop body s k ihBody ihK =>
    obtain ⟨always,inv,start,keep⟩ := pre
    refine ⟨always,fun s w => w.2 ∧ inv s w.1,⟨h,start⟩,fun s w hw => ?_⟩
    refine wp_mono (ihBody s (only.1 s) (keep s w.1 hw.2) hw.1) fun r w _ post => ?_
    cases r with
    | inl s => exact post
    | inr b => exact ihK b (only.2 b) post.2 post.1

end Logic

end Concurrent
