import Numalloc.Custody
import Numalloc.Footprint

/-! What an operation knows when it takes an action, beyond what the action needs: a fact that
every request establishes before its actions is there in every reachable state. -/
namespace Numalloc

open Concurrent View Logic

/-- The rules of the allocator, with more demanded of an action. -/
@[reducible] def demandLogic (P : Platform) (strict : Bool) (A : Act → View → Prop) :
    Logic allocI View where
  always := (allocLogic P strict).always
  safe x v := safe P strict x v ∧ A x v
  step := step P strict

variable {P : Platform} {strict : Bool} {A : Act → View → Prop} {c : World P strict} {t : Nat}
  {v v' : View} {inst : Nat} {layout : Layout} {H M : Set Nat} {α β : Type} {p : Prog allocI α}
  {Q R : α → View → Prop}

/-- Actions of which nothing is demanded are taken as before. -/
theorem wp_demand (pre : (allocLogic P strict).wp p Q v) (only : p.Only fun x => ∀ v, A x v) :
    (demandLogic P strict A).wp p Q v := by
  induction p generalizing v with
  | ret a => exact pre
  | act x k ih =>
    exact ⟨pre.1,⟨pre.2.1,only.1 v⟩,fun r v' st => ih r (pre.2.2 r v' st) (only.2 r)⟩
  | loop body s k ihBody ihK =>
    obtain ⟨always,inv,start,keep⟩ := pre
    refine ⟨always,inv,start,fun s v hs => wp_mono (ihBody s (keep s v hs) (only.1 s)) ?_⟩
    intro r v _ post
    cases r with
    | inl s => exact post
    | inr b => exact ihK b post (only.2 b)

/-- An action whose demand is met, in front of such a program. -/
theorem wp_demand_act {x : Act} {k : x.Res → Prog allocI α}
    (pre : (allocLogic P strict).wp ((act x).bind k) Q v) (demand : A x v)
    (only : ∀ r, (k r).Only fun x => ∀ v, A x v) :
    (demandLogic P strict A).wp ((act x).bind k) Q v :=
  ⟨pre.1,⟨pre.2.1,demand⟩,fun r v' st => wp_demand (pre.2.2 r v' st) (only r)⟩

/-- What is known of a program, and what is demanded on its way. -/
theorem wp_demand_both (pre : (allocLogic P strict).wp p Q v)
    (demand : (demandLogic P strict A).wp p R v) :
    (demandLogic P strict A).wp p (fun a v => Q a v ∧ R a v) v :=
  wp_along (L := allocLogic P strict) (M := demandLogic P strict A) id (fun _ _ _ _ st => st) pre demand

theorem demand_beside : Beside P strict (demandLogic P strict A) State.view where
  own inv always safe _ run := (exec_sound.keep inv always safe run).2.1
  others fine step other fresh := (World.Fine.others fine step other fresh).view

/-- What every request meets, from its start on, is met in every reachable state. -/
theorem World.Reachable.demanded (reachable : c.Reachable)
    (each : ∀ {v v' : View} {request : Request}, Idle P strict v → Started v v' request →
      (demandLogic P strict A).wp (request.code P) (fun _ _ => True) v') :
    (demandLogic P strict A).wp (c.prog t) (fun _ _ => True) (c.state.view t) := by
  obtain ⟨mem,schedule,run⟩ := reachable
  have fine : Fine P strict (World.initial mem) := World.initial_fine mem
  have start : (demandLogic P strict A).wp ((World.initial mem : World P strict).prog t)
      (fun _ _ => True) ((World.initial mem : World P strict).state.view t) :=
    ⟨Good.always fine t,trivial⟩
  generalize (World.initial mem : World P strict) = c₀ at run fine start
  induction schedule generalizing c₀ with
  | nil => exact Option.some.inj run ▸ start
  | cons label rest ih =>
    obtain ⟨c₁,step,run⟩ := Option.bind_eq_some_iff.mp run
    refine ih c₁ run (World.Fine.advance fine step) ?_
    by_cases asked : ∃ request, label = .start t request
    · obtain ⟨request,rfl⟩ := asked
      have code := World.started step
      simp only [World.advance] at step
      split at step
      case h_2 => cases step
      rename_i resting
      obtain ⟨s,starts,rfl⟩ := Option.map_eq_some_iff.mp step
      have idle := Good.resting fine resting
      obtain ⟨_,begun,_⟩ := fine.inv.start idle.pin idle.hand starts
      rw [code]
      exact each idle begun
    · exact demand_beside.keeps fine step (fun request same => asked ⟨request,same⟩) start

/-! Taking over the operand. -/

/-- Whoever takes over an operand has nothing unaccounted for in its hands. -/
def Handover (P : Platform) (strict : Bool) : Act → View → Prop
  | .release, v => ∃ a H M, Ready P strict v a.inst H M ∧ Operand v a.inst a.ptr a.layout a
  | _, _ => True

theorem Allocates.handover (x : allocI.Op) (h : Allocates P x) : ∀ v, Handover P strict x v := by
  cases x <;> first | exact fun _ => trivial | cases h

theorem Frees.handover (x : allocI.Op) (h : Frees x) : ∀ v, Handover P strict x v := by
  cases x <;> first | exact fun _ => trivial | cases h

theorem Operand.handover {ptr : Nat} {a : Alloc} (operand : Operand v inst ptr layout a)
    (ready : Ready P strict v inst H M) : Handover P strict .release v := by
  obtain ⟨pin,rfl,rfl,rfl⟩ := operand
  exact ⟨a,H,M,ready,pin,rfl,rfl,rfl⟩

theorem reallocMove_demand {ptr newSize : Nat} {a : Alloc} (ready : Ready P strict v inst H M)
    (operand : Operand v inst ptr layout a) :
    (demandLogic P strict (Handover P strict)).wp (reallocMove P inst ptr layout newSize)
      (fun _ _ => True) v := by
  cases resized : layout.resize newSize with
  | none =>
    unfold reallocMove
    rw [resized]
    exact ⟨ready.holds.always,trivial⟩
  | some newLayout =>
    rw [reallocMove_eq resized]
    refine wp_seq (wp_demand (wp_alloc ready)
      ((alloc_only inst newLayout).mono Allocates.handover)) fun x v₁ always answered => ?_
    cases x with
    | none => exact ⟨always,trivial⟩
    | some q =>
      obtain ⟨frame,H',M',holds,got⟩ := answered
      obtain ⟨size,_⟩ := Layout.resize_size resized
      have le : min layout.size newSize ≤ newLayout.size := by omega
      have copied := wp_write (x := .copy ptr q (min layout.size newSize)) (k := .ret)
        (Q := fun _ v₂ => Frame v₁ v₂ H' M' ∧ Holds P strict v₂ H' M' ∧
          Obtained P strict v₂ newLayout q H M H' M') ⟨fun h => h,fun _ _ h => h⟩ holds got le
        fun _ v₂ frame₂ holds₂ got₂ => ⟨holds₂.always,frame₂,holds₂,got₂⟩
      refine wp_seq (wp_demand copied ⟨fun _ => trivial,fun _ => trivial⟩) fun _ v₂ _ post => ?_
      obtain ⟨frame₂,holds₂,got₂⟩ := post
      have sub := got.grown
      have whole := frame.trans (frame₂.mono sub.1 sub.2)
      have ready₂ := ready.next whole holds₂ (got₂.carried (whole.carried ready.carried))
      have operand₂ : Operand v₂ inst ptr layout a :=
        ⟨whole.pin.trans operand.pin,operand.ptr,operand.layout,operand.inst⟩
      refine wp_demand_act (wp_release ready₂ operand₂ fun v₃ H₁ M₁ _ _ ready₃ returned => ?_)
        (operand₂.handover ready₂)
        fun _ => ((dealloc_only inst ptr layout).mono Frees.handover).bind fun _ => trivial
      exact wp_seq (wp_dealloc ready₃ returned) fun _ _ always _ => ⟨always,trivial⟩

theorem realloc_demand {ptr newSize : Nat} {a : Alloc} (ready : Ready P strict v inst H M)
    (operand : Operand v inst ptr layout a) :
    (demandLogic P strict (Handover P strict)).wp (realloc P inst ptr layout newSize)
      (fun _ _ => True) v := by
  unfold realloc
  simp only
  split
  · have named := wp_heap (k := .ret) (Q := fun _ v₁ => Ready P strict v₁ inst H M ∧ Frame v v₁ H M)
      ready fun _ v₁ _ ready₁ frame _ => ⟨ready₁.holds.always,ready₁,frame⟩
    refine wp_seq (wp_demand named ⟨fun _ => trivial,fun _ => trivial⟩) fun r v₁ always post => ?_
    obtain ⟨ready₁,frame⟩ := post
    split
    · exact ⟨always,trivial⟩
    · exact reallocMove_demand ready₁
        ⟨frame.pin.trans operand.pin,operand.ptr,operand.layout,operand.inst⟩
  · exact reallocMove_demand ready operand

/-- Every request takes over its operand with nothing else in its hands. -/
theorem code_handover (idle : Idle P strict v) {request : Request} (started : Started v v' request) :
    (demandLogic P strict (Handover P strict)).wp (request.code P) (fun _ _ => True) v' := by
  have spec : (allocLogic P strict).wp (request.code P) (fun _ _ => True) v' :=
    wp_mono (wp_request idle started) fun _ _ _ _ => trivial
  have answered : ∀ (layout : Layout) (x : Option Nat),
      (answer layout x).Only fun x => ∀ v, Handover P strict x v := fun layout x => by
    cases x with
    | none => trivial
    | some p => exact .call fun _ => trivial
  cases request with
  | alloc inst layout =>
    exact wp_demand spec (.bind (.bind ((alloc_only inst layout).mono Allocates.handover)
      (answered layout)) fun _ => .call fun _ => trivial)
  | allocZeroed inst layout =>
    refine wp_demand spec (.bind (.bind ((allocZeroed_writes inst layout).mono fun x h => ?_)
      (answered layout)) fun _ => .call fun _ => trivial)
    rcases h with h | ⟨p,n,rfl⟩
    · exact Allocates.handover x h
    · exact fun _ => trivial
  | dealloc inst ptr layout =>
    obtain ⟨_,a,ptr',layout',inst',same⟩ := started
    have ready : Ready P strict v' inst ∅ ∅ := idle.ready _ same
    have operand : Operand v' inst ptr layout a := ⟨by rw [same],ptr',layout',inst'⟩
    exact wp_demand_act spec (operand.handover ready) fun _ =>
      ((dealloc_only inst ptr layout).mono Frees.handover).bind fun _ => .call fun _ => trivial
  | realloc inst ptr layout newSize =>
    obtain ⟨_,a,ptr',layout',inst',same⟩ := started
    have ready : Ready P strict v' inst ∅ ∅ := idle.ready _ same
    have operand : Operand v' inst ptr layout a := ⟨by rw [same],ptr',layout',inst'⟩
    rw [realloc_code]
    refine wp_seq (wp_demand_both (wp_realloc ready operand) (realloc_demand ready operand))
      fun x v₁ _ post => ?_
    cases resized : layout.resize newSize with
    | none =>
      rw [resized] at post
      exact wp_demand (wp_mono post.1.finish fun _ _ _ _ => trivial) (.call fun _ => trivial)
    | some newLayout =>
      rw [resized] at post
      exact wp_demand (wp_mono (wp_answer_finish post.1) fun _ _ _ _ => trivial)
        (.bind (answered newLayout x) fun _ => .call fun _ => trivial)
  | exit =>
    exact wp_demand spec (.bind (exitThread_only.mono fun x h => Frees.handover x (Upkeep.frees x h))
      fun _ => .call fun _ => trivial)
  | drop inst =>
    refine wp_demand spec (.bind (dropInstance_aside.mono fun x h => ?_) fun _ => .call fun _ => trivial)
    cases x <;> first | exact fun _ => trivial | cases h

end Numalloc
