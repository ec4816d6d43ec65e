import Numalloc.Effects
import Numalloc.Runs

/-! What stays true of mappings, bags and allocators over whole runs: a mapping keeps
its place until it is unmapped, a bag stays carved while its allocator exists, and an
allocator keeps the heap it was first given. -/
namespace Numalloc

open Concurrent View

/-- What one label leaves alone, whoever acts. -/
structure Steady (s s' : State) : Prop where
  nextMap : s.nextMap ≤ s'.nextMap
  maps : ∀ {id}, id < s.nextMap → (s'.maps id).map Mapping.shape = (s.maps id).map Mapping.shape ∨
    s'.maps id = none ∧ ∃ m t, s.maps id = some m ∧ m.holder = .thread t
  bags : ∀ {bag}, bag ∈ s.bags → bag ∈ s'.bags ∨ ∃ t, s'.dying t = some bag.heap
  nextInst : s.nextInst ≤ s'.nextInst
  insts : ∀ {i}, i < s.nextInst → (s'.insts i).isSome → (s.insts i).isSome
  heaps : ∀ {i I h}, s.insts i = some I → I.heap = some h → s'.insts i = none ∨
    ∃ I', s'.insts i = some I' ∧ I'.heap = some h
  born : ∀ {id m i}, s.maps id = none → s'.maps id = some m → m.use = .heap i →
    ∃ I, s.insts i = some I ∧ I.heap = none

variable {P : Platform} {strict : Bool} {s s' : State} {t : Nat} {c c' : World P strict}
  {label : Label}

theorem Effect.steady {x : Act} (effect : Effect t x s s') : Steady s s' where
  nextMap := effect.nextMap
  maps old := (effect.maps old).imp id fun ⟨m,found,holder,_,gone⟩ => ⟨gone,m,t,found,holder⟩
  bags mem := (effect.bags mem).imp id fun dying => ⟨t,dying⟩
  nextInst := effect.nextInst.ge
  insts _ some_ := by rwa [effect.insts] at some_
  heaps found heap := Or.inr (effect.heaps found heap)
  born := effect.born

/-- What a request leaves alone when it starts. -/
structure Begun (s s' : State) : Prop where
  mem : s'.mem = s.mem
  maps : s'.maps = s.maps
  slots : s'.slots = s.slots
  bags : s'.bags = s.bags
  nextMap : s'.nextMap = s.nextMap
  unmaps : s'.unmaps = s.unmaps
  nextInst : s'.nextInst = s.nextInst
  insts : ∀ i, s'.insts i = s.insts i ∨ s'.insts i = none

theorem start_begun {request : Request} (run : s.start t request = some s') : Begun s s' := by
  have entered : ∀ {inst s'}, s.enter t inst = some s' → Begun s s' := by
    intro inst s' run
    simp only [State.enter,Option.bind_eq_bind,Option.bind_eq_some_iff,Option.some.injEq] at run
    obtain ⟨I,_,rfl⟩ := run
    exact ⟨rfl,rfl,rfl,rfl,rfl,rfl,rfl,fun _ => Or.inl rfl⟩
  have passed : ∀ {inst ptr layout s'}, ((s.enter t inst).bind fun s => s.pin t inst ptr layout) =
      some s' → Begun s s' := by
    intro inst ptr layout s' run
    obtain ⟨s₁,enter,pin⟩ := Option.bind_eq_some_iff.mp run
    simp only [State.pin] at pin
    split at pin
    case isFalse => cases pin
    obtain rfl := Option.some.inj pin
    obtain ⟨a,b,c,d,e,f,g,h⟩ := entered enter
    exact ⟨a,b,c,d,e,f,g,h⟩
  cases request with
  | alloc inst layout => exact entered run
  | allocZeroed inst layout => exact entered run
  | dealloc inst ptr layout => exact passed run
  | realloc inst ptr layout size => exact passed run
  | exit =>
    obtain rfl := Option.some.inj run
    exact ⟨rfl,rfl,rfl,rfl,rfl,rfl,rfl,fun _ => Or.inl rfl⟩
  | drop inst =>
    have gone : ∀ i, replace s.insts inst none i = s.insts i ∨ replace s.insts inst none i = none := by
      intro i
      by_cases same : i = inst
      · subst same
        exact Or.inr replace_same
      · exact Or.inl (replace_other same)
    simp only [State.start,State.abandon,Option.bind_eq_bind,Option.bind_eq_some_iff] at run
    obtain ⟨I,_,run⟩ := run
    split at run
    case isFalse => cases run
    cases hx : I.heap with
    | none =>
      simp only [hx,Option.some.injEq] at run
      subst run
      exact ⟨rfl,rfl,rfl,rfl,rfl,rfl,rfl,gone⟩
    | some x =>
      simp only [hx,Option.bind_eq_some_iff,Option.some.injEq] at run
      obtain ⟨sh,_,rfl⟩ := run
      exact ⟨rfl,rfl,rfl,rfl,rfl,rfl,rfl,gone⟩

theorem Begun.steady (begun : Begun s s') : Steady s s' where
  nextMap := begun.nextMap.ge
  maps _ := Or.inl (by rw [begun.maps])
  bags mem := Or.inl (begun.bags ▸ mem)
  nextInst := begun.nextInst.ge
  insts {i} _ some_ := by
    rcases begun.insts i with same | gone
    · rwa [same] at some_
    · simp [gone] at some_
  heaps {i I h} found heap := by
    rcases begun.insts i with same | gone
    · exact Or.inr ⟨I,same.trans found,heap⟩
    · exact Or.inl gone
  born gone found := by simp [begun.maps,gone] at found

namespace World

/-- One step of a thread is one action with its effect, or a silent one. -/
theorem Fine.effect {ch : Choice} (fine : Fine P strict c) (step : c.advance (.step t ch) = some c') :
    (∃ x, (c.prog t).next = some x ∧ safe P strict x (c.state.view t) ∧
      Effect t x c.state c'.state) ∨ (c.prog t).next = none ∧ c'.state = c.state := by
  simp only [World.advance,Config.advance] at step
  cases prog : c.prog t with
  | ret a => simp [prog] at step
  | act x k =>
    simp only [prog,Option.map_eq_some_iff] at step
    obtain ⟨⟨r,s'⟩,run,rfl⟩ := step
    have safe := fine.safe (t := t) (x := x) (by rw [prog]; rfl)
    exact Or.inl ⟨x,rfl,safe,exec_effect fine.inv fine.always safe run⟩
  | loop body s k =>
    simp only [prog,Option.some.injEq] at step
    subst step
    exact Or.inr ⟨rfl,rfl⟩

theorem Fine.steady (fine : Fine P strict c) (step : c.advance label = some c') :
    Steady c.state c'.state := by
  have still : Steady c.state c.state :=
    ⟨le_rfl,fun _ => Or.inl rfl,Or.inl,le_rfl,fun _ h => h,fun found heap => Or.inr ⟨_,found,heap⟩,
      fun gone found => by simp [gone] at found⟩
  cases label with
  | step t ch =>
    rcases Fine.effect fine step with ⟨x,_,_,effect⟩ | ⟨_,same⟩
    · exact effect.steady
    · rw [same]
      exact still
  | start t request =>
    simp only [World.advance] at step
    split at step
    case h_2 => cases step
    obtain ⟨s,run,rfl⟩ := Option.map_eq_some_iff.mp step
    exact (start_begun run).steady
  | write addr value =>
    simp only [World.advance,Option.ite_none_right_eq_some,Option.some.injEq] at step
    obtain ⟨_,rfl⟩ := step
    have same := store_same c.state addr 1 (fill c.state.mem addr 1 value)
    exact { still with maps := fun {id} _ => Or.inl (Effect.shape_of_core same id), born := fun gone found => by simp [same.none_iff.mpr gone] at found }
  | create numNodes regionSize =>
    obtain rfl := Option.some.inj step
    refine { still with nextInst := Nat.le_succ _, insts := fun {i} old some_ => ?_, heaps := fun {i I h} found heap => Or.inr ⟨I,?_,heap⟩ }
    · simpa only [replace_other (Nat.ne_of_lt old)] using some_
    · refine (replace_other fun same => ?_).trans found
      subst same
      simp [fine.inv.heaps.instFresh le_rfl] at found

/-- Over a run a mapping keeps its place and size, or is gone for good. -/
theorem Fine.shape_run {schedule : List Label} {id : Nat} (fine : Fine P strict c)
    (run : c.execute schedule = some c') (old : id < c.state.nextMap) :
    id < c'.state.nextMap ∧ ((c'.state.maps id).map Mapping.shape = (c.state.maps id).map Mapping.shape ∨
      c'.state.maps id = none) := by
  induction schedule generalizing c with
  | nil =>
    obtain rfl := Option.some.inj run
    exact ⟨old,Or.inl rfl⟩
  | cons label rest ih =>
    obtain ⟨c₁,step,run⟩ := Option.bind_eq_some_iff.mp run
    have steady := Fine.steady fine step
    obtain ⟨old',later⟩ := ih (Fine.advance fine step) run (lt_of_lt_of_le old steady.nextMap)
    refine ⟨old',?_⟩
    rcases later with same | gone
    · rcases steady.maps old with same₁ | ⟨gone₁,_⟩
      · exact Or.inl (same.trans same₁)
      · rw [gone₁] at same
        exact Or.inr (Option.map_eq_none_iff.mp same)
    · exact Or.inr gone

/-- An allocator that is still there was there before. -/
theorem Fine.inst_run {schedule : List Label} {i : Nat} (fine : Fine P strict c)
    (run : c.execute schedule = some c') (old : i < c.state.nextInst)
    (exists_ : (c'.state.insts i).isSome) : (c.state.insts i).isSome := by
  induction schedule generalizing c with
  | nil => exact Option.some.inj run ▸ exists_
  | cons label rest ih =>
    obtain ⟨c₁,step,run⟩ := Option.bind_eq_some_iff.mp run
    have steady := Fine.steady fine step
    exact steady.insts old (ih (Fine.advance fine step) run (lt_of_lt_of_le old steady.nextInst))

end World

end Numalloc
