import Numalloc.Carving
import Numalloc.ReuseOrder

/-! Who changes the head of a stack. A compare-exchange that finds the head changed lost to
one that went through. -/
namespace Numalloc

open Concurrent View

variable {P : Platform} {strict : Bool} {c c' : World P strict} {t inst : Nat} {s s' : State}
  {ch : Choice} {x : Act} {label : Label} {sh sh' : SharedHeap} {k : StackRef}

/-- The label is the step of a thread whose compare-exchange on the head goes through. -/
def World.Wins (c : World P strict) (k : StackRef) (label : Label) : Prop :=
  ∃ u ch current new f s', label = .step u ch ∧ c.prog u = .act (.casHead k current new) f ∧
    exec P strict u (.casHead k current new) ch c.state = some (true,s')

theorem casHead_head {k' : StackRef} {current new : Nat} {done : Bool}
    (run : exec P strict t (.casHead k' current new) ch s = some (done,s'))
    (found : s.heaps k.heap = some sh) (found' : s'.heaps k.heap = some sh') :
    sh'.head k.node k.cls = sh.head k.node k.cls ∨ (k' = k ∧ done = true) := by
  simp only [exec,Option.bind_eq_bind,Option.bind_eq_some_iff] at run
  obtain ⟨sh₀,there,run⟩ := run
  split at run
  case h_1 =>
    obtain ⟨_,rfl⟩ := Prod.mk.inj (Option.some.inj run)
    obtain rfl := Option.some.inj (found.symm.trans found')
    exact Or.inl rfl
  case h_2 =>
  split at run
  case isFalse =>
    obtain ⟨_,rfl⟩ := Prod.mk.inj (Option.some.inj run)
    obtain rfl := Option.some.inj (found.symm.trans found')
    exact Or.inl rfl
  case isTrue =>
  have moved : done = true ∧ s'.heaps = replace s.heaps k'.heap (some { sh₀ with
      head := replace sh₀.head k'.node (replace (sh₀.head k'.node) k'.cls new) }) := by
    split at run <;>
    · obtain ⟨done_,rfl⟩ := Prod.mk.inj (Option.some.inj run)
      exact ⟨done_.symm,rfl⟩
  obtain ⟨done_,heaps⟩ := moved
  rw [heaps] at found'
  by_cases same : k.heap = k'.heap
  · rw [same] at found found'
    obtain rfl := Option.some.inj (there.symm.trans found)
    obtain rfl := Option.some.inj (replace_same.symm.trans found')
    by_cases node : k.node = k'.node
    · by_cases cls : k.cls = k'.cls
      · refine Or.inr ⟨?_,done_⟩
        cases k
        cases k'
        simp_all
      · refine Or.inl ?_
        simp only [node,replace_same]
        exact replace_other cls
    · refine Or.inl ?_
      exact congrFun (replace_other node) k.cls
  · obtain rfl := Option.some.inj (((replace_other same).symm.trans found').symm.trans found)
    exact Or.inl rfl

theorem start_head {request : Request} (run : s.start t request = some s') {h : Nat}
    (found : s.heaps h = some sh) (found' : s'.heaps h = some sh') : sh'.head = sh.head := by
  have entered : ∀ {inst s'}, s.enter t inst = some s' → s'.heaps = s.heaps := by
    intro inst s' run
    simp only [State.enter,Option.bind_eq_bind,Option.bind_eq_some_iff,Option.some.injEq] at run
    obtain ⟨I,_,rfl⟩ := run
    rfl
  have passed : ∀ {inst ptr layout s'}, ((s.enter t inst).bind fun s => s.pin t inst ptr layout) =
      some s' → s'.heaps = s.heaps := by
    intro inst ptr layout s' run
    obtain ⟨s₁,enter,pin⟩ := Option.bind_eq_some_iff.mp run
    simp only [State.pin] at pin
    split at pin
    case isFalse => cases pin
    obtain rfl := Option.some.inj pin
    exact show s₁.heaps = s.heaps from entered enter
  have kept : s'.heaps = s.heaps → sh'.head = sh.head := fun heaps => by
    rw [heaps,found] at found'
    obtain rfl := Option.some.inj found'
    rfl
  cases request with
  | alloc inst layout | allocZeroed inst layout => exact kept (entered run)
  | dealloc inst ptr layout | realloc inst ptr layout size => exact kept (passed run)
  | exit =>
    obtain rfl := Option.some.inj run
    exact kept rfl
  | drop inst =>
    simp only [State.start,State.abandon,Option.bind_eq_bind,Option.bind_eq_some_iff] at run
    obtain ⟨I,_,run⟩ := run
    split at run
    case isFalse => cases run
    cases hx : I.heap with
    | none =>
      simp only [hx,Option.some.injEq] at run
      subst run
      exact kept rfl
    | some x =>
      simp only [hx,Option.bind_eq_some_iff,Option.some.injEq] at run
      obtain ⟨sh₀,there,rfl⟩ := run
      by_cases same : h = x.addr
      · subst same
        obtain rfl := Option.some.inj (there.symm.trans found)
        obtain rfl := Option.some.inj (replace_same.symm.trans found')
        rfl
      · obtain rfl := Option.some.inj (((replace_other same).symm.trans found').symm.trans found)
        rfl

/-- Only such a step changes the head. -/
theorem World.Fine.head_step (step : c.advance label = some c')
    (found : c.state.heaps k.heap = some sh) (found' : c'.state.heaps k.heap = some sh') :
    sh'.head k.node k.cls = sh.head k.node k.cls ∨ c.Wins k label := by
  cases World.advanced step with
  | act prog run =>
    rename_i u ch x r f
    cases swaps : x.swaps with
    | false =>
      rcases (exec_leaves run : Leaves u 0 x c.state c'.state).heaps found' with
        ⟨sh₁,found₁,_,same⟩ | ⟨gone,_⟩
      · obtain rfl := Option.some.inj (found.symm.trans found₁)
        exact Or.inl (by rw [same swaps])
      · rw [found] at gone
        cases gone
    | true =>
      cases x with
      | casHead k' current new =>
        rcases casHead_head run found found' with same | ⟨rfl,rfl⟩
        · exact Or.inl same
        · exact Or.inr ⟨u,ch,current,new,f,c'.state,rfl,prog,run⟩
      | _ => cases swaps
  | loop _ same =>
    rw [same,found] at found'
    obtain rfl := Option.some.inj found'
    exact Or.inl rfl
  | start run => exact Or.inl (by rw [start_head run found found'])
  | write stored =>
    rw [stored] at found'
    obtain rfl := Option.some.inj (found.symm.trans found')
    exact Or.inl rfl
  | create made =>
    rw [made] at found'
    obtain rfl := Option.some.inj (found.symm.trans found')
    exact Or.inl rfl

/-- While its allocator is there, the head of a stack is as it was, unless a compare-exchange
went through. -/
theorem World.Fine.head_run {schedule : List Label} {I : Instance} {x : HeapHandle}
    (fine : Fine P strict c) (run : c.execute schedule = some c')
    (known : c.state.insts inst = some I) (named : I.heap = some x)
    (there : (c'.state.insts inst).isSome) (here : k.heap = x.addr)
    (found : c.state.heaps k.heap = some sh) (found' : c'.state.heaps k.heap = some sh') :
    sh'.head k.node k.cls = sh.head k.node k.cls ∨ ∃ before label after cm,
      schedule = before ++ label :: after ∧ c.execute before = some cm ∧ cm.Wins k label := by
  induction schedule generalizing c I sh with
  | nil =>
    obtain rfl := Option.some.inj run
    obtain rfl := Option.some.inj (found.symm.trans found')
    exact Or.inl rfl
  | cons label rest ih =>
    obtain ⟨c₁,step,run⟩ := Option.bind_eq_some_iff.mp run
    obtain ⟨I₁,sh₁,known₁,named₁,found₁⟩ := World.Fine.stays fine step run known named there
    rw [← here] at found₁
    rcases World.Fine.head_step step found found₁ with same | wins
    · rcases ih (World.Fine.advance fine step) run known₁ named₁ found₁ with still | later
      · exact Or.inl (still.trans same)
      · obtain ⟨before,other,after,cm,rfl,front,wins⟩ := later
        refine Or.inr ⟨label :: before,other,after,cm,rfl,?_,wins⟩
        exact Option.bind_eq_some_iff.mpr ⟨c₁,step,front⟩
    · exact Or.inr ⟨[],label,rest,c,rfl,rfl,wins⟩

theorem casHead_real {current new : Nat} {done : Bool}
    (run : exec P strict t (.casHead k current new) ch s = some (done,s')) (real : ch ≠ .fail)
    (found : s.heaps k.heap = some sh) (same : sh.head k.node k.cls = current) : done = true := by
  cases ch with
  | fail => exact absurd rfl real
  | _ =>
    simp only [exec,Option.bind_eq_bind,Option.bind_eq_some_iff] at run
    obtain ⟨sh₀,there,run⟩ := run
    obtain rfl := Option.some.inj (found.symm.trans there)
    rw [if_pos same] at run
    split at run <;> exact (Prod.mk.inj (Option.some.inj run)).1.symm

/-- A compare-exchange fails of itself only spuriously: if the head was what it expects at some
moment, and it finds it changed, then another one on the same stack went through since. -/
theorem retry_lost {schedule : List Label} {I : Instance} {x : HeapHandle} {new : Nat}
    (reachable : c.Reachable) (run : c.execute schedule = some c')
    (known : c.state.insts inst = some I) (named : I.heap = some x)
    (there : (c'.state.insts inst).isSome) (here : k.heap = x.addr)
    (found : c.state.heaps k.heap = some sh) (real : ch ≠ .fail)
    (lost : exec P strict t (.casHead k (sh.head k.node k.cls) new) ch c'.state = some (false,s')) :
    ∃ before label after cm, schedule = before ++ label :: after ∧ c.execute before = some cm ∧
      cm.Wins k label := by
  have fine := World.Reachable.fine reachable
  obtain ⟨_,sh',_,found',_⟩ := World.Fine.final_run fine run known named there
  rw [← here] at found'
  rcases World.Fine.head_run fine run known named there here found found' with same | wins
  · cases casHead_real lost real found' same
  · exact wins

namespace Sample

/-- Both threads have a cache with blocks of one class. -/
def sharing : List Label :=
  twoBlocks ++ freeingBoth ++ [.start 2 (.alloc 0 (layout 16384 small_bound))] ++ go 2 28

/-- Thread 1 gives its blocks back as it ends; before its compare-exchange, thread 2 does. -/
def racing : List Label := [.start 1 .exit] ++ go 1 4 ++ [.start 2 .exit] ++ go 2 7

end Sample

set_option maxRecDepth 8000 in
theorem sample_retry_lost : ∃ c c' : World Sample.platform false,
    (World.initial fun _ => 0).execute Sample.sharing = some c ∧
    c.execute Sample.racing = some c' ∧
    ∃ before label after cm, Sample.racing = before ++ label :: after ∧
      c.execute before = some cm ∧ cm.Wins ⟨64,0,11⟩ label := by
  have ends : ((World.initial fun _ => 0 : World Sample.platform false).execute
      Sample.sharing).bind (fun c => (c.execute Sample.racing).map fun c' =>
        ((c.state.insts 0).map Instance.heap,(c'.state.insts 0).isSome,
          (c.state.heaps 64).map fun sh => sh.head 0 11,
          (exec Sample.platform false 1 (.casHead ⟨64,0,11⟩ 0 281474976989184) .go c'.state).map
            Prod.fst)) = some (some (some ⟨64,0⟩),true,some 0,some false) := by decide +kernel
  obtain ⟨c,start,eq⟩ := Option.bind_eq_some_iff.mp ends
  obtain ⟨c',run,shown⟩ := Option.map_eq_some_iff.mp eq
  obtain ⟨made,shown⟩ := Prod.mk.inj shown
  obtain ⟨there,shown⟩ := Prod.mk.inj shown
  obtain ⟨word,fails⟩ := Prod.mk.inj shown
  obtain ⟨I,known,named⟩ := Option.map_eq_some_iff.mp made
  obtain ⟨sh,found,zero⟩ := Option.map_eq_some_iff.mp word
  obtain ⟨⟨done,s'⟩,lost,done_⟩ := Option.map_eq_some_iff.mp fails
  obtain rfl : done = false := done_
  have real : Choice.go ≠ .fail := fun same => by cases same
  have lost : exec Sample.platform false 1 (.casHead ⟨64,0,11⟩ (sh.head 0 11) 281474976989184) .go
      c'.state = some (false,s') := by rw [zero]; exact lost
  exact ⟨c,c',start,run,
    retry_lost (k := ⟨64,0,11⟩) ⟨_,_,start⟩ run known named there rfl found real lost⟩

end Numalloc
