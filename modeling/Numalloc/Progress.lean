import Numalloc.Runs

/-! A thread in the middle of an operation can always go on: it never reaches for a heap
that was freed, a cache it does not have, or the end of a list that is not there. -/
namespace Numalloc

open Concurrent View

variable {P : Platform} {strict : Bool} {s : State} {t : Nat} {ch : Choice}

/-- The kernel and the system allocator give what the next step of `t` asks of them: the
region and the record of a heap at its first use, or a mapping, unless they refuse it. -/
structure World.Granted (c : World P strict) (t : Nat) (ch : Choice) : Prop where
  region : ∀ {inst I}, (c.prog t).next = some (.heap inst) → c.state.insts inst = some I →
    I.heap = none → ∃ r raw addr, GlobalHeap.reserve I.numNodes I.regionSize = some r ∧
      ch = .place raw addr ∧ c.state.mmapOk P raw r.mapSize = true ∧ addr ≠ 0 ∧
      c.state.heaps addr = none
  mapping : ∀ {size raw}, (c.prog t).next = some (.mmap size) → ch = .addr raw →
    c.state.mmapOk P raw size = true

/-- What a thread keeps alive is there. -/
theorem Inv.kept_heap (inv : Inv P s) {addr : Nat} (keeps : (s.view t).Keeps addr) :
    ∃ sh, s.heaps addr = some sh := by
  rcases keeps with ⟨r,call,rfl⟩ | ⟨th,alive,rfl⟩ | ⟨h,hand,rfl⟩
  · obtain ⟨_,_,sh,_,_,_,found,_⟩ := inv.heaps.callHeap call
    exact ⟨sh,found⟩
  · obtain ⟨sh,found,_⟩ := inv.heaps.slotOk alive
    exact ⟨sh,found⟩
  · obtain ⟨sh,found,_⟩ := inv.heaps.handOk hand
    exact ⟨sh,found⟩

/-- The allocator of an operation is there. -/
theorem Inv.called_inst (inv : Inv P s) {inst : Nat} (call : (s.view t).call.inst = some inst) :
    ∃ I, s.insts inst = some I := (inv.heaps.callInst call).1

theorem exec_heap (inv : Inv P s) {inst : Nat} (call : (s.view t).call.inst = some inst)
    (region : ∀ {I}, s.insts inst = some I → I.heap = none →
      ∃ r raw addr, GlobalHeap.reserve I.numNodes I.regionSize = some r ∧ ch = .place raw addr ∧
        s.mmapOk P raw r.mapSize = true ∧ addr ≠ 0 ∧ s.heaps addr = none) :
    (exec P strict t (.heap inst) ch s).isSome := by
  obtain ⟨I,known⟩ := inv.called_inst call
  cases named : I.heap with
  | some h =>
    obtain ⟨_,sh,found,_⟩ := inv.heaps.instHeap known named
    simp [exec,known,named,found]
  | none =>
    obtain ⟨r,raw,addr,reserved,rfl,free,nonzero,fresh⟩ := region known named
    simp [exec,known,named,reserved,free,nonzero,fresh]

/-- An action whose demand is met can be taken. -/
theorem exec_safe {x : Act} (inv : Inv P s) (safe : safe P false x (s.view t)) (go : x ≠ .abort)
    (region : ∀ {inst I}, x = .heap inst → s.insts inst = some I → I.heap = none →
      ∃ r raw addr, GlobalHeap.reserve I.numNodes I.regionSize = some r ∧ ch = .place raw addr ∧
        s.mmapOk P raw r.mapSize = true ∧ addr ≠ 0 ∧ s.heaps addr = none)
    (mapping : ∀ {size raw}, x = .mmap size → ch = .addr raw → s.mmapOk P raw size = true) :
    (exec P false t x ch s).isSome := by
  cases x with
  | heap inst => exact exec_heap inv safe (region rfl)
  | abort => exact absurd rfl go
  | thread | setFreelist cls fl | setLargeCache cache =>
    obtain ⟨th,r,alive,_⟩ := safe
    have alive : s.tls t = .alive th := alive
    simp [exec,alive]
  | slotTake destroy =>
    cases slot : s.tls t with
    | alive th =>
      obtain ⟨sh,found,_⟩ := inv.heaps.slotOk slot
      simp [exec,slot,found]
    | empty => simp [exec,slot]
    | destroyed => simp [exec,slot]
  | slotSet th =>
    obtain ⟨_,_,_,hand,_⟩ := safe
    obtain ⟨sh,found,_⟩ := inv.heaps.handOk hand
    simp [exec,found]
  | link x =>
    cases x with
    | panic => exact safe.elim
    | readNext b => rfl
    | writeNext b next => rfl
  | loadHead k =>
    obtain ⟨sh,found⟩ := inv.kept_heap safe
    simp [exec,found]
  | casHead k current new =>
    obtain ⟨sh,found⟩ := inv.kept_heap safe.1
    simp only [exec,found,Option.bind_eq_bind,Option.bind_some]
    split
    · rfl
    · split
      · split <;> rfl
      · rfl
  | loadBump heap node =>
    obtain ⟨sh,found⟩ := inv.kept_heap safe
    simp [exec,found]
  | casBump heap node cls current new =>
    obtain ⟨r,_,call,rfl,_⟩ := safe
    obtain ⟨sh,found⟩ := inv.kept_heap (t := t) (Or.inl ⟨r,call,rfl⟩)
    simp only [exec,found,Option.bind_eq_bind,Option.bind_some]
    split
    · rfl
    · split <;> rfl
  | fetchAddNode inst =>
    obtain ⟨I,known⟩ := inv.called_inst safe
    simp [exec,known]
  | fetchAddRefs h =>
    obtain ⟨_,r,call,rfl⟩ := safe
    obtain ⟨sh,found⟩ := inv.kept_heap (t := t) (Or.inl ⟨r,call,rfl⟩)
    simp [exec,found]
  | fetchSubRefs h =>
    obtain ⟨sh,found,_⟩ := inv.heaps.handOk safe.1
    simp [exec,found]
  | extent h =>
    obtain ⟨sh,found,_⟩ := inv.heaps.dyingHeap safe
    simp [exec,found]
  | mmap size =>
    cases ch with
    | addr raw => simp [exec,mapping rfl rfl]
    | _ => rfl
  | release =>
    obtain ⟨a,pin⟩ := safe
    have pin : s.pinned t = some a := pin
    simp [exec,pin]
  | _ => rfl

/-- Whatever has happened so far and however the step is answered, a thread that is in an
operation can take its next step, unless it gives the process up itself. -/
theorem operations_go_on {c : World P false} (reachable : c.Reachable) (busy : c.prog t ≠ .ret ())
    (go : (c.prog t).next ≠ some .abort) (granted : c.Granted t ch) :
    ∃ c', c.advance (.step t ch) = some c' := by
  have fine := World.Reachable.fine reachable
  simp only [World.advance,Config.advance]
  cases prog : c.prog t with
  | ret a => exact absurd prog busy
  | loop body i k => exact ⟨_,rfl⟩
  | act x k =>
    have at_ : (c.prog t).next = some x := by rw [prog]; rfl
    have taken : (exec P false t x ch c.state).isSome :=
      exec_safe fine.inv (fine.safe at_) (fun same => go (same ▸ at_))
        (fun same => granted.region (same ▸ at_)) fun same => granted.mapping (same ▸ at_)
    obtain ⟨⟨r,s'⟩,run⟩ := Option.isSome_iff_exists.mp taken
    simp only [run,Option.map_some,Option.some.injEq,exists_eq']

namespace Sample

/-- Thread 1 is about to use the allocator for the first time. -/
def beginning : List Label :=
  [.create 1 262144,.start 1 (.alloc 0 (layout 16384 small_bound))] ++ go 1 1

end Sample

theorem sample_operations_go_on : ∃ c c' : World Sample.platform false,
    (World.initial fun _ => 0).execute Sample.beginning = some c ∧
    (c.prog 1).next = some (.heap 0) ∧ c.advance (.step 1 (.place 4096 64)) = some c' := by
  obtain ⟨r,reserved⟩ : ∃ r, GlobalHeap.reserve 1 262144 = some r := ⟨_,rfl⟩
  obtain ⟨c,run⟩ : ∃ c : World Sample.platform false,
      (World.initial fun _ => 0).execute Sample.beginning = some c := ⟨_,rfl⟩
  have next : (((World.initial fun _ => 0 : World Sample.platform false).execute
      Sample.beginning).map fun c => (c.prog 1).next) = some (some (.heap 0)) := rfl
  have made : (((World.initial fun _ => 0 : World Sample.platform false).execute
      Sample.beginning).map fun c => c.state.insts 0) = some (some ⟨1,262144,none,0⟩) := rfl
  have room : (((World.initial fun _ => 0 : World Sample.platform false).execute
      Sample.beginning).map fun c => (c.state.mmapOk Sample.platform 4096
        ((GlobalHeap.reserve 1 262144).elim 0 fun r => r.mapSize),(c.state.heaps 64).isNone)) =
          some (true,true) := by decide +kernel
  rw [run] at next made room
  obtain ⟨free,fresh⟩ := Prod.mk.inj (Option.some.inj room)
  rw [reserved] at free
  have at_ : (c.prog 1).next = some (.heap 0) := Option.some.inj next
  have known : c.state.insts 0 = some ⟨1,262144,none,0⟩ := Option.some.inj made
  have granted : c.Granted 1 (.place 4096 64) := by
    refine ⟨fun {inst I} here found _ => ?_,fun here => ?_⟩
    · obtain rfl := Act.heap.inj (Option.some.inj (at_.symm.trans here))
      obtain rfl := Option.some.inj (known.symm.trans found)
      exact ⟨r,4096,64,reserved,rfl,free,by decide,Option.isNone_iff_eq_none.mp fresh⟩
    · simp [at_] at here
  have busy : c.prog 1 ≠ .ret () := fun rest => by simp [rest,Prog.next] at at_
  obtain ⟨c',step⟩ := operations_go_on ⟨_,_,run⟩ busy (by simp [at_]) granted
  exact ⟨c,c',run,at_,step⟩

end Numalloc
