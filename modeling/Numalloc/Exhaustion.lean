import Numalloc.BagAllocation
import Numalloc.Concurrent.Solo
import Numalloc.Isolation

/-! When an allocation fails, and that it fails cleanly: a request of a thread that has its
cache, served while nobody else acts. -/
namespace Numalloc

open Concurrent View Logic

variable {P : Platform} {strict : Bool} {s s' : State} {t inst cls : Nat} {layout : Layout}
  {th : PerThreadHeap} {sh : SharedHeap} {refuse : Prop} {α : Type}

/-- One action of thread `t` while nobody else takes one. `refuse` says whether the kernel
turns an `mmap` down. -/
def solo (P : Platform) (strict : Bool) (t : Nat) (refuse : Prop) (x : Act) (s : State) (r : x.Res)
    (s' : State) : Prop :=
  (∃ ch, exec P strict t x ch s = some (r,s')) ∧ match x, r with
    | .mmap _, r => r = none ↔ refuse
    | _, _ => True

/-- Nothing of the class is left for the thread: its list, its spare chain and the stack of
its node are empty, and no aligned bag fits into the rest of the node's region. -/
structure Exhausted (th : PerThreadHeap) (sh : SharedHeap) (cls : Nat) : Prop where
  counted : (th.freelists cls).head = none
  spare : (th.freelists cls).spare = none
  stack : (TreiberStack.unpack (sh.head th.nodeId cls)).1 = none
  region : ∀ a, sh.bump th.nodeId ≤ a →
    bagSizeForClass cls ∣ (sh.heap.nodeRegion th.nodeId).base + a →
    (sh.heap.nodeRegion th.nodeId).size < a + bagSizeForClass cls

/-- The layout is not served by a block. -/
def Blockless (th : PerThreadHeap) (sh : SharedHeap) (layout : Layout) : Prop :=
  smallLimit < layout.effective ∨
    ∃ cls, sizeClassIndex layout.effective = some cls ∧ Exhausted th sh cls

/-- The layout is not served by a mapping. -/
def Unmapped (P : Platform) (th : PerThreadHeap) (layout : Layout) (refuse : Prop) : Prop :=
  largeAllocSize P layout = none ∨ ∃ needed, largeAllocSize P layout = some needed ∧
    (∀ entry ∈ th.largeCache.entries, ¬(needed ≤ entry.allocSize ∧
      entry.allocSize ≤ needed + LargeCache.closeSizeTolerance)) ∧ refuse

/-- Thread `t` runs an operation on `inst` and has its cache for it. -/
structure Served (s : State) (t inst : Nat) (th : PerThreadHeap) (sh : SharedHeap) : Prop where
  alive : s.tls t = .alive th
  own : s.OwnHeap inst th.globalHeap
  found : s.heaps th.globalHeap.addr = some sh
  call : s.call t = ⟨some inst,some ⟨th.globalHeap,sh.heap⟩⟩
  cache : th.largeCache.Ok
  node : th.nodeId < sh.heap.numNodes
  valid : sh.heap.Valid

namespace Served

/-! What single actions do in this state. -/

variable {ch : Choice}

theorem exec_heap (served : Served s t inst th sh) :
    exec P strict t (.heap inst) ch s = some (⟨th.globalHeap,sh.heap⟩,s) := by
  obtain ⟨_,I,known,heap⟩ := served.own
  simp only [exec,known,heap,served.found,Option.bind_eq_bind,Option.bind_some,← served.call,
    replace_self]

theorem exec_thread (served : Served s t inst th sh) :
    exec P strict t .thread ch s = some (th,s) := by
  simp only [exec,served.alive]

/-- A list that is put back as it was. -/
theorem exec_setFreelist (served : Served s t inst th sh) :
    exec P strict t (.setFreelist cls (th.freelists cls)) ch s = some ((),s) := by
  have same : s.setThread t th = s := by
    simp only [State.setThread,← served.alive,replace_self]
  simp only [exec,served.alive,replace_self]
  rw [same]

theorem exec_unspare (served : Served s t inst th sh) (spare : (th.freelists cls).spare = none)
    (ch : Choice) : exec P strict t (.setFreelist cls { th.freelists cls with spare := none }) ch s =
      some ((),s) := by
  rw [← spare]
  exact served.exec_setFreelist

theorem exec_loadHead (served : Served s t inst th sh) :
    exec P strict t (.loadHead ⟨th.globalHeap.addr,th.nodeId,cls⟩) ch s =
      some (sh.head th.nodeId cls,s) := by
  simp only [exec,served.found,Option.bind_eq_bind,Option.bind_some]

theorem exec_loadBump (served : Served s t inst th sh) :
    exec P strict t (.loadBump th.globalHeap.addr th.nodeId) ch s =
      some (sh.bump th.nodeId,s) := by
  simp only [exec,served.found,Option.bind_eq_bind,Option.bind_some]

end Served

/-- Such an action answers one thing and changes nothing. -/
theorem solo_still {x : Act} {r r' : x.Res} (run : ∀ ch, exec P strict t x ch s = some (r,s))
    (st : solo P strict t refuse x s r' s') : r' = r ∧ s' = s := by
  obtain ⟨⟨ch,run'⟩,_⟩ := st
  exact Prod.mk.inj (Option.some.inj (run'.symm.trans (run ch)))

theorem still_solo {x : Act} {r : x.Res} (run : ∀ ch, exec P strict t x ch s = some (r,s))
    (other : ∀ n, x ≠ .mmap n) : solo P strict t refuse x s r s := by
  refine ⟨⟨.go,run .go⟩,?_⟩
  cases x with
  | mmap n => exact absurd rfl (other n)
  | _ => trivial

/-- A compare-exchange that fails writes nothing. -/
theorem casHead_false {k : StackRef} {current new : Nat}
    (run : ∃ ch, exec P strict t (.casHead k current new) ch s = some (false,s')) : s' = s := by
  obtain ⟨ch,run⟩ := run
  simp only [exec,Option.bind_eq_bind,Option.bind_eq_some_iff] at run
  obtain ⟨sh,_,run⟩ := run
  split at run
  · exact (Prod.mk.inj (Option.some.inj run)).2.symm
  · split at run
    · split at run <;> cases (Prod.mk.inj (Option.some.inj run)).1
    · exact (Prod.mk.inj (Option.some.inj run)).2.symm

theorem casBump_false {heap node current new : Nat}
    (run : ∃ ch, exec P strict t (.casBump heap node cls current new) ch s = some (false,s')) :
    s' = s := by
  obtain ⟨ch,run⟩ := run
  simp only [exec,Option.bind_eq_bind,Option.bind_eq_some_iff] at run
  obtain ⟨sh,_,run⟩ := run
  split at run
  · exact (Prod.mk.inj (Option.some.inj run)).2.symm
  · split at run
    · cases (Prod.mk.inj (Option.some.inj run)).1
    · exact (Prod.mk.inj (Option.some.inj run)).2.symm

theorem mmap_none {n : Nat} {ch : Choice}
    (run : exec P strict t (.mmap n) ch s = some ((none : Option Nat),s')) : s' = s := by
  cases ch with
  | addr raw =>
    simp only [exec] at run
    split at run
    · cases (Prod.mk.inj (Option.some.inj run)).1
    · cases run
  | _ => exact (Prod.mk.inj (Option.some.inj run)).2.symm

/-- The rules of a thread that acts alone. -/
abbrev soloLogic (P : Platform) (strict : Bool) (t : Nat) (refuse : Prop) : Logic allocI State :=
  .plain (solo P strict t refuse)

/-- A search that fails exactly under a condition, and without a trace. -/
def Fails (cond : Prop) (s : State) (x : Option α) (s' : State) : Prop :=
  (x = none ↔ cond) ∧ (x = none → s' = s)

theorem Fails.found {cond : Prop} {a : α} (other : ¬cond) : Fails cond s (some a) s' :=
  ⟨⟨(nomatch ·),fun h => absurd h other⟩,(nomatch ·)⟩

theorem Fails.missed {cond : Prop} (h : cond) : Fails cond s (none : Option α) s :=
  ⟨⟨fun _ => h,fun _ => rfl⟩,fun _ => rfl⟩

/-- An action whose outcome is known, and the rest. -/
theorem solo_act {x : Act} {r : x.Res} {k : x.Res → Prog allocI α} {Q : α → State → Prop}
    (run : ∀ ch, exec P strict t x ch s = some (r,s))
    (next : (soloLogic P strict t refuse).wp (k r) Q s) :
    (soloLogic P strict t refuse).wp ((act x).bind k) Q s := by
  refine ⟨trivial,trivial,fun r' s' st => ?_⟩
  obtain ⟨rfl,rfl⟩ := solo_still run st
  exact next

/-- Whatever the rest does, it ends with an answer. -/
theorem solo_answers {β : Type} {p : Prog allocI β} {f : β → α} {Q : Option α → State → Prop}
    (post : ∀ b s', Q (some (f b)) s') :
    (soloLogic P strict t refuse).wp (p.bind fun b => .ret (some (f b))) Q s :=
  wp_seq plain_any fun b s' _ _ => ⟨trivial,post b s'⟩

namespace Served

/-! One attempt after the other. -/

theorem threadHeap (served : Served s t inst th sh) {k : Bool → Prog allocI α}
    {Q : α → State → Prop} (next : (soloLogic P strict t refuse).wp (k true) Q s) :
    (soloLogic P strict t refuse).wp ((Numalloc.threadHeap inst).bind k) Q s := by
  rw [threadHeap_eq,Prog.bind_assoc]
  refine solo_act (r := ThreadHeapSlot.alive th) (fun _ => by simp only [exec,served.alive]) ?_
  refine solo_act (fun _ => served.exec_heap) ?_
  simpa using next

theorem pop (served : Served s t inst th sh) (cls : Nat) :
    (soloLogic P strict t refuse).wp (freelistMut cls ThreadFreelist.pop)
      (Fails ((th.freelists cls).head = none) s) s := by
  rw [freelistMut_eq]
  refine solo_act (fun _ => served.exec_thread) ?_
  cases head : (th.freelists cls).head with
  | none =>
    rw [links_pop_none head]
    exact solo_act (fun _ => served.exec_setFreelist) ⟨trivial,.missed rfl⟩
  | some b =>
    rw [links_pop_some head]
    exact ⟨trivial,trivial,fun _ _ _ => ⟨trivial,trivial,fun _ _ _ => ⟨trivial,.found (by simp)⟩⟩⟩

theorem takeAll (served : Served s t inst th sh) (cls : Nat) :
    (soloLogic P strict t refuse).wp
      (onStack ⟨th.globalHeap.addr,th.nodeId,cls⟩ TreiberStack.takeAll)
      (Fails ((TreiberStack.unpack (sh.head th.nodeId cls)).1 = none) s) s := by
  rw [onStack_takeAll]
  refine wp_iter (fun _ s' => s' = s) trivial rfl fun _ s' same => ?_
  subst same
  refine solo_act (fun _ => served.exec_loadHead) ?_
  cases head : (TreiberStack.unpack (sh.head th.nodeId cls)).1 with
  | none => exact ⟨trivial,.missed rfl⟩
  | some first =>
    refine ⟨trivial,trivial,fun done s'' st => ?_⟩
    cases done with
    | true => exact ⟨trivial,.found (by simp)⟩
    | false => exact ⟨trivial,casHead_false st.1⟩

/-- The spare chain first, then the stack. -/
theorem takeChain (served : Served s t inst th sh) (cls : Nat) :
    (soloLogic P strict t refuse).wp (Numalloc.takeChain cls ⟨th.globalHeap.addr,th.nodeId,cls⟩)
      (Fails ((th.freelists cls).spare = none ∧
        (TreiberStack.unpack (sh.head th.nodeId cls)).1 = none) s) s := by
  rw [takeChain_eq]
  refine solo_act (fun _ => served.exec_thread) ?_
  cases spare : (th.freelists cls).spare with
  | some first => exact ⟨trivial,trivial,fun _ _ _ => ⟨trivial,.found (by simp)⟩⟩
  | none =>
    refine solo_act (served.exec_unspare spare) ?_
    exact wp_mono (served.takeAll cls) fun x s' _ fails => by simpa using fails

theorem allocateBag (served : Served s t inst th sh) (small : cls < numSizeClasses) :
    (soloLogic P strict t refuse).wp (onBump th.globalHeap.addr th.nodeId cls
      ((sh.heap.nodeRegion th.nodeId).allocateBag (bagSizeForClass cls)))
      (Fails (∀ a, sh.bump th.nodeId ≤ a →
        bagSizeForClass cls ∣ (sh.heap.nodeRegion th.nodeId).base + a →
        (sh.heap.nodeRegion th.nodeId).size < a + bagSizeForClass cls) s) s := by
  have built := served.valid.built served.node
  obtain ⟨k,low,pow⟩ := NodeRegion.bagSize_pow ⟨cls,small⟩
  dsimp only at pow
  rw [onBump_allocateBag]
  refine wp_iter (fun _ s' => s' = s) trivial rfl fun _ s' same => ?_
  subst same
  refine solo_act (fun _ => served.exec_loadBump) ?_
  rw [pow,← NodeRegion.nextBag_none built low]
  cases bag : (sh.heap.nodeRegion th.nodeId).nextBag (2 ^ k) (sh.bump th.nodeId) with
  | none => exact ⟨trivial,.missed rfl⟩
  | some found =>
    refine ⟨trivial,trivial,fun done s'' st => ?_⟩
    cases done with
    | true => exact ⟨trivial,.found (by simp)⟩
    | false => exact ⟨trivial,casBump_false st.1⟩

theorem allocLargeTracked (served : Served s t inst th sh) (layout : Layout) :
    (soloLogic P strict t refuse).wp (Numalloc.allocLargeTracked P inst layout)
      (fun x => Fails (Unmapped P th layout refuse) s x.1) s := by
  cases fits : largeAllocSize P layout with
  | none =>
    unfold Numalloc.allocLargeTracked
    rw [fits]
    exact ⟨trivial,.missed (Or.inl fits)⟩
  | some needed =>
    rw [allocLargeTracked_eq fits]
    refine served.threadHeap (solo_act (fun _ => served.exec_thread) ?_)
    rcases LargeCache.take_cases served.cache needed with ⟨missed,none_⟩ | ⟨entry,at_,hit,low,high,_⟩
    · rw [missed]
      dsimp only
      rw [mapLarge_eq]
      refine ⟨trivial,trivial,fun raw s' st => ?_⟩
      obtain ⟨⟨ch,run⟩,answer⟩ := st
      cases raw with
      | none =>
        obtain rfl := mmap_none run
        exact ⟨trivial,.missed (Or.inr ⟨needed,fits,none_,answer.mp rfl⟩)⟩
      | some raw =>
        have granted : ¬Unmapped P th layout refuse := by
          rintro (big | ⟨_,_,_,refused⟩)
          · simp [fits] at big
          · exact nomatch answer.mpr refused
        simp only [Prog.bind_ret]
        refine wp_seq plain_any fun _ _ _ _ => wp_seq plain_any fun p _ _ _ => ?_
        exact ⟨trivial,.found granted⟩
    · have served : ¬Unmapped P th layout refuse := by
        rintro (big | ⟨needed',fits',empty,_⟩)
        · simp [fits] at big
        · obtain rfl := Option.some.inj (fits.symm.trans fits')
          exact empty entry (List.mem_of_getElem? at_) ⟨low,high⟩
      rw [hit]
      exact wp_seq plain_any fun _ _ _ _ => wp_seq plain_any fun _ _ _ _ => ⟨trivial,.found served⟩

theorem allocLarge (served : Served s t inst th sh) (layout : Layout) :
    (soloLogic P strict t refuse).wp (Numalloc.allocLarge P inst layout)
      (Fails (Unmapped P th layout refuse) s) s := by
  rw [allocLarge_eq]
  exact wp_seq (served.allocLargeTracked layout) fun _ _ _ fails => ⟨trivial,fails⟩

theorem allocSmall (served : Served s t inst th sh) (small : cls < numSizeClasses) (layout : Layout) :
    (soloLogic P strict t refuse).wp (Numalloc.allocSmall P inst layout cls)
      (Fails (Exhausted th sh cls ∧ Unmapped P th layout refuse) s) s := by
  rw [allocSmall_eq]
  refine solo_act (fun _ => served.exec_thread) (wp_seq (served.pop cls) fun x s' _ counted => ?_)
  cases x with
  | some block => exact ⟨trivial,.found fun h => nomatch counted.1.mpr h.1.counted⟩
  | none =>
    obtain rfl := counted.2 rfl
    refine solo_act (fun _ => served.exec_heap) (wp_seq (served.takeChain cls) fun x s'' _ chain => ?_)
    cases x with
    | some first =>
      refine solo_answers fun _ _ => .found fun h => ?_
      exact nomatch chain.1.mpr ⟨h.1.spare,h.1.stack⟩
    | none =>
      obtain rfl := chain.2 rfl
      refine wp_seq (served.allocateBag small) fun x s'' _ bag => ?_
      cases x with
      | some bag' =>
        refine wp_seq plain_any fun _ _ _ _ => solo_answers fun _ _ => .found fun h => ?_
        exact nomatch bag.1.mpr h.1.region
      | none =>
        obtain rfl := bag.2 rfl
        obtain ⟨spare,stack⟩ := chain.1.mp rfl
        refine wp_mono (served.allocLarge layout) fun x s' _ fails => ?_
        have empty : Exhausted th sh cls := ⟨counted.1.mp rfl,spare,stack,bag.1.mp rfl⟩
        exact ⟨fails.1.trans ⟨fun h => ⟨empty,h⟩,And.right⟩,fails.2⟩

theorem alloc (served : Served s t inst th sh) (layout : Layout) :
    (soloLogic P strict t refuse).wp (Numalloc.alloc P inst layout)
      (Fails (Blockless th sh layout ∧ Unmapped P th layout refuse) s) s := by
  unfold Numalloc.alloc
  split
  case isTrue large =>
    refine wp_mono (served.allocLarge layout) fun x s' _ fails => ?_
    exact ⟨fails.1.trans ⟨fun h => ⟨Or.inl large,h⟩,And.right⟩,fails.2⟩
  case isFalse fitting =>
    obtain ⟨cls,eq⟩ := sizeClassIndex_isSome layout.effective_pos (Nat.le_of_not_lt fitting)
    simp only [eq]
    refine served.threadHeap (wp_mono (served.allocSmall (sizeClassIndex_spec eq).1 layout)
      fun x s' _ fails => ?_)
    refine ⟨fails.1.trans (and_congr_left fun _ => ⟨fun h => Or.inr ⟨cls,eq,h⟩,?_⟩),fails.2⟩
    rintro (large | ⟨cls',eq',h⟩)
    · exact absurd large fitting
    · obtain rfl := Option.some.inj (eq.symm.trans eq')
      exact h

theorem allocZeroed (served : Served s t inst th sh) (layout : Layout) :
    (soloLogic P strict t refuse).wp (Numalloc.allocZeroed P inst layout)
      (Fails (Blockless th sh layout ∧ Unmapped P th layout refuse) s) s := by
  rw [allocZeroed_eq]
  split
  case isTrue large =>
    refine wp_seq (served.allocLargeTracked layout) fun x s' _ fails => ?_
    obtain ⟨x,reused⟩ := x
    have fails : Fails (Blockless th sh layout ∧ Unmapped P th layout refuse) s x s' :=
      ⟨fails.1.trans ⟨fun h => ⟨Or.inl large,h⟩,And.right⟩,fails.2⟩
    cases x with
    | none => exact ⟨trivial,fails⟩
    | some p =>
      have found : ¬(Blockless th sh layout ∧ Unmapped P th layout refuse) := fun h =>
        nomatch fails.1.mpr h
      cases reused with
      | false => exact ⟨trivial,.found found⟩
      | true => exact solo_answers fun _ _ => .found found
  case isFalse =>
    refine wp_seq (served.alloc layout) fun x s' _ fails => ?_
    cases x with
    | none => exact ⟨trivial,fails⟩
    | some p => exact solo_answers fun _ _ => .found fun h => nomatch fails.1.mpr h

/-! The failing search, action by action. -/

theorem runs_threadHeap (served : Served s t inst th sh) {k : Bool → Prog allocI α} {a : α}
    (rest : Runs (solo P strict t refuse) (k true) s a s') :
    Runs (solo P strict t refuse) ((Numalloc.threadHeap inst).bind k) s a s' := by
  rw [threadHeap_eq,Prog.bind_assoc]
  have slot : ∀ ch, exec P strict t .slotGet ch s = some (ThreadHeapSlot.alive th,s) := fun _ => by
    simp only [exec,served.alive]
  refine .act (still_solo slot (by simp)) (.act (still_solo (fun _ => served.exec_heap) (by simp)) ?_)
  simpa using rest

theorem runs_allocLargeTracked (served : Served s t inst th sh)
    (unmapped : Unmapped P th layout refuse) :
    Runs (solo P strict t refuse) (Numalloc.allocLargeTracked P inst layout) s (none,false) s := by
  rcases unmapped with big | ⟨needed,fits,empty,refused⟩
  · unfold Numalloc.allocLargeTracked
    rw [big]
    exact .ret
  · rw [allocLargeTracked_eq fits]
    refine served.runs_threadHeap (.act (still_solo (fun _ => served.exec_thread) (by simp)) ?_)
    rcases LargeCache.take_cases served.cache needed with ⟨missed,_⟩ | ⟨entry,at_,_,low,high,_⟩
    · simp only [Prog.bind_ret,missed]
      rw [mapLarge_eq]
      exact .act (r := (none : Option Nat)) ⟨⟨.fail,rfl⟩,⟨fun _ => refused,fun _ => rfl⟩⟩ .ret
    · exact absurd ⟨low,high⟩ (empty entry (List.mem_of_getElem? at_))

theorem runs_allocSmall (served : Served s t inst th sh) (small : cls < numSizeClasses)
    (exhausted : Exhausted th sh cls) (unmapped : Unmapped P th layout refuse) :
    Runs (solo P strict t refuse) (Numalloc.allocSmall P inst layout cls) s none s := by
  have pop : Runs (solo P strict t refuse) (freelistMut cls ThreadFreelist.pop) s none s := by
    rw [freelistMut_eq]
    refine .act (still_solo (fun _ => served.exec_thread) (by simp)) ?_
    simp only [Prog.bind_ret,links_pop_none exhausted.counted]
    exact .act (still_solo (fun _ => served.exec_setFreelist) (by simp)) .ret
  have chain : Runs (solo P strict t refuse)
      (Numalloc.takeChain cls ⟨th.globalHeap.addr,th.nodeId,cls⟩) s none s := by
    rw [takeChain_eq]
    refine .act (still_solo (fun _ => served.exec_thread) (by simp)) ?_
    simp only [Prog.bind_ret,exhausted.spare]
    refine .act (still_solo (served.exec_unspare exhausted.spare) (by simp)) ?_
    rw [onStack_takeAll]
    refine .last (.act (still_solo (fun _ => served.exec_loadHead) (by simp)) ?_)
    simp only [Prog.bind_ret,exhausted.stack]
    exact .ret
  have bag : Runs (solo P strict t refuse) (onBump th.globalHeap.addr th.nodeId cls
      ((sh.heap.nodeRegion th.nodeId).allocateBag (bagSizeForClass cls))) s none s := by
    obtain ⟨k,low,pow⟩ := NodeRegion.bagSize_pow ⟨cls,small⟩
    dsimp only at pow
    have full := exhausted.region
    rw [pow,← NodeRegion.nextBag_none (served.valid.built served.node) low] at full
    rw [onBump_allocateBag]
    refine .last (.act (still_solo (fun _ => served.exec_loadBump) (by simp)) ?_)
    simp only [Prog.bind_ret,pow,full]
    exact .ret
  rw [allocSmall_eq]
  refine .act (still_solo (fun _ => served.exec_thread) (by simp)) (pop.bind ?_)
  refine .act (still_solo (fun _ => served.exec_heap) (by simp)) (chain.bind (bag.bind ?_))
  exact (served.runs_allocLargeTracked unmapped).bind .ret

theorem runs_alloc (served : Served s t inst th sh) (blockless : Blockless th sh layout)
    (unmapped : Unmapped P th layout refuse) :
    Runs (solo P strict t refuse) (Numalloc.alloc P inst layout) s none s := by
  unfold Numalloc.alloc
  rcases blockless with large | ⟨cls,eq,exhausted⟩
  · rw [if_pos large]
    exact (served.runs_allocLargeTracked unmapped).bind .ret
  · obtain ⟨small,_,fitting,_⟩ := sizeClassIndex_spec eq
    rw [if_neg (Nat.not_lt.mpr fitting)]
    simp only [eq]
    exact served.runs_threadHeap (served.runs_allocSmall small exhausted unmapped)

theorem runs_allocZeroed (served : Served s t inst th sh) (blockless : Blockless th sh layout)
    (unmapped : Unmapped P th layout refuse) :
    Runs (solo P strict t refuse) (Numalloc.allocZeroed P inst layout) s none s := by
  rw [allocZeroed_eq]
  split
  · exact (served.runs_allocLargeTracked unmapped).bind .ret
  · exact (served.runs_alloc blockless unmapped).bind .ret

end Served

/-- `alloc`, or `alloc_zeroed`. -/
def Request.allocation (zeroed : Bool) (inst : Nat) (layout : Layout) : Request :=
  if zeroed then .allocZeroed inst layout else .alloc inst layout

def allocation (P : Platform) (zeroed : Bool) (inst : Nat) (layout : Layout) :
    Prog allocI (Option Nat) :=
  if zeroed then allocZeroed P inst layout else alloc P inst layout

/-- Every list, stack, bump offset, cache entry, byte, holder and live allocation is the same. -/
structure Untouched (s s' : State) : Prop where
  tls : s'.tls = s.tls
  heaps : s'.heaps = s.heaps
  insts : s'.insts = s.insts
  maps : s'.maps = s.maps
  slots : s'.slots = s.slots
  bags : s'.bags = s.bags
  mem : s'.mem = s.mem
  live : s'.live = s.live

variable {c c₁ : World P strict} {zeroed : Bool}

theorem start_allocation (start : c.advance (.start t (.allocation zeroed inst layout)) = some c₁) :
    c₁.prog t = ((allocation P zeroed inst layout).bind fun x =>
      (answer layout x).bind fun _ => act .finish) ∧ c.state.enter t inst = some c₁.state := by
  refine ⟨(World.started start).trans ?_,?_⟩
  · cases zeroed <;> exact Prog.bind_assoc _ _ _
  · simp only [World.advance] at start
    split at start
    case h_2 => cases start
    obtain ⟨s,run,rfl⟩ := Option.map_eq_some_iff.mp start
    cases zeroed <;> exact run

theorem enter_untouched (run : s.enter t inst = some s') : Untouched s s' := by
  simp only [State.enter,Option.bind_eq_bind,Option.bind_eq_some_iff,Option.some.injEq] at run
  obtain ⟨I,_,rfl⟩ := run
  exact ⟨rfl,rfl,rfl,rfl,rfl,rfl,rfl,rfl⟩

/-- The state an allocation starts in. -/
theorem World.Fine.served (fine : Fine P strict c₁) (run : s.enter t inst = some c₁.state)
    (alive : s.tls t = .alive th) (own : s.OwnHeap inst th.globalHeap)
    (found : s.heaps th.globalHeap.addr = some sh) : Served c₁.state t inst th sh := by
  have same := enter_untouched run
  have alive₁ : c₁.state.tls t = .alive th := by rw [same.tls]; exact alive
  have found₁ : c₁.state.heaps th.globalHeap.addr = some sh := by rw [same.heaps]; exact found
  obtain ⟨L,S,C,cached⟩ := (fine.always t).2 th alive₁
  obtain ⟨sh',found',_,node⟩ := fine.inv.heaps.slotOk alive₁
  obtain rfl := Option.some.inj (found₁.symm.trans found')
  refine ⟨alive₁,?_,found₁,?_,cached.cache,node,fine.inv.heaps.geom found₁⟩
  · unfold State.OwnHeap
    rw [same.insts]
    exact own
  · obtain ⟨_,I,known,heap⟩ := own
    simp only [State.enter,known,heap,found,Option.bind_eq_bind,Option.bind_some,Option.map_some,
      Option.some.injEq] at run
    rw [← run]
    exact replace_same

/-- A thread that has its cache for an allocator and acts alone gets null exactly when neither
a block nor a mapping is to be had. Then everything is as it was before the request. -/
theorem allocation_fails (reachable : c.Reachable)
    (start : c.advance (.start t (.allocation zeroed inst layout)) = some c₁)
    (alive : c.state.tls t = .alive th) (own : c.state.OwnHeap inst th.globalHeap)
    (found : c.state.heaps th.globalHeap.addr = some sh) (refuse : Prop) :
    (∀ x s', Runs (solo P strict t refuse) (allocation P zeroed inst layout) c₁.state x s' →
      (x = none ↔ Blockless th sh layout ∧ Unmapped P th layout refuse) ∧
      (x = none → Untouched c.state s')) ∧
    (Blockless th sh layout ∧ Unmapped P th layout refuse → ∃ s',
      Runs (solo P strict t refuse) (allocation P zeroed inst layout) c₁.state none s') := by
  have fine₁ := World.Fine.advance (World.Reachable.fine reachable) start
  obtain ⟨_,run⟩ := start_allocation start
  have served := World.Fine.served fine₁ run alive own found
  have wp : (soloLogic P strict t refuse).wp (allocation P zeroed inst layout)
      (Fails (Blockless th sh layout ∧ Unmapped P th layout refuse) c₁.state) c₁.state := by
    cases zeroed with
    | false => exact served.alloc layout
    | true => exact served.allocZeroed layout
  refine ⟨fun x s' ends => ?_,fun ⟨blockless,unmapped⟩ => ⟨c₁.state,?_⟩⟩
  · obtain ⟨iff,same⟩ := ends.post wp
    exact ⟨iff,fun none_ => same none_ ▸ enter_untouched run⟩
  · cases zeroed with
    | false => exact served.runs_alloc blockless unmapped
    | true => exact served.runs_allocZeroed blockless unmapped

namespace Sample

/-- Thread 1 has taken a block of 16384 bytes out of the first bag. -/
def carved : List Label :=
  [.create 1 262144,.start 1 (.alloc 0 (Sample.layout 16384 small_bound))] ++ go 1 1 ++
    [.step 1 (.place 4096 64)] ++ go 1 26

/-- The cache and the heap of thread 1. -/
def caches (s : State) : Option (PerThreadHeap × SharedHeap) :=
  match s.tls 1 with
  | .alive th => (s.heaps th.globalHeap.addr).map fun sh => (th,sh)
  | _ => none

theorem caches_some {x : PerThreadHeap × SharedHeap} (h : caches s = some x) :
    s.tls 1 = .alive x.1 ∧ s.heaps x.1.globalHeap.addr = some x.2 := by
  unfold caches at h
  split at h
  case h_2 => cases h
  rename_i th alive
  obtain ⟨sh,found,rfl⟩ := Option.map_eq_some_iff.mp h
  exact ⟨alive,found⟩

end Sample

set_option maxRecDepth 4000 in
/-- The rest of the region does not hold the only block of the largest class, and the kernel
turns the mapping down. -/
theorem sample_allocation_fails : ∃ (c c₁ : World Sample.platform false) (s' : State),
    (World.initial fun _ => 0).execute Sample.carved = some c ∧
    c.advance (.start 1 (.allocation true 0 (Sample.layout 262144 (by decide)))) = some c₁ ∧
    Runs (solo Sample.platform false 1 True)
      (allocation Sample.platform true 0 (Sample.layout 262144 (by decide))) c₁.state none s' ∧
    Untouched c.state s' := by
  have ends : ((World.initial fun _ => 0 : World Sample.platform false).execute
      Sample.carved).bind (fun c => (c.advance (.start 1 (.allocation true 0
        (Sample.layout 262144 (by decide))))).bind fun _ => (Sample.caches c.state).map fun x =>
          decide ((x.1.freelists 15).head = none ∧ (x.1.freelists 15).spare = none ∧
            x.1.largeCache.entries = [] ∧ (TreiberStack.unpack (x.2.head x.1.nodeId 15)).1 = none ∧
            x.2.bump x.1.nodeId = 32768 ∧ x.2.heap.nodeRegion x.1.nodeId = ⟨262144,262144⟩ ∧
            x.1.globalHeap = ⟨64,0⟩ ∧ (c.state.insts 0).bind Instance.heap = some ⟨64,0⟩)) =
      some true := by decide +kernel
  obtain ⟨c,run,eq⟩ := Option.bind_eq_some_iff.mp ends
  obtain ⟨c₁,start,eq⟩ := Option.bind_eq_some_iff.mp eq
  obtain ⟨⟨th,sh⟩,known,eq⟩ := Option.map_eq_some_iff.mp eq
  obtain ⟨alive,found⟩ := Sample.caches_some known
  obtain ⟨counted,spare,entries,stack,bump,region,handle,inst⟩ := of_decide_eq_true eq
  dsimp only at counted spare entries stack bump region handle inst alive found
  obtain ⟨I,known,heap⟩ := Option.bind_eq_some_iff.mp inst
  have own : c.state.OwnHeap 0 th.globalHeap := ⟨by rw [handle],I,known,heap.trans (by rw [handle])⟩
  have spec := allocation_fails ⟨_,_,run⟩ start alive own found True
  have blockless : Blockless th sh (Sample.layout 262144 (by decide)) := by
    refine Or.inr ⟨15,by decide,counted,spare,stack,fun a above multiple => ?_⟩
    have size : bagSizeForClass 15 = 262144 := by decide
    rw [bump] at above
    rw [region,size] at multiple
    rw [region,size]
    obtain ⟨k,eq⟩ := multiple
    dsimp only at eq ⊢
    omega
  have unmapped : Unmapped Sample.platform th (Sample.layout 262144 (by decide)) True :=
    Or.inr ⟨266240,by decide,by simp [entries],trivial⟩
  obtain ⟨s',ends⟩ := spec.2 ⟨blockless,unmapped⟩
  exact ⟨c,c₁,s',run,start,ends,(spec.1 none s' ends).2 rfl⟩

end Numalloc
