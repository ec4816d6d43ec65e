import Numalloc.Footprint
import Numalloc.Traces

/-! What the parts of an operation leave for a scribe that watches the lists of one class.
Most of them leave nothing; giving up the cache leaves an empty one. -/
namespace Numalloc

open Concurrent View Logic

/-- The stack of the thread's node for the class. -/
def View.home (v : View) (cls : Nat) : Option StackRef :=
  match v.slot with
  | .alive th => some ⟨th.globalHeap.addr,th.nodeId,cls⟩
  | _ => none

/-- Actions that are about neither a stack, nor the slot, nor an allocation. -/
def Act.quiet : Act → Bool
  | .loadHead _ | .casHead _ _ _ | .slotTake _ | .release | .give _ _ => false
  | _ => true

/-- Actions of a program on one stack. -/
def Act.within (k : StackRef) : Act → Prop
  | .link _ => True
  | .loadHead k' | .casHead k' _ _ => k' = k
  | _ => False

abbrev Quiet (x : allocI.Op) : Prop := Act.quiet x = true
abbrev Within (k : StackRef) (x : allocI.Op) : Prop := Act.within k x

theorem Aside.quiet (x : allocI.Op) (h : Aside x) : Quiet x := by
  cases x <;> first | rfl | cases h

theorem Lists.quiet (x : allocI.Op) (h : Lists x) : Quiet x := by
  cases x <;> first | rfl | cases h

/-- The thread has the same lists, and its blocks their links. -/
structure SameLists (v v' : View) : Prop where
  link : ∀ {b n}, v.link b = some n → v'.link b = some n
  alive : ∀ {th'}, v'.slot = .alive th' → ∃ th, v.slot = .alive th ∧
    th'.freelists = th.freelists ∧ th'.globalHeap = th.globalHeap ∧ th'.nodeId = th.nodeId
  bare : (∀ th, v'.slot ≠ .alive th) → ∀ th, v.slot ≠ .alive th

/-- Whatever lists the thread has are empty. -/
def View.Emptied (v : View) : Prop :=
  ∀ th, v.slot = .alive th → ∀ c, (th.freelists c).head = none ∧ (th.freelists c).spare = none

variable {P : Platform} {strict : Bool} {v v' : View} {E K α β : Type} {scribe : Scribe E}
  {m : Monitor E K} {cls : Nat} {k : K} {clear : K → K} {p : Prog allocI α}
  {f : α → Prog allocI β}

namespace SameLists

theorem refl (v : View) : SameLists v v :=
  ⟨fun h => h,fun alive => ⟨_,alive,rfl,rfl,rfl⟩,fun none_ => none_⟩

theorem slot (link : ∀ {b n}, v.link b = some n → v'.link b = some n) (slot : v'.slot = v.slot) :
    SameLists v v' :=
  ⟨link,fun alive => ⟨_,slot ▸ alive,rfl,rfl,rfl⟩,fun none_ th => slot ▸ none_ th⟩

theorem blocks (blocks : v'.blocks = v.blocks) (same : v'.slot = v.slot) : SameLists v v' :=
  .slot (fun h => by simpa only [View.link,blocks] using h) same

theorem trans {v'' : View} (first : SameLists v v') (second : SameLists v' v'') :
    SameLists v v'' where
  link h := second.link (first.link h)
  alive alive := by
    obtain ⟨th',alive',lists',heap',node'⟩ := second.alive alive
    obtain ⟨th,alive,lists,heap,node⟩ := first.alive alive'
    exact ⟨th,alive,lists'.trans lists,heap'.trans heap,node'.trans node⟩
  bare none_ := first.bare (second.bare none_)

theorem emptied (same : SameLists v v') (empty : v.Emptied) : v'.Emptied := by
  intro th' alive' c
  obtain ⟨th,alive,lists,_⟩ := same.alive alive'
  rw [lists]
  exact empty th alive c

theorem home (same : SameLists v v') (cls : Nat) : v'.home cls = v.home cls := by
  unfold View.home
  cases slot' : v'.slot with
  | alive th' =>
    obtain ⟨th,alive,_,heap,node⟩ := same.alive slot'
    rw [alive]
    simp only [heap,node]
  | _ =>
    have none_ := same.bare (by simp [slot'])
    cases slot : v.slot with
    | alive th => exact absurd slot (none_ th)
    | _ => rfl

end SameLists

/-- Side actions leave the lists alone. -/
theorem SameLists.aside {x : Act} {r : x.Res} (aside : Aside x)
    (st : step P strict x v r v') : SameLists v v' := by
  cases x with
  | heap inst =>
    obtain ⟨rfl,_⟩ := st
    exact .blocks rfl rfl
  | takeHeap =>
    obtain ⟨_,rfl⟩ := st
    exact .refl _
  | slotGet =>
    obtain ⟨_,rfl⟩ := st
    exact .refl _
  | thread =>
    obtain ⟨rfl,_⟩ := st
    exact .refl _
  | setLargeCache cache =>
    obtain ⟨th,alive,rfl⟩ := st
    refine ⟨fun h => h,fun alive' => ?_,fun none_ => absurd rfl (none_ _)⟩
    obtain rfl := ThreadHeapSlot.alive.inj alive'
    exact ⟨th,alive,rfl,rfl,rfl⟩
  | loadBump heap node =>
    obtain rfl : v' = v := st
    exact .refl _
  | fetchAddNode inst =>
    obtain rfl : v' = v := st
    exact .refl _
  | fetchAddRefs h =>
    obtain rfl : v' = _ := st
    exact .blocks rfl rfl
  | fetchSubRefs h =>
    simp only [step] at st
    split at st
    · obtain ⟨_,_,_,_,_,_,rfl⟩ := st
      exact .blocks rfl rfl
    · subst st
      exact .blocks rfl rfl
  | extent h =>
    obtain ⟨rfl,_⟩ := st
    exact .refl _
  | sysDealloc h =>
    obtain rfl : v' = _ := st
    exact .blocks rfl rfl
  | mmap size =>
    cases r with
    | none =>
      obtain rfl : v' = v := st
      exact .refl _
    | some raw =>
      obtain ⟨_,_,_,_,_,_,_,_,_,rfl⟩ := st
      exact .blocks rfl rfl
  | munmap ptr size =>
    obtain ⟨_,_,_,_,rfl⟩ := st
    exact .blocks rfl rfl
  | bindToNode ptr size node =>
    obtain ⟨_,_,_,_,rfl⟩ := st
    exact .blocks rfl rfl
  | madvise ptr size =>
    obtain ⟨_,_,_,_,_,rfl⟩ := st
    exact .blocks rfl rfl
  | writeHeader place original size =>
    obtain ⟨_,_,_,_,rfl⟩ := st
    exact .blocks rfl rfl
  | readHeader place =>
    obtain ⟨rfl,_⟩ := st
    exact .refl _
  | finish =>
    obtain rfl : v' = _ := st
    exact .blocks rfl rfl
  | abort => exact Empty.elim r
  | _ => cases aside

/-- So does taking over an operand, whose block is new to the thread. -/
theorem SameLists.release (st : step P strict .release v () v') : SameLists v v' := by
  obtain ⟨a,_,taken⟩ := st
  cases source : a.source with
  | slot =>
    rw [source] at taken
    obtain ⟨r,n,c,link,_,_,_,fresh,_,rfl⟩ := taken
    refine .slot (fun {b x} h => ?_) rfl
    have ne : b ≠ a.ptr := by
      rintro rfl
      simp [View.link,fresh] at h
    simpa only [View.link,replace_other ne] using h
  | mapping id =>
    rw [source] at taken
    obtain ⟨m,_,_,_,_,_,_,_,rfl⟩ := taken
    exact .blocks rfl rfl
  | stray =>
    rw [source] at taken
    exact taken.elim

/-- Work on a stack leaves the slot alone. -/
theorem slot_within {x : Act} {r : x.Res} {k : StackRef} (within : Within k x)
    (ok : safe P strict x v) (st : step P strict x v r v') : v'.slot = v.slot := by
  cases x with
  | link x =>
    cases x with
    | readNext b =>
      obtain ⟨rfl,_⟩ := st
      rfl
    | writeNext b next =>
      obtain rfl : v' = _ := st
      rfl
    | panic => exact nomatch r
  | loadHead k =>
    obtain rfl : v' = v := st
    rfl
  | casHead k current new =>
    obtain ⟨_,ok⟩ := ok
    simp only [step] at st
    split at st
    · split at st
      · obtain ⟨l,gained⟩ := st
        rw [gained.same]
      · rename_i first packed
        rw [packed] at ok
        obtain ⟨l,chain⟩ := ok
        rw [st l chain]
        rfl
    · rw [st]
  | _ => cases within

/-- A scribe that notes nothing about other stacks and about work within the thread. -/
structure Scribe.Sober (scribe : Scribe E) (cls : Nat) : Prop where
  quiet : ∀ {x v r v'}, Quiet x → scribe.note x v r v' = []
  other : ∀ {x v r v' k}, Within k x → v.home cls ≠ some k → scribe.note x v r v' = []

/-- What a program leaves in the trace, its safety apart. -/
@[reducible] def Scribe.trail (scribe : Scribe E) (m : Monitor E K) (P : Platform)
    (strict : Bool) : Logic allocI (View × Option K) :=
  (residentLogic P strict).loose.watched m scribe.note

/-- One part after another: what its rule says of the views, and what it leaves. -/
theorem Scribe.wp_seq {Q : α → View → Prop} {A : α → View × Option K → Prop}
    {R : β → View × Option K → Prop} (spec : (allocLogic P strict).wp p Q v)
    (trail : (scribe.trail m P strict).wp p A (v,some k))
    (rest : ∀ a v' k', (allocLogic P strict).always v' → Q a v' → A a (v',some k') →
      (scribe.logic m P strict).wp (f a) R (v',some k')) :
    (scribe.logic m P strict).wp (p.bind f) R (v,some k) := by
  refine Logic.wp_seq (wp_watched (wp_resident spec) trail) fun a w always post => ?_
  obtain ⟨v',o⟩ := w
  obtain ⟨here,k',rfl⟩ := always
  exact rest a v' k' here post.1 post.2

theorem Scribe.wp_last {Q : α → View → Prop} {A R : α → View × Option K → Prop}
    (spec : (allocLogic P strict).wp p Q v) (trail : (scribe.trail m P strict).wp p A (v,some k))
    (rest : ∀ a v' k', (allocLogic P strict).always v' → Q a v' → A a (v',some k') →
      R a (v',some k')) :
    (scribe.logic m P strict).wp p R (v,some k) := by
  refine wp_mono (wp_watched (wp_resident spec) trail) fun a w always post => ?_
  obtain ⟨v',o⟩ := w
  obtain ⟨here,k',rfl⟩ := always
  exact rest a v' k' here post.1 post.2

/-- A part whose rule is known in both logics. -/
theorem Scribe.wp_both {Q : α → View → Prop} {A : α → View × Option K → Prop}
    {R : β → View × Option K → Prop} (spec : (allocLogic P strict).wp p Q v)
    (watched : (scribe.logic m P strict).wp p A (v,some k))
    (rest : ∀ a v' k', (allocLogic P strict).always v' → Q a v' → A a (v',some k') →
      (scribe.logic m P strict).wp (f a) R (v',some k')) :
    (scribe.logic m P strict).wp (p.bind f) R (v,some k) :=
  Scribe.wp_seq spec (wp_loose watched) rest

theorem wp_quiet (sober : scribe.Sober cls) (only : p.Only Quiet) :
    (scribe.trail m P strict).wp p (fun _ w => w.2 = some k) (v,some k) :=
  wp_mono (wp_silent (fun _ => True) only trivial fun _ _ _ _ quiet _ _ _ =>
    ⟨trivial,by rw [sober.quiet quiet]; rfl⟩) fun _ _ _ post => post.2

/-- A part that leaves nothing. -/
theorem Scribe.Sober.wp_seq {Q : α → View → Prop} {R : β → View × Option K → Prop}
    (sober : scribe.Sober cls) (spec : (allocLogic P strict).wp p Q v) (only : p.Only Quiet)
    (rest : ∀ a v', (allocLogic P strict).always v' → Q a v' →
      (scribe.logic m P strict).wp (f a) R (v',some k)) :
    (scribe.logic m P strict).wp (p.bind f) R (v,some k) := by
  refine Scribe.wp_seq spec (wp_quiet sober only) fun a v' k' always post same => ?_
  obtain rfl := Option.some.inj same
  exact rest a v' always post

theorem wp_aside (sober : scribe.Sober cls) (only : p.Only Aside) :
    (scribe.trail m P strict).wp p (fun _ w => SameLists v w.1 ∧ w.2 = some k) (v,some k) := by
  refine wp_silent (SameLists v) only (.refl v) fun x v₁ r v₂ aside same _ st => ?_
  exact ⟨same.trans (.aside aside st.1),by rw [sober.quiet (Aside.quiet x aside)]; rfl⟩

/-- Work on another stack. -/
theorem wp_elsewhere (sober : scribe.Sober cls) {k' : StackRef} (p : Prog TreiberStack.stackI α)
    (away : v.home cls ≠ some k') :
    (scribe.trail m P strict).wp (onStack k' p) (fun _ w => w.2 = some k) (v,some k) := by
  have only : (onStack k' p).Only (Within k') :=
    Prog.Only.lift fun x => by cases x <;> trivial
  refine wp_mono (wp_silent (fun v₁ => v₁.slot = v.slot) only rfl fun x v₁ r v₂ within same ok st => ?_)
    fun _ _ _ post => post.2
  refine ⟨(slot_within within ok st.1).trans same,?_⟩
  rw [sober.other within (by rwa [View.home,same])]
  rfl

/-! Parts that may give up the cache. -/

/-- The lists are what they were, or the cache was given up and what is there now is empty. -/
def Calm (clear : K → K) (v : View) (k : K) (w : View × Option K) : Prop :=
  (w.2 = some k ∧ SameLists v w.1) ∨ (w.2 = some (clear k) ∧ w.1.Emptied)

/-- Taking the cache out of the slot clears what the monitor expects. -/
structure Scribe.Clears (scribe : Scribe E) (m : Monitor E K) (clear : K → K) : Prop where
  take : ∀ {d v r v' k}, m.run k (scribe.note (.slotTake d) v r v') = some (clear k)
  twice : ∀ k, clear (clear k) = clear k

theorem Calm.trans {w : View × Option K} (clears : scribe.Clears m clear) {k' : K}
    (first : Calm clear v k (v',some k')) (second : Calm clear v' k' w) : Calm clear v k w := by
  rcases first with ⟨same,lists⟩ | ⟨cleared,empty⟩
  · obtain rfl := Option.some.inj same
    exact second.imp_left fun second => ⟨second.1,lists.trans second.2⟩
  · obtain rfl := Option.some.inj cleared
    refine Or.inr ?_
    rcases second with ⟨same,lists⟩ | ⟨cleared,empty⟩
    · exact ⟨same,lists.emptied empty⟩
    · exact ⟨cleared.trans (by rw [clears.twice]),empty⟩

theorem wp_calm_seq (clears : scribe.Clears m clear)
    (first : (scribe.trail m P strict).wp p (fun _ => Calm clear v k) (v,some k))
    (rest : ∀ a v' k', (scribe.trail m P strict).wp (f a) (fun _ => Calm clear v' k') (v',some k')) :
    (scribe.trail m P strict).wp (p.bind f) (fun _ => Calm clear v k) (v,some k) := by
  refine wp_seq first fun a w always calm => ?_
  obtain ⟨v',o⟩ := w
  obtain ⟨_,k',rfl⟩ := always
  exact wp_mono (rest a v' k') fun _ _ _ calm' => calm.trans clears calm'

theorem wp_calm (sober : scribe.Sober cls) (only : p.Only Aside) :
    (scribe.trail m P strict).wp p (fun _ => Calm clear v k) (v,some k) :=
  wp_mono (wp_aside sober only) fun _ _ _ post => Or.inl ⟨post.2,post.1⟩

/-- A cache out of its slot is dissolved without a trace. -/
theorem wp_dissolve (sober : scribe.Sober cls) (out : ∀ th, v.slot ≠ .alive th)
    (only : p.Only Sheds) :
    (scribe.trail m P strict).wp p (fun _ w => (∀ th, w.1.slot ≠ .alive th) ∧ w.2 = some k)
      (v,some k) := by
  have home : ∀ {v₁ : View}, (∀ th, v₁.slot ≠ .alive th) → v₁.home cls = none := by
    intro v₁ out
    unfold View.home
    split
    · exact absurd ‹_› (out _)
    · rfl
  refine wp_silent (fun v₁ : View => ∀ th, v₁.slot ≠ .alive th) only out fun x v₁ r v₂ sheds out ok st => ?_
  by_cases aside : Aside x
  · refine ⟨fun th alive => ?_,by rw [sober.quiet (Aside.quiet x aside)]; rfl⟩
    obtain ⟨th',alive',_⟩ := (SameLists.aside aside st.1).alive alive
    exact out th' alive'
  · obtain ⟨k',within⟩ : ∃ k', Within k' x := by
      cases x with
      | link x => exact ⟨⟨0,0,0⟩,trivial⟩
      | loadHead k' => exact ⟨k',rfl⟩
      | casHead k' current new => exact ⟨k',rfl⟩
      | _ => first | exact absurd rfl aside | cases sheds
    have slot := slot_within within ok st.1
    refine ⟨fun th => slot ▸ out th,?_⟩
    rw [sober.other within (by rw [home out]; exact nofun)]
    rfl

theorem wp_initThreadHeap_trail (sober : scribe.Sober cls) (clears : scribe.Clears m clear)
    (inst : Nat) (r : HeapRef) :
    (scribe.trail m P strict).wp (initThreadHeap inst r) (fun _ => Calm clear v k) (v,some k) := by
  rw [initThreadHeap_eq]
  refine ⟨⟨trivial,k,rfl⟩,trivial,fun old w st => ?_⟩
  obtain ⟨⟨_,⟨same,taken⟩,_⟩,moved⟩ := st
  obtain ⟨v₁,o⟩ := w
  obtain rfl : old = v.slot := same
  obtain rfl : o = some (clear k) := moved.trans clears.take
  have out : ∀ th, v₁.slot ≠ .alive th := by
    rw [show v₁ = _ from taken]
    exact fun th => by split <;> exact nofun
  have dissolved : (scribe.trail m P strict).wp (match v.slot with
      | .alive th => dropThreadHeap th
      | _ => .ret ()) (fun _ w => (∀ th, w.1.slot ≠ .alive th) ∧ w.2 = some (clear k))
      (v₁,some (clear k)) := by
    cases v.slot with
    | alive th => exact wp_dissolve sober out (dropThreadHeap_sheds th)
    | _ => exact ⟨⟨trivial,_,rfl⟩,out,rfl⟩
  simp only [Prog.bind_ret]
  refine wp_seq dissolved fun _ w _ post => ?_
  obtain ⟨v₂,o⟩ := w
  obtain ⟨_,rfl⟩ := post
  refine wp_seq (wp_aside sober (.call rfl)) fun next w _ post => ?_
  obtain ⟨v₃,o⟩ := w
  obtain ⟨_,rfl⟩ := post
  refine wp_seq (wp_aside sober (.call rfl)) fun previous w _ post => ?_
  obtain ⟨v₄,o⟩ := w
  obtain ⟨_,rfl⟩ := post
  split
  · exact ⟨⟨trivial,_,rfl⟩,trivial,fun e => nomatch e⟩
  · refine ⟨⟨trivial,_,rfl⟩,trivial,fun _ w st => ?_⟩
    obtain ⟨⟨_,stored,_⟩,moved⟩ := st
    rw [sober.quiet rfl] at moved
    refine ⟨⟨trivial,_,moved⟩,Or.inr ⟨moved,fun th alive c => ?_⟩⟩
    rw [show w.1 = _ from stored] at alive
    obtain rfl := ThreadHeapSlot.alive.inj alive
    exact ⟨rfl,rfl⟩

theorem wp_threadHeap_trail (sober : scribe.Sober cls) (clears : scribe.Clears m clear)
    (inst : Nat) :
    (scribe.trail m P strict).wp (threadHeap inst) (fun _ => Calm clear v k) (v,some k) := by
  rw [threadHeap_eq]
  refine wp_calm_seq clears (wp_calm sober (.call rfl)) fun slot v₁ k₁ => ?_
  cases slot with
  | destroyed => exact wp_calm sober trivial
  | empty =>
    refine wp_calm_seq clears (wp_calm sober (.call rfl)) fun heap v₂ k₂ => ?_
    exact wp_calm_seq clears (wp_initThreadHeap_trail sober clears inst heap) fun _ _ _ =>
      wp_calm sober trivial
  | alive th =>
    refine wp_calm_seq clears (wp_calm sober (.call rfl)) fun heap v₂ k₂ => ?_
    split
    · exact wp_calm sober trivial
    · exact wp_calm_seq clears (wp_initThreadHeap_trail sober clears inst heap) fun _ _ _ =>
        wp_calm sober trivial

theorem wp_allocLargeTracked_trail (sober : scribe.Sober cls) (clears : scribe.Clears m clear)
    (inst : Nat) (layout : Layout) :
    (scribe.trail m P strict).wp (allocLargeTracked P inst layout) (fun _ => Calm clear v k)
      (v,some k) := by
  cases fits : largeAllocSize P layout with
  | none =>
    unfold allocLargeTracked
    rw [fits]
    exact wp_calm sober trivial
  | some needed =>
    rw [allocLargeTracked_eq fits]
    refine wp_calm_seq clears (wp_threadHeap_trail sober clears inst) fun ok v₁ k₁ => wp_calm sober ?_
    split
    · refine .bind (.call rfl) fun th => ?_
      split
      · exact .bind (.call rfl) fun _ => .bind (.bind (.call rfl) fun _ => trivial) fun _ => trivial
      · exact mapLarge_aside _ _ layout
    · exact mapLarge_aside _ 0 layout

theorem wp_exitThread_trail (sober : scribe.Sober cls) (clears : scribe.Clears m clear) :
    (scribe.trail m P strict).wp exitThread (fun _ => Calm clear v k) (v,some k) := by
  refine ⟨⟨trivial,k,rfl⟩,trivial,fun old w st => ?_⟩
  obtain ⟨⟨_,⟨same,taken⟩,_⟩,moved⟩ := st
  obtain ⟨v₁,o⟩ := w
  obtain rfl : old = v.slot := same
  obtain rfl : o = some (clear k) := moved.trans clears.take
  have out : ∀ th, v₁.slot ≠ .alive th := by
    rw [show v₁ = _ from taken]
    exact fun th => by split <;> exact nofun
  have emptied : ∀ {v₂ : View}, (∀ th, v₂.slot ≠ .alive th) → v₂.Emptied := fun out th alive =>
    absurd alive (out th)
  cases v.slot with
  | alive th =>
    exact wp_mono (wp_dissolve sober out (dropThreadHeap_sheds th)) fun _ w _ post =>
      Or.inr ⟨post.2,emptied post.1⟩
  | _ => exact ⟨⟨trivial,_,rfl⟩,Or.inr ⟨rfl,emptied out⟩⟩

/-- A mapping of its own is given back beside the lists. -/
theorem Scribe.wp_dealloc_mapping (sober : scribe.Sober cls) {H M : Set Nat} {inst ptr id : Nat}
    {mapping : Mapping} {layout : Layout} (ready : Ready P strict v inst H M) (mem : id ∈ M)
    (found : v.maps id = some mapping) (use : mapping.use = .large inst)
    (payload : mapping.payload = some ptr) (header : mapping.base + headerSize ≤ ptr)
    (inside : ptr < mapping.base + mapping.size)
    (home : strict = true → ∀ th, v.slot = .alive th → th.globalHeap.inst = inst →
      maxLargeCacheBytes < mapping.size ∨ mapping.node = some th.nodeId) :
    (scribe.logic m P strict).wp (dealloc inst ptr layout)
      (fun _ w => SameLists v w.1 ∧ w.2 = some k) (v,some k) := by
  have high : headerSize ≤ ptr := by omega
  have size : headerSize = 16 := rfl
  unfold dealloc
  rw [if_neg (by omega)]
  split
  · exact Scribe.wp_last (wp_deallocLarge ready mem found use payload high home)
      (wp_aside sober ((deallocLarge_recycles inst ptr).mono Recycles.aside)) fun _ _ _ _ _ post => post
  · refine Scribe.wp_seq (wp_heap (k := .ret) (Q := fun r v' => Known v' inst r ∧
      Ready P strict v' inst H M ∧ Frame v v' H M ∧ v'.slot = v.slot) ready
        fun r v' known ready' frame same => ⟨ready'.holds.always,known,ready',frame,by rw [same]⟩)
      (wp_aside sober (.call rfl)) fun r v₁ k₁ _ post left => ?_
    obtain ⟨known,ready₁,frame,slot⟩ := post
    obtain ⟨same,left⟩ := left
    obtain rfl := (Option.some.inj left).symm
    have found₁ := (frame.maps id mem).trans found
    rw [known.outside id mapping inst ptr found₁ use (by omega) inside]
    refine Scribe.wp_last (wp_deallocLarge ready₁ mem found₁ use payload high (slot ▸ home))
      (wp_aside sober ((deallocLarge_recycles inst ptr).mono Recycles.aside)) fun _ _ _ _ _ post => ?_
    exact ⟨same.trans post.1,post.2⟩

end Numalloc
