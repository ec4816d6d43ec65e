import Numalloc.ClassTrace
import Numalloc.Spec.Requests

/-! The operations beside a forecast of one class. -/
namespace Numalloc

open Concurrent View Logic

variable {P : Platform} {strict : Bool} {v v' : View} {th : PerThreadHeap} {r : HeapRef}
  {L S L' S' : Nat → List Nat} {C : List Nat} {H H' M M' : Set Nat} {inst cls d b : Nat}
  {f g : Forecast} {layout : Layout} {given : Option Nat} {w : View × Option Forecast}

/-- The logic of a thread whose trace of a class comes as forecast. -/
noncomputable abbrev classLogic (cls : Nat) (P : Platform) (strict : Bool) :
    Logic allocI (View × Option Forecast) :=
  (classScribe cls).logic (Forecast.monitor cls) P strict

noncomputable abbrev classTrail (cls : Nat) (P : Platform) (strict : Bool) :
    Logic allocI (View × Option Forecast) :=
  (classScribe cls).trail (Forecast.monitor cls) P strict

theorem classScribe_sober (cls : Nat) : (classScribe cls).Sober cls where
  quiet {x v r v'} quiet := by
    cases x <;> first | rfl | cases quiet
  other {x v r v' k} within away := by
    cases x with
    | link x => rfl
    | loadHead k' =>
      obtain rfl : k' = k := within
      exact if_neg away
    | casHead k' current new =>
      obtain rfl : k' = k := within
      exact if_neg away
    | _ => cases within

namespace Forecast

/-- All that is left when the cache is given up. -/
def cleared (f : Forecast) : Forecast := ⟨[],false,f.waiting⟩

/-- A block of the class was released, to the counted list or elsewhere. -/
def released (f : Forecast) (cls ptr : Nat) (home : Bool) : Forecast :=
  if home then
    ⟨(ptr :: if f.whole then [] else f.next).take (maxThreadCache cls / 2),false,false⟩
  else ⟨[],false,false⟩

/-- What becomes of the forecast when the block in question is handed out. -/
def Pays (f : Forecast) (cls : Nat) : Option Nat → Forecast → Prop
  | some p, g => f.after cls (.gave p) = some g
  | none, g => g = f

/-- An allocation of class `d` is about to search the lists. -/
def Due (f : Forecast) (cls d : Nat) : Prop := if d = cls then f.waiting = true else f.Settled

@[simp] theorem due_same : f.Due cls cls ↔ f.waiting = true := by simp [Due]

theorem due_other (ne : d ≠ cls) : f.Due cls d ↔ f.Settled := by simp [Due,ne]

theorem Pays.waiting {p : Nat} (pays : f.Pays cls (some p) g) : f.waiting = true := by
  simp only [Pays,after] at pays
  split at pays <;> split at pays <;> simp_all

/-- Nothing is forecast, so anything may be handed out. -/
theorem pays_any (cls : Nat) (given : Option Nat) (next : f.next = []) (whole : f.whole = false)
    (waiting : given ≠ none → f.waiting = true) :
    ∃ g, f.Pays cls given g ∧ g.Settled ∧ g.next = [] ∧ g.whole = false := by
  cases given with
  | none => exact ⟨f,rfl,fun _ => ⟨whole,next⟩,next,whole⟩
  | some p => exact ⟨⟨[],false,false⟩,by simp [Pays,after,next,whole,waiting],nofun,rfl,rfl⟩

/-- A block from the head of the lists is what was forecast. -/
theorem Fits.hand (fits : f.Fits (L cls) (S cls)) (due : f.Due cls d)
    (head : L d ++ S d = b :: (L' d ++ S' d)) (counted : L d = b :: L' d ∨ L d = [])
    (other : cls ≠ d → L' cls = L cls ∧ S' cls = S cls) :
    ∃ g, f.Pays cls (if d = cls then some b else none) g ∧ g.Settled ∧ g.Fits (L' cls) (S' cls) := by
  by_cases same : d = cls
  · subst same
    rw [if_pos rfl]
    exact fits.give (due_same.mp due) head fun _ => counted
  · rw [if_neg same]
    rw [due_other same] at due
    obtain ⟨counted',spare'⟩ := other (Ne.symm same)
    exact ⟨f,rfl,due,by rw [counted',spare']; exact fits⟩

end Forecast

theorem classScribe_clears (cls : Nat) :
    (classScribe cls).Clears (Forecast.monitor cls) Forecast.cleared where
  take := rfl
  twice _ := rfl

/-- Once what is in hand has been given away, the class is as forecast. -/
def Book (cls : Nat) (given : Option Nat) (w : View × Option Forecast) : Prop :=
  ∃ f g, w.2 = some f ∧ f.Pays cls given g ∧ g.Settled ∧ Ledger cls g w.1

theorem Calm.book (calm : Calm Forecast.cleared v f w) (always : (allocLogic P strict).always w.1)
    (pays : f.Pays cls given g) (settled : g.Settled) (ledger : Ledger cls g v) :
    Book cls given w := by
  rcases calm with ⟨same,lists⟩ | ⟨cleared,empty⟩
  · exact ⟨f,g,same,pays,settled,ledger.same lists⟩
  · obtain ⟨g',pays',settled',next,whole⟩ := Forecast.pays_any (f := f.cleared) cls given rfl rfl
      fun some_ => by
        obtain ⟨p,rfl⟩ := Option.ne_none_iff_exists'.mp some_
        exact pays.waiting
    exact ⟨f.cleared,g',cleared,pays',settled',.emptied empty always next whole⟩

/-! Single actions, as they are before what follows. -/

theorem wp_thread_call (own : Own P strict v th r L S C H M) :
    (allocLogic P strict).wp (act .thread) (fun th' v' => th' = th ∧ v' = v ∧
      th.nodeId < r.geom.numNodes) v :=
  wp_thread (k := .ret) own fun inside => ⟨own.always,rfl,rfl,inside⟩

theorem wp_heap_call (ready : Ready P strict v inst H M) (own : Own P strict v th r L S C H M) :
    (allocLogic P strict).wp (act (.heap inst)) (fun r' v' => r' = r ∧ v' = v) v :=
  wp_heap_again (k := .ret) ready own ⟨own.always,rfl,rfl⟩

/-! The node's stack. -/

/-- Looking at the stack is accepted once nothing is forecast, and the chain that is taken
is what is forecast next. -/
theorem wp_takeAll_trail {k : StackRef} (home : v.home cls = some k) (next : f.next = [])
    (waiting : f.waiting = true) :
    (classTrail cls P strict).wp (onStack k TreiberStack.takeAll) (fun x w => match x with
      | none => w.2 = some ⟨[],false,true⟩
      | some head => ∃ l, Links w.1.link (some head) l none ∧ w.2 = some ⟨l,true,true⟩)
      (v,some f) := by
  rw [onStack_takeAll]
  refine wp_iter (L := classTrail cls P strict) (fun _ w => w.1 = v ∧ ∃ f, w.2 = some f ∧ f.next = [] ∧
    f.waiting = true) ⟨trivial,f,rfl⟩ ⟨rfl,f,rfl,next,waiting⟩ fun _ w inv => ?_
  obtain ⟨v₁,o⟩ := w
  obtain ⟨rfl,f,rfl,next,waiting⟩ := inv
  refine ⟨⟨trivial,f,rfl⟩,trivial,fun current w st => ?_⟩
  obtain ⟨⟨_,same,_⟩,moved⟩ := st
  obtain ⟨v₂,o⟩ := w
  obtain rfl : v₂ = v₁ := same
  obtain rfl : o = some ⟨[],false,true⟩ := by
    refine moved.trans ?_
    simp [classScribe,home,Forecast.monitor,Forecast.after,next,waiting]
  simp only [Prog.bind_ret]
  cases head : (TreiberStack.unpack current).1 with
  | none => exact ⟨⟨trivial,_,rfl⟩,rfl⟩
  | some head' =>
    refine ⟨⟨trivial,_,rfl⟩,trivial,fun done w st => ?_⟩
    obtain ⟨⟨_,step_,_⟩,moved⟩ := st
    obtain ⟨v₃,o⟩ := w
    have packed := TreiberStack.unpack_pack_none (TreiberStack.nextTag (TreiberStack.unpack current).2)
    cases done with
    | false =>
      obtain rfl : v₃ = v₂ := step_
      obtain rfl : o = some ⟨[],false,true⟩ := by
        refine moved.trans ?_
        simp [classScribe,home,Forecast.monitor,Forecast.after]
      exact ⟨⟨trivial,_,rfl⟩,rfl,_,rfl,rfl,rfl⟩
    | true =>
      simp only [step,packed,if_true,head] at step_
      obtain ⟨l,gained⟩ := step_
      obtain rfl : o = some ⟨l,true,true⟩ := by
        refine moved.trans ?_
        simp [classScribe,home,packed,head,View.spelled_eq gained.links,Forecast.monitor,Forecast.after]
      exact ⟨⟨trivial,_,rfl⟩,l,gained.links,rfl⟩

/-- Publishing looks at the stack, and takes nothing. -/
theorem wp_publish_trail {k : StackRef} {first last : Nat} (user : UserAddr first)
    (whole : f.whole = false) :
    (classTrail cls P strict).wp (onStack k (TreiberStack.pushChain first last))
      (fun _ w => w.2 = some f) (v,some f) := by
  have looked : f.after cls .looked = some f := by
    obtain ⟨_,_,_⟩ := f
    obtain rfl : _ = false := whole
    rfl
  have only : (onStack k (TreiberStack.pushChain first last)).Only fun x : Act => match x with
      | .loadHead _ | .link _ => True
      | .casHead _ _ new => (TreiberStack.unpack new).1 ≠ none
      | _ => False := by
    refine Prog.Only.iter fun _ => ?_
    refine Eq.mpr (congrArg (Prog.Only _) (onStack_publish k first last)) ?_
    refine .bind (.call trivial) fun current => .bind (.call trivial) fun _ =>
      .bind (.call ?_) fun done => by cases done <;> trivial
    have packed := TreiberStack.unpack_pack_some (TreiberStack.nextTag (TreiberStack.unpack current).2)
      user.1 user.2
    show (TreiberStack.unpack _).1 ≠ none
    rw [packed]
    exact nofun
  refine wp_mono (wp_silent (fun _ => True) only trivial fun x v₁ r v₂ ok _ _ _ => ⟨trivial,?_⟩)
    fun _ _ _ post => post.2
  cases x with
  | loadHead k' =>
    by_cases home : v₁.home cls = some k' <;>
      simp [classScribe,home,Forecast.monitor,looked]
  | casHead k' current new =>
    have ok : (TreiberStack.unpack new).1 ≠ none := ok
    by_cases home : v₁.home cls = some k' <;>
      simp [classScribe,home,ok,Forecast.monitor,looked]
  | link x => rfl
  | _ => exact ok.elim

/-- Where the refill comes from: the spare chain, or what is on the node's stack. -/
theorem wp_takeChain_class (own : Own P strict v th r L S C H M) (small : d < numSizeClasses)
    (counted : L d = []) (fits : f.Fits (L cls) (S cls)) (due : f.Due cls d) :
    (classLogic cls P strict).wp (takeChain d ⟨r.handle.addr,th.nodeId,d⟩) (fun x w => match x with
      | none => Left P strict v w.1 th r L S C H H M ∧ S d = [] ∧ ∃ f', w.2 = some f' ∧
          f'.Fits (L cls) (S cls) ∧ f'.Due cls d ∧ (d = cls → f'.next = [] ∧ f'.whole = false)
      | some first => ∃ l S', S' d = [] ∧ l ≠ [] ∧
          Detached w.1 ⟨r.handle.addr,th.nodeId,d⟩ first l {b | b ∈ l} ∧ (∀ b ∈ l, b ∉ H) ∧
          Left P strict v w.1 th r L S' C H (H ∪ {b | b ∈ l}) M ∧ ∃ f', w.2 = some f' ∧
          f'.Fits (L cls) (replace S' d l cls) ∧ f'.Due cls d) (v,some f) := by
  have sober := classScribe_sober cls
  rw [takeChain_eq]
  refine sober.wp_seq (wp_thread_call own) (.call rfl) fun th' v₁ _ post => ?_
  obtain ⟨rfl,rfl,inside⟩ := post
  have left := own.unparked d
  obtain ⟨th₁,own₁,node⟩ := left.own
  refine sober.wp_seq (wp_setFreelist (k := .ret) (Q := fun _ v' => v' = _) own.present own.always
    ⟨own₁.always,rfl⟩) (.call rfl) fun _ v₂ _ post => ?_
  subst post
  have parked := own.stock.cached.spare d
  cases spare : (th'.freelists d).spare with
  | some first =>
    rw [spare] at parked
    refine ⟨⟨own₁.always,_,rfl⟩,S d,replace S d [],replace_same,?_,⟨parked,?_,?_,fun _ h => h⟩,?_,left,
      _,rfl,?_,due⟩
    · intro empty
      rw [empty] at parked
      exact absurd parked (by simp)
    · exact (List.nodup_append.mp (own.stock.cached.nodup d)).2.1
    · exact fun b mem => own.ref (List.mem_append_right _ mem)
    · exact fun b mem loose => own.stock.notCached loose d (List.mem_append_right _ mem)
    · rwa [replace_twice,replace_self]
  | none =>
    have empty : S d = [] := by
      rw [spare] at parked
      exact List.head?_eq_none_iff.mp parked.head.symm
    have same : replace S d [] = S := by rw [← empty,replace_self]
    have unchanged : H ∪ {b | b ∈ S d} = H := by simp [empty]
    rw [same,unchanged] at left own₁
    simp only
    have trail : (classTrail cls P strict).wp (onStack ⟨r.handle.addr,th'.nodeId,d⟩ TreiberStack.takeAll)
        (fun x w => ∃ f', w.2 = some f' ∧ f'.Due cls d ∧ match x with
          | none => f'.Fits (L cls) (S cls) ∧ (d = cls → f'.next = [] ∧ f'.whole = false)
          | some head => ∀ l, Links w.1.link (some head) l none → f'.Fits (L cls) (replace S d l cls))
        ({ v₁ with slot := .alive { th' with
          freelists := replace th'.freelists d { th'.freelists d with spare := none } } },some f) := by
      have home : ∀ c, View.home { v₁ with slot := .alive { th' with
          freelists := replace th'.freelists d { th'.freelists d with spare := none } } } c =
          some ⟨r.handle.addr,th'.nodeId,c⟩ := fun c => by
        simp only [View.home,own.present.2.2]
      by_cases mine : d = cls
      · subst mine
        rw [counted,empty] at fits ⊢
        rw [Forecast.due_same] at due
        refine wp_mono (wp_takeAll_trail (home d) fits.nil due) fun x w _ post => ?_
        cases x with
        | none => exact ⟨_,post,by simp,by simp [Forecast.Fits],fun _ => ⟨rfl,rfl⟩⟩
        | some head =>
          obtain ⟨l,links,taken⟩ := post
          refine ⟨_,taken,by simp,fun l' links' => ?_⟩
          obtain rfl := links.unique links'
          simp [Forecast.Fits]
      · have away : View.home { v₁ with slot := .alive { th' with
            freelists := replace th'.freelists d { th'.freelists d with spare := none } } } cls ≠
            some ⟨r.handle.addr,th'.nodeId,d⟩ := by
          rw [home]
          exact fun same => mine (congrArg StackRef.cls (Option.some.inj same)).symm
        refine wp_mono (wp_elsewhere sober _ away) fun x w _ post => ⟨f,post,due,?_⟩
        cases x with
        | none => exact ⟨fits,fun same => absurd same mine⟩
        | some head => exact fun l _ => by rwa [replace_other (Ne.symm mine)]
    refine Scribe.wp_last (wp_takeAll own₁ rfl inside small) trail fun x v₃ f₃ _ post moved => ?_
    obtain ⟨f',now,due',fits'⟩ := moved
    cases x with
    | none =>
      obtain rfl : v₃ = _ := post
      exact ⟨left,empty,f',now,fits'.1,due',fits'.2⟩
    | some head =>
      obtain ⟨l,nonempty,detached,fresh,more⟩ := post
      exact ⟨l,S,empty,nonempty,detached,fresh,left.trans more node,f',now,fits' l detached.links,due'⟩

/-! Allocation. -/

/-- What an allocation of a class answers, as far as the class in question is concerned. -/
def Answer (cls : Nat) (layout : Layout) (x : Option Nat) : Option Nat :=
  if sizeClassIndex layout.effective = some cls then x else none

/-- A cache that gives nothing away, and an answer that is not from the lists. -/
theorem wp_allocLarge_class (ready : Ready P strict v inst H M) (ledger : Ledger cls f v)
    (due : if sizeClassIndex layout.effective = some cls then
      f.waiting = true ∧ f.next = [] ∧ f.whole = false else f.Settled) :
    (classLogic cls P strict).wp (allocLarge P inst layout)
      (fun x w => Book cls (Answer cls layout x) w) (v,some f) := by
  have calm : (classTrail cls P strict).wp (allocLarge P inst layout)
      (fun _ => Calm Forecast.cleared v f) (v,some f) := by
    rw [allocLarge_eq]
    exact wp_calm_seq (classScribe_clears cls) (wp_allocLargeTracked_trail (classScribe_sober cls)
      (classScribe_clears cls) inst layout) fun _ _ _ => wp_calm (classScribe_sober cls) trivial
  refine Scribe.wp_last (wp_allocLarge ready) calm fun x v₁ f₁ always _ calm => ?_
  unfold Answer
  split at due
  · rename_i mine
    rw [if_pos mine]
    obtain ⟨g,pays,settled,next,whole⟩ := Forecast.pays_any cls x due.2.1 due.2.2
      fun _ => due.1
    refine calm.book always pays settled ⟨fun alive => ?_,fun _ => ⟨next,whole⟩⟩
    obtain ⟨L,S,shelf,bounded,_⟩ := ledger.cached alive
    exact ⟨L,S,shelf,bounded,by simp [Forecast.Fits,next,whole]⟩
  · rename_i other
    rw [if_neg other]
    exact calm.book always rfl due ledger

/-- A block from the lists, or from a chain in hand, is what was forecast. -/
theorem Left.book (left : Left P strict v v' th r L' S' C H H' M) (bounded : Bounded L')
    (cls' : sizeClassIndex layout.effective = some d)
    (hand : ∃ g, f.Pays cls (if d = cls then some b else none) g ∧ g.Settled ∧
      g.Fits (L' cls) (S' cls)) : Book cls (Answer cls layout (some b)) (v',some f) := by
  obtain ⟨th',own,_⟩ := left.own
  obtain ⟨g,pays,settled,fits⟩ := hand
  refine ⟨f,g,rfl,?_,settled,.of_own own bounded fits⟩
  simpa only [Answer,cls',Option.some.injEq] using pays

theorem wp_allocSmall_class (ready : Ready P strict v inst H M) (own : Own P strict v th r L S C H M)
    (cls' : sizeClassIndex layout.effective = some d) (bounded : Bounded L)
    (fits : f.Fits (L cls) (S cls)) (due : f.Due cls d) :
    (classLogic cls P strict).wp (allocSmall P inst layout d)
      (fun x w => Book cls (Answer cls layout x) w) (v,some f) := by
  have small := (sizeClassIndex_spec cls').1
  have sober := classScribe_sober cls
  rw [allocSmall_eq]
  refine sober.wp_seq (wp_thread_call own) (.call rfl) fun th' v₁ _ post => ?_
  obtain ⟨rfl,rfl,inside⟩ := post
  refine sober.wp_seq (wp_pop own d) ((freelistMut_lists d _).mono Lists.quiet)
    fun x v₁ always post => ?_
  cases x with
  | some block =>
    obtain ⟨l,list,_,_,left⟩ := post
    refine ⟨⟨always,_,rfl⟩,left.book (bounded.replace ?_) cls' (fits.hand due ?_ ?_ ?_)⟩
    · have := bounded d
      rw [list,List.length_cons] at this
      omega
    · simp [list]
    · simp [list]
    · exact fun ne => ⟨replace_other ne,rfl⟩
  | none =>
    obtain ⟨rfl,empty⟩ := post
    refine sober.wp_seq (wp_heap_call ready own) (.call rfl) fun r' v₂ _ post => ?_
    obtain ⟨rfl,rfl⟩ := post
    refine wp_seq (wp_takeChain_class own small empty fits due) fun x w always post => ?_
    obtain ⟨v₃,_⟩ := w
    cases x with
    | some first =>
      obtain ⟨l,S',parked,nonempty,chain,fresh,left,f₃,rfl,fits₃,due₃⟩ := post
      obtain ⟨b,sp,rfl⟩ := List.exists_cons_of_ne_nil nonempty
      obtain ⟨th₃,own₃,node⟩ := left.own
      have chain₃ : Detached v₃ ⟨r'.handle.addr,th₃.nodeId,d⟩ first (b :: sp) (H ∪ {b' | b' ∈ b :: sp}) := by
        rw [node]
        exact ⟨chain.links,chain.nodup,chain.ref,fun b' h => Or.inr h⟩
      refine sober.wp_seq (wp_refill_batch own₃ parked chain₃) ((refill_lists d first).mono Lists.quiet)
        fun block v₄ always post => ?_
      obtain ⟨rfl,_,_,left'⟩ := post
      refine ⟨⟨always,_,rfl⟩,left'.book (bounded.replace ?_) cls' (fits₃.hand due₃ ?_ ?_ ?_)⟩
      · rw [empty,List.append_nil,List.length_take]
        exact (Nat.min_le_left _ _).trans (refillBatch_cacheBound d)
      · simp [empty,List.take_append_drop]
      · exact Or.inr empty
      · exact fun ne => ⟨replace_other ne,by rw [replace_other ne,replace_other ne]⟩
    | none =>
      obtain ⟨left,spare,f₃,rfl,fits₃,due₃,gone⟩ := post
      obtain ⟨th₃,own₃,node⟩ := left.own
      rw [← node] at inside ⊢
      refine sober.wp_seq (wp_allocateBag own₃ inside small) (Prog.Only.lift fun x => by cases x <;> rfl)
        fun bag v₄ always taken => ?_
      cases bag with
      | none =>
        obtain rfl : v₄ = v₃ := taken
        have ready₃ := ready.next left.frame own₃.holds (left.frame.carried ready.carried)
        refine wp_allocLarge_class ready₃ (.of_own own₃ bounded fits₃) ?_
        rw [cls']
        split
        · rename_i mine
          obtain rfl := Option.some.inj mine
          exact ⟨Forecast.due_same.mp due₃,gone rfl⟩
        · rename_i other
          exact (Forecast.due_other fun same => other (congrArg some same)).mp due₃
      | some bag =>
        obtain ⟨objects,left'⟩ := taken
        obtain ⟨th₄,own₄,node₄⟩ := left'.own
        have bagOf : {b | (⟨r'.handle.addr,th₃.nodeId,d,bag⟩ : Bag).HasSlot b} =
            rest bag (sizeForClass d) 0 (bagSizeForClass d / sizeForClass d) := by
          ext b
          exact (mem_rest small).symm
        rw [bagOf] at own₄
        refine sober.wp_seq (wp_carve_length (sizeForClass_pos small) own₄ fun b mem => ⟨Or.inr mem,?_⟩)
          ((carve_lists d bag _ _ 0).mono Lists.quiet) fun _ v₅ _ carved => ?_
        · rw [(objects b ((mem_rest small).mp mem)).2,node₄]
        obtain ⟨l,length,left₅⟩ := carved
        obtain ⟨th₅,own₅,node₅⟩ := left₅.own
        have full : l.length = objectsPerBag d := by simpa [empty,objectsPerBag] using length
        obtain ⟨b,l,rfl⟩ := List.exists_cons_of_length_pos (full ▸ objectsPerBag_pos small)
        refine sober.wp_seq (wp_popUnwrap_head own₅ replace_same) ((popUnwrap_lists d).mono Lists.quiet)
          fun block v₆ always post => ?_
        obtain ⟨rfl,_,_,left₆⟩ := post
        rw [replace_twice] at left₆
        refine ⟨⟨always,_,rfl⟩,left₆.book (bounded.replace ?_) cls' ?_⟩
        · rw [List.length_cons] at full
          unfold cacheBound
          omega
        · by_cases mine : d = cls
          · subst mine
            obtain ⟨next,whole⟩ := gone rfl
            obtain ⟨g,pays,settled,next',whole'⟩ := Forecast.pays_any d (some block) next
              whole fun _ => Forecast.due_same.mp due₃
            exact ⟨g,by simpa using pays,settled,by simp [Forecast.Fits,next',whole']⟩
          · exact ⟨f₃,if_neg mine ▸ rfl,(Forecast.due_other mine).mp due₃,by rwa [replace_other (Ne.symm mine)]⟩

/-- An allocation with the layout is about to begin. -/
def Forecast.Awaits (f : Forecast) (cls : Nat) (layout : Layout) : Prop :=
  if sizeClassIndex layout.effective = some cls then f.waiting = true else f.Settled

theorem Forecast.Awaits.cleared (awaits : f.Awaits cls layout) : f.cleared.Awaits cls layout := by
  unfold Forecast.Awaits at *
  split
  · rwa [if_pos ‹_›] at awaits
  · exact fun _ => ⟨rfl,rfl⟩

theorem Calm.ledger {f' : Forecast} (calm : Calm Forecast.cleared v f (v',some f'))
    (always : (allocLogic P strict).always v') (ledger : Ledger cls f v) :
    Ledger cls f' v' ∧ (f' = f ∨ f' = f.cleared) := by
  rcases calm with ⟨same,lists⟩ | ⟨cleared,empty⟩
  · obtain rfl := Option.some.inj same
    exact ⟨ledger.same lists,Or.inl rfl⟩
  · obtain rfl := Option.some.inj cleared
    exact ⟨.emptied empty always rfl rfl,Or.inr rfl⟩

theorem wp_alloc_class (ready : Ready P strict v inst H M) (ledger : Ledger cls f v)
    (awaits : f.Awaits cls layout) :
    (classLogic cls P strict).wp (alloc P inst layout)
      (fun x w => Book cls (Answer cls layout x) w) (v,some f) := by
  unfold alloc
  split
  · rename_i large
    refine wp_allocLarge_class ready ledger ?_
    have none_ : sizeClassIndex layout.effective ≠ some cls := fun small => by
      have := (sizeClassIndex_spec small).2.2.1
      omega
    rw [Forecast.Awaits,if_neg none_] at awaits
    rwa [if_neg none_]
  · cases cls' : sizeClassIndex layout.effective with
    | none =>
      rw [Forecast.Awaits,cls',if_neg nofun] at awaits
      refine ⟨⟨ready.holds.always,_,rfl⟩,f,f,rfl,?_,awaits,ledger⟩
      rw [Answer,cls',if_neg nofun]
      rfl
    | some d =>
      refine Scribe.wp_seq (wp_threadHeap ready) (wp_threadHeap_trail (classScribe_sober cls)
        (classScribe_clears cls) inst) fun ok v₁ f₁ always post calm => ?_
      obtain ⟨frame,found⟩ := post
      obtain ⟨ledger₁,moved⟩ := calm.ledger always ledger
      have awaits₁ : f₁.Awaits cls layout := by
        rcases moved with rfl | rfl
        · exact awaits
        · exact awaits.cleared
      cases ok with
      | false =>
        obtain ⟨rfl,gone⟩ := found
        refine wp_allocLarge_class ready ledger₁ ?_
        have forgotten := ledger₁.bare (by simp [gone])
        unfold Forecast.Awaits at awaits₁
        split at awaits₁
        · rw [if_pos ‹_›]
          exact ⟨awaits₁,forgotten⟩
        · rwa [if_neg ‹_›]
      | true =>
        obtain ⟨th,r,L,S,C,own,_⟩ := found
        have ready₁ := ready.next frame own.holds (frame.carried ready.carried)
        obtain ⟨bounded,fits⟩ := ledger₁.own own
        refine wp_allocSmall_class ready₁ own cls' bounded fits ?_
        unfold Forecast.Awaits at awaits₁
        rw [cls'] at awaits₁
        simpa only [Forecast.Due,Option.some.injEq] using awaits₁

/-- What an operation does with the blocks in its hands does not touch the book. -/
theorem Book.loose (book : Book cls given (v,some f)) (holds : Holds P strict v H M)
    (slot : v'.slot = v.slot) (link : ∀ b, b ∉ H → ∀ n, v.link b = some n → v'.link b = some n) :
    Book cls given (v',some f) := by
  obtain ⟨f',g,same,pays,settled,ledger⟩ := book
  exact ⟨f',g,same,pays,settled,ledger.loose holds slot link⟩

theorem Obtained.link {p n : Nat} (got : Obtained P strict v layout p H M H' M')
    (le : n ≤ layout.size) (wrote : v.Overwritten v' p n) :
    v'.slot = v.slot ∧ ∀ b, b ∉ H' → v'.link b = v.link b := by
  cases got with
  | @block th r c fresh present ref cls =>
    obtain ⟨B,block,ref'⟩ := block_of_ref ref
    have fits := (sizeClassIndex_spec cls).2.2.2.1
    have effective : layout.size ≤ layout.effective := Nat.le_max_left _ _
    obtain ⟨link,rfl⟩ := wrote.1 p B block le_rfl (by rw [ref']; simp only; omega)
    refine ⟨rfl,fun b out => ?_⟩
    have ne : b ≠ p := fun same => out (Set.mem_insert_iff.mpr (Or.inl same))
    simp only [View.link,setLink_other link ne]
  | @mapping id m inst fresh found payload called use placed fixed =>
    have := placed.room
    obtain rfl := wrote.2 id m p found payload le_rfl (by omega)
    exact ⟨rfl,fun _ _ => rfl⟩

/-- A write into what was just allocated. -/
theorem wp_write_class {x : Act} {p n : Nat} (quiet : Quiet x)
    (writes : ∀ {v' : View}, (v'.Writable p n → safe P strict x v') ∧
      ∀ r v'', step P strict x v' r v'' → v'.Overwritten v'' p n)
    (holds : Holds P strict v H' M') (got : Obtained P strict v layout p H M H' M')
    (le : n ≤ layout.size) (book : Book cls given (v,some f)) :
    (classLogic cls P strict).wp (act x) (fun _ w => Frame v w.1 H' M' ∧
      Holds P strict w.1 H' M' ∧ Obtained P strict w.1 layout p H M H' M' ∧ Book cls given w)
      (v,some f) := by
  have spec : (allocLogic P strict).wp (act x) (fun _ v' => v.Overwritten v' p n) v :=
    wp_call holds.always (writes.1 (got.writable le)) fun r v' st =>
      ⟨(got.overwritten holds le (writes.2 r v' st)).2.always,writes.2 r v' st⟩
  refine Scribe.wp_last spec (wp_quiet (classScribe_sober cls) (.call quiet)) fun _ v' f' _ wrote same => ?_
  obtain rfl := Option.some.inj same
  obtain ⟨frame,holds'⟩ := got.overwritten holds le wrote
  obtain ⟨slot,link⟩ := got.link le wrote
  exact ⟨frame,holds',got.carry frame,book.loose holds slot fun b out n h => (link b out).trans h⟩

theorem wp_zero_class {p : Nat} (holds : Holds P strict v H' M')
    (got : Obtained P strict v layout p H M H' M')
    (book : Book cls (Answer cls layout (some p)) (v,some f)) :
    (classLogic cls P strict).wp ((act (.writeBytes p layout.size)).bind fun _ => .ret (some p))
      (fun x w => Book cls (Answer cls layout x) w) (v,some f) :=
  wp_seq (wp_write_class rfl ⟨fun h => h,fun _ _ h => h⟩ holds got le_rfl book)
    fun _ _ always post => ⟨always,post.2.2.2⟩

theorem wp_allocZeroed_class (ready : Ready P strict v inst H M) (ledger : Ledger cls f v)
    (awaits : f.Awaits cls layout) :
    (classLogic cls P strict).wp (allocZeroed P inst layout)
      (fun x w => Book cls (Answer cls layout x) w) (v,some f) := by
  rw [allocZeroed_eq]
  split
  · rename_i large
    have none_ : sizeClassIndex layout.effective ≠ some cls := fun small => by
      have := (sizeClassIndex_spec small).2.2.1
      omega
    rw [Forecast.Awaits,if_neg none_] at awaits
    have unasked : ∀ x, Answer cls layout x = none := fun x => if_neg none_
    refine Scribe.wp_seq (wp_allocLargeTracked ready) (wp_allocLargeTracked_trail (classScribe_sober cls)
      (classScribe_clears cls) inst layout) fun x v₁ f₁ always post calm => ?_
    have book : ∀ y, Book cls (Answer cls layout y) (v₁,some f₁) := fun y => by
      rw [unasked]
      exact calm.book always rfl awaits ledger
    obtain ⟨x,reused⟩ := x
    cases x with
    | none => exact ⟨⟨always,_,rfl⟩,book none⟩
    | some p =>
      obtain ⟨frame,H',M',holds,got⟩ := post
      cases reused with
      | false => exact ⟨⟨always,_,rfl⟩,book (some p)⟩
      | true => exact wp_zero_class holds got (book (some p))
  · refine Scribe.wp_both (wp_alloc ready) (wp_alloc_class ready ledger awaits) fun x v₁ f₁ always post book => ?_
    cases x with
    | none => exact ⟨⟨always,_,rfl⟩,book⟩
    | some p =>
      obtain ⟨frame,H',M',holds,got⟩ := post
      exact wp_zero_class holds got book

/-! Release. -/

theorem wp_release_trail {a : Alloc} (pin : v.pin = some a) :
    (classTrail cls P strict).wp (act .release) (fun _ w => SameLists v w.1 ∧
      w.2 = some (if a.inPlace cls then f.released cls a.ptr
        ((w.1.ref a.ptr).isSome ∧ w.1.ref a.ptr = w.1.home cls) else f)) (v,some f) := by
  refine ⟨⟨trivial,f,rfl⟩,trivial,fun _ w st => ?_⟩
  obtain ⟨⟨_,⟨a',pin',taken⟩,_⟩,moved⟩ := st
  obtain ⟨v₁,o⟩ := w
  obtain rfl := Option.some.inj (pin.symm.trans pin')
  have now : o = some (if a.inPlace cls then f.released cls a.ptr
      ((v₁.ref a.ptr).isSome ∧ v₁.ref a.ptr = v₁.home cls) else f) := by
    refine moved.trans ?_
    by_cases inPlace : a.inPlace cls
    · simp only [classScribe,pin,inPlace,if_true,Option.bind_some]
      by_cases home : (v₁.ref a.ptr).isSome ∧ v₁.ref a.ptr = v₁.home cls
      · rw [if_pos home,decide_eq_true home]
        rfl
      · rw [if_neg home,decide_eq_false home]
        rfl
    · simp [classScribe,pin,inPlace]
  exact ⟨⟨trivial,_,now⟩,.release ⟨a,pin,taken⟩,now⟩

/-- What is expected of a block on its way to the list of its class. -/
def Incoming (cls : Nat) (given : Option Nat) (f : Forecast) (L S : Nat → List Nat) (d b : Nat) :
    Prop :=
  if d = cls then given = none ∧ f.whole = false ∧ f.waiting = false ∧
    f.next <+: (b :: L cls).take (maxThreadCache cls / 2)
  else ∃ g, f.Pays cls given g ∧ g.Settled ∧ g.Fits (L cls) (S cls)

/-- The list after a release: the block is at its head, and not too much is behind it. -/
theorem Incoming.book {l : List Nat} (incoming : Incoming cls given f L S d b)
    (bounded : Bounded L) (left : Left P strict v v' th r (replace L d l) S C H H' M)
    (kept : l = b :: L d ∧ l.length ≤ maxThreadCache d ∨
      l = (b :: L d).take (maxThreadCache d / 2)) : Book cls given (v',some f) := by
  obtain ⟨th',own,_⟩ := left.own
  have short : l.length ≤ maxThreadCache d := by
    rcases kept with ⟨_,short⟩ | rfl
    · exact short
    · rw [List.length_take]
      omega
  have bounded' := bounded.replace (short.trans (Nat.le_max_left _ _))
  unfold Incoming at incoming
  by_cases mine : d = cls
  · subst mine
    rw [if_pos rfl] at incoming
    obtain ⟨rfl,whole,waiting,next⟩ := incoming
    refine ⟨f,f,rfl,rfl,fun asked => ?_,.of_own own bounded' ?_⟩
    · rw [waiting] at asked
      contradiction
    · rw [Forecast.Fits,if_neg (by simp [whole]),replace_same]
      rcases kept with ⟨rfl,_⟩ | rfl
      · exact next.trans (List.take_prefix _ _)
      · exact next
  · rw [if_neg mine] at incoming
    obtain ⟨g,pays,settled,fits⟩ := incoming
    exact ⟨f,g,rfl,pays,settled,.of_own own bounded' (by rwa [replace_other (Ne.symm mine)])⟩

/-- Publishing a chain that a thread with a cache holds, beside the forecast. -/
theorem wp_publish_class {k : StackRef} {first last : Nat} {l : List Nat}
    (own : Own P strict v th r L S C H M) (heap : k.heap = r.handle.addr)
    (held : Held v k first last l H) (quiet : v.home cls = some k → f.whole = false) :
    (classLogic cls P strict).wp (onStack k (TreiberStack.pushChain first last)) (fun _ w =>
      w.1 = v.without l ∧ Left P strict v w.1 th r L S C (H \ {b | b ∈ l}) (H \ {b | b ∈ l}) M ∧
        w.2 = some f) (v,some f) := by
  have slot : ∀ th', v.slot = .alive th' → th' = th := fun th' alive =>
    (ThreadHeapSlot.alive.inj (own.present.1.symm.trans alive)).symm
  have trail : (classTrail cls P strict).wp (onStack k (TreiberStack.pushChain first last))
      (fun _ w => w.2 = some f) (v,some f) := by
    by_cases home : v.home cls = some k
    · exact wp_publish_trail (own.stock.user (held.loose _ held.first_mem)) (quiet home)
    · exact wp_elsewhere (classScribe_sober cls) _ home
  refine Scribe.wp_last (wp_publish own.stock slot (heap ▸ own.keeps) held) trail
    fun _ v' f' _ gone same => ?_
  obtain rfl : v' = _ := gone
  exact ⟨rfl,own.released held.loose,same⟩

theorem wp_deallocLocal_class {k : StackRef} (own : Own P strict v th r L S C H M) (loose : b ∈ H)
    (ref : v.ref b = some k) (heap : k.heap = r.handle.addr) (node : k.node = th.nodeId)
    (bounded : Bounded L) (incoming : Incoming cls given f L S k.cls b) :
    (classLogic cls P strict).wp (deallocLocal k b) (fun _ w => Book cls given w) (v,some f) := by
  obtain ⟨heap',node',d⟩ := k
  simp only at heap node incoming
  subst heap node
  have sober := classScribe_sober cls
  rw [deallocLocal_eq]
  dsimp only
  refine sober.wp_seq (wp_push own loose ref) ((freelistDo_lists d _).mono Lists.quiet)
    fun _ v₁ _ left₁ => ?_
  obtain ⟨th₁,own₁,node₁⟩ := left₁.own
  have pushed := left₁.mono (show H \ {b} ⊆ H from Set.sdiff_subset)
  obtain ⟨count,_⟩ := own₁.stock.tight d
  rw [replace_same] at count
  refine sober.wp_seq (wp_thread_call own₁) (.call rfl) fun th' v₂ always post => ?_
  obtain ⟨rfl,rfl,_⟩ := post
  split
  · rename_i beyond
    refine sober.wp_seq (wp_drain_keep own₁ (maxThreadCache_pos d))
      ((freelistMut_lists d _).mono Lists.quiet) fun x v₃ _ drained => ?_
    cases x with
    | none =>
      obtain ⟨_,few⟩ := drained
      rw [replace_same] at few
      omega
    | some chain =>
      obtain ⟨first,last,n⟩ := chain
      obtain ⟨l,back,list,length,held,left₂⟩ := drained
      rw [replace_same] at list
      rw [replace_twice] at left₂
      obtain ⟨th₃,own₃,node₃⟩ := left₂.own
      have held₃ : Held v₃ ⟨r.handle.addr,th.nodeId,d⟩ first last back (H \ {b} ∪ {b | b ∈ back}) :=
        ⟨held.links,held.nodup,node₁ ▸ held.ref,fun b' h => Or.inr h⟩
      have quiet : v₃.home cls = some ⟨r.handle.addr,th.nodeId,d⟩ → f.whole = false := fun home => by
        obtain rfl : cls = d := by
          rw [own₃.home] at home
          exact congrArg StackRef.cls (Option.some.inj home)
        rw [Incoming,if_pos rfl] at incoming
        exact incoming.2.1
      refine wp_mono (wp_publish_class own₃ rfl held₃ quiet) fun _ w _ post => ?_
      obtain ⟨v₄,_⟩ := w
      obtain ⟨_,left₃,rfl⟩ := post
      have out : ∀ b' ∈ H \ {b}, b' ∉ back := fun b' h mem =>
        own₁.stock.notCached h d (List.mem_append_left _ (by rw [replace_same,list]; exact List.mem_append_right _ mem))
      have returned : (H \ {b} ∪ {b | b ∈ back}) \ {b | b ∈ back} = H \ {b} := by
        ext b'
        have := out b'
        simp only [Set.mem_sdiff,Set.mem_union,Set.mem_ofPred_eq] at this ⊢
        tauto
      rw [returned] at left₃
      refine incoming.book bounded ((pushed.trans left₂ node₁).trans left₃ (node₃.trans node₁)) (Or.inr ?_)
      rw [list,← length,List.take_left]
  · rename_i under
    exact ⟨⟨always,_,rfl⟩,incoming.book bounded pushed (Or.inl ⟨rfl,by omega⟩)⟩

/-- A block on its way back: with what is forecast for the other classes, or with what the
release of a block of this class has made of the forecast. -/
def Passing (cls : Nat) (given : Option Nat) (f : Forecast) (v : View) (k : StackRef) (b : Nat) :
    Prop :=
  if k.cls = cls then given = none ∧ ∃ f₀, Ledger cls f₀ v ∧
    f = f₀.released cls b (v.home cls = some k)
  else ∃ g, f.Pays cls given g ∧ g.Settled ∧ Ledger cls g v

namespace Passing

variable {k : StackRef} {f' : Forecast}

theorem same (passing : Passing cls given f v k b) (same : SameLists v v') :
    Passing cls given f v' k b := by
  unfold Passing at *
  split
  · rw [if_pos ‹_›] at passing
    obtain ⟨none_,f₀,ledger,eq⟩ := passing
    exact ⟨none_,f₀,ledger.same same,by rw [same.home]; exact eq⟩
  · rw [if_neg ‹_›] at passing
    obtain ⟨g,pays,settled,ledger⟩ := passing
    exact ⟨g,pays,settled,ledger.same same⟩

/-- The cache found for it: the block is expected there, or nothing is. -/
theorem incoming (passing : Passing cls given f v k b)
    (calm : Calm Forecast.cleared v f (v',some f')) (own : Own P strict v' th r L S C H M)
    (heap : k.heap = r.handle.addr) (node : k.node = th.nodeId) :
    Bounded L ∧ Incoming cls given f' L S k.cls b := by
  unfold Incoming
  by_cases mine : k.cls = cls
  · simp only [if_pos mine]
    rw [Passing,if_pos mine] at passing
    obtain ⟨rfl,f₀,ledger,released⟩ := passing
    rcases calm with ⟨same,lists⟩ | ⟨cleared,empty⟩
    · obtain rfl := Option.some.inj same
      have home : v.home cls = some k := by
        rw [← lists.home,own.home,← mine,← heap,← node]
      rw [decide_eq_true home] at released
      obtain ⟨bounded,fits⟩ := (ledger.same lists).own own
      refine ⟨bounded,rfl,by rw [released]; rfl,by rw [released]; rfl,?_⟩
      rw [released]
      refine List.IsPrefix.take (List.cons_prefix_cons.mpr ⟨rfl,?_⟩) _
      unfold Forecast.Fits at fits
      split
      · exact List.nil_prefix
      · rwa [if_neg ‹_›] at fits
    · obtain rfl := Option.some.inj cleared
      have waiting : f.waiting = false := by
        rw [released]
        unfold Forecast.released
        split <;> rfl
      have ledger : Ledger cls f.cleared v' := .emptied empty own.always rfl rfl
      obtain ⟨bounded,_⟩ := ledger.own own
      exact ⟨bounded,rfl,rfl,waiting,List.nil_prefix⟩
  · simp only [if_neg mine]
    rw [Passing,if_neg mine] at passing
    obtain ⟨g,pays,settled,ledger⟩ := passing
    obtain ⟨f₁,g₁,same,pays₁,settled₁,ledger₁⟩ := calm.book own.always pays settled ledger
    obtain rfl := Option.some.inj same
    obtain ⟨bounded,fits⟩ := ledger₁.own own
    exact ⟨bounded,g₁,pays₁,settled₁,fits⟩

/-- A block that goes elsewhere. -/
theorem book (passing : Passing cls given f v k b) (calm : Calm Forecast.cleared v f (v',some f'))
    (always : (allocLogic P strict).always v') (away : v'.home cls ≠ some k) :
    Book cls given (v',some f') := by
  by_cases mine : k.cls = cls
  · rw [Passing,if_pos mine] at passing
    obtain ⟨rfl,f₀,ledger,released⟩ := passing
    rcases calm with ⟨same,lists⟩ | ⟨cleared,empty⟩
    · obtain rfl := Option.some.inj same
      rw [lists.home] at away
      rw [decide_eq_false away] at released
      subst released
      exact ⟨_,_,rfl,rfl,nofun,(ledger.same lists).forget⟩
    · obtain rfl := Option.some.inj cleared
      exact ⟨_,_,rfl,rfl,fun _ => ⟨rfl,rfl⟩,.emptied empty always rfl rfl⟩
  · rw [Passing,if_neg mine] at passing
    obtain ⟨g,pays,settled,ledger⟩ := passing
    exact calm.book always pays settled ledger

end Passing

theorem wp_deallocSmall_class (ready : Ready P strict v inst H M) {ptr n : Nat} (mem : ptr ∈ H)
    (call : v.call.heap = some r) (ref : v.ref ptr = some ⟨r.handle.addr,n,d⟩)
    (passing : Passing cls given f v ⟨r.handle.addr,n,d⟩ ptr) :
    (classLogic cls P strict).wp (deallocSmall inst ptr r n d) (fun _ w => Book cls given w)
      (v,some f) := by
  have sober := classScribe_sober cls
  rw [deallocSmall_eq]
  refine Scribe.wp_seq (wp_threadHeap ready) (wp_threadHeap_trail sober (classScribe_clears cls) inst)
    fun ok v₁ f₁ always post calm => ?_
  obtain ⟨frame,found⟩ := post
  cases ok with
  | false =>
    obtain ⟨rfl,gone⟩ := found
    have bare : Bare P v₁ H M := by
      rcases ready.holds with ⟨th,_,_,_,alive,_⟩ | bare
      · rw [gone] at alive
        contradiction
      · exact bare
    have away : v₁.home cls ≠ some ⟨r.handle.addr,n,d⟩ := by simp [View.home,gone]
    have book := passing.book calm always away
    refine Scribe.wp_last (wp_publish (bare.stock 0 ⟨0,0⟩)
      (fun th alive => absurd alive (bare.slot th)) (Or.inl ⟨r,call,rfl⟩) (.single ref mem))
      (wp_elsewhere sober _ away) fun _ v₂ f₂ _ post same => ?_
    obtain rfl : v₂ = _ := post
    obtain rfl := Option.some.inj same
    refine book.loose ready.holds rfl fun b out n h => ?_
    have kept : b ∉ [ptr] := fun here => out ((List.mem_singleton.mp here) ▸ mem)
    simpa only [View.link,without_other kept] using h
  | true =>
    obtain ⟨th,r',L,S,C,own,_⟩ := found
    obtain rfl := Option.some.inj ((frame.call call).symm.trans own.present.2.1)
    have ref₁ := (frame.ref ptr mem).trans ref
    refine sober.wp_seq (wp_thread_call own) (.call rfl) fun th' v₂ always post => ?_
    obtain ⟨rfl,rfl,_⟩ := post
    split
    · rename_i local_
      obtain ⟨bounded,incoming⟩ := passing.incoming calm own rfl local_
      exact wp_deallocLocal_class own mem ref₁ rfl local_ bounded incoming
    · rename_i remote
      have away : v₂.home cls ≠ some ⟨r.handle.addr,n,d⟩ := by
        rw [own.home]
        exact fun same => remote (congrArg StackRef.node (Option.some.inj same)).symm
      have book := passing.book calm always away
      refine wp_mono (wp_publish_class own rfl (.single ref₁ mem) fun home => absurd home away)
        fun _ w _ post => ?_
      obtain ⟨v₃,_⟩ := w
      obtain ⟨rfl,_,rfl⟩ := post
      refine book.loose own.holds rfl fun b out n h => ?_
      have kept : b ∉ [ptr] := fun here => out ((List.mem_singleton.mp here) ▸ mem)
      simpa only [View.link,without_other kept] using h

/-- A slot is given back to the list or the stack it belongs to. -/
theorem wp_dealloc_slot_class (ready : Ready P strict v inst H M) {ptr n : Nat} (mem : ptr ∈ H)
    (user : UserAddr ptr) (call : v.call.heap = some r) (node : r.geom.nodeForPtr ptr = some n)
    (cls' : sizeClassIndex layout.effective = some d)
    (ref : v.ref ptr = some ⟨r.handle.addr,n,d⟩)
    (passing : Passing cls given f v ⟨r.handle.addr,n,d⟩ ptr) :
    (classLogic cls P strict).wp (dealloc inst ptr layout) (fun _ w => Book cls given w)
      (v,some f) := by
  have limit := (sizeClassIndex_spec cls').2.2.1
  have nonzero := user.1
  unfold dealloc
  rw [if_neg (by omega),if_neg (by omega)]
  refine Scribe.wp_seq (wp_heap (k := .ret) (Q := fun r' v' => Known v' inst r' ∧
    Ready P strict v' inst H M ∧ Frame v v' H M) ready fun r' v' known ready' frame _ =>
      ⟨ready'.holds.always,known,ready',frame⟩) (wp_aside (classScribe_sober cls) (.call rfl))
    fun r' v₁ f₁ _ post left => ?_
  obtain ⟨known,ready₁,frame⟩ := post
  obtain ⟨same,left⟩ := left
  obtain rfl := (Option.some.inj left).symm
  obtain rfl := Option.some.inj ((frame.call call).symm.trans known.call)
  simp only [node,cls']
  exact wp_deallocSmall_class ready₁ mem known.call ((frame.ref ptr mem).trans ref) (passing.same same)

theorem Book.same (book : Book cls given (v,some f)) (same : SameLists v v') :
    Book cls given (v',some f) := by
  obtain ⟨f',g,now,pays,settled,ledger⟩ := book
  exact ⟨f',g,now,pays,settled,ledger.same same⟩

theorem Alloc.inPlace_iff {a : Alloc} : a.inPlace cls = true ↔
    a.source = .slot ∧ a.ptr ≠ 0 ∧ sizeClassIndex a.layout.effective = some cls := by
  simp [Alloc.inPlace]

/-- The operand leaves the caller and goes where it belongs. -/
theorem wp_giveBack_class {ptr : Nat} {a : Alloc} (ready : Ready P strict v inst H M)
    (operand : Operand v inst ptr layout a)
    (book : if a.inPlace cls then given = none ∧ Ledger cls f v else Book cls given (v,some f)) :
    (classLogic cls P strict).wp ((act .release).bind fun _ => dealloc inst ptr layout)
      (fun _ w => Book cls given w) (v,some f) := by
  by_cases source : a.source = .slot
  · refine Scribe.wp_seq (wp_release_slot ready operand source) (wp_release_trail operand.pin)
      fun _ v₁ f₁ _ post left => ?_
    obtain ⟨_,_,ready₁,_,user,r,n,d,call,node,cls',ref⟩ := post
    obtain ⟨same,left⟩ := left
    have left := Option.some.inj left
    refine wp_dealloc_slot_class ready₁ (Set.mem_union_right H (Set.mem_singleton ptr)) user call node cls'
      ref ?_
    have inPlace : a.inPlace cls = true ↔ d = cls := by
      have nonzero : a.ptr ≠ 0 := fun zero => absurd user.1 (by rw [← operand.ptr,zero]; decide)
      rw [Alloc.inPlace_iff,operand.layout,cls']
      simp [source,nonzero]
    rw [operand.ptr,ref] at left
    unfold Passing
    by_cases mine : d = cls
    · rw [if_pos (inPlace.mpr mine)] at book left
      rw [if_pos mine]
      refine ⟨book.1,f,book.2.same same,left.trans ?_⟩
      simp [eq_comm]
    · have other := fun h => mine (inPlace.mp h)
      rw [if_neg other] at book left
      rw [if_neg mine]
      obtain ⟨f',g,now,pays,settled,ledger⟩ := book.same same
      obtain rfl := Option.some.inj now
      exact ⟨g,left ▸ pays,settled,ledger⟩
  · refine Scribe.wp_seq (wp_release_mapping ready operand source) (wp_release_trail operand.pin)
      fun _ v₁ f₁ _ post left => ?_
    obtain ⟨_,_,id,m,ready₁,_,found,use,payload,header,inside,home⟩ := post
    obtain ⟨same,left⟩ := left
    have left := Option.some.inj left
    have other : ¬a.inPlace cls = true := fun h => source (Alloc.inPlace_iff.mp h).1
    rw [if_neg other] at book left
    subst left
    refine wp_mono (Scribe.wp_dealloc_mapping (classScribe_sober cls) ready₁ (Set.mem_insert id M) found use
      payload header inside home) fun _ w _ post => ?_
    obtain ⟨v₂,_⟩ := w
    obtain ⟨same',rfl⟩ := post
    exact (book.same same).same same'

/-! Reallocation. -/

/-- What a reallocation still has to hand out. -/
def Moved (cls : Nat) (layout : Layout) (x : Option Nat) (v : View) : Option Nat :=
  if v.pin.isNone then Answer cls layout x else none

theorem wp_reallocMove_class {ptr newSize : Nat} {a : Alloc} {newLayout : Layout}
    (ready : Ready P strict v inst H M) (operand : Operand v inst ptr layout a)
    (resized : layout.resize newSize = some newLayout) (ledger : Ledger cls f v)
    (awaits : f.Awaits cls newLayout)
    (other : a.inPlace cls = true → sizeClassIndex newLayout.effective ≠ some cls) :
    (classLogic cls P strict).wp (reallocMove P inst ptr layout newSize)
      (fun x w => Book cls (Moved cls newLayout x w.1) w) (v,some f) := by
  rw [reallocMove_eq resized]
  refine Scribe.wp_both (wp_alloc ready) (wp_alloc_class ready ledger awaits)
    fun x v₁ f₁ always answered book => ?_
  cases x with
  | none =>
    have nothing : Moved cls newLayout none v₁ = Answer cls newLayout none := by
      simp [Moved,Answer]
    exact ⟨⟨always,_,rfl⟩,(congrArg (Book cls · _) nothing).mpr book⟩
  | some p =>
    obtain ⟨frame,H',M',holds,got⟩ := answered
    obtain ⟨size,_⟩ := Layout.resize_size resized
    have le : min layout.size newSize ≤ newLayout.size := by omega
    refine wp_seq (wp_write_class (x := .copy ptr p (min layout.size newSize)) rfl
      ⟨fun h => h,fun _ _ h => h⟩ holds got le book) fun _ w always post => ?_
    obtain ⟨v₂,_⟩ := w
    obtain ⟨_,f₂,rfl⟩ := always
    obtain ⟨frame₂,holds₂,got₂,book₂⟩ := post
    have sub := got.grown
    have whole := frame.trans (frame₂.mono sub.1 sub.2)
    have ready₂ := ready.next whole holds₂ (got₂.carried (whole.carried ready.carried))
    have operand₂ : Operand v₂ inst ptr layout a :=
      ⟨whole.pin.trans operand.pin,operand.ptr,operand.layout,operand.inst⟩
    have unpinned : (allocLogic P strict).wp ((act .release).bind fun _ => dealloc inst ptr layout)
        (fun _ v' => v'.pin = none) v₂ :=
      wp_release ready₂ operand₂ fun v₃ H₁ M₁ pin _ ready₃ returned =>
        wp_mono (wp_dealloc ready₃ returned) fun _ _ _ post => post.1.pin.trans pin
    have back : (classLogic cls P strict).wp ((act .release).bind fun _ => dealloc inst ptr layout)
        (fun _ w => Book cls (Answer cls newLayout (some p)) w) (v₂,some f₂) := by
      refine wp_giveBack_class ready₂ operand₂ ?_
      split
      · rename_i inPlace
        have none_ : Answer cls newLayout (some p) = none := if_neg (other inPlace)
        rw [none_] at book₂
        obtain ⟨f',g,now,pays,_,ledger₂⟩ := book₂
        obtain rfl := Option.some.inj now
        obtain rfl : g = _ := pays
        exact ⟨none_,ledger₂⟩
      · exact book₂
    rw [← Prog.bind_assoc]
    refine Scribe.wp_both unpinned back fun _ v₃ f₃ always pin book₃ => ?_
    have moved : Moved cls newLayout (some p) v₃ = Answer cls newLayout (some p) := by
      simp [Moved,pin]
    exact ⟨⟨always,_,rfl⟩,(congrArg (Book cls · _) moved).mpr book₃⟩

/-- Naming the heap also finds a slot in it. -/
theorem wp_heap_trail : (classTrail cls P strict).wp (act (.heap inst)) (fun r w =>
    (SameLists v w.1 ∧ w.2 = some f) ∧
      ∀ a, v.pin = some a → a.source = .slot → r.geom.isOwned a.ptr = true) (v,some f) := by
  refine ⟨⟨trivial,f,rfl⟩,trivial,fun r w st => ?_⟩
  obtain ⟨⟨_,step,resident⟩,moved⟩ := st
  have moved : w.2 = some f := moved
  exact ⟨⟨trivial,f,moved⟩,⟨.aside rfl step,moved⟩,resident⟩

/-- A reallocation that stays in its class hands out nothing and waits for nothing. -/
theorem wp_realloc_class {ptr newSize : Nat} {a : Alloc} {newLayout : Layout}
    (ready : Ready P strict v inst H M) (operand : Operand v inst ptr layout a)
    (resized : layout.resize newSize = some newLayout) (ledger : Ledger cls f v)
    (awaits : if sizeClassIndex newLayout.effective = some cls ∧ ¬a.inPlace cls = true then
      f.waiting = true else f.Settled) :
    (classLogic cls P strict).wp (realloc P inst ptr layout newSize)
      (fun x w => Book cls (Moved cls newLayout x w.1) w) (v,some f) := by
  obtain ⟨size,align⟩ := Layout.resize_size resized
  have effective : max newSize layout.align = newLayout.effective := by
    rw [Layout.effective,size,align]
  have expects : (a.inPlace cls = true → sizeClassIndex newLayout.effective ≠ some cls) →
      f.Awaits cls newLayout := fun other => by
    unfold Forecast.Awaits
    split
    · rename_i mine
      rwa [if_pos ⟨mine,fun inPlace => other inPlace mine⟩] at awaits
    · rename_i mine
      rwa [if_neg fun h => mine h.1] at awaits
  unfold realloc
  simp only [effective]
  split
  · rename_i inClass
    have same := inClass.2.2.2.1
    refine Scribe.wp_seq (wp_heap (k := .ret) (Q := fun r v' => Known v' inst r ∧
      Ready P strict v' inst H M ∧ Frame v v' H M) ready fun r v' known ready' frame _ =>
        ⟨ready'.holds.always,known,ready',frame⟩) wp_heap_trail fun r v₁ f₁ always post left => ?_
    obtain ⟨known,ready₁,frame⟩ := post
    obtain ⟨⟨lists,now⟩,resident⟩ := left
    obtain rfl := (Option.some.inj now).symm
    have pin := frame.pin.trans operand.pin
    split
    · rename_i owned
      have source : a.source = .slot := by
        by_contra other
        have outside := known.pin a pin other
        rw [operand.ptr] at outside
        simp [GlobalHeap.isOwned,outside] at owned
      refine ⟨⟨always,_,rfl⟩,f,f,rfl,?_,?_,ledger.same lists⟩
      · simp [Moved,pin,Forecast.Pays]
      · split at awaits
        · rename_i asked
          refine absurd (Alloc.inPlace_iff.mpr ⟨source,operand.ptr ▸ inClass.2.2.2.2,?_⟩) asked.2
          rw [operand.layout,same]
          exact asked.1
        · exact awaits
    · rename_i foreign
      have other : a.inPlace cls = true → sizeClassIndex newLayout.effective ≠ some cls :=
        fun inPlace => absurd (operand.ptr ▸ resident a operand.pin (Alloc.inPlace_iff.mp inPlace).1) foreign
      exact wp_reallocMove_class ready₁ ⟨pin,operand.ptr,operand.layout,operand.inst⟩ resized
        (ledger.same lists) (expects other) other
  · rename_i apart
    have other : a.inPlace cls = true → sizeClassIndex newLayout.effective ≠ some cls := by
      intro inPlace mine
      obtain ⟨_,nonzero,old⟩ := Alloc.inPlace_iff.mp inPlace
      rw [operand.layout] at old
      have limit := (sizeClassIndex_spec old).2.2.1
      have limit' := (sizeClassIndex_spec mine).2.2.1
      exact apart ⟨limit,limit',by simp [old],old.trans mine.symm,operand.ptr ▸ nonzero⟩
    exact wp_reallocMove_class ready operand resized ledger (expects other) other

/-! Requests. -/

/-- Handing over what was forecast. -/
theorem wp_answer_class {x : Option Nat} (settled : Settled P strict v inst layout ∅ ∅ x)
    (book : Book cls (Moved cls layout x v) (v,some f)) :
    (classLogic cls P strict).wp (answer layout x) (fun _ w => Book cls none w) (v,some f) := by
  cases x with
  | none =>
    have nothing : Moved cls layout none v = none := by simp [Moved,Answer]
    exact ⟨⟨settled.holds.always,_,rfl⟩,nothing ▸ book⟩
  | some p =>
    obtain ⟨f',g,now,pays,settled',ledger⟩ := book
    obtain rfl := Option.some.inj now
    have accepted : ∀ v', (Forecast.monitor cls).run f
        ((classScribe cls).note (.give p layout) v () v') = some g := by
      intro v'
      simp only [classScribe]
      unfold Moved Answer at pays
      by_cases fresh : v.pin.isNone = true
      · by_cases mine : sizeClassIndex layout.effective = some cls
        · rw [if_pos fresh,if_pos mine] at pays
          rw [if_pos ⟨fresh,mine⟩,Monitor.run_single]
          exact pays
        · rw [if_pos fresh,if_neg mine] at pays
          rw [if_neg fun h => mine h.2]
          exact congrArg some pays.symm
      · rw [if_neg fresh] at pays
        rw [if_neg fun h => fresh h.1]
        exact congrArg some pays.symm
    have trail : (classTrail cls P strict).wp (act (.give p layout)) (fun _ w =>
        step P strict (.give p layout) v () w.1 ∧ w.2 = some g) (v,some f) := by
      refine ⟨⟨trivial,f,rfl⟩,trivial,fun _ w st => ?_⟩
      obtain ⟨⟨_,stepped,_⟩,moved⟩ := st
      have moved : w.2 = some g := moved.trans (accepted w.1)
      exact ⟨⟨trivial,g,moved⟩,stepped,moved⟩
    refine Scribe.wp_last (wp_answer settled) trail fun _ v' g' _ _ post => ?_
    obtain ⟨stepped,now⟩ := post
    obtain rfl := Option.some.inj now
    refine ⟨g',g',rfl,rfl,settled',?_⟩
    rcases settled with ⟨keeps,_⟩ | ⟨pin,H',M',ready,got⟩
    · obtain rfl := stepped.1 keeps
      exact ledger.same (.blocks rfl rfl)
    · cases got with
      | @block th r c fresh present ref cls' =>
        obtain ⟨B,block,_⟩ := block_of_ref ref
        obtain rfl := stepped.2.1 pin B block
        refine ledger.loose ready.holds rfl fun b out n h => ?_
        have kept : b ∉ [p] := fun here => out (Or.inl (List.mem_singleton.mp here))
        simpa only [View.link,without_other kept] using h
      | @mapping id m inst' fresh found payload called use placed fixed =>
        obtain rfl := stepped.2.2 pin id m found payload
        exact ledger.same (.blocks rfl rfl)

/-- At rest nothing is in hand. -/
def Forecast.Rest (cls : Nat) (v : View) (f : Forecast) : Prop := f.Settled ∧ Ledger cls f v

theorem wp_finish_class (ready : Holds P strict v ∅ ∅ ∧ v.hand = none ∧ v.dying = none)
    (book : Book cls none (v,some f)) :
    (classLogic cls P strict).wp (act .finish) (AtRest (Forecast.Rest cls)) (v,some f) := by
  refine Scribe.wp_last (wp_finish ready.1 ready.2.1 ready.2.2)
    (wp_aside (classScribe_sober cls) (.call rfl)) fun _ v' f' _ _ post => ?_
  obtain ⟨f₁,g,now,pays,settled,ledger⟩ := book.same post.1
  obtain rfl : f' = f := Option.some.inj post.2
  obtain rfl := Option.some.inj now
  obtain rfl : g = _ := pays
  exact ⟨_,rfl,settled,ledger⟩

theorem wp_answer_finish_class {x : Option Nat} (settled : Settled P strict v inst layout ∅ ∅ x)
    (book : Book cls (Moved cls layout x v) (v,some f)) :
    (classLogic cls P strict).wp ((answer layout x).bind fun _ => act .finish)
      (AtRest (Forecast.Rest cls)) (v,some f) := by
  refine Scribe.wp_both (wp_answer settled) (wp_answer_class settled book) fun _ v' f' _ ready book' => ?_
  exact wp_finish_class ⟨ready.holds,ready.hand,ready.dying⟩ book'

theorem Ledger.waiting {waiting : Bool} (ledger : Ledger cls f v) :
    Ledger cls { f with waiting := waiting } v := ⟨ledger.cached,ledger.bare⟩

theorem Started.same {request : Request} (started : Started v v' request) : SameLists v v' := by
  cases request with
  | alloc inst layout | allocZeroed inst layout =>
    obtain ⟨known,rfl⟩ := started
    exact .blocks rfl rfl
  | dealloc inst ptr layout | realloc inst ptr layout newSize =>
    obtain ⟨known,a,_,_,_,rfl⟩ := started
    exact .blocks rfl rfl
  | exit =>
    obtain rfl : v' = v := started
    exact .refl _
  | drop inst =>
    rcases started with rfl | ⟨h,_,rfl⟩
    · exact .refl _
    · exact .blocks rfl rfl

/-- An allocation of the class is asked for only while no other one waits for a block. -/
theorem Forecast.Settled.ask (settled : f.Settled) (cls : Nat) :
    f.after cls .asked = some { f with waiting := true } := by
  refine if_neg fun h => ?_
  obtain ⟨whole,next⟩ := settled h.1
  simp [whole,next] at h

/-- An allocation is asked for, if it is of the class. -/
theorem Forecast.Settled.asked (settled : f.Settled) (ledger : Ledger cls f v) (layout : Layout) :
    ∃ f', (Forecast.monitor cls).run f
        (if sizeClassIndex layout.effective = some cls then [.asked] else []) = some f' ∧
      Ledger cls f' v ∧ f'.Awaits cls layout := by
  unfold Forecast.Awaits
  by_cases mine : sizeClassIndex layout.effective = some cls
  · simp only [if_pos mine]
    exact ⟨_,Monitor.run_single.trans (settled.ask cls),ledger.waiting,rfl⟩
  · simp only [if_neg mine]
    exact ⟨f,rfl,ledger,settled⟩

/-- An answer to a request without an operand. -/
theorem Answered.book {x : Option Nat} (answered : Answered P strict v v' layout H M x)
    (pin : v.pin = none) (book : Book cls (Answer cls layout x) w) :
    Book cls (Moved cls layout x v') w := by
  have pin' : v'.pin = none := by
    cases x with
    | none => exact answered.1.pin.trans pin
    | some p => exact answered.1.pin.trans pin
  simpa [Moved,pin'] using book

/-- Without a new layout a reallocation does nothing to the lists. -/
theorem realloc_aside {ptr newSize : Nat} (overflow : layout.resize newSize = none) :
    (realloc P inst ptr layout newSize).Only Aside := by
  have fails : reallocMove P inst ptr layout newSize = .ret none := by
    unfold reallocMove
    rw [overflow]
    rfl
  unfold realloc
  simp only [fails]
  split
  · refine .bind (.call rfl) fun heap => ?_
    split <;> trivial
  · trivial

/-- The trace of a class comes as forecast, whatever a thread is asked to do. -/
theorem classScribe_sustains (cls : Nat) :
    (classScribe cls).Sustains (Forecast.monitor cls) P strict (Forecast.Rest cls) := by
  intro v v' request f idle rest started
  obtain ⟨settled,ledger⟩ := rest
  have ledger' := ledger.same started.same
  have sober := classScribe_sober cls
  cases request with
  | alloc inst layout =>
    obtain ⟨known,same⟩ := started
    have ready : Ready P strict v' inst ∅ ∅ := idle.ready v.pin same
    have pin : v'.pin = none := by rw [same]; exact idle.pin
    obtain ⟨f',asked,ledger₁,awaits⟩ := settled.asked ledger' layout
    refine ⟨f',asked,?_⟩
    have steps : (Request.alloc inst layout).code P = (Numalloc.alloc P inst layout).bind fun x =>
        (answer layout x).bind fun _ => act .finish := Prog.bind_assoc _ _ _
    rw [steps]
    exact Scribe.wp_both (wp_alloc ready) (wp_alloc_class ready ledger₁ awaits) fun x v'' f'' _ post book =>
      wp_answer_finish_class (post.settled ready pin) (post.book pin book)
  | allocZeroed inst layout =>
    obtain ⟨known,same⟩ := started
    have ready : Ready P strict v' inst ∅ ∅ := idle.ready v.pin same
    have pin : v'.pin = none := by rw [same]; exact idle.pin
    obtain ⟨f',asked,ledger₁,awaits⟩ := settled.asked ledger' layout
    refine ⟨f',asked,?_⟩
    have steps : (Request.allocZeroed inst layout).code P =
        (Numalloc.allocZeroed P inst layout).bind fun x =>
          (answer layout x).bind fun _ => act .finish := Prog.bind_assoc _ _ _
    rw [steps]
    exact Scribe.wp_both (wp_allocZeroed ready) (wp_allocZeroed_class ready ledger₁ awaits)
      fun x v'' f'' _ post book => wp_answer_finish_class (post.settled ready pin) (post.book pin book)
  | dealloc inst ptr layout =>
    obtain ⟨known,a,ptr',layout',inst',same⟩ := started
    have ready : Ready P strict v' inst ∅ ∅ := idle.ready _ same
    have operand : Operand v' inst ptr layout a := ⟨by rw [same],ptr',layout',inst'⟩
    refine ⟨f,rfl,?_⟩
    have steps : (Request.dealloc inst ptr layout).code P = ((act .release).bind fun _ =>
        Numalloc.dealloc inst ptr layout).bind fun _ => act .finish := rfl
    rw [steps]
    have spec : (allocLogic P strict).wp ((act .release).bind fun _ => Numalloc.dealloc inst ptr layout)
        (fun _ v' => Holds P strict v' ∅ ∅ ∧ v'.hand = none ∧ v'.dying = none) v' :=
      wp_release ready operand fun v₁ H₁ M₁ pin frame ready₁ returned =>
        wp_mono (wp_dealloc ready₁ returned) fun _ v₂ _ post =>
          ⟨post.2,post.1.hand.trans ready₁.hand,post.1.dying.trans ready₁.dying⟩
    have back : (classLogic cls P strict).wp ((act .release).bind fun _ => Numalloc.dealloc inst ptr layout)
        (fun _ w => Book cls none w) (v',some f) := by
      refine wp_giveBack_class ready operand ?_
      split
      · exact ⟨rfl,ledger'⟩
      · exact ⟨f,f,rfl,rfl,settled,ledger'⟩
    exact Scribe.wp_both spec back fun _ v₂ f₂ _ post book => wp_finish_class post book
  | realloc inst ptr layout newSize =>
    obtain ⟨known,a,ptr',layout',inst',same⟩ := started
    have ready : Ready P strict v' inst ∅ ∅ := idle.ready _ same
    have pin : v'.pin = some a := by rw [same]
    have operand : Operand v' inst ptr layout a := ⟨pin,ptr',layout',inst'⟩
    rw [realloc_code]
    cases resized : layout.resize newSize with
    | none =>
      refine ⟨f,by simp [classScribe,resized],?_⟩
      refine Scribe.wp_seq (wp_realloc ready operand) (wp_aside sober (realloc_aside resized))
        fun x v₁ f₁ _ post left => ?_
      rw [resized] at post
      obtain ⟨lists,now⟩ := left
      obtain rfl := Option.some.inj now
      exact wp_finish_class ⟨post.holds,post.hand,post.dying⟩ ⟨_,_,rfl,rfl,settled,ledger'.same lists⟩
    | some newLayout =>
      obtain ⟨f',asked,ledger₁,awaits⟩ : ∃ f', (Forecast.monitor cls).run f
          ((classScribe cls).asks (.realloc inst ptr layout newSize) v') = some f' ∧ Ledger cls f' v' ∧
          if sizeClassIndex newLayout.effective = some cls ∧ ¬a.inPlace cls = true then
            f'.waiting = true else f'.Settled := by
        by_cases waits : sizeClassIndex newLayout.effective = some cls ∧ ¬a.inPlace cls = true
        · refine ⟨{ f with waiting := true },?_,ledger'.waiting,by rw [if_pos waits]⟩
          simpa [classScribe,resized,pin,waits] using Monitor.run_single.trans (settled.ask cls)
        · refine ⟨f,?_,ledger',by rw [if_neg waits]; exact settled⟩
          simp only [classScribe,resized,pin,Option.any_some,decide_eq_true_eq]
          split
          · rw [if_pos (not_not.mp fun h => waits ⟨‹_›,h⟩)]
            rfl
          · rfl
      refine ⟨f',asked,?_⟩
      refine Scribe.wp_both (wp_realloc ready operand) (wp_realloc_class ready operand resized ledger₁ awaits)
        fun x v₁ f₁ _ post book => ?_
      rw [resized] at post
      exact wp_answer_finish_class post book
  | exit =>
    obtain rfl : v' = v := started
    refine ⟨f,rfl,?_⟩
    refine Scribe.wp_seq (wp_exitThread idle) (wp_exitThread_trail sober (classScribe_clears cls))
      fun _ v₁ f₁ always post calm => ?_
    exact wp_finish_class post (calm.book always rfl settled ledger)
  | drop inst =>
    refine ⟨f,rfl,?_⟩
    have holds : Holds P strict v' ∅ ∅ ∧ v'.dying = none := by
      rcases started with rfl | ⟨h,_,rfl⟩
      · exact ⟨idle.holds,idle.dying⟩
      · exact ⟨idle.holds.uncall (some h) v.call v.pin,idle.dying⟩
    refine Scribe.wp_seq (wp_dropInstance holds.1 holds.2) (wp_aside sober dropInstance_aside)
      fun _ v₁ f₁ _ post left => ?_
    obtain ⟨lists,now⟩ := left
    obtain rfl := Option.some.inj now
    exact wp_finish_class post ⟨_,_,rfl,rfl,settled,ledger'.same lists⟩

end Numalloc
