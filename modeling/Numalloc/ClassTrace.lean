import Numalloc.Trails
import Mathlib.Data.List.Infix

/-! One class in the cache of one thread: the events of its trace, what they say about the
next allocations, and what the lists must look like for that to come true. -/
namespace Numalloc

open Concurrent View

/-- What happens to the class: an allocation is asked for or handed out, the node's stack is
looked at or taken, a block is released that goes to the counted list or elsewhere, and
the cache is taken out of the slot. -/
inductive ClassEvent where
  | asked
  | gave (ptr : Nat)
  | looked
  | took (chain : List Nat)
  | freed (ptr : Nat)
  | freedAway (ptr : Nat)
  | switched
  deriving DecidableEq

open Classical in
/-- The chain that links of the view spell from a block on. -/
noncomputable def View.spelled (v : View) (head : Option Nat) : List Nat :=
  if h : ∃ l, Links v.link head l none then h.choose else []

theorem View.spelled_eq {v : View} {head : Option Nat} {l : List Nat}
    (chain : Links v.link head l none) : v.spelled head = l := by
  have some_ : ∃ l, Links v.link head l none := ⟨l,chain⟩
  rw [spelled,dif_pos some_]
  exact some_.choose_spec.unique chain

/-- The operand of a reallocation within the class, which stays where it is. -/
def Alloc.inPlace (a : Alloc) (cls : Nat) : Bool :=
  a.source = .slot ∧ a.ptr ≠ 0 ∧ sizeClassIndex a.layout.effective = some cls

/-- The events of one class in the trace of a thread. A reallocation within the class asks
for nothing and hands out nothing new. -/
noncomputable def classScribe (cls : Nat) : Scribe ClassEvent where
  note
    | .give ptr layout, v, _, _ =>
      if v.pin.isNone ∧ sizeClassIndex layout.effective = some cls then [.gave ptr] else []
    | .loadHead k, v, _, _ => if v.home cls = some k then [.looked] else []
    | .casHead k current new, v, done, v' =>
      if v.home cls = some k then
        if done = true ∧ (TreiberStack.unpack new).1 = none then
          [.took (v'.spelled (TreiberStack.unpack current).1)]
        else [.looked]
      else []
    | .slotTake _, _, _, _ => [.switched]
    | .release, v, _, v' => match v.pin with
      | some a =>
        if a.inPlace cls then
          if (v'.ref a.ptr).isSome ∧ v'.ref a.ptr = v'.home cls then [.freed a.ptr]
          else [.freedAway a.ptr]
        else []
      | none => []
    | _, _, _, _ => []
  asks
    | .alloc _ layout, _ | .allocZeroed _ layout, _ =>
      if sizeClassIndex layout.effective = some cls then [.asked] else []
    | .realloc _ _ layout newSize, v =>
      if (layout.resize newSize).any fun l => sizeClassIndex l.effective = some cls then
        if v.pin.any fun a => a.inPlace cls then [] else [.asked]
      else []
    | _, _ => []

/-- What a trace says about the next allocations: the blocks they must return, whether
nothing else is cached, and whether an allocation is being waited for. -/
structure Forecast where
  next : List Nat
  whole : Bool
  waiting : Bool
  deriving DecidableEq

namespace Forecast

/-- Nothing is known. -/
def blank : Forecast := ⟨[],false,false⟩

def after (cls : Nat) (f : Forecast) : ClassEvent → Option Forecast
  | .asked => if f.waiting = true ∧ (f.whole = true ∨ f.next ≠ []) then none
      else some { f with waiting := true }
  | .gave ptr =>
    match f.next with
    | b :: rest => if f.waiting = true ∧ ptr = b then some ⟨rest,f.whole,false⟩ else none
    | [] => if f.waiting = true ∧ f.whole = false then some ⟨[],false,false⟩ else none
  | .looked => if f.whole = true ∧ (f.waiting = false ∨ f.next ≠ []) then none
      else some { f with whole := false }
  | .took chain => if f.next = [] ∧ f.waiting = true ∧ f.whole = false then some ⟨chain,true,true⟩
      else none
  | .freed ptr =>
    some ⟨(ptr :: if f.whole then [] else f.next).take (maxThreadCache cls / 2),false,false⟩
  | .freedAway _ => some ⟨[],false,false⟩
  | .switched => some ⟨[],false,f.waiting⟩

/-- Accepts a trace as long as it comes as forecast. -/
def monitor (cls : Nat) : Monitor ClassEvent Forecast := ⟨after cls⟩

/-- The lists of the class agree with the forecast. -/
def Fits (f : Forecast) (l sp : List Nat) : Prop :=
  if f.whole then l ++ sp = f.next else f.next <+: l

/-- No allocation that must return a block is outstanding. -/
def Settled (f : Forecast) : Prop := f.waiting = true → f.whole = false ∧ f.next = []

variable {f : Forecast} {cls b : Nat} {l sp : List Nat}

theorem Fits.nil (fits : f.Fits [] []) : f.next = [] := by
  unfold Fits at fits
  split at fits
  · exact fits.symm
  · exact List.prefix_nil.mp fits

/-- The head of the lists is what must be handed out, and the rest agrees with what is then
forecast. -/
theorem Fits.give (fits : f.Fits l sp) (waiting : f.waiting = true) {l' sp' : List Nat}
    (head : l ++ sp = b :: (l' ++ sp')) (counted : f.whole = false → l = b :: l' ∨ l = []) :
    ∃ f', f.after cls (.gave b) = some f' ∧ f'.Settled ∧ f'.Fits l' sp' := by
  unfold Fits at fits
  cases whole : f.whole with
  | true =>
    rw [if_pos whole] at fits
    have next : f.next = b :: (l' ++ sp') := fits.symm.trans head
    exact ⟨⟨l' ++ sp',true,false⟩,by simp [after,next,waiting,whole],nofun,by simp [Fits]⟩
  | false =>
    rw [if_neg (by simp [whole])] at fits
    cases next : f.next with
    | nil => exact ⟨⟨[],false,false⟩,by simp [after,next,waiting,whole],nofun,by simp [Fits]⟩
    | cons x rest =>
      rw [next] at fits
      rcases counted whole with rfl | rfl
      · obtain ⟨rfl,rest_⟩ := List.cons_prefix_cons.mp fits
        exact ⟨⟨rest,false,false⟩,by simp [after,next,waiting,whole],nofun,by simpa [Fits] using rest_⟩
      · simp at fits

end Forecast

/-- As many blocks of a class as a counted list holds between operations. -/
def cacheBound (cls : Nat) : Nat := max (maxThreadCache cls) (objectsPerBag cls - 1)

theorem refillBatch_cacheBound (cls : Nat) : refillBatch - 1 ≤ cacheBound cls := by
  have : refillBatch ≤ maxThreadCache cls := by
    simp only [maxThreadCache]
    split
    · decide
    · split
      · decide
      · exact not_lt.mp ‹_›
  exact (Nat.sub_le _ _).trans (this.trans (Nat.le_max_left _ _))

def Bounded (L : Nat → List Nat) : Prop := ∀ c, (L c).length ≤ cacheBound c

/-- The chains that spell a cache's lists. -/
structure Shelf (v : View) (th : PerThreadHeap) (L S : Nat → List Nat) : Prop where
  counted : ∀ c, Links v.link (th.freelists c).head (L c) none
  spare : ∀ c, Links v.link (th.freelists c).spare (S c) none

/-- A cache whose lists are bounded and agree with the forecast; without a cache, nothing is
forecast. -/
structure Ledger (cls : Nat) (f : Forecast) (v : View) : Prop where
  cached : ∀ {th}, v.slot = .alive th →
    ∃ L S, Shelf v th L S ∧ Bounded L ∧ f.Fits (L cls) (S cls)
  bare : (∀ th, v.slot ≠ .alive th) → f.next = [] ∧ f.whole = false

variable {P : Platform} {strict : Bool} {v v' : View} {th th' : PerThreadHeap} {r : HeapRef}
  {L S L' S' : Nat → List Nat} {C : List Nat} {H M : Set Nat} {cls : Nat} {f : Forecast}

namespace Shelf

theorem unique (shelf : Shelf v th L S) (other : Shelf v th L' S') : L = L' ∧ S = S' :=
  ⟨funext fun c => (shelf.counted c).unique (other.counted c),
    funext fun c => (shelf.spare c).unique (other.spare c)⟩

theorem mono (shelf : Shelf v th L S) (lists : th'.freelists = th.freelists)
    (link : ∀ {c b n}, b ∈ L c ++ S c → v.link b = some n → v'.link b = some n) :
    Shelf v' th' L S where
  counted c := by
    rw [lists]
    exact (shelf.counted c).mono fun b mem _ => link (List.mem_append_left _ mem)
  spare c := by
    rw [lists]
    exact (shelf.spare c).mono fun b mem _ => link (List.mem_append_right _ mem)

/-- Lists without a head have no blocks. -/
theorem nil (shelf : Shelf v th L S) (empty : v.Emptied) (alive : v.slot = .alive th) (c : Nat) :
    L c = [] ∧ S c = [] := by
  obtain ⟨head,spare⟩ := empty th alive c
  exact ⟨List.head?_eq_none_iff.mp ((shelf.counted c).head.symm.trans head),
    List.head?_eq_none_iff.mp ((shelf.spare c).head.symm.trans spare)⟩

end Shelf

theorem Own.home (own : Own P strict v th r L S C H M) (cls : Nat) :
    v.home cls = some ⟨r.handle.addr,th.nodeId,cls⟩ := by
  rw [View.home,own.present.1,← own.present.2.2]

theorem Stock.shelf (stock : Stock P strict v th L S C H M) : Shelf v th L S :=
  ⟨stock.cached.counted,stock.cached.spare⟩

namespace Bounded

theorem nil : Bounded fun _ => [] := fun _ => Nat.zero_le _

theorem replace {l : List Nat} {c : Nat} (bounded : Bounded L) (le : l.length ≤ cacheBound c) :
    Bounded (replace L c l) := by
  intro d
  by_cases same : d = c
  · subst same
    simpa using le
  · rw [replace_other same]
    exact bounded d

end Bounded

namespace Ledger

theorem of_own (own : Own P strict v th r L S C H M) (bounded : Bounded L)
    (fits : f.Fits (L cls) (S cls)) : Ledger cls f v where
  cached alive := by
    obtain rfl := ThreadHeapSlot.alive.inj (own.present.1.symm.trans alive)
    exact ⟨L,S,own.stock.shelf,bounded,fits⟩
  bare none_ := absurd own.present.1 (none_ th)

theorem own (ledger : Ledger cls f v) (own : Own P strict v th r L S C H M) :
    Bounded L ∧ f.Fits (L cls) (S cls) := by
  obtain ⟨L',S',shelf,bounded,fits⟩ := ledger.cached own.present.1
  obtain ⟨rfl,rfl⟩ := shelf.unique own.stock.shelf
  exact ⟨bounded,fits⟩

theorem same (ledger : Ledger cls f v) (same : SameLists v v') : Ledger cls f v' where
  cached alive' := by
    obtain ⟨th,alive,lists,_⟩ := same.alive alive'
    obtain ⟨L,S,shelf,bounded,fits⟩ := ledger.cached alive
    exact ⟨L,S,shelf.mono lists fun _ => same.link,bounded,fits⟩
  bare none_ := ledger.bare (same.bare none_)

/-- Without lists, nothing is forecast. -/
theorem emptied (empty : v.Emptied) (always : (allocLogic P strict).always v)
    (next : f.next = []) (whole : f.whole = false) : Ledger cls f v where
  cached {th} alive := by
    obtain ⟨L,S,C,cached⟩ := always.2 th alive
    have shelf : Shelf v th L S := ⟨cached.counted,cached.spare⟩
    have nil := shelf.nil empty alive
    obtain rfl : L = fun _ => [] := funext fun c => (nil c).1
    obtain rfl : S = fun _ => [] := funext fun c => (nil c).2
    exact ⟨_,_,shelf,.nil,by simp [Forecast.Fits,next,whole]⟩
  bare _ := ⟨next,whole⟩

/-- Nothing need be forecast. -/
theorem forget {waiting : Bool} (ledger : Ledger cls f v) : Ledger cls ⟨[],false,waiting⟩ v where
  cached alive := by
    obtain ⟨L,S,shelf,bounded,_⟩ := ledger.cached alive
    exact ⟨L,S,shelf,bounded,by simp [Forecast.Fits]⟩
  bare _ := ⟨rfl,rfl⟩

/-- What an operation does with the blocks in its hands does not matter. -/
theorem loose (ledger : Ledger cls f v) (holds : Holds P strict v H M) (slot : v'.slot = v.slot)
    (link : ∀ b, b ∉ H → ∀ n, v.link b = some n → v'.link b = some n) : Ledger cls f v' where
  cached alive := by
    rw [slot] at alive
    rcases holds with ⟨th',L,S,C,alive',stock⟩ | bare
    · obtain rfl := ThreadHeapSlot.alive.inj (alive'.symm.trans alive)
      obtain ⟨L',S',shelf,bounded,fits⟩ := ledger.cached alive
      obtain ⟨rfl,rfl⟩ := shelf.unique stock.shelf
      refine ⟨L',S',shelf.mono rfl fun {c b n} mem => ?_,bounded,fits⟩
      exact link b (fun loose => stock.notCached loose c mem) n
    · exact absurd alive (bare.slot _)
  bare none_ := ledger.bare (by rwa [slot] at none_)

end Ledger

end Numalloc
