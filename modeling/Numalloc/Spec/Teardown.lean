import Numalloc.Spec.Mappings
import Numalloc.Spec.Stacks

/-! Taking a cache apart: its lists go back to the stacks of its node, its reference is
given up, and its mappings are unmapped. -/
namespace Numalloc

open Concurrent View Logic

variable {P : Platform} {strict : Bool} {v v' : View} {th g : PerThreadHeap} {r : HeapRef}
  {L S : Nat → List Nat} {C : List Nat} {H H' M : Set Nat} {k : StackRef} {c first last : Nat}
  {l : List Nat}

/-- A cache that is no longer in the slot. -/
structure Taken (P : Platform) (strict : Bool) (v : View) (th : PerThreadHeap)
    (L S : Nat → List Nat) (C : List Nat) (H M : Set Nat) : Prop where
  stock : Stock P strict v th L S C H M
  slot : ∀ th', v.slot ≠ .alive th'

theorem Taken.always (taken : Taken P strict v th L S C H M) : (allocLogic P strict).always v :=
  taken.stock.always fun th' alive => absurd alive (taken.slot th')

theorem Taken.without (taken : Taken P strict v th L S C H M) (sub : ∀ b ∈ l, b ∈ H) :
    Taken P strict (v.without l) th L S C (H \ {b | b ∈ l}) M :=
  ⟨taken.stock.without sub,taken.slot⟩

theorem without_append (gone gone' : List Nat) :
    (v.without gone).without gone' = v.without (gone ++ gone') := by
  ext1 <;> try rfl
  funext b
  by_cases first : b ∈ gone <;> by_cases second : b ∈ gone' <;> simp [View.without,first,second]

theorem without_nil : v.without [] = v := by ext1 <;> rfl

/-- The walk to the end of an owned chain. -/
theorem wp_walkTail (always : (allocLogic P strict).always v) (nonempty : l ≠ [])
    (chain : Links v.link (some first) l none) :
    (allocLogic P strict).wp (walkTail first)
      (fun tail v' => v' = v ∧ l.getLast? = some tail) v := by
  refine wp_iter (fun tail v' => v' = v ∧ ∃ front back, l = front ++ [tail] ++ back) always ?_
    fun tail v' inv => ?_
  · cases l with
    | nil => contradiction
    | cons b rest =>
      obtain rfl := Option.some.inj chain.head_cons
      exact ⟨rfl,[],rest,rfl⟩
  obtain ⟨rfl,front,back,rfl⟩ := inv
  obtain ⟨x,before,after⟩ := links_append.mp chain
  obtain ⟨y,_,_,next,link,same⟩ := links_append.mp before
  obtain rfl := links_nil.mp same
  refine wp_act always ⟨_,link⟩ fun next v'' st => ?_
  obtain ⟨rfl,link'⟩ := st
  obtain rfl := Option.some.inj (link.symm.trans link')
  cases next with
  | some n =>
    cases back with
    | nil => exact absurd after (by simp)
    | cons b back =>
      obtain rfl := Option.some.inj after.head_cons
      exact ⟨always,rfl,front ++ [tail],back,by simp⟩
  | none =>
    obtain rfl : back = [] := List.head?_eq_none_iff.mp after.head.symm
    exact ⟨always,rfl,by simp⟩

theorem links_drainAll_none {fl : ThreadFreelist} (empty : fl.count = 0) :
    links fl.drainAll = .ret (none,fl) := by
  simp only [links,ThreadFreelist.drainAll,if_pos empty]
  rfl

theorem links_drainAll_some {fl : ThreadFreelist} (counted : fl.count ≠ 0)
    (head : fl.head = some first) (tail : fl.tail = some last) : links fl.drainAll =
      .ret (some (first,last,fl.count), { fl with head := none, tail := none, count := 0 }) := by
  simp only [links,ThreadFreelist.drainAll,if_neg counted,head,tail]
  rfl

/-- The spare chain of a class, handed to the operation. -/
theorem Stock.unparked (stock : Stock P strict v th L S C H M) (c : Nat) :
    Stock P strict v { th with freelists := replace th.freelists c { th.freelists c with
      spare := none } } L (replace S c []) C (H ∪ {b | b ∈ S c}) M := by
  have nodup := List.nodup_append.mp (stock.cached.nodup c)
  have unparked := stock.setFreelist c { th.freelists c with spare := none } (L c) []
    (H ∪ {b | b ∈ S c}) (stock.cached.counted c) rfl (stock.tight c)
    (by simpa using nodup.1)
    (fun b h => stock.cached.ref (List.mem_append_left _ (by simpa using h))) ?_ fun b h =>
      Or.inr (List.mem_append_left _ (by simpa using h))
  · rwa [replace_self] at unparked
  · intro b
    have out := fun h : b ∈ H => stock.notCached h c
    have unique : b ∈ L c → b ∉ S c := fun h h' => nodup.2.2 b h b h' rfl
    simp only [List.append_nil,Set.mem_union,Set.mem_ofPred_eq,List.mem_append] at out ⊢
    tauto

theorem dropClass_eq (th : PerThreadHeap) (c : Nat) : dropClass th c =
    (links (th.freelists c).drainAll).bind fun x =>
      (match x.1 with
        | some (head,tail,_) =>
          onStack ⟨th.globalHeap.addr,th.nodeId,c⟩ (TreiberStack.pushChain head tail)
        | none => .ret ()).bind fun _ => match x.2.spare with
          | some head => (walkTail head).bind fun tail =>
              onStack ⟨th.globalHeap.addr,th.nodeId,c⟩ (TreiberStack.pushChain head tail)
          | none => .ret () := by
  unfold dropClass
  refine congrArg _ ?_
  funext x
  obtain ⟨_ | _,fl⟩ := x <;> rfl

/-- Publishing what a destroyed cache held. -/
theorem Taken.publish (taken : Taken P strict v g L S C (H ∪ {b | b ∈ l}) M)
    (apart : ∀ b ∈ l, b ∉ H) (keeps : v.Keeps k.heap) (held : Held v k first last l {b | b ∈ l}) :
    (allocLogic P strict).wp (onStack k (TreiberStack.pushChain first last))
      (fun _ v' => v' = v.without l ∧ Taken P strict v' g L S C H M) v := by
  have held' : Held v k first last l (H ∪ {b | b ∈ l}) :=
    ⟨held.links,held.nodup,held.ref,fun b h => Or.inr h⟩
  refine wp_mono (wp_publish taken.stock (fun th' alive => absurd alive (taken.slot th')) keeps
    held') fun _ v' _ gone => ⟨gone,?_⟩
  have rest : (H ∪ {b | b ∈ l}) \ {b | b ∈ l} = H := by
    ext b
    have := apart b
    simp only [Set.mem_sdiff,Set.mem_union,Set.mem_ofPred_eq]
    tauto
  have left := taken.without (l := l) fun b h => Or.inr h
  rw [rest] at left
  exact gone ▸ left

/-- The counted list of a class goes to the class's stack on the cache's node. -/
theorem wp_dropCounted {fls : Nat → ThreadFreelist}
    (taken : Taken P strict v { th with freelists := fls } L S C H M)
    (keeps : v.Keeps th.globalHeap.addr) :
    ∃ x, links (fls c).drainAll = .ret x ∧ x.2.spare = (fls c).spare ∧
      (allocLogic P strict).wp (match x.1 with
        | some (head,tail,_) =>
          onStack ⟨th.globalHeap.addr,th.nodeId,c⟩ (TreiberStack.pushChain head tail)
        | none => .ret ()) (fun _ v' => v' = v.without (L c) ∧ Taken P strict v' { th with
          freelists := replace fls c { fls c with head := none, tail := none, count := 0 } }
          (replace L c []) S C H M) v := by
  have nodup := List.nodup_append.mp (taken.stock.cached.nodup c)
  have counted := taken.stock.cached.counted c
  have emptied := taken.stock.emptied c
  obtain ⟨count,tail⟩ := taken.stock.tight c
  simp only at counted count tail
  by_cases empty : L c = []
  · rw [empty] at count
    refine ⟨_,links_drainAll_none count,rfl,taken.always,by rw [empty,without_nil],?_,taken.slot⟩
    simpa [empty] using emptied
  have positive : (fls c).count ≠ 0 := by
    rw [count]
    exact fun zero => empty (List.length_eq_zero_iff.mp zero)
  obtain ⟨first,head⟩ : ∃ first, (fls c).head = some first := by
    rw [counted.head]
    exact Option.ne_none_iff_exists'.mp fun none_ => empty (List.head?_eq_none_iff.mp none_)
  obtain ⟨last,end_⟩ : ∃ last, (L c).getLast? = some last :=
    Option.ne_none_iff_exists'.mp fun none_ => empty (List.getLast?_eq_none_iff.mp none_)
  have mine : ∀ b ∈ L c, b ∈ L c ++ S c := fun b h => List.mem_append_left _ h
  refine ⟨_,links_drainAll_some positive head (tail.trans end_),rfl,?_⟩
  exact Taken.publish ⟨emptied,taken.slot⟩
    (fun b h h' => taken.stock.notCached h' c (mine b h)) keeps
    (.whole (head ▸ counted) end_ nodup.1 (fun b h => taken.stock.cached.ref (mine b h))
      fun b h => h)

/-- So does its spare chain. -/
theorem wp_dropSpare {fls : Nat → ThreadFreelist}
    (taken : Taken P strict v { th with freelists := fls } L S C H M)
    (keeps : v.Keeps th.globalHeap.addr) :
    (allocLogic P strict).wp (match (fls c).spare with
      | some head => (walkTail head).bind fun tail =>
          onStack ⟨th.globalHeap.addr,th.nodeId,c⟩ (TreiberStack.pushChain head tail)
      | none => .ret ()) (fun _ v' => v' = v.without (S c) ∧ Taken P strict v' { th with
        freelists := replace fls c { fls c with spare := none } } L (replace S c []) C H M) v := by
  have nodup := List.nodup_append.mp (taken.stock.cached.nodup c)
  have parked := taken.stock.cached.spare c
  have mine : ∀ b ∈ S c, b ∈ L c ++ S c := fun b h => List.mem_append_right _ h
  simp only at parked
  cases spare : (fls c).spare with
  | none =>
    rw [spare] at parked
    have empty : S c = [] := List.head?_eq_none_iff.mp parked.head.symm
    have unchanged := taken.stock.unparked c
    refine ⟨taken.always,by rw [empty,without_nil],?_,taken.slot⟩
    simpa [empty] using unchanged
  | some head =>
    rw [spare] at parked
    have nonempty : S c ≠ [] := fun empty => by
      rw [empty] at parked
      exact absurd parked (by simp)
    refine wp_seq (wp_walkTail taken.always nonempty parked) fun tail v' _ post => ?_
    obtain ⟨rfl,end_⟩ := post
    exact Taken.publish ⟨taken.stock.unparked c,taken.slot⟩
      (fun b h h' => taken.stock.notCached h' c (mine b h)) keeps
      (.whole parked end_ nodup.2.1 (fun b h => taken.stock.cached.ref (mine b h)) fun b h => h)

theorem wp_dropClass {fls : Nat → ThreadFreelist}
    (taken : Taken P strict v { th with freelists := fls } L S C H M)
    (keeps : v.Keeps th.globalHeap.addr) (same : fls c = th.freelists c) :
    (allocLogic P strict).wp (dropClass th c) (fun _ v' => ∃ gone fls', v' = v.without gone ∧
      (∀ b ∈ gone, b ∉ H) ∧ (∀ c', c' ≠ c → fls' c' = fls c') ∧
      Taken P strict v' { th with freelists := fls' } (replace L c []) (replace S c []) C H M) v := by
  have out : ∀ b ∈ L c ++ S c, b ∉ H := fun b h h' => taken.stock.notCached h' c h
  obtain ⟨x,drained,spare,counted⟩ := wp_dropCounted taken keeps (c := c)
  rw [dropClass_eq,← same,drained,Prog.bind_ret,spare]
  refine wp_seq counted fun _ v₁ _ post => ?_
  obtain ⟨rfl,taken₁⟩ := post
  have spare₁ := wp_dropSpare taken₁ keeps (c := c)
  simp only [replace_same] at spare₁
  refine wp_mono spare₁ fun _ v₂ _ post => ?_
  obtain ⟨gone,taken₂⟩ := post
  refine ⟨L c ++ S c,_,by rw [gone,without_append],out,fun c' ne => ?_,taken₂⟩
  rw [replace_other ne,replace_other ne]

/-- All lists of a cache are returned; what else the thread holds stays. -/
theorem wp_dropClasses {classes : List Nat} : ∀ {v : View} {L S : Nat → List Nat}
    (fls : Nat → ThreadFreelist), Taken P strict v { th with freelists := fls } L S C H M →
    v.Keeps th.globalHeap.addr → classes.Nodup → (∀ c ∈ classes, fls c = th.freelists c) →
    (allocLogic P strict).wp (dropClasses th classes) (fun _ v' => ∃ gone fls' L' S',
      v' = v.without gone ∧ (∀ b ∈ gone, b ∉ H) ∧
      Taken P strict v' { th with freelists := fls' } L' S' C H M ∧
      ∀ c, (c ∈ classes ∨ L c ++ S c = []) → L' c ++ S' c = []) v := by
  induction classes with
  | nil =>
    intro v L S fls taken keeps _ _
    exact ⟨taken.always,[],fls,L,S,without_nil.symm,by simp,taken,by simp⟩
  | cons c classes ih =>
    intro v L S fls taken keeps nodup same
    have step : dropClasses th (c :: classes) = (dropClass th c).bind fun _ =>
        dropClasses th classes := rfl
    rw [step]
    obtain ⟨fresh,nodup⟩ := List.nodup_cons.mp nodup
    refine wp_seq (wp_dropClass taken keeps (same c List.mem_cons_self)) fun _ v₁ _ post => ?_
    obtain ⟨gone,fls₁,rfl,out,other,taken₁⟩ := post
    refine wp_mono (ih _ taken₁ keeps nodup fun c' mem => ?_) fun _ v₂ _ post => ?_
    · have ne : c' ≠ c := fun same => fresh (same ▸ mem)
      rw [other c' ne]
      exact same c' (List.mem_cons_of_mem _ mem)
    obtain ⟨gone',fls₂,L',S',rfl,out',taken₂,empty⟩ := post
    refine ⟨gone ++ gone',fls₂,L',S',without_append gone gone',fun b h => ?_,taken₂,fun c' h => ?_⟩
    · exact (List.mem_append.mp h).elim (out b) (out' b)
    · refine empty c' ?_
      by_cases same : c' = c
      · subst same
        simp
      · simpa [replace_other same,same] using h

/-! Giving up a reference. -/

theorem Cached.grow (cached : Cached strict v th L S C) (blocks : v'.blocks = v.blocks)
    (maps : ∀ {id m}, v.maps id = some m → v'.maps id = some m) : Cached strict v' th L S C := by
  have link : v'.link = v.link := funext fun b => by simp only [View.link,blocks]
  refine ⟨fun c => link ▸ cached.counted c,fun c => link ▸ cached.spare c,cached.nodup,fun h => ?_,
    cached.large.imp fun entry id parked => ?_,cached.ids,cached.cache⟩
  · simpa only [View.ref,blocks] using cached.ref h
  · obtain ⟨m,found,facts⟩ := parked
    exact ⟨m,maps found,facts⟩

theorem always_unhand {h : HeapHandle} (dying : Option Nat) {maps : Nat → Option Mapping}
    (always : (allocLogic P strict).always v) (hand : v.hand = some h)
    (kept : ∀ b B, v.blocks b = some B → B.ref.heap = h.addr →
      ({ v with hand := none } : View).Keeps h.addr)
    (ok : ∀ {id m}, maps id = some m → MapOk P m)
    (grow : ∀ {id m}, v.maps id = some m → maps id = some m) :
    (allocLogic P strict).always { v with hand := none, dying := dying, maps := maps } := by
  obtain ⟨sane,cached⟩ := always
  refine ⟨⟨sane.user,sane.cls,fun b B block => ?_,ok⟩,fun th alive => ?_⟩
  · rcases sane.rooted b B block with call | slot | ⟨h',hand',addr⟩
    · exact Or.inl call
    · exact Or.inr (Or.inl slot)
    · obtain rfl := Option.some.inj (hand.symm.trans hand')
      have keeps := kept b B block addr.symm
      rw [addr] at keeps
      exact keeps
  · obtain ⟨L,S,C,chains⟩ := cached th alive
    exact ⟨L,S,C,chains.grow rfl grow⟩

theorem dropHandle_eq (h : HeapHandle) : dropHandle h = (act (.fetchSubRefs h)).bind fun previous =>
    if previous = 1 then (act (.extent h)).bind fun x => (act (.munmap x.1 x.2)).bind fun _ =>
      act (.sysDealloc h)
    else .ret () := rfl

/-- The last handle takes the heap's mapping with it; either way nothing else changes. -/
theorem wp_dropHandle {h : HeapHandle} (always : (allocLogic P strict).always v)
    (hand : v.hand = some h) (dying : v.dying = none)
    (large : ∀ {id m}, v.maps id = some m → ∃ i, m.use = .large i)
    (kept : ∀ b B, v.blocks b = some B → B.ref.heap = h.addr →
      ({ v with hand := none } : View).Keeps h.addr) :
    (allocLogic P strict).wp (dropHandle h) (fun _ v' => v' = { v with hand := none }) v := by
  rw [dropHandle_eq]
  have plain := always_unhand v.dying always hand kept always.1.maps id
  refine wp_act always ⟨hand,dying,kept⟩ fun previous v' st => ?_
  by_cases last : previous = 1
  · simp only [step,if_pos last] at st
    obtain ⟨_,id,m,fresh,ok,use,rfl⟩ := st
    have grow : ∀ {id' m'}, v.maps id' = some m' → replace v.maps id (some m) id' = some m' := by
      intro id' m' found
      have ne : id' ≠ id := fun same => by
        rw [same,fresh] at found
        contradiction
      rw [replace_other ne]
      exact found
    have ok' : ∀ {id' m'}, replace v.maps id (some m) id' = some m' → MapOk P m' := by
      intro id' m' found
      by_cases same : id' = id
      · subst same
        rw [replace_same] at found
        exact Option.some.inj found ▸ ok
      · rw [replace_other same] at found
        exact always.1.maps found
    have dead := always_unhand (some h.addr) always hand kept ok' grow
    rw [if_pos last]
    refine wp_act dead rfl fun x v' st => ?_
    obtain ⟨rfl,extent⟩ := st
    obtain ⟨base,size⟩ := extent id m replace_same use
    refine wp_act dead ⟨id,m,replace_same,base,size⟩ fun _ v' st => ?_
    obtain ⟨id',m',at_,_,rfl⟩ := st
    obtain rfl := at_.only id m replace_same base
    have back : replace (replace v.maps id (some m)) id none = v.maps := by
      rw [replace_twice,← fresh,replace_self]
    simp only [setMap,back]
    have dying' := always_unhand (some h.addr) always hand kept always.1.maps fun found => found
    refine wp_call dying' ⟨rfl,fun id' m' i found use' => ?_⟩ fun _ v' st => ?_
    · obtain ⟨j,use''⟩ := large found
      rw [use''] at use'
      contradiction
    · obtain rfl : v' = _ := st
      rw [dying] at plain
      exact ⟨plain,by rw [dying]⟩
  · simp only [step,if_neg last] at st
    subst st
    rw [if_neg last]
    exact ⟨plain,rfl⟩

/-! Unmapping what was cached. -/

/-- The rest of a cache after its first entry is unmapped. -/
theorem Taken.evicted {id : Nat} {ids : List Nat} {entry : LargeCacheEntry}
    {entries : List LargeCacheEntry} {bytes : Nat}
    (taken : Taken P strict v { th with largeCache := ⟨entry :: entries,bytes⟩ } L S (id :: ids) H M) :
    Taken P strict (v.setMap id none) { th with largeCache := ⟨entries,bytes - entry.allocSize⟩ }
      L S ids H M := by
  obtain ⟨fresh,nodup⟩ := List.nodup_cons.mp taken.stock.cached.ids
  cases taken.stock.cached.large with
  | cons _ rest =>
    have outside : id ∉ M := fun mem => taken.stock.notCachedMap mem List.mem_cons_self
    have ok := taken.stock.cached.cache.remove (.refl _)
    have moved := taken.stock.setCache (insert id M) rest nodup ok ?_
    · have gone := moved.dropMap (Set.mem_insert id M)
      rw [Set.insert_sdiff_self_of_notMem outside] at gone
      exact ⟨gone,taken.slot⟩
    · intro id'
      have other := fun h : id' ∈ M => taken.stock.notCachedMap h
      rw [Set.mem_insert_iff]
      rw [List.mem_cons] at other ⊢
      constructor
      · rintro (rfl | mem)
        · exact ⟨Or.inr (Or.inl rfl),fresh⟩
        · exact ⟨Or.inl mem,fun h => other mem (Or.inr h)⟩
      · tauto

theorem wp_flush (th : PerThreadHeap) {entries : List LargeCacheEntry} : ∀ {v : View} {ids : List Nat} {bytes : Nat},
    Taken P strict v { th with largeCache := ⟨entries,bytes⟩ } L S ids H M →
    (allocLogic P strict).wp (flush entries) (fun _ v' => v' = { v with maps := v'.maps } ∧
      (∀ id, id ∉ ids → v'.maps id = v.maps id) ∧
      ∃ cache, Taken P strict v' { th with largeCache := cache } L S [] H M) v := by
  induction entries with
  | nil =>
    intro v ids bytes taken
    cases taken.stock.cached.large
    exact ⟨taken.always,rfl,fun _ _ => rfl,_,taken⟩
  | cons entry entries ih =>
    intro v ids bytes taken
    have step : flush (entry :: entries) = (act (.munmap entry.originalPtr entry.allocSize)).bind
        fun _ => flush entries := rfl
    rw [step]
    cases ids with
    | nil =>
      have large := taken.stock.cached.large
      simp at large
    | cons id ids =>
      obtain ⟨⟨m,found,base,size,_⟩,_⟩ := List.forall₂_cons.mp taken.stock.cached.large
      refine wp_act taken.always ⟨id,m,found,base,size⟩ fun _ v' st => ?_
      obtain ⟨id',m',at_,_,rfl⟩ := st
      obtain rfl := at_.only id m found base
      refine wp_mono (ih taken.evicted) fun _ v' _ post => ?_
      obtain ⟨same,other,rest⟩ := post
      refine ⟨same,fun id' out => ?_,rest⟩
      rw [List.mem_cons,not_or] at out
      rw [other id' out.2,setMap_other out.1]

/-- A cache that has nothing left is no cache. -/
theorem Taken.bare (taken : Taken P strict v th L S [] H M) (empty : ∀ c, L c ++ S c = []) :
    Bare P v H M where
  slot := taken.slot
  sane := taken.stock.sane
  loose {b} := by
    rw [taken.stock.loose]
    simp [empty]
  looseMap {id} := by
    rw [taken.stock.looseMap]
    simp
  uses found := taken.stock.large found

/-- Classes that do not exist have no lists. -/
theorem Stock.few (stock : Stock P strict v th L S C H M) (big : numSizeClasses ≤ c) :
    L c ++ S c = [] := by
  refine List.eq_nil_iff_forall_not_mem.mpr fun b mem => ?_
  obtain ⟨B,block,ref⟩ := block_of_ref (stock.cached.ref mem)
  have small := stock.sane.cls block
  rw [ref] at small
  exact absurd small (Nat.not_lt.mpr big)

/-- Nothing of the cache stays with the thread; what the operation holds does. -/
theorem wp_dropThreadHeap (taken : Taken P strict v th L S C H M)
    (hand : v.hand = some th.globalHeap) (dying : v.dying = none)
    (carried : ∀ b ∈ H, ∀ B, v.blocks b = some B →
      ∃ r, v.call.heap = some r ∧ r.handle.addr = B.ref.heap) :
    (allocLogic P strict).wp (dropThreadHeap th) (fun _ v' => Bare P v' H M ∧
      v' = { v with hand := none, blocks := v'.blocks, maps := v'.maps } ∧
      (∀ b ∈ H, v'.blocks b = v.blocks b) ∧ ∀ id ∈ M, v'.maps id = v.maps id) v := by
  have steps : dropThreadHeap th = (dropClasses th (List.range numSizeClasses)).bind fun _ =>
      (dropHandle th.globalHeap).bind fun _ => flush th.largeCache.entries := rfl
  rw [steps]
  have keeps : v.Keeps th.globalHeap.addr := Or.inr (Or.inr ⟨_,hand,rfl⟩)
  refine wp_seq (wp_dropClasses th.freelists taken keeps List.nodup_range fun _ _ => rfl)
    fun _ v₁ always₁ post => ?_
  obtain ⟨gone,fls,L',S',rfl,out,taken₁,emptied⟩ := post
  have empty : ∀ c, L' c ++ S' c = [] := by
    intro c
    by_cases small : c < numSizeClasses
    · exact emptied c (Or.inl (List.mem_range.mpr small))
    · exact emptied c (Or.inr (taken.stock.few (by omega)))
  refine wp_seq (wp_dropHandle always₁ hand dying taken₁.stock.large fun b B block _ => ?_)
    fun _ v₂ always₂ post => ?_
  · have loose : b ∈ H := taken₁.stock.loose.mpr ⟨⟨B,block⟩,fun c => by simp [empty c]⟩
    obtain ⟨r,call,addr⟩ := carried b loose B (without_block block)
    exact Or.inl ⟨r,call,by rw [addr]; assumption⟩
  · subst post
    have taken₂ : Taken P strict { v.without gone with hand := none }
        { th with freelists := fls } L' S' C H M :=
      ⟨taken₁.stock.reslot always₂.1.rooted,taken₁.slot⟩
    refine wp_mono (wp_flush { th with freelists := fls } taken₂) fun _ v₃ _ post => ?_
    obtain ⟨same,maps,cache,taken₃⟩ := post
    have blocks : v₃.blocks = (v.without gone).blocks := by rw [same]
    refine ⟨taken₃.bare empty,?_,fun b mem => ?_,fun id mem => ?_⟩
    · rw [same]
      rfl
    · rw [blocks]
      exact without_other fun h => out b h mem
    · exact maps id (taken.stock.notCachedMap mem)

end Numalloc
