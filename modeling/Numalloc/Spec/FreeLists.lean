import Numalloc.Ownership

/-! What the list methods do to the stock of a thread that has a cache for the
allocator it works for. -/
namespace Numalloc

open Concurrent View Logic

variable {P : Platform} {strict : Bool} {v v' : View} {th : PerThreadHeap} {r : HeapRef}
  {L S : Nat → List Nat} {C : List Nat} {H H' M : Set Nat} {α β : Type}

/-- One action and what follows. -/
theorem wp_act {x : Act} {k : x.Res → Prog allocI α} {Q : α → View → Prop}
    (always : (allocLogic P strict).always v) (safe : safe P strict x v)
    (next : ∀ a v', step P strict x v a v' → (allocLogic P strict).wp (k a) Q v') :
    (allocLogic P strict).wp ((act x).bind k) Q v := ⟨always,safe,next⟩

/-- The thread has a cache for its operation's allocator, and owns `H` and `M` besides. -/
structure Own (P : Platform) (strict : Bool) (v : View) (th : PerThreadHeap) (r : HeapRef)
    (L S : Nat → List Nat) (C : List Nat) (H M : Set Nat) : Prop where
  present : v.Present th r
  stock : Stock P strict v th L S C H M

namespace Own

theorem always (own : Own P strict v th r L S C H M) : (allocLogic P strict).always v :=
  own.stock.always fun th' alive => by
    obtain ⟨slot,_⟩ := own.present
    rw [slot] at alive
    exact (ThreadHeapSlot.alive.inj alive).symm

theorem keeps (own : Own P strict v th r L S C H M) : v.Keeps r.handle.addr :=
  Or.inl ⟨r,own.present.2.1,rfl⟩

/-- The stack the thread's blocks of a class belong to. -/
theorem ref (own : Own P strict v th r L S C H M) {b c : Nat} (h : b ∈ L c ++ S c) :
    v.ref b = some ⟨r.handle.addr,th.nodeId,c⟩ := by
  rw [← own.present.2.2]
  exact own.stock.cached.ref h

end Own

/-- A view in which only the slot, with the same heap and node, and the links of blocks
differ. -/
theorem Frame.relinked {slot : ThreadHeapSlot} {blocks : Nat → Option Block}
    {th' : PerThreadHeap} (present : v.Present th r) (alive : slot = .alive th')
    (node : th'.nodeId = th.nodeId) (heap : th'.globalHeap = th.globalHeap)
    (refs : ∀ b ∈ H, (blocks b).map Block.ref = v.ref b) :
    Frame v { v with slot := slot, blocks := blocks } H M where
  inst := rfl
  call := id
  pin := rfl
  hand := rfl
  dying := rfl
  ref := refs
  maps _ _ := rfl
  stay {th₀ r₀} h := by
    obtain ⟨slot',call,handle⟩ := h
    obtain rfl := ThreadHeapSlot.alive.inj (present.1.symm.trans slot')
    exact ⟨th',⟨alive,call,heap.trans handle⟩,node⟩
  gone h := by
    rw [present.1] at h
    contradiction

theorem wp_thread {k : PerThreadHeap → Prog allocI α} {Q : α → View → Prop}
    (own : Own P strict v th r L S C H M)
    (next : th.nodeId < r.geom.numNodes → (allocLogic P strict).wp (k th) Q v) :
    (allocLogic P strict).wp ((act .thread).bind k) Q v := by
  refine wp_act own.always ⟨th,r,own.present⟩ fun th' v' st => ?_
  obtain ⟨rfl,alive,node⟩ := st
  obtain rfl := ThreadHeapSlot.alive.inj (own.present.1.symm.trans alive)
  exact next (node r own.present)

/-- Storing a list whose chains are made of what the thread owned of its class. -/
theorem Stock.setFreelist (stock : Stock P strict v th L S C H M) (c : Nat) (fl : ThreadFreelist)
    (l sp : List Nat) (H' : Set Nat) (counted : Links v.link fl.head l none) (spare : Links v.link fl.spare sp none)
    (tight : Tight fl l) (nodup : (l ++ sp).Nodup)
    (ref : ∀ b ∈ l ++ sp, v.ref b = some ⟨th.globalHeap.addr,th.nodeId,c⟩)
    (owned : ∀ {b}, b ∈ H' ↔ (b ∈ H ∨ b ∈ L c ++ S c) ∧ b ∉ l ++ sp)
    (sub : ∀ b ∈ l ++ sp, b ∈ H ∨ b ∈ L c ++ S c) :
    Stock P strict v { th with freelists := replace th.freelists c fl } (replace L c l)
      (replace S c sp) C H' M := by
  have at_ : ∀ {c'}, c' ≠ c → (replace th.freelists c fl c') = th.freelists c' ∧
      replace L c l c' = L c' ∧ replace S c sp c' = S c' := fun ne =>
    ⟨replace_other ne,replace_other ne,replace_other ne⟩
  refine ⟨⟨fun c' => ?_,fun c' => ?_,fun c' => ?_,fun {c' b} h => ?_,stock.cached.large,
    stock.cached.ids,stock.cached.cache⟩,fun c' => ?_,stock.sane,fun {b} => ?_,stock.looseMap,stock.uses⟩
  · by_cases same : c' = c
    · subst same
      simpa using counted
    · obtain ⟨eq₁,eq₂,_⟩ := at_ same
      simp only [eq₁,eq₂]
      exact stock.cached.counted c'
  · by_cases same : c' = c
    · subst same
      simpa using spare
    · obtain ⟨eq₁,_,eq₃⟩ := at_ same
      simp only [eq₁,eq₃]
      exact stock.cached.spare c'
  · by_cases same : c' = c
    · subst same
      simpa using nodup
    · obtain ⟨_,eq₂,eq₃⟩ := at_ same
      simp only [eq₂,eq₃]
      exact stock.cached.nodup c'
  · by_cases same : c' = c
    · subst same
      exact ref b (by simpa using h)
    · obtain ⟨_,eq₂,eq₃⟩ := at_ same
      simp only [eq₂,eq₃] at h
      exact stock.cached.ref h
  · by_cases same : c' = c
    · subst same
      simpa using tight
    · obtain ⟨eq₁,eq₂,_⟩ := at_ same
      simp only [eq₁,eq₂]
      exact stock.tight c'
  · rw [owned]
    constructor
    · rintro ⟨mine,fresh⟩
      have known : (∃ B, v.blocks b = some B) ∧ ∀ c', c' ≠ c → b ∉ L c' ++ S c' := by
        rcases mine with loose | cached
        · exact ⟨stock.held loose,fun c' _ => stock.notCached loose c'⟩
        · obtain ⟨B,block,_⟩ := block_of_ref (stock.cached.ref cached)
          exact ⟨⟨B,block⟩,fun c' ne h => ne (stock.cls h cached)⟩
      refine ⟨known.1,fun c' => ?_⟩
      by_cases same : c' = c
      · subst same
        simpa using fresh
      · obtain ⟨_,eq₂,eq₃⟩ := at_ same
        simp only [eq₂,eq₃]
        exact known.2 c' same
    · rintro ⟨held,fresh⟩
      refine ⟨?_,by simpa using fresh c⟩
      by_cases cached : b ∈ L c ++ S c
      · exact Or.inr cached
      · refine Or.inl (stock.loose.mpr ⟨held,fun c' => ?_⟩)
        by_cases same : c' = c
        · exact same ▸ cached
        · obtain ⟨_,eq₂,eq₃⟩ := at_ same
          have := fresh c'
          simpa only [eq₂,eq₃] using this

/-! List methods as sequences of actions. -/

theorem freelistMut_eq (c : Nat) (method : ThreadFreelist → Prog linkI (α × ThreadFreelist)) :
    freelistMut c method = (act .thread).bind fun th => (links (method (th.freelists c))).bind
      fun x => (act (.setFreelist c x.2)).bind fun _ => .ret x.1 := rfl

theorem links_unwrap (a : α) : links (unwrap (some a)) = .ret a := rfl

theorem links_pop_none {fl : ThreadFreelist} (empty : fl.head = none) :
    links fl.pop = .ret (none,fl) := by
  simp only [links,ThreadFreelist.pop,empty]
  rfl

theorem links_pop_some {fl : ThreadFreelist} {b : Nat} (head : fl.head = some b) :
    links fl.pop = (act (.link (.readNext b))).bind fun next => .ret (some b, { fl with
      head := next
      tail := if next.isNone then none else fl.tail
      count := fl.count - 1 }) := by
  simp only [links,ThreadFreelist.pop,head]
  rfl

theorem freelistDo_pushChain_eq (c first last n : Nat) :
    freelistDo c (fun fl => fl.pushChain first last n) =
    (act .thread).bind fun th => (act (.link (.writeNext last (th.freelists c).head))).bind fun _ =>
      (act (.setFreelist c { th.freelists c with
        head := some first
        tail := if (th.freelists c).head.isNone then some last else (th.freelists c).tail
        count := (th.freelists c).count + n })).bind fun _ => .ret () := rfl

theorem wp_setFreelist {c : Nat} {fl : ThreadFreelist} {k : Unit → Prog allocI α}
    {Q : α → View → Prop} (present : v.Present th r) (always : (allocLogic P strict).always v)
    (next : (allocLogic P strict).wp (k ()) Q
      { v with slot := .alive { th with freelists := replace th.freelists c fl } }) :
    (allocLogic P strict).wp ((act (.setFreelist c fl)).bind k) Q v := by
  refine wp_act always ⟨th,r,present⟩ fun _ v' st => ?_
  obtain ⟨th',alive,rfl⟩ := st
  obtain rfl := ThreadHeapSlot.alive.inj (present.1.symm.trans alive)
  exact next

/-- What a list method leaves: a cache of the same heap and node. -/
structure Left (P : Platform) (strict : Bool) (v v' : View) (th : PerThreadHeap) (r : HeapRef)
    (L S : Nat → List Nat) (C : List Nat) (H H' M : Set Nat) : Prop where
  own : ∃ th', Own P strict v' th' r L S C H' M ∧ th'.nodeId = th.nodeId
  frame : Frame v v' H M

theorem Left.mono {H₁ : Set Nat} (left : Left P strict v v' th r L S C H H' M) (sub : H₁ ⊆ H) :
    Left P strict v v' th r L S C H₁ H' M := ⟨left.own,left.frame.mono sub subset_rfl⟩

theorem Left.trans {v'' : View} {th₁ : PerThreadHeap} {L₁ S₁ L₂ S₂ : Nat → List Nat}
    {C₁ C₂ : List Nat} {H₁ H₂ : Set Nat} (first : Left P strict v v' th r L₁ S₁ C₁ H H₁ M)
    (second : Left P strict v' v'' th₁ r L₂ S₂ C₂ H H₂ M) (node : th₁.nodeId = th.nodeId) :
    Left P strict v v'' th r L₂ S₂ C₂ H H₂ M := by
  obtain ⟨th',own,node'⟩ := second.own
  exact ⟨⟨th',own,node'.trans node⟩,first.frame.trans second.frame⟩

/-- Whatever a method stores in the slot, heap and node stay. -/
theorem Own.renewed (own : Own P strict v th r L S C H M) {th' : PerThreadHeap}
    {L' S' : Nat → List Nat} {C' : List Nat} {M' : Set Nat} (blocks : Nat → Option Block)
    (stock : Stock P strict { v with blocks := blocks } th' L' S' C' H' M')
    (heap : th'.globalHeap = th.globalHeap) (node : th'.nodeId = th.nodeId)
    (refs : ∀ b ∈ H, (blocks b).map Block.ref = v.ref b) :
    Own P strict { v with blocks := blocks, slot := .alive th' } th' r L' S' C' H' M' ∧
      Frame v { v with blocks := blocks, slot := .alive th' } H M := by
  have present := own.present
  refine ⟨⟨⟨rfl,present.2.1,heap.trans present.2.2⟩,?_⟩,.relinked present rfl node heap refs⟩
  refine stock.retake ⟨stock.sane.user,stock.sane.cls,fun b B block => ?_,stock.sane.maps⟩
    (fun _ => rfl) rfl stock.loose
  rcases stock.sane.rooted b B block with keeps | ⟨th₀,alive,addr⟩ | keeps
  · exact Or.inl keeps
  · obtain rfl := ThreadHeapSlot.alive.inj (present.1.symm.trans alive)
    exact Or.inr (Or.inl ⟨th',rfl,heap ▸ addr⟩)
  · exact Or.inr (Or.inr keeps)

theorem Own.relisted (own : Own P strict v th r L S C H M) {th' : PerThreadHeap}
    {L' S' : Nat → List Nat} {C' : List Nat} (blocks : Nat → Option Block)
    (stock : Stock P strict { v with blocks := blocks } th' L' S' C' H' M)
    (heap : th'.globalHeap = th.globalHeap) (node : th'.nodeId = th.nodeId)
    (refs : ∀ b ∈ H, (blocks b).map Block.ref = v.ref b) :
    Left P strict v { v with blocks := blocks, slot := .alive th' } th r L' S' C' H H' M := by
  obtain ⟨own',frame⟩ := own.renewed blocks stock heap node refs
  exact ⟨⟨th',own',node⟩,frame⟩

theorem Own.left (own : Own P strict v th r L S C H M) : Left P strict v v th r L S C H H M :=
  ⟨⟨th,own,rfl⟩,.refl v H M⟩

/-- Rewriting a link of a block in hand. -/
theorem Own.linked (own : Own P strict v th r L S C H M) {b : Nat} (loose : b ∈ H)
    (x : Option (Option Nat)) : Left P strict v (v.setLink b x) th r L S C H H M := by
  have left := own.relisted (v.setLink b x).blocks (own.stock.setLink loose x) rfl rfl
    fun b' _ => setLink_ref v b b' x
  rw [← own.present.1] at left
  exact left

/-- Storing a list ends a method. -/
theorem Own.stored (own : Own P strict v th r L S C H M) (c : Nat) (fl : ThreadFreelist)
    (l sp : List Nat) (H' : Set Nat) (blocks : Nat → Option Block) {H₁ : Set Nat}
    (stock : Stock P strict { v with blocks := blocks } th L S C H₁ M)
    (refs : ∀ b ∈ H, (blocks b).map Block.ref = v.ref b)
    (counted : Links ({ v with blocks := blocks } : View).link fl.head l none)
    (spare : Links ({ v with blocks := blocks } : View).link fl.spare sp none)
    (tight : Tight fl l) (nodup : (l ++ sp).Nodup)
    (ref : ∀ b ∈ l ++ sp, ({ v with blocks := blocks } : View).ref b =
      some ⟨th.globalHeap.addr,th.nodeId,c⟩)
    (owned : ∀ {b}, b ∈ H' ↔ (b ∈ H₁ ∨ b ∈ L c ++ S c) ∧ b ∉ l ++ sp)
    (sub : ∀ b ∈ l ++ sp, b ∈ H₁ ∨ b ∈ L c ++ S c) :
    Left P strict v { v with
      blocks := blocks
      slot := .alive { th with freelists := replace th.freelists c fl } } th r
      (replace L c l) (replace S c sp) C H H' M :=
  own.relisted blocks (stock.setFreelist c fl l sp H' counted spare tight nodup ref owned sub) rfl rfl refs

/-- Storing the list that was there changes nothing. -/
theorem Own.restored (own : Own P strict v th r L S C H M) (c : Nat) :
    ({ v with slot := .alive { th with
      freelists := replace th.freelists c (th.freelists c) } } : View) = v := by
  rw [replace_self]
  exact own.present.1 ▸ rfl

theorem wp_pop (own : Own P strict v th r L S C H M) (c : Nat) :
    (allocLogic P strict).wp (freelistMut c ThreadFreelist.pop) (fun x v' => match x with
      | none => v' = v ∧ L c = []
      | some b => ∃ l, L c = b :: l ∧ b ∉ H ∧ v'.ref b = some ⟨r.handle.addr,th.nodeId,c⟩ ∧
          Left P strict v v' th r (replace L c l) S C H (insert b H) M) v := by
  rw [freelistMut_eq]
  refine wp_thread own fun _ => ?_
  have counted := own.stock.cached.counted c
  cases head : (th.freelists c).head with
  | none =>
    rw [links_pop_none head]
    refine wp_setFreelist own.present own.always ?_
    have empty : L c = [] := by
      rw [head] at counted
      cases h : L c with
      | nil => rfl
      | cons b l =>
        rw [h] at counted
        exact absurd counted.1 (by simp)
    rw [own.restored c]
    exact ⟨own.always,rfl,empty⟩
  | some b =>
    rw [links_pop_some head,Prog.bind_assoc]
    cases list : L c with
    | nil =>
      rw [head,list] at counted
      exact absurd counted (by simp)
    | cons b' l =>
    rw [head,list] at counted
    obtain ⟨same,next,link,rest⟩ := counted
    obtain rfl := Option.some.inj same
    refine wp_act own.always ⟨next,link⟩ fun next' v' st => ?_
    obtain ⟨rfl,link'⟩ := st
    obtain rfl := Option.some.inj (link.symm.trans link')
    refine wp_setFreelist own.present own.always ?_
    have nodup := own.stock.cached.nodup c
    rw [list,List.cons_append,List.nodup_cons] at nodup
    have here : b ∈ L c ++ S c := by simp [list]
    obtain ⟨count,tail⟩ := own.stock.tight c
    have fresh : b ∉ H := fun loose => own.stock.notCached loose c here
    have left := own.stored c { th.freelists c with
      head := next
      tail := if next.isNone then none else (th.freelists c).tail
      count := (th.freelists c).count - 1 } l (S c) (insert b H) v'.blocks own.stock (fun _ _ => rfl) rest
      (own.stock.cached.spare c) ?_ nodup.2 ?_ ?_ ?_
    · obtain ⟨th',own',_⟩ := left.own
      rw [replace_self] at left
      exact ⟨own'.always,l,rfl,fresh,own.ref here,left⟩
    · refine ⟨by simp [count,list],?_⟩
      have first := rest.head
      rw [tail,list]
      cases l with
      | nil => simp [first]
      | cons b' l => simp [first,List.getLast?_cons_cons]
    · intro b' mem
      exact own.stock.cached.ref (by rw [list]; exact List.mem_cons_of_mem _ mem)
    · intro b'
      rw [list,List.cons_append,List.mem_cons,Set.mem_insert_iff]
      have other : b' ∈ H → b' ∉ l ++ S c := fun loose mem =>
        own.stock.notCached loose c (by rw [list]; exact List.mem_cons_of_mem _ mem)
      constructor
      · rintro (rfl | loose)
        · exact ⟨Or.inr (Or.inl rfl),nodup.1⟩
        · exact ⟨Or.inl loose,other loose⟩
      · rintro ⟨loose | same | mem,out⟩
        · exact Or.inr loose
        · exact Or.inl same
        · exact absurd mem out
    · intro b' mem
      exact Or.inr (by rw [list]; exact List.mem_cons_of_mem _ mem)

/-- A chain in the hands of an operation; where its last link leads does not matter. -/
structure Held (v : View) (k : StackRef) (first last : Nat) (l : List Nat) (H : Set Nat) :
    Prop where
  links : ∃ front, l = front ++ [last] ∧ Links v.link (some first) front (some last)
  nodup : l.Nodup
  ref : ∀ b ∈ l, v.ref b = some k
  loose : ∀ b ∈ l, b ∈ H

namespace Held

variable {k : StackRef} {first last : Nat} {l : List Nat}

theorem single {b : Nat} (ref : v.ref b = some k) (loose : b ∈ H) : Held v k b b [b] H :=
  ⟨⟨[],rfl,rfl⟩,by simp,by simpa using ref,by simpa using loose⟩

theorem congr (held : Held v k first last l H) (blocks : v'.blocks = v.blocks) :
    Held v' k first last l H := by
  have link : v'.link = v.link := funext fun b => by simp only [View.link,blocks]
  obtain ⟨front,list,chain⟩ := held.links
  refine ⟨⟨front,list,link ▸ chain⟩,held.nodup,fun b h => ?_,held.loose⟩
  simpa only [View.ref,blocks] using held.ref b h

theorem last_mem (held : Held v k first last l H) : last ∈ l := by
  obtain ⟨front,rfl,_⟩ := held.links
  simp

/-- A terminated chain with its first and last block. -/
theorem whole {e : Option Nat} (chain : Links v.link (some first) l e)
    (end_ : l.getLast? = some last) (nodup : l.Nodup) (ref : ∀ b ∈ l, v.ref b = some k)
    (loose : ∀ b ∈ l, b ∈ H) : Held v k first last l H := by
  obtain ⟨front,rfl⟩ := List.getLast?_eq_some_iff.mp end_
  obtain ⟨x,before,at_,_⟩ := links_append.mp chain
  exact ⟨⟨front,rfl,at_ ▸ before⟩,nodup,ref,loose⟩

/-- Rewriting the last link. -/
theorem chained (held : Held v k first last l H) (next : Option Nat) {B : Block}
    (block : v.blocks last = some B) :
    Links (v.setLink last (some next)).link (some first) l next := by
  obtain ⟨front,rfl,chain⟩ := held.links
  have fresh : last ∉ front := fun h => (List.nodup_append.mp held.nodup).2.2 last h last (by simp) rfl
  rw [setLink_link block]
  exact links_append.mpr ⟨_,(links_replace _ fresh).mpr chain,rfl,next,by simp,rfl⟩

end Held

theorem wp_pushChain (own : Own P strict v th r L S C H M) {c first last n : Nat} {l : List Nat}
    (held : Held v ⟨r.handle.addr,th.nodeId,c⟩ first last l H) (length : l.length = n) :
    (allocLogic P strict).wp (freelistDo c fun fl => fl.pushChain first last n) (fun _ v' =>
      Left P strict v v' th r (replace L c (l ++ L c)) S C H (H \ {b | b ∈ l}) M) v := by
  rw [freelistDo_pushChain_eq]
  refine wp_thread own fun _ => ?_
  have mem := held.last_mem
  obtain ⟨B,block⟩ := own.stock.held (held.loose _ mem)
  have counted := own.stock.cached.counted c
  have head := counted.head
  have apart : ∀ b ∈ l, b ∉ L c ++ S c := fun b h =>
    own.stock.notCached (held.loose b h) c
  refine wp_act own.always ⟨⟨B,block⟩,fun a first => ?_⟩ fun _ v' st => ?_
  · have mem : a ∈ L c := List.mem_of_head? (head.symm.trans first)
    exact own.stock.userCached (List.mem_append_left _ mem)
  · subst st
    have stock := own.stock.setLink (held.loose _ mem) (some (th.freelists c).head)
    have linked : Own P strict (v.setLink last (some (th.freelists c).head)) th r L S C H M :=
      ⟨own.present,stock⟩
    refine wp_setFreelist own.present linked.always ?_
    obtain ⟨count,tail⟩ := own.stock.tight c
    have left := own.stored c { th.freelists c with
        head := some first
        tail := if (th.freelists c).head.isNone then some last else (th.freelists c).tail
        count := (th.freelists c).count + n } (l ++ L c) (S c) (H \ {b | b ∈ l})
      (v.setLink last (some (th.freelists c).head)).blocks stock
      (fun b' _ => setLink_ref v last b' _) ?_ (stock.cached.spare c) ?_ ?_ ?_ ?_ ?_
    · obtain ⟨th',own',_⟩ := left.own
      rw [replace_self] at left
      exact ⟨own'.always,left⟩
    · exact links_append.mpr ⟨_,held.chained _ block,stock.cached.counted c⟩
    · refine ⟨?_,?_⟩
      · simp only [count,List.length_append,length]
        omega
      · obtain ⟨front,rfl,_⟩ := held.links
        rw [head,tail]
        cases list : L c with
        | nil => simp
        | cons b l => simp [List.getLast?_append,List.getLast?_cons]
    · rw [List.append_assoc,List.nodup_append]
      refine ⟨held.nodup,own.stock.cached.nodup c,fun b h b' h' => ?_⟩
      rintro rfl
      exact apart b h h'
    · intro b' mem
      rw [List.append_assoc] at mem
      rcases List.mem_append.mp mem with mem | mem
      · rw [own.present.2.2]
        exact (setLink_ref v last b' _).trans (held.ref b' mem)
      · exact stock.cached.ref mem
    · intro b'
      have out : b' ∈ H → b' ∉ L c ++ S c := fun h => own.stock.notCached h c
      rw [List.append_assoc,List.mem_append (s := l),Set.mem_sdiff,Set.mem_ofPred_eq]
      tauto
    · intro b' mem
      rw [List.append_assoc] at mem
      rcases List.mem_append.mp mem with mem | mem
      · exact Or.inl (held.loose b' mem)
      · exact Or.inr mem

theorem wp_push (own : Own P strict v th r L S C H M) {c b : Nat} (loose : b ∈ H)
    (ref : v.ref b = some ⟨r.handle.addr,th.nodeId,c⟩) :
    (allocLogic P strict).wp (freelistDo c fun fl => fl.push b) (fun _ v' =>
      Left P strict v v' th r (replace L c (b :: L c)) S C H (H \ {b}) M) v := by
  have one : {b' | b' ∈ [b]} = ({b} : Set Nat) := by
    ext b'
    simp
  have pushed := wp_pushChain own (.single ref loose) (n := 1) rfl
  rw [one] at pushed
  exact pushed

/-- Following links reads only, and arrives at the block that many places on. -/
theorem wp_hop (always : (allocLogic P strict).always v) {l : List Nat} {e : Option Nat} {b : Nat}
    (chain : Links v.link (some b) l e) {n : Nat} (enough : n < l.length) :
    (allocLogic P strict).wp (links (ThreadFreelist.hop n b))
      (fun x v' => v' = v ∧ l[n]? = some x) v := by
  induction n generalizing l b with
  | zero =>
    cases l with
    | nil => simp at enough
    | cons b' l =>
      obtain ⟨same,_⟩ := chain
      exact ⟨always,rfl,by simpa using same.symm⟩
  | succ n ih =>
    cases l with
    | nil => simp at enough
    | cons b' l =>
    obtain ⟨same,next,link,rest⟩ := chain
    obtain rfl := Option.some.inj same
    have more : n < l.length := by simpa using enough
    cases l with
    | nil => simp at more
    | cons b' l =>
    obtain rfl := rest.head_cons
    refine ⟨always,⟨_,link⟩,fun next v' st => ?_⟩
    obtain ⟨rfl,link'⟩ := st
    obtain rfl := Option.some.inj (link.symm.trans link')
    refine wp_mono (ih rest more) fun x v'' _ post => ?_
    simpa using post

theorem links_drain {fl : ThreadFreelist} {keep first last : Nat} (pos : 0 < keep)
    (more : keep < fl.count) (head : fl.head = some first) (tail : fl.tail = some last) :
    links (fl.drain keep) = (links (ThreadFreelist.hop (keep - 1) first)).bind fun split =>
      (act (.link (.readNext split))).bind fun next => (links (unwrap next)).bind fun chainHead =>
        (act (.link (.writeNext split none))).bind fun _ =>
          .ret (some (chainHead,last,fl.count - keep), { fl with tail := some split, count := keep }) := by
  have few : ¬fl.count ≤ keep := by omega
  have some_kept : ¬keep = 0 := by omega
  simp only [ThreadFreelist.drain,if_neg few,if_neg some_kept,head,tail,links]
  refine (Prog.lift_bind _ _ (ThreadFreelist.hop (keep - 1) first) _).trans (congrArg _ ?_)
  funext split
  refine congrArg (Prog.act (I := allocI) _) ?_
  funext next
  exact Prog.lift_bind _ _ (unwrap next) _

/-- The chains of a cache are seen through heads and spares only. -/
theorem Cached.congr {th' : PerThreadHeap} (cached : Cached strict v th L S C)
    (heap : th'.globalHeap = th.globalHeap) (node : th'.nodeId = th.nodeId)
    (cache : th'.largeCache = th.largeCache)
    (head : ∀ c, (th'.freelists c).head = (th.freelists c).head)
    (spare : ∀ c, (th'.freelists c).spare = (th.freelists c).spare) :
    Cached strict v th' L S C := by
  refine ⟨fun c => head c ▸ cached.counted c,fun c => spare c ▸ cached.spare c,cached.nodup,
    fun h => ?_,?_,cached.ids,cache ▸ cached.cache⟩
  · rw [heap,node]
    exact cached.ref h
  · have same : Parked strict v th' = Parked strict v th := by
      funext entry id
      simp only [Parked,heap,node]
    rw [same,cache]
    exact cached.large

/-- The counted list of a class, handed to the operation. -/
theorem Stock.emptied (stock : Stock P strict v th L S C H M) (c : Nat) :
    Stock P strict v { th with freelists := replace th.freelists c { th.freelists c with
      head := none
      tail := none
      count := 0 } } (replace L c []) S C (H ∪ {b | b ∈ L c}) M := by
  have nodup := List.nodup_append.mp (stock.cached.nodup c)
  have emptied := stock.setFreelist c { th.freelists c with
    head := none
    tail := none
    count := 0 } [] (S c) (H ∪ {b | b ∈ L c}) rfl (stock.cached.spare c)
    ⟨rfl,rfl⟩ nodup.2.1 (fun b h => stock.cached.ref (List.mem_append_right _ h)) ?_ fun b h =>
      Or.inr (List.mem_append_right _ h)
  · rwa [replace_self] at emptied
  · intro b
    have out := fun h : b ∈ H => stock.notCached h c
    have unique : b ∈ L c → b ∉ S c := fun h h' => nodup.2.2 b h b h' rfl
    simp only [List.nil_append,Set.mem_union,Set.mem_ofPred_eq,List.mem_append] at out ⊢
    tauto

/-- The list is cut in two; the second part leaves the cache. -/
theorem Stock.cut (stock : Stock P strict v th L S C H M) {c split : Nat} {front back : List Nat}
    (list : L c = front ++ [split] ++ back) :
    Stock P strict (v.setLink split (some none)) { th with
      freelists := replace th.freelists c { th.freelists c with
        tail := some split
        count := (front ++ [split]).length } } (replace L c (front ++ [split])) S C
      (H ∪ {b | b ∈ back}) M := by
  have nodup := stock.cached.nodup c
  have counted := stock.cached.counted c
  have here : split ∈ L c := by simp [list]
  obtain ⟨B,block,_⟩ := block_of_ref (stock.cached.ref (List.mem_append_left _ here))
  have parts : ∀ b, b ∈ L c ++ S c ↔ (b ∈ front ++ [split] ∨ b ∈ back) ∨ b ∈ S c := by
    intro b
    rw [list,List.mem_append,List.mem_append (s := front ++ [split])]
  have out : ∀ b, b ∈ H → b ∉ L c ++ S c := fun b h => stock.notCached h c
  -- every block of the class leaves the cache, the last kept one is relinked
  have relinked := (stock.emptied c).setLink (b := split) (Or.inr here) (some none)
  have kept := relinked.setFreelist c { th.freelists c with
    tail := some split
    count := (front ++ [split]).length } (front ++ [split]) (S c) (H ∪ {b | b ∈ back}) ?_ ?_ ?_ ?_ ?_ ?_ ?_
  · simp only [replace_twice,replace_self] at kept
    exact kept
  · rw [list] at counted
    obtain ⟨x,before,_⟩ := links_append.mp counted
    have fresh : split ∉ front := fun h => by
      rw [list,List.append_assoc,List.append_assoc] at nodup
      exact (List.nodup_append.mp nodup).2.2 split h split (by simp) rfl
    have cut := before.retarget none fresh
    rwa [← setLink_link block] at cut
  · have := relinked.cached.spare c
    simpa using this
  · exact ⟨rfl,by simp⟩
  · rw [list,List.append_assoc] at nodup
    obtain ⟨first,rest,apart⟩ := List.nodup_append.mp nodup
    refine List.nodup_append.mpr ⟨first,(List.nodup_append.mp rest).2.1,fun b h b' h' => ?_⟩
    exact apart b h b' (List.mem_append_right _ h')
  · intro b h
    rw [setLink_ref]
    refine stock.cached.ref ((parts b).mpr ?_)
    rcases List.mem_append.mp h with h | h
    · exact Or.inl (Or.inl h)
    · exact Or.inr h
  · intro b
    have unique : b ∈ back → b ∉ front ++ [split] ∧ b ∉ S c := by
      intro h
      rw [list] at nodup
      obtain ⟨lists,_,apart⟩ := List.nodup_append.mp nodup
      exact ⟨fun h' => (List.nodup_append.mp lists).2.2 b h' b h rfl,
        fun h' => apart b (List.mem_append_right _ h) b h' rfl⟩
    have outside := out b
    have all := parts b
    simp only [replace_same,List.nil_append,List.mem_append (s := front ++ [split]),
      Set.mem_union,Set.mem_ofPred_eq]
    rw [List.mem_append] at outside all
    tauto
  · intro b h
    have := parts b
    rw [List.mem_append] at this h
    simp only [replace_same,List.nil_append,Set.mem_union,Set.mem_ofPred_eq]
    tauto

/-- A drain keeps so many blocks at the head, if there are more. -/
theorem wp_drain_keep (own : Own P strict v th r L S C H M) {c keep : Nat} (pos : 0 < keep) :
    (allocLogic P strict).wp (freelistMut c fun fl => fl.drain keep) (fun x v' => match x with
      | none => v' = v ∧ (L c).length ≤ keep
      | some (first,last,_) => ∃ l back, L c = l ++ back ∧ l.length = keep ∧
          Held v' ⟨r.handle.addr,th.nodeId,c⟩ first last back {b | b ∈ back} ∧
          Left P strict v v' th r (replace L c l) S C H (H ∪ {b | b ∈ back}) M) v := by
  rw [freelistMut_eq]
  refine wp_thread own fun _ => ?_
  obtain ⟨count,tail⟩ := own.stock.tight c
  by_cases few : (th.freelists c).count ≤ keep
  · have kept : links ((th.freelists c).drain keep) = .ret (none,th.freelists c) := by
      simp only [ThreadFreelist.drain,if_pos few]
      rfl
    rw [kept]
    refine wp_setFreelist own.present own.always ?_
    rw [own.restored c]
    exact ⟨own.always,rfl,count ▸ few⟩
  have counted := own.stock.cached.counted c
  obtain ⟨front,split,head,rest,list,length⟩ := split_at (L c) (n := keep - 1) (by omega)
  obtain ⟨first,firstLinks⟩ : ∃ first, (th.freelists c).head = some first := by
    rw [counted.head,list]
    cases front <;> simp
  obtain ⟨last,lastAt⟩ : ∃ last, (head :: rest).getLast? = some last := ⟨_,List.getLast?_cons⟩
  have tailAt : (th.freelists c).tail = some last := by
    rw [tail,list,List.getLast?_append,lastAt]
    rfl
  rw [links_drain pos (by omega) firstLinks tailAt,Prog.bind_assoc]
  have chain := counted
  rw [firstLinks] at chain
  refine wp_seq (wp_hop own.always chain (n := keep - 1) (by omega)) fun split' v' _ post => ?_
  obtain ⟨rfl,at_⟩ := post
  obtain rfl : split = split' := by
    rw [list,← length] at at_
    simpa using at_
  obtain ⟨x,_,back⟩ := links_append.mp (list ▸ chain)
  obtain rfl := back.head_cons
  obtain ⟨y,_,_,next,link,same⟩ := links_append.mp (by assumption)
  obtain rfl := links_nil.mp same
  rw [Prog.bind_assoc]
  refine wp_act own.always ⟨_,link⟩ fun next v'' st => ?_
  obtain ⟨rfl,link'⟩ := st
  obtain rfl := Option.some.inj (link.symm.trans link')
  have here : split ∈ L c ++ S c := by simp [list]
  obtain ⟨B,block,_⟩ := block_of_ref (own.stock.cached.ref here)
  rw [links_unwrap,Prog.bind_ret,Prog.bind_assoc]
  refine wp_act own.always ⟨⟨B,block⟩,by simp⟩ fun _ v' st => ?_
  subst st
  have stock := own.stock.cut list
  have count' : (front ++ [split]).length = keep := by
    simp only [List.length_append,List.length_singleton,length]
    omega
  rw [count'] at stock
  -- count and tail are stale until the list is stored; the chains are not
  have stale : Cached strict (v''.setLink split (some none)) th (replace L c (front ++ [split])) S C :=
    stock.cached.congr rfl rfl rfl (fun c' => by by_cases same : c' = c <;> simp [replace,same])
      fun c' => by by_cases same : c' = c <;> simp [replace,same]
  refine wp_setFreelist own.present ⟨stock.sane,fun th' alive => ?_⟩ ?_
  · obtain rfl := ThreadHeapSlot.alive.inj (own.present.1.symm.trans alive)
    exact ⟨_,S,C,stale⟩
  · have left := own.relisted _ stock rfl rfl fun b _ => setLink_ref _ split b _
    obtain ⟨th',own',_⟩ := left.own
    have nodup := own.stock.cached.nodup c
    rw [list] at nodup
    obtain ⟨parts,_,_⟩ := List.nodup_append.mp nodup
    obtain ⟨_,nodup',apart⟩ := List.nodup_append.mp parts
    refine ⟨own'.always,_,_,list,count',.whole (e := none) ?_ lastAt nodup' (fun b mem => ?_) fun _ h => h,left⟩
    · have fresh : split ∉ head :: rest := fun h => apart split (by simp) split h rfl
      have moved := (links_replace (some none) fresh).mpr back
      rwa [← setLink_link block] at moved
    · refine (setLink_ref _ split b _).trans (own.ref (List.mem_append_left _ ?_))
      rw [list]
      exact List.mem_append_right _ mem

theorem wp_drain (own : Own P strict v th r L S C H M) {c keep : Nat} (pos : 0 < keep) :
    (allocLogic P strict).wp (freelistMut c fun fl => fl.drain keep) (fun x v' => match x with
      | none => v' = v
      | some (first,last,_) => ∃ l back, L c = l ++ back ∧
          Held v' ⟨r.handle.addr,th.nodeId,c⟩ first last back {b | b ∈ back} ∧
          Left P strict v v' th r (replace L c l) S C H (H ∪ {b | b ∈ back}) M) v := by
  refine wp_mono (wp_drain_keep own pos) fun x v' _ post => ?_
  cases x with
  | none => exact post.1
  | some chain =>
    obtain ⟨l,back,list,_,rest⟩ := post
    exact ⟨l,back,list,rest⟩

end Numalloc
