import Numalloc.Demands
import Numalloc.ReuseOrder
import Numalloc.Partition
import Numalloc.Routing

/-! How long a counted list gets, and what a release does when it is too long: which blocks
stay and which leave for the stack of the node. -/
namespace Numalloc

open Concurrent View Logic

variable {P : Platform} {strict : Bool} {v v' : View} {th : PerThreadHeap} {r : HeapRef}
  {L S : Nat → List Nat} {C l : List Nat} {H M : Set Nat} {inst cls d b n : Nat} {k : StackRef}
  {layout : Layout} {es : List (List Nat)}

/-! The chains a thread publishes on its node's stack. -/

open Classical in
/-- The chain that left the thread, from its first block on. -/
noncomputable def View.spent (v v' : View) (first : Nat) (next : Option Nat) : List Nat :=
  if h : ∃ l, l.Nodup ∧ Links v.link (some first) l next ∧ v' = v.without l then h.choose else []

theorem View.spent_eq {first : Nat} {next : Option Nat} (nodup : l.Nodup)
    (chain : Links v.link (some first) l next) : v.spent (v.without l) first next = l := by
  have some_ : ∃ m, m.Nodup ∧ Links v.link (some first) m next ∧ v.without l = v.without m :=
    ⟨l,nodup,chain,rfl⟩
  rw [spent,dif_pos some_]
  obtain ⟨nodup',chain',same⟩ := some_.choose_spec
  generalize some_.choose = m at nodup' chain' same ⊢
  -- a block of one chain that is not in the other is there after one, and gone after the other
  have sub : ∀ {x y : List Nat}, Links v.link (some first) x next → v.without x = v.without y →
      ∀ b ∈ x, b ∈ y := by
    intro x y chain same b mem
    by_contra out
    obtain ⟨_,link⟩ := chain.linked mem
    obtain ⟨B,block⟩ := block_of_link link
    have gone : (v.without x).blocks b = none := if_pos mem
    rw [same,without_other out,block] at gone
    cases gone
  refine chain'.unique_length chain (List.Perm.length_eq ?_)
  exact (List.perm_ext_iff_of_nodup nodup' nodup).mpr fun b =>
    ⟨sub chain' same.symm b,sub chain same b⟩

/-- The chains that a thread moves to its node's stack of the class, each with one
exchange. -/
noncomputable def publishScribe (cls : Nat) : Scribe (List Nat) where
  note
    | .casHead k current new, v, done, v' =>
      if v.home cls = some k ∧ done = true then
        match (TreiberStack.unpack new).1 with
        | some first => [v.spent v' first (TreiberStack.unpack current).1]
        | none => []
      else []
    | _, _, _, _ => []
  asks _ _ := []

noncomputable abbrev publishLogic (cls : Nat) (P : Platform) (strict : Bool) :
    Logic allocI (View × Option (List (List Nat))) :=
  (publishScribe cls).logic Monitor.recorder P strict

theorem publishScribe_sober (cls : Nat) : (publishScribe cls).Sober cls where
  quiet {x v r v'} quiet := by
    cases x <;> first | rfl | cases quiet
  other {x v r v' k} within away := by
    cases x with
    | casHead k' current new =>
      obtain rfl : k' = k := within
      exact if_neg fun home => away home.1
    | link x => rfl
    | loadHead k' => rfl
    | _ => cases within

theorem publishScribe_clears (cls : Nat) : (publishScribe cls).Clears Monitor.recorder id where
  take := rfl
  twice _ := rfl

/-- Publishing a chain on the stack of the node is one exchange with all of it. -/
theorem wp_publish_record {first last : Nat} (own : Own P strict v th r L S C H M)
    (heap : k.heap = r.handle.addr) (held : Held v k first last l H) (home : v.home cls = some k) :
    (publishLogic cls P strict).wp (onStack k (TreiberStack.pushChain first last)) (fun _ w =>
      Left P strict v w.1 th r L S C (H \ {b | b ∈ l}) (H \ {b | b ∈ l}) M ∧
        w.2 = some (es ++ [l])) (v,some es) := by
  have slot : ∀ th', v.slot = .alive th' → th' = th := fun th' alive =>
    (ThreadHeapSlot.alive.inj (own.present.1.symm.trans alive)).symm
  obtain ⟨B,block⟩ := own.stock.held (held.loose _ held.last_mem)
  have user := own.stock.user (held.loose _ held.first_mem)
  have trail : ((publishScribe cls).trail Monitor.recorder P strict).wp
      (onStack k (TreiberStack.pushChain first last)) (fun _ w => w.2 = some (es ++ [l])) (v,some es) := by
    refine wp_iter (L := (publishScribe cls).trail Monitor.recorder P strict)
      (fun _ w => (∃ x, w.1 = v.setLink last x) ∧ w.2 = some es) ⟨trivial,es,rfl⟩
      ⟨⟨B.link,(setLink_self block).symm⟩,rfl⟩ fun _ w inv => ?_
    obtain ⟨v₁,o⟩ := w
    obtain ⟨⟨x,rfl⟩,rfl⟩ := inv
    refine Eq.mpr (congrArg (fun p =>
      ((publishScribe cls).trail Monitor.recorder P strict).wp p _ _) (onStack_publish k first last)) ?_
    refine ⟨⟨trivial,es,rfl⟩,trivial,fun current w st => ?_⟩
    obtain ⟨⟨_,same,_⟩,moved⟩ := st
    obtain ⟨v₂,o⟩ := w
    obtain rfl : v₂ = _ := same
    obtain rfl : o = some es := moved
    refine ⟨⟨trivial,es,rfl⟩,trivial,fun _ w st => ?_⟩
    obtain ⟨⟨_,written,_⟩,moved⟩ := st
    obtain ⟨v₃,o⟩ := w
    obtain rfl : v₃ = (v.setLink last x).setLink last _ := written
    obtain rfl : o = some es := moved
    rw [setLink_twice]
    have packed := TreiberStack.unpack_pack_some (TreiberStack.nextTag (TreiberStack.unpack current).2)
      user.1 user.2
    have chain : (v.setLink last (some (TreiberStack.unpack current).1)).Chain k first l
        (TreiberStack.unpack current).1 :=
      ⟨List.ne_nil_of_mem held.last_mem,held.nodup,held.chained _ block,fun b h =>
        (setLink_ref v last b _).trans (held.ref b h)⟩
    refine ⟨⟨trivial,es,rfl⟩,trivial,fun done w st => ?_⟩
    obtain ⟨⟨_,step_,_⟩,moved⟩ := st
    obtain ⟨v₄,o⟩ := w
    have home₃ : (v.setLink last (some (TreiberStack.unpack current).1)).home cls = some k := home
    cases done with
    | false =>
      obtain rfl : v₄ = _ := step_
      obtain rfl : o = some es := moved.trans (by simp [publishScribe])
      exact ⟨⟨trivial,es,rfl⟩,⟨_,rfl⟩,rfl⟩
    | true =>
      simp only [step,packed] at step_
      obtain rfl : v₄ = _ := step_ l chain
      obtain rfl : o = some (es ++ [l]) := by
        refine moved.trans ?_
        simp [publishScribe,home₃,packed,View.spent_eq chain.nodup chain.links,Monitor.recorder]
      exact ⟨⟨trivial,_,rfl⟩,rfl⟩
  refine Scribe.wp_last (wp_publish own.stock slot (heap ▸ own.keeps) held) trail
    fun _ v' es' _ gone noted => ?_
  obtain rfl : v' = _ := gone
  exact ⟨own.released held.loose,noted⟩

/-! A release to the counted list. -/

/-- What becomes of a counted list with the released block at its head: all of it is kept,
or it is cut to half of what the cache may hold, and the rest is published at once. -/
def Drained (cls : Nat) (all kept : List Nat) (moved : List (List Nat)) : Prop :=
  if all.length ≤ maxThreadCache cls then kept = all ∧ moved = []
  else kept = all.take (maxThreadCache cls / 2) ∧ moved = [all.drop (maxThreadCache cls / 2)]

theorem Drained.bound {all kept : List Nat} {moved : List (List Nat)}
    (drained : Drained cls all kept moved) : kept.length ≤ maxThreadCache cls := by
  unfold Drained at drained
  split at drained
  · obtain ⟨rfl,_⟩ := drained
    assumption
  · obtain ⟨rfl,_⟩ := drained
    rw [List.length_take]
    omega

theorem wp_deallocLocal_record (own : Own P strict v th r L S C H M) (loose : b ∈ H)
    (ref : v.ref b = some k) (heap : k.heap = r.handle.addr) (node : k.node = th.nodeId) :
    (publishLogic k.cls P strict).wp (deallocLocal k b) (fun _ w => ∃ kept moved,
      Left P strict v w.1 th r (replace L k.cls kept) S C (H \ {b}) (H \ {b}) M ∧
        Drained k.cls (b :: L k.cls) kept moved ∧ w.2 = some (es ++ moved)) (v,some es) := by
  obtain ⟨heap',node',d⟩ := k
  simp only at heap node
  subst heap node
  have sober := publishScribe_sober d
  rw [deallocLocal_eq]
  dsimp only
  refine sober.wp_seq (wp_push own loose ref) ((freelistDo_lists d _).mono Lists.quiet)
    fun _ v₁ _ left₁ => ?_
  obtain ⟨th₁,own₁,node₁⟩ := left₁.own
  have pushed := left₁.mono (show H \ {b} ⊆ H from Set.sdiff_subset)
  obtain ⟨count,_⟩ := own₁.stock.tight d
  rw [replace_same] at count
  refine sober.wp_seq (wp_thread_call own₁) (.call rfl) fun th' v₂ always post => ?_
  obtain ⟨rfl,rfl,_⟩ := post
  split
  · rename_i beyond
    refine sober.wp_seq (wp_drain_keep own₁ (maxThreadCache_pos d))
      ((freelistMut_lists d _).mono Lists.quiet) fun x v₃ _ drained => ?_
    cases x with
    | none =>
      obtain ⟨_,few⟩ := drained
      rw [replace_same] at few
      omega
    | some chain =>
      obtain ⟨first,last,n⟩ := chain
      obtain ⟨l,back,list,length,held,left₂⟩ := drained
      rw [replace_same] at list
      rw [replace_twice] at left₂
      obtain ⟨th₃,own₃,node₃⟩ := left₂.own
      have held₃ : Held v₃ ⟨r.handle.addr,th.nodeId,d⟩ first last back (H \ {b} ∪ {b | b ∈ back}) :=
        ⟨held.links,held.nodup,node₁ ▸ held.ref,fun b' h => Or.inr h⟩
      have home : v₃.home d = some ⟨r.handle.addr,th.nodeId,d⟩ := by
        rw [own₃.home,node₃,node₁]
      refine wp_mono (wp_publish_record own₃ rfl held₃ home) fun _ w _ post => ?_
      obtain ⟨left₃,noted⟩ := post
      have out : ∀ b' ∈ H \ {b}, b' ∉ back := fun b' h mem =>
        own₁.stock.notCached h d (List.mem_append_left _ (by rw [replace_same,list]; exact List.mem_append_right _ mem))
      have returned : (H \ {b} ∪ {b | b ∈ back}) \ {b | b ∈ back} = H \ {b} := by
        ext b'
        have := out b'
        simp only [Set.mem_sdiff,Set.mem_union,Set.mem_ofPred_eq] at this ⊢
        tauto
      rw [returned] at left₃
      refine ⟨l,[back],(pushed.trans left₂ node₁).trans left₃ (node₃.trans node₁),?_,noted⟩
      rw [Drained,if_neg (by omega),list,← length,List.take_left,List.drop_left]
      exact ⟨rfl,rfl⟩
  · rename_i under
    refine ⟨⟨always,_,rfl⟩,_,[],pushed,?_,by rw [List.append_nil]⟩
    rw [Drained,if_pos (by omega)]
    exact ⟨rfl,rfl⟩

/-- The counted list of the thread's cache for the stack; without such a cache there is
none. -/
def View.Counted (v : View) (k : StackRef) (l : List Nat) : Prop :=
  if v.home k.cls = some k then ∃ th, v.slot = .alive th ∧
    Links v.link (th.freelists k.cls).head l none ∧ l.Nodup ∧ (th.freelists k.cls).count = l.length
  else l = []

theorem home_some (home : v.home cls = some k) : ∃ th, v.slot = .alive th ∧
    k = ⟨th.globalHeap.addr,th.nodeId,cls⟩ := by
  unfold View.home at home
  split at home
  · rename_i th slot
    exact ⟨th,slot,(Option.some.inj home).symm⟩
  · cases home

theorem Stock.counted (stock : Stock P strict v th L S C H M) (alive : v.slot = .alive th)
    (home : v.home k.cls = some k) : v.Counted k (L k.cls) := by
  rw [View.Counted,if_pos home]
  exact ⟨th,alive,stock.cached.counted _,(List.nodup_append.mp (stock.cached.nodup _)).1,
    (stock.tight _).1⟩

theorem Holds.counted (holds : Holds P strict v H M) (k : StackRef) : ∃ l, v.Counted k l := by
  by_cases home : v.home k.cls = some k
  · obtain ⟨th,alive,_⟩ := home_some home
    rcases holds with ⟨th',L,S,C,alive',stock⟩ | bare
    · exact ⟨_,stock.counted alive' home⟩
    · exact absurd alive (bare.slot th)
  · exact ⟨[],by rw [View.Counted,if_neg home]⟩

theorem View.Counted.unique {l' : List Nat} (left : v.Counted k l) (right : v.Counted k l') :
    l = l' := by
  unfold View.Counted at left right
  split at left
  · rw [if_pos ‹_›] at right
    obtain ⟨th,alive,chain,_⟩ := left
    obtain ⟨th',alive',chain',_⟩ := right
    obtain rfl := ThreadHeapSlot.alive.inj (alive.symm.trans alive')
    exact chain.unique chain'
  · rw [if_neg ‹_›] at right
    rw [left,right]

theorem SameLists.counted (same : SameLists v v') (counted : v.Counted k l) : v'.Counted k l := by
  unfold View.Counted at *
  rw [same.home]
  split
  · rename_i held
    rw [if_pos held] at counted
    obtain ⟨th',alive',_⟩ := home_some ((same.home k.cls).trans held)
    obtain ⟨th,alive,lists,_⟩ := same.alive alive'
    obtain ⟨th₁,alive₁,chain,nodup,count⟩ := counted
    obtain rfl := ThreadHeapSlot.alive.inj (alive.symm.trans alive₁)
    rw [← lists] at chain count
    exact ⟨th',alive',chain.mono fun _ _ _ h => same.link h,nodup,count⟩
  · rwa [if_neg ‹_›] at counted

/-- A cache for the operation's allocator is found as it is. -/
theorem wp_threadHeap_present (ready : Ready P strict v inst H M)
    (own : Own P strict v th r L S C H M) :
    (allocLogic P strict).wp (threadHeap inst) (fun ok v' => ok = true ∧ v' = v) v := by
  rw [threadHeap_eq]
  refine wp_act ready.holds.always trivial fun slot v₁ st => ?_
  obtain ⟨rfl,rfl⟩ := st
  rw [own.present.1]
  refine wp_heap_again ready own ?_
  rw [if_pos (congrArg HeapHandle.addr own.present.2.2)]
  exact ⟨own.always,rfl,rfl⟩

/-- The counted list the release finds in the cache, and the one it leaves there. -/
def Relists (v : View) (k : StackRef) (b : Nat) (es : List (List Nat))
    (w : View × Option (List (List Nat))) : Prop :=
  w.1.home k.cls = some k → ∃ l kept moved, v.Counted k l ∧ w.1.Counted k kept ∧
    Drained k.cls (b :: l) kept moved ∧ w.2 = some (es ++ moved)

theorem wp_deallocSmall_record (ready : Ready P strict v inst H M) {ptr : Nat} (mem : ptr ∈ H)
    (known : Known v inst r) (ref : v.ref ptr = some ⟨r.handle.addr,n,d⟩) :
    (publishLogic d P strict).wp (deallocSmall inst ptr r n d)
      (fun _ w => Relists v ⟨r.handle.addr,n,d⟩ ptr es w) (v,some es) := by
  have sober := publishScribe_sober d
  -- the branch on the node, once a cache is there and its list is known
  have local_ : ∀ {v₁ : View} {th : PerThreadHeap} {L S : Nat → List Nat} {C : List Nat},
      Own P strict v₁ th r L S C H M → v₁.ref ptr = some ⟨r.handle.addr,n,d⟩ →
      (v₁.home d = some ⟨r.handle.addr,n,d⟩ → v.Counted ⟨r.handle.addr,n,d⟩ (L d)) →
      (publishLogic d P strict).wp ((act .thread).bind fun th =>
        if n = th.nodeId then deallocLocal ⟨r.handle.addr,n,d⟩ ptr
        else onStack ⟨r.handle.addr,n,d⟩ (TreiberStack.push ptr))
        (fun _ w => Relists v ⟨r.handle.addr,n,d⟩ ptr es w) (v₁,some es) := by
    intro v₁ th L S C own ref₁ found
    refine sober.wp_seq (wp_thread_call own) (.call rfl) fun th' v₂ always post => ?_
    obtain ⟨rfl,rfl,_⟩ := post
    have home := own.home d
    split
    · rename_i here
      rw [← here] at home
      refine wp_mono (wp_deallocLocal_record own mem ref₁ rfl here) fun _ w _ post _ => ?_
      obtain ⟨kept,moved,left,drained,noted⟩ := post
      obtain ⟨th₃,own₃,node₃⟩ := left.own
      have counted := own₃.stock.counted (k := ⟨r.handle.addr,n,d⟩) own₃.present.1
        (by rw [own₃.home,node₃,here])
      rw [replace_same] at counted
      exact ⟨L d,kept,moved,found home,counted,drained,noted⟩
    · rename_i away
      have elsewhere : v₂.home d ≠ some ⟨r.handle.addr,n,d⟩ := by
        rw [home]
        exact fun same => away (congrArg StackRef.node (Option.some.inj same)).symm
      refine Scribe.wp_last (wp_publish own.stock (fun th alive => ?_) own.keeps (.single ref₁ mem))
        (wp_elsewhere sober _ elsewhere) fun _ v₃ es' _ gone _ home₃ => ?_
      · exact (ThreadHeapSlot.alive.inj (own.present.1.symm.trans alive)).symm
      · obtain rfl : v₃ = _ := gone
        exact absurd home₃ elsewhere
  rw [deallocSmall_eq]
  by_cases present : ∃ th L S C, Own P strict v th r L S C H M
  · obtain ⟨th,L,S,C,own⟩ := present
    refine Scribe.wp_seq (wp_threadHeap_present ready own) (wp_threadHeap_trail sober
      (publishScribe_clears d) inst) fun ok v₁ es₁ _ post calm => ?_
    obtain ⟨rfl,rfl⟩ := post
    obtain rfl : es₁ = es := by
      rcases calm with ⟨same,_⟩ | ⟨same,_⟩ <;> exact Option.some.inj same
    exact local_ own ref (own.stock.counted (k := ⟨r.handle.addr,n,d⟩) own.present.1)
  · have absent : v.home d ≠ some ⟨r.handle.addr,n,d⟩ := fun home => by
      obtain ⟨th,alive,same⟩ := home_some home
      have handle := known.same th alive (congrArg StackRef.heap same).symm
      rcases ready.holds with ⟨th',L,S,C,alive',stock⟩ | bare
      · obtain rfl := ThreadHeapSlot.alive.inj (alive.symm.trans alive')
        exact present ⟨th,L,S,C,⟨alive,known.call,handle⟩,stock⟩
      · exact bare.slot th alive
    refine Scribe.wp_seq (wp_threadHeap ready) (wp_threadHeap_trail sober (publishScribe_clears d) inst)
      fun ok v₁ es₁ always post calm => ?_
    obtain ⟨frame,found⟩ := post
    obtain rfl : es₁ = es := by
      rcases calm with ⟨same,_⟩ | ⟨same,_⟩ <;> exact Option.some.inj same
    cases ok with
    | false =>
      obtain ⟨rfl,gone⟩ := found
      have bare : Bare P v₁ H M := by
        rcases ready.holds with ⟨th,_,_,_,alive,_⟩ | bare
        · rw [gone] at alive
          contradiction
        · exact bare
      refine Scribe.wp_last (wp_publish (bare.stock 0 ⟨0,0⟩)
        (fun th alive => absurd alive (bare.slot th)) (Or.inl ⟨r,known.call,rfl⟩) (.single ref mem))
        (wp_elsewhere sober _ absent) fun _ v₂ es₂ _ post _ home => ?_
      obtain rfl : v₂ = _ := post
      exact absurd home absent
    | true =>
      obtain ⟨th,r',L,S,C,own,_⟩ := found
      obtain rfl := Option.some.inj ((frame.call known.call).symm.trans own.present.2.1)
      refine local_ own ((frame.ref ptr mem).trans ref) fun home => ?_
      rcases calm with ⟨_,lists⟩ | ⟨_,empty⟩
      · exact absurd ((lists.home d).symm.trans home) absent
      · have nil := (own.stock.shelf.nil empty own.present.1 d).1
        rw [nil,View.Counted,if_neg absent]

/-- What the release finds may be read off before it. -/
theorem Relists.before {w : View × Option (List (List Nat))} (relists : Relists v' k b es w)
    (same : SameLists v v') (holds : Holds P strict v H M) : Relists v k b es w := by
  intro home
  obtain ⟨l,kept,moved,found,rest⟩ := relists home
  obtain ⟨l',counted⟩ := holds.counted k
  obtain rfl := (same.counted counted).unique found
  exact ⟨_,kept,moved,counted,rest⟩

theorem wp_giveBack_record {ptr : Nat} {a : Alloc} (ready : Ready P strict v inst H M)
    (operand : Operand v inst ptr layout a) (source : a.source = .slot) (call : v.call.heap = some r)
    (node : r.geom.nodeForPtr ptr = some n) (index : sizeClassIndex layout.effective = some d) :
    (publishLogic d P strict).wp ((act .release).bind fun _ => dealloc inst ptr layout)
      (fun _ w => Relists v ⟨r.handle.addr,n,d⟩ ptr es w) (v,some es) := by
  have sober := publishScribe_sober d
  have released : ((publishScribe d).trail Monitor.recorder P strict).wp (act .release)
      (fun _ w => SameLists v w.1 ∧ w.2 = some es) (v,some es) :=
    ⟨⟨trivial,es,rfl⟩,trivial,fun _ w st => ⟨⟨trivial,es,st.2⟩,.release st.1.2.1,st.2⟩⟩
  refine Scribe.wp_seq (wp_release_slot ready operand source) released fun _ v₁ es₁ _ post left => ?_
  obtain ⟨_,frame,ready₁,_,user,r',n',d',call',node',index',ref⟩ := post
  obtain ⟨same,left⟩ := left
  obtain rfl := Option.some.inj left
  obtain rfl := Option.some.inj ((frame.call call).symm.trans call')
  obtain rfl := Option.some.inj (node.symm.trans node')
  obtain rfl := Option.some.inj (index.symm.trans index')
  have limit := (sizeClassIndex_spec index).2.2.1
  have nonzero := user.1
  unfold dealloc
  rw [if_neg (by omega),if_neg (by omega)]
  refine Scribe.wp_seq (wp_heap (k := .ret) (Q := fun r' v' => Known v' inst r' ∧
    Ready P strict v' inst (H ∪ {ptr}) M ∧ Frame v₁ v' (H ∪ {ptr}) M) ready₁ fun r' v' known ready' frame _ =>
      ⟨ready'.holds.always,known,ready',frame⟩) (wp_aside sober (.call rfl)) fun r' v₂ es₂ _ post left => ?_
  obtain ⟨known,ready₂,frame₂⟩ := post
  obtain ⟨same₂,left⟩ := left
  obtain rfl := Option.some.inj left
  obtain rfl := Option.some.inj ((frame₂.call call').symm.trans known.call)
  simp only [node,index]
  have mem : ptr ∈ H ∪ {ptr} := Set.mem_union_right H (Set.mem_singleton ptr)
  refine wp_mono (wp_deallocSmall_record ready₂ mem known ((frame₂.ref ptr mem).trans ref))
    fun _ _ _ relists => ?_
  exact relists.before (same.trans same₂) ready.holds

/-! The lists in memory. -/

/-- The counted list of the thread's cache for the stack: what the links spell, and as many
as are counted. Without such a cache there is none. -/
def State.Counted (s : State) (t : Nat) (k : StackRef) (l : List Nat) : Prop :=
  (∃ th, s.tls t = .alive th ∧ th.globalHeap.addr = k.heap ∧ th.nodeId = k.node ∧
    s.Spells (th.freelists k.cls).head l ∧ (th.freelists k.cls).count = l.length) ∨
  ((∀ th, s.tls t = .alive th → ¬(th.globalHeap.addr = k.heap ∧ th.nodeId = k.node)) ∧ l = [])

theorem Inv.counted {s : State} {t : Nat} (inv : Inv P s) (counted : (s.view t).Counted k l) :
    s.Counted t k l := by
  unfold View.Counted at counted
  split at counted
  · rename_i home
    obtain ⟨th,alive,same⟩ := home_some home
    obtain ⟨th',alive',chain,nodup,count⟩ := counted
    obtain rfl := ThreadHeapSlot.alive.inj (alive.symm.trans alive')
    exact Or.inl ⟨th,alive,(congrArg StackRef.heap same).symm,(congrArg StackRef.node same).symm,
      inv.spells_view chain nodup,count⟩
  · rename_i away
    refine Or.inr ⟨fun th alive same => away ?_,counted⟩
    have alive : (s.view t).slot = .alive th := alive
    simp only [View.home,alive,same]

/-- A thread at rest has at most so many blocks of a class in its counted list. -/
theorem World.Reachable.counted {c : World P strict} {t : Nat} (reachable : c.Reachable)
    (rest : c.prog t = .ret ()) (alive : c.state.tls t = .alive th) (cls : Nat) :
    ∃ l, c.state.Spells (th.freelists cls).head l ∧ (th.freelists cls).count = l.length ∧
      l.length ≤ cacheBound cls := by
  have fine := World.Reachable.fine reachable
  obtain ⟨f,pre⟩ := Reachable.forecast reachable t cls
  rw [rest] at pre
  obtain ⟨_,f',_,_,ledger⟩ := pre
  obtain ⟨L,S,shelf,bounded,_⟩ := ledger.cached (show (c.state.view t).slot = .alive th from alive)
  rcases (Good.resting fine rest).holds with ⟨th',L',S',C,alive',stock⟩ | bare
  · obtain rfl := ThreadHeapSlot.alive.inj (alive.symm.trans alive')
    obtain ⟨rfl,rfl⟩ := shelf.unique stock.shelf
    exact ⟨L cls,(fine.inv.cached stock.cached cls).1,(stock.tight cls).1,bounded cls⟩
  · exact absurd alive (bare.slot th)

/-- Between operations a counted list is no longer than the limit of its class, or than what
carving a bag leaves there. A release to the list of the own node keeps the limit: the
released block is put at the head, and if that makes the list too long, half of the limit
stays and all the rest leaves for the stack of the node in one exchange. -/
theorem counted_cache_bounded {c : World P strict} (reachable : c.Reachable) (t : Nat) :
    (∀ {th cls}, c.prog t = .ret () → c.state.tls t = .alive th → ∃ l,
      c.state.Spells (th.freelists cls).head l ∧ (th.freelists cls).count = l.length ∧
      l.length ≤ max (maxThreadCache cls) (bagSizeForClass cls / sizeForClass cls - 1)) ∧
    ∀ {c' : World P strict} {schedule : List Label} {a : Alloc} {sl : Slot}
      {k : Unit → Prog allocI Unit},
      c.prog t = (act .release).bind (fun _ => (dealloc a.inst a.ptr a.layout).bind k) →
      c.state.pinned t = some a → a.source = .slot → c.state.slots a.ptr = some sl →
      c.execute schedule = some c' → (∀ request, .start t request ∉ schedule) →
      (∃ p : Prog allocI Unit, c'.prog t = p.bind k ∧ ∀ u, p ≠ .ret u) ∨
      ∃ before after cm, schedule = before ++ after ∧ c.execute before = some cm ∧
        cm.execute after = some c' ∧ cm.prog t = k () ∧
        ∀ th, cm.state.tls t = .alive th → th.globalHeap.addr = sl.heap → th.nodeId = sl.node →
          ∃ l kept, c.state.Counted t sl.ref l ∧ cm.state.Spells (th.freelists sl.cls).head kept ∧
            (th.freelists sl.cls).count = kept.length ∧ kept.length ≤ maxThreadCache sl.cls ∧
            Drained sl.cls (a.ptr :: l) kept (c.trace (publishScribe sl.cls) t before) := by
  have fine := World.Reachable.fine reachable
  refine ⟨fun rest alive => reachable.counted rest alive _,fun at_ pinned source found run fresh => ?_⟩
  rename_i c' schedule a sl k
  have handed := World.Reachable.demanded (t := t) reachable fun idle started => code_handover idle started
  rw [at_] at handed
  obtain ⟨a',H,M,ready,operand⟩ := handed.2.1.2
  obtain rfl := Option.some.inj (operand.pin.symm.trans pinned)
  obtain ⟨r,call⟩ := (fine.inv.live.pin (pinned_some pinned).1 (pinned_some pinned).2).2 source
  obtain ⟨heap,node,index⟩ := fine.inv.pinned_ref pinned source found call
  have pre : (publishLogic sl.cls P strict).wp ((act .release).bind fun _ => dealloc a'.inst a'.ptr a'.layout)
      (fun _ w => Relists (c.state.view t) ⟨_,sl.node,sl.cls⟩ a'.ptr [] w) (c.state.view t,some []) :=
    wp_giveBack_record ready operand source call node index
  rw [heap] at pre
  have at_ : c.prog t = ((act .release).bind fun _ => dealloc a'.inst a'.ptr a'.layout).bind k := at_
  rcases World.Fine.watch_through fine run fresh at_ pre with
    ⟨p,_,prog,busy,_⟩ | ⟨before,after,cm,es,_,eq,front,back,noted,prog,relists⟩
  · exact Or.inl ⟨p,prog,busy⟩
  · refine Or.inr ⟨before,after,cm,eq,front,back,prog,fun th alive owner own => ?_⟩
    have fine' := World.Fine.execute fine front
    have home : (cm.state.view t).home sl.cls = some sl.ref := by
      have alive : (cm.state.view t).slot = .alive th := alive
      simp only [View.home,alive,owner,own,Slot.ref]
    obtain ⟨l,kept,moved,counted,counted',drained,same⟩ := relists home
    rw [Monitor.recorder_run,List.nil_append] at noted
    obtain rfl := Option.some.inj noted
    obtain rfl := Option.some.inj same
    rcases fine'.inv.counted counted' with ⟨th',alive',_,_,spells,count⟩ | ⟨none_,_⟩
    · obtain rfl := ThreadHeapSlot.alive.inj (alive.symm.trans alive')
      exact ⟨l,kept,fine.inv.counted counted,spells,count,drained.bound,drained⟩
    · exact absurd ⟨owner,own⟩ (none_ th alive)

namespace Sample

/-- Thread 1 frees one of its blocks, and is through. -/
def freeingOne : List Label := go 1 10

end Sample

set_option maxRecDepth 8000 in
theorem sample_counted_cache_bounded : ∃ (c₀ c c' : World Sample.platform false) (sl : Slot),
    (World.initial fun _ => 0).execute Sample.twoBlocks = some c₀ ∧
    c₀.advance (.start 1 (.dealloc 0 262144 (Sample.layout 16384 Sample.small_bound))) = some c ∧
    c.execute Sample.freeingOne = some c' ∧ c.state.slots 262144 = some sl ∧
    (∀ {th cls}, c₀.state.tls 1 = .alive th → ∃ l,
      c₀.state.Spells (th.freelists cls).head l ∧ (th.freelists cls).count = l.length ∧
      l.length ≤ max (maxThreadCache cls) (bagSizeForClass cls / sizeForClass cls - 1)) ∧
    ∃ before after cm, Sample.freeingOne = before ++ after ∧ c.execute before = some cm ∧
      ∀ th, cm.state.tls 1 = .alive th → th.globalHeap.addr = sl.heap → th.nodeId = sl.node →
        ∃ l kept, c.state.Counted 1 sl.ref l ∧ cm.state.Spells (th.freelists sl.cls).head kept ∧
          Drained sl.cls (262144 :: l) kept (c.trace (publishScribe sl.cls) 1 before) := by
  have ends : ((World.initial fun _ => 0 : World Sample.platform false).execute
      Sample.twoBlocks).bind (fun c₀ => (c₀.advance (.start 1 (.dealloc 0 262144
        (Sample.layout 16384 Sample.small_bound)))).bind fun c => (c.execute Sample.freeingOne).bind fun c' =>
          (c'.advance (.start 1 .exit)).map fun _ =>
            ((c.state.pinned 1).map Alloc.source,(c.state.slots 262144).isSome)) =
              some (some .slot,true) := by decide +kernel
  obtain ⟨c₀,start,eq⟩ := Option.bind_eq_some_iff.mp ends
  obtain ⟨c,asked,eq⟩ := Option.bind_eq_some_iff.mp eq
  obtain ⟨c',run,eq⟩ := Option.bind_eq_some_iff.mp eq
  obtain ⟨_,again,eq⟩ := Option.map_eq_some_iff.mp eq
  obtain ⟨source,found⟩ := Prod.mk.inj eq
  obtain ⟨sl,found⟩ := Option.isSome_iff_exists.mp found
  obtain ⟨a,pinned,ptr,layout,inst⟩ := World.Fine.operand (World.Reachable.fine ⟨_,_,start⟩) asked
  rw [pinned] at source
  have begun : (World.initial fun _ => 0 : World Sample.platform false).execute
      (Sample.twoBlocks ++ [.start 1 (.dealloc 0 262144 (Sample.layout 16384 Sample.small_bound))]) =
      some c := World.execute_trans start (by simp [World.execute,asked])
  refine ⟨c₀,c,c',sl,start,asked,run,found,fun alive =>
    (counted_cache_bounded ⟨_,_,start⟩ 1).1 (World.start_rest asked) alive,?_⟩
  rcases (counted_cache_bounded ⟨_,_,begun⟩ 1).2 (k := fun _ => act .finish)
      (by rw [ptr,layout,inst]; exact World.started asked) pinned (Option.some.inj source)
      (by rw [ptr]; exact found) run (by simp [Sample.freeingOne,Sample.go]) with
    ⟨p,prog,busy⟩ | ⟨before,after,cm,eq,front,_,_,facts⟩
  · rw [World.start_rest again] at prog
    cases p with
    | ret u => exact absurd rfl (busy u)
    | act x g => cases prog
    | loop body i g => cases prog
  · refine ⟨before,after,cm,eq,front,fun th alive heap node => ?_⟩
    obtain ⟨l,kept,counted,spells,_,_,drained⟩ := facts th alive heap node
    rw [ptr] at drained
    exact ⟨l,kept,counted,spells,drained⟩

end Numalloc
