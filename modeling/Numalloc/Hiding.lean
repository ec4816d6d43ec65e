import Numalloc.Custody
import Numalloc.Footprint

/-! Storage an operation was not told about. A deallocation that would be safe without some
block or mapping of its thread acts as if it were not there, and leaves its bytes alone. -/
namespace Numalloc

open Concurrent View

namespace View

/-- The view without some of the blocks and mappings. -/
def hide (v : View) (bs ids : List Nat) : View :=
  { v with
    blocks := fun b => if b ∈ bs then none else v.blocks b
    maps := fun id => if id ∈ ids then none else v.maps id }

/-- They are in the view. -/
structure Has (v : View) (bs ids : List Nat) : Prop where
  blocks : ∀ b ∈ bs, ∃ B, v.blocks b = some B
  maps : ∀ id ∈ ids, ∃ m, v.maps id = some m

variable {v v' : View} {bs ids l : List Nat} {b id base : Nat} {B : Block} {m : Mapping}

theorem hide_block : (v.hide bs ids).blocks b = some B ↔ b ∉ bs ∧ v.blocks b = some B := by
  simp [hide]

theorem hide_map : (v.hide bs ids).maps id = some m ↔ id ∉ ids ∧ v.maps id = some m := by
  simp [hide]

theorem hide_blocks_of (out : b ∉ bs) : (v.hide bs ids).blocks b = v.blocks b := if_neg out

theorem hide_maps_of (out : id ∉ ids) : (v.hide bs ids).maps id = v.maps id := if_neg out

theorem hide_link_of (out : b ∉ bs) : (v.hide bs ids).link b = v.link b := by
  simp only [View.link,hide_blocks_of out]

theorem hide_ref_of (out : b ∉ bs) : (v.hide bs ids).ref b = v.ref b := by
  simp only [View.ref,hide_blocks_of out]

theorem hide_link_some {n : Option Nat} (h : (v.hide bs ids).link b = some n) :
    b ∉ bs ∧ v.link b = some n := by
  obtain ⟨B,held,_⟩ := Option.bind_eq_some_iff.mp h
  have out := (hide_block.mp held).1
  exact ⟨out,hide_link_of out ▸ h⟩

theorem hide_ref_some {k : StackRef} (h : (v.hide bs ids).ref b = some k) :
    b ∉ bs ∧ v.ref b = some k := by
  obtain ⟨B,held,_⟩ := Option.map_eq_some_iff.mp h
  have out := (hide_block.mp held).1
  exact ⟨out,hide_ref_of out ▸ h⟩

theorem hide_setLink (out : b ∉ bs) (link : Option (Option Nat)) :
    (v.setLink b link).hide bs ids = (v.hide bs ids).setLink b link := by
  have same : ∀ c, ((v.setLink b link).hide bs ids).blocks c =
      ((v.hide bs ids).setLink b link).blocks c := by
    intro c
    by_cases eq : c = b
    · subst eq
      simp [hide,setLink,out]
    · simp [hide,setLink,replace_other eq]
  exact View.ext rfl rfl rfl rfl rfl (funext same) rfl

theorem hide_without : (v.without l).hide bs ids = (v.hide bs ids).without l := by
  refine View.ext rfl rfl rfl rfl rfl (funext fun c => ?_) rfl
  by_cases gone : c ∈ l <;> simp [hide,without,gone]

theorem hide_setMap (out : id ∉ ids) (m : Option Mapping) :
    (v.setMap id m).hide bs ids = (v.hide bs ids).setMap id m := by
  refine View.ext rfl rfl rfl rfl rfl rfl (funext fun c => ?_)
  by_cases eq : c = id
  · subst eq
    simp [hide,setMap,out]
  · simp [hide,setMap,replace_other eq]

theorem MapAt.hide (at_ : v.MapAt base id m) (out : id ∉ ids) :
    (v.hide bs ids).MapAt base id m where
  held := hide_map.mpr ⟨out,at_.held⟩
  starts := at_.starts
  only id' m' found starts := at_.only id' m' (hide_map.mp found).2 starts

/-- What starts where a mapping in sight starts is in sight. -/
theorem MapAt.seen (at_ : v.MapAt base id m) {id' : Nat} {m' : Mapping}
    (found : (v.hide bs ids).maps id' = some m') (starts : m'.base = base) : id ∉ ids := by
  obtain ⟨out,found⟩ := hide_map.mp found
  exact at_.only id' m' found starts ▸ out

theorem Chain.seen {k : StackRef} {first : Nat} {next : Option Nat}
    (chain : (v.hide bs ids).Chain k first l next) : v.Chain k first l next ∧ ∀ b ∈ l, b ∉ bs := by
  have out : ∀ b ∈ l, b ∉ bs := fun b mem => (hide_ref_some (chain.ref b mem)).1
  refine ⟨⟨chain.nonempty,chain.nodup,?_,fun b mem => (hide_ref_some (chain.ref b mem)).2⟩,out⟩
  exact (links_congr fun b mem => hide_link_of (out b mem)).mp chain.links

theorem Gained.hide {k : StackRef} {head : Option Nat} (gained : v.Gained v' k head l)
    (has : v.Has bs ids) : (v.hide bs ids).Gained (v'.hide bs ids) k head l ∧ ∀ b ∈ l, b ∉ bs := by
  have out : ∀ b ∈ l, b ∉ bs := by
    intro b mem hidden
    obtain ⟨B,held⟩ := has.blocks b hidden
    rw [gained.foreign b mem] at held
    cases held
  refine ⟨⟨?_,gained.nodup,fun b mem => ?_,fun b mem => ?_,gained.user,?_,fun b fresh => ?_⟩,out⟩
  · exact (links_congr fun b mem => hide_link_of (out b mem)).mpr gained.links
  · rw [hide_blocks_of (out b mem),gained.foreign b mem]
  · rw [hide_ref_of (out b mem),gained.ref b mem]
  · rw [gained.same]
    simp [View.hide]
  · by_cases hidden : b ∈ bs
    · simp [View.hide,hidden]
    · rw [hide_blocks_of hidden,hide_blocks_of hidden,gained.frame b fresh]

end View

variable {P : Platform} {strict : Bool} {s s' : State} {t y : Nat} {ch : Choice} {x : Act}
  {v v' : View} {bs ids : List Nat}

/-- The hidden part is what it was. -/
structure Spared (v v' : View) (bs ids : List Nat) : Prop where
  blocks : ∀ b ∈ bs, v'.blocks b = v.blocks b
  maps : ∀ id ∈ ids, v'.maps id = v.maps id

theorem Spared.same (blocks : v'.blocks = v.blocks) (maps : v'.maps = v.maps) : Spared v v' bs ids :=
  ⟨fun _ _ => by rw [blocks],fun _ _ => by rw [maps]⟩

theorem Spared.setMap {id : Nat} (out : id ∉ ids) (m : Option Mapping) :
    Spared v (v.setMap id m) bs ids :=
  ⟨fun _ _ => rfl,fun _ mem => replace_other fun same => out (same ▸ mem)⟩

/-- What a deallocation does that is safe without the hidden part. -/
theorem step_hide {r : x.Res} (frees : Frees x) (has : v.Has bs ids)
    (safe : safe P strict x (v.hide bs ids)) (st : step P strict x v r v') :
    step P strict x (v.hide bs ids) r (v'.hide bs ids) ∧ Spared v v' bs ids := by
  cases x with
  | heap inst =>
    obtain ⟨rfl,known,valid,own,same,outside,pin⟩ := st
    exact ⟨⟨rfl,known,valid,own,same,fun id m i p found =>
      outside id m i p (hide_map.mp found).2,pin⟩,.same rfl rfl⟩
  | slotGet | slotTake destroy =>
    all_goals
      obtain ⟨rfl,rfl⟩ := st
      exact ⟨⟨rfl,rfl⟩,.same rfl rfl⟩
  | loadHead k | fetchAddNode inst | fetchAddRefs h | slotSet th | sysDealloc h =>
    all_goals
      obtain rfl := st
      exact ⟨rfl,.same rfl rfl⟩
  | thread =>
    obtain ⟨rfl,alive,node⟩ := st
    exact ⟨⟨rfl,alive,node⟩,.same rfl rfl⟩
  | setFreelist cls fl | setLargeCache cache =>
    all_goals
      obtain ⟨th,alive,rfl⟩ := st
      exact ⟨⟨th,alive,rfl⟩,.same rfl rfl⟩
  | link op =>
    cases op with
    | readNext b =>
      obtain ⟨rfl,read⟩ := st
      obtain ⟨n,seen⟩ := safe
      exact ⟨⟨rfl,(hide_link_of (hide_link_some seen).1).trans read⟩,.same rfl rfl⟩
    | writeNext b next =>
      obtain rfl := st
      obtain ⟨⟨B,held⟩,_⟩ := safe
      have out := (hide_block.mp held).1
      exact ⟨hide_setLink out _,fun c mem => replace_other fun same => out (same ▸ mem),fun _ _ => rfl⟩
    | panic => exact st.elim
  | casHead k current new =>
    cases r with
    | false =>
      obtain rfl : v' = v := st
      exact ⟨rfl,.same rfl rfl⟩
    | true =>
      cases first : (TreiberStack.unpack new).1 with
      | none =>
        simp only [step,if_true,first] at st ⊢
        obtain ⟨l,gained⟩ := st
        obtain ⟨seen,out⟩ := gained.hide has
        refine ⟨⟨l,seen⟩,fun b mem => gained.frame b fun h => out b h mem,fun _ _ => ?_⟩
        rw [gained.same]
      | some first' =>
        simp only [step,if_true,first] at st ⊢
        simp only [Numalloc.safe,first] at safe
        have taken : ∀ l, (v.hide bs ids).Chain k first' l (TreiberStack.unpack current).1 →
            v' = v.without l ∧ ∀ b ∈ l, b ∉ bs := by
          intro l chain
          obtain ⟨chain,out⟩ := chain.seen
          exact ⟨st l chain,out⟩
        refine ⟨fun l chain => (taken l chain).1 ▸ hide_without,?_⟩
        obtain ⟨l,chain⟩ := safe.2
        obtain ⟨rfl,out⟩ := taken l chain
        exact ⟨fun b mem => without_other fun h => out b h mem,fun _ _ => rfl⟩
  | fetchSubRefs h =>
    by_cases last : r = 1
    · simp only [step,if_pos last] at st ⊢
      obtain ⟨other,id,m,fresh,ok,use,rfl⟩ := st
      have out : id ∉ ids := by
        intro hidden
        obtain ⟨m',held⟩ := has.maps id hidden
        rw [fresh] at held
        cases held
      refine ⟨⟨fun b B held => other b B (hide_block.mp held).2,id,m,?_,ok,use,?_⟩,fun _ _ => rfl,
        fun id' mem => replace_other fun same => out (same ▸ mem)⟩
      · rw [hide_maps_of out,fresh]
      · refine View.ext rfl rfl rfl rfl rfl rfl ?_
        have maps := congrArg View.maps (@hide_setMap v bs _ _ out (some m))
        exact maps
    · simp only [step,if_neg last] at st ⊢
      subst st
      exact ⟨rfl,.same rfl rfl⟩
  | extent h =>
    obtain ⟨rfl,range⟩ := st
    exact ⟨⟨rfl,fun id m found => range id m (hide_map.mp found).2⟩,.same rfl rfl⟩
  | munmap ptr size =>
    obtain ⟨id,m,at_,length,rfl⟩ := st
    obtain ⟨id',m',found,starts,_⟩ := safe
    have out := at_.seen found starts
    exact ⟨⟨id,m,at_.hide out,length,hide_setMap out none⟩,.setMap out none⟩
  | madvise ptr size =>
    obtain ⟨id,m,payload,at_,length,rfl⟩ := st
    obtain ⟨id',m',found,starts,_⟩ := safe
    have out := at_.seen found starts
    exact ⟨⟨id,m,payload,at_.hide out,length,hide_setMap out _⟩,.setMap out _⟩
  | readHeader place =>
    obtain ⟨rfl,range⟩ := st
    exact ⟨⟨rfl,fun id m found => range id m (hide_map.mp found).2⟩,.same rfl rfl⟩
  | abort => exact st.elim
  | _ => cases frees

end Numalloc
