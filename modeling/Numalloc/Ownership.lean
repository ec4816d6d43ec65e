import Numalloc.View
import Mathlib.Data.Set.Basic
import Mathlib.Tactic.Tauto

/-! What a thread owns, sorted by where it is: in the counted list or the spare chain
of a class, in the large cache, or in the hands of the operation in progress. -/
namespace Numalloc

open Concurrent View

/-- Facts that hold of any view, at any point of any operation. -/
structure View.Sane (P : Platform) (v : View) : Prop where
  user : ∀ {b B}, v.blocks b = some B → UserAddr b
  cls : ∀ {b B}, v.blocks b = some B → B.ref.cls < numSizeClasses
  rooted : v.Rooted
  maps : ∀ {id m}, v.maps id = some m → MapOk P m

/-- The mapping behind an entry of the large cache. -/
def Parked (strict : Bool) (v : View) (th : PerThreadHeap) (entry : LargeCacheEntry)
    (id : Nat) : Prop :=
  ∃ m, v.maps id = some m ∧ m.base = entry.originalPtr ∧ m.size = entry.allocSize ∧
    m.use = .large th.globalHeap.inst ∧ (strict = true → m.node = some th.nodeId)

/-- The lists of a cache are chains of the thread's own blocks, terminated and without
repetition; its large entries are mappings of the thread's own. -/
structure Cached (strict : Bool) (v : View) (th : PerThreadHeap) (L S : Nat → List Nat)
    (C : List Nat) : Prop where
  counted : ∀ c, Links v.link (th.freelists c).head (L c) none
  spare : ∀ c, Links v.link (th.freelists c).spare (S c) none
  nodup : ∀ c, (L c ++ S c).Nodup
  ref : ∀ {c b}, b ∈ L c ++ S c → v.ref b = some ⟨th.globalHeap.addr,th.nodeId,c⟩
  large : List.Forall₂ (Parked strict v th) th.largeCache.entries C
  ids : C.Nodup
  cache : th.largeCache.Ok

/-- The program logic of the allocator. -/
@[reducible] def allocLogic (P : Platform) (strict : Bool) : Logic allocI View where
  always v := v.Sane P ∧ ∀ th, v.slot = .alive th → ∃ L S C, Cached strict v th L S C
  safe := safe P strict
  step := step P strict

/-- Count and tail pointer describe the list. -/
def Tight (fl : ThreadFreelist) (l : List Nat) : Prop :=
  fl.count = l.length ∧ fl.tail = l.getLast?

/-- A cache with everything the thread owns besides: blocks `H` and mappings `M`. -/
structure Stock (P : Platform) (strict : Bool) (v : View) (th : PerThreadHeap)
    (L S : Nat → List Nat) (C : List Nat) (H M : Set Nat) : Prop where
  cached : Cached strict v th L S C
  tight : ∀ c, Tight (th.freelists c) (L c)
  sane : v.Sane P
  loose : ∀ {b}, b ∈ H ↔ (∃ B, v.blocks b = some B) ∧ ∀ c, b ∉ L c ++ S c
  looseMap : ∀ {id}, id ∈ M ↔ (∃ m, v.maps id = some m) ∧ id ∉ C
  uses : ∀ {id m}, id ∈ M → v.maps id = some m → ∃ i, m.use = .large i

/-- A thread without a cache. -/
structure Bare (P : Platform) (v : View) (H M : Set Nat) : Prop where
  slot : ∀ th, v.slot ≠ .alive th
  sane : v.Sane P
  loose : ∀ {b}, b ∈ H ↔ ∃ B, v.blocks b = some B
  looseMap : ∀ {id}, id ∈ M ↔ ∃ m, v.maps id = some m
  uses : ∀ {id m}, v.maps id = some m → ∃ i, m.use = .large i

/-- What an operation leaves alone: its operand, the references in the thread's hands,
the blocks `H` and mappings `M`, and the cache it found for its allocator. -/
structure Frame (v v' : View) (H M : Set Nat) : Prop where
  inst : v'.call.inst = v.call.inst
  call : ∀ {r}, v.call.heap = some r → v'.call.heap = some r
  pin : v'.pin = v.pin
  hand : v'.hand = v.hand
  dying : v'.dying = v.dying
  ref : ∀ b ∈ H, v'.ref b = v.ref b
  maps : ∀ id ∈ M, v'.maps id = v.maps id
  stay : ∀ {th r}, v.Present th r → ∃ th', v'.Present th' r ∧ th'.nodeId = th.nodeId
  gone : v.slot = .destroyed → v'.slot = .destroyed

variable {P : Platform} {strict : Bool} {v v' v'' : View} {th th' : PerThreadHeap}
  {L S : Nat → List Nat} {C : List Nat} {H H' M M' : Set Nat}

namespace Frame

theorem refl (v : View) (H M : Set Nat) : Frame v v H M :=
  ⟨rfl,id,rfl,rfl,rfl,fun _ _ => rfl,fun _ _ => rfl,fun h => ⟨_,h,rfl⟩,id⟩

theorem trans (first : Frame v v' H M) (second : Frame v' v'' H M) : Frame v v'' H M where
  inst := second.inst.trans first.inst
  call h := second.call (first.call h)
  pin := second.pin.trans first.pin
  hand := second.hand.trans first.hand
  dying := second.dying.trans first.dying
  ref b h := (second.ref b h).trans (first.ref b h)
  maps id h := (second.maps id h).trans (first.maps id h)
  stay h := by
    obtain ⟨th',present,node⟩ := first.stay h
    obtain ⟨th'',present',node'⟩ := second.stay present
    exact ⟨th'',present',node'.trans node⟩
  gone h := second.gone (first.gone h)

theorem mono (frame : Frame v v' H M) (blocks : H' ⊆ H) (maps : M' ⊆ M) : Frame v v' H' M' :=
  { frame with
    ref := fun b h => frame.ref b (blocks h)
    maps := fun id h => frame.maps id (maps h) }

end Frame

/-! Views that differ in one place. -/

theorem block_link {b : Nat} {B : Block} (h : v.blocks b = some B) : v.link b = B.link := by
  simp [View.link,h]

theorem block_of_link {b : Nat} {n : Option Nat} (h : v.link b = some n) :
    ∃ B, v.blocks b = some B := by
  obtain ⟨B,block,_⟩ := Option.bind_eq_some_iff.mp h
  exact ⟨B,block⟩

theorem block_of_ref {b : Nat} {k : StackRef} (h : v.ref b = some k) :
    ∃ B, v.blocks b = some B ∧ B.ref = k := Option.map_eq_some_iff.mp h

@[simp] theorem setLink_ref (v : View) (b c : Nat) (x : Option (Option Nat)) :
    (v.setLink b x).ref c = v.ref c := by
  by_cases same : c = b
  · subst same
    simp [View.ref,setLink,Option.map_map,Function.comp_def]
  · simp [View.ref,setLink,replace_other same]

theorem setLink_link {b : Nat} {B : Block} (held : v.blocks b = some B) (x : Option (Option Nat)) :
    (v.setLink b x).link = replace v.link b x := by
  funext c
  by_cases same : c = b
  · subst same
    simp [View.link,setLink,held]
  · simp [View.link,setLink,replace_other same]

theorem setLink_other {b c : Nat} (x : Option (Option Nat)) (ne : c ≠ b) :
    (v.setLink b x).blocks c = v.blocks c := by simp [setLink,replace_other ne]

theorem setLink_some {b c : Nat} {x : Option (Option Nat)} :
    (∃ B, (v.setLink b x).blocks c = some B) ↔ ∃ B, v.blocks c = some B := by
  simp only [← Option.isSome_iff_exists]
  by_cases same : c = b
  · subst same
    simp [setLink]
  · rw [setLink_other x same]

theorem without_some {gone : List Nat} {b : Nat} :
    (∃ B, (v.without gone).blocks b = some B) ↔ b ∉ gone ∧ ∃ B, v.blocks b = some B := by
  by_cases mem : b ∈ gone <;> simp [without,mem]

theorem without_other {gone : List Nat} {b : Nat} (h : b ∉ gone) :
    (v.without gone).blocks b = v.blocks b := by simp [without,h]

theorem without_block {gone : List Nat} {b : Nat} {B : Block}
    (h : (v.without gone).blocks b = some B) : v.blocks b = some B := by
  by_cases mem : b ∈ gone
  · simp [without,mem] at h
  · rwa [without_other mem] at h

theorem setMap_other {id id' : Nat} {m : Option Mapping} (ne : id' ≠ id) :
    (v.setMap id m).maps id' = v.maps id' := by simp [setMap,replace_other ne]

@[simp] theorem setMap_at (v : View) (id : Nat) (m : Option Mapping) :
    (v.setMap id m).maps id = m := by simp [setMap]

namespace View.Sane

theorem setLink (sane : v.Sane P) (b : Nat) (x : Option (Option Nat)) :
    (v.setLink b x).Sane P := by
  have back : ∀ {c B}, (v.setLink b x).blocks c = some B →
      ∃ B', v.blocks c = some B' ∧ B'.ref = B.ref := by
    intro c B h
    have ref := setLink_ref v b c x
    rw [View.ref,h,Option.map_some] at ref
    exact block_of_ref ref.symm
  refine ⟨fun h => ?_,fun h => ?_,fun c B h => ?_,sane.maps⟩
  · obtain ⟨B',old,_⟩ := back h
    exact sane.user old
  · obtain ⟨B',old,ref⟩ := back h
    exact ref ▸ sane.cls old
  · obtain ⟨B',old,ref⟩ := back h
    exact ref ▸ sane.rooted c B' old

theorem without (sane : v.Sane P) (gone : List Nat) : (v.without gone).Sane P :=
  ⟨fun h => sane.user (without_block h),fun h => sane.cls (without_block h),fun b B h => sane.rooted b B (without_block h),sane.maps⟩

theorem setMap (sane : v.Sane P) {id : Nat} {m : Option Mapping}
    (ok : ∀ m', m = some m' → MapOk P m') : (v.setMap id m).Sane P := by
  refine ⟨sane.user,sane.cls,sane.rooted,fun {id' m'} h => ?_⟩
  by_cases same : id' = id
  · subst same
    exact ok m' (by simpa using h)
  · exact sane.maps (by rwa [setMap_other same] at h)

end View.Sane

/-! Stocks. -/

namespace Stock

theorem always (stock : Stock P strict v th L S C H M)
    (slot : ∀ th', v.slot = .alive th' → th' = th) : (allocLogic P strict).always v := by
  refine ⟨stock.sane,fun th' alive => ?_⟩
  obtain rfl := slot th' alive
  exact ⟨L,S,C,stock.cached⟩

theorem held (stock : Stock P strict v th L S C H M) {b : Nat} (h : b ∈ H) :
    ∃ B, v.blocks b = some B := (stock.loose.mp h).1

theorem notCached (stock : Stock P strict v th L S C H M) {b : Nat} (h : b ∈ H) (c : Nat) :
    b ∉ L c ++ S c := (stock.loose.mp h).2 c

theorem heldMap (stock : Stock P strict v th L S C H M) {id : Nat} (h : id ∈ M) :
    ∃ m, v.maps id = some m := (stock.looseMap.mp h).1

theorem user (stock : Stock P strict v th L S C H M) {b : Nat} (h : b ∈ H) : UserAddr b := by
  obtain ⟨B,block⟩ := stock.held h
  exact stock.sane.user block

theorem userCached (stock : Stock P strict v th L S C H M) {b c : Nat} (h : b ∈ L c ++ S c) :
    UserAddr b := by
  obtain ⟨B,block,_⟩ := block_of_ref (stock.cached.ref h)
  exact stock.sane.user block

/-- Classes do not share blocks. -/
theorem cls (stock : Stock P strict v th L S C H M) {b c c' : Nat} (h : b ∈ L c ++ S c)
    (h' : b ∈ L c' ++ S c') : c = c' := by
  have eq := (stock.cached.ref h).symm.trans (stock.cached.ref h')
  simpa using eq

/-- Everything cached is where it was; only what the operation holds has changed. -/
theorem transfer (stock : Stock P strict v th L S C H M) (sane : v'.Sane P)
    (blocks : ∀ {c b}, b ∈ L c ++ S c → v'.blocks b = v.blocks b)
    (maps : ∀ {id}, id ∈ C → v'.maps id = v.maps id)
    (loose : ∀ {b}, b ∈ H' ↔ (∃ B, v'.blocks b = some B) ∧ ∀ c, b ∉ L c ++ S c)
    (looseMap : ∀ {id}, id ∈ M' ↔ (∃ m, v'.maps id = some m) ∧ id ∉ C)
    (uses : ∀ {id m}, id ∈ M' → v'.maps id = some m → ∃ i, m.use = .large i) :
    Stock P strict v' th L S C H' M' := by
  have link : ∀ {c b}, b ∈ L c ++ S c → v.link b = v'.link b := fun h => by
    simp only [View.link,blocks h]
  refine ⟨⟨fun c => ?_,fun c => ?_,stock.cached.nodup,fun h => ?_,?_,stock.cached.ids,
    stock.cached.cache⟩,stock.tight,
    sane,loose,looseMap,uses⟩
  · exact (links_congr fun b h => link (List.mem_append_left _ h)).mp (stock.cached.counted c)
  · exact (links_congr fun b h => link (List.mem_append_right _ h)).mp (stock.cached.spare c)
  · simp only [View.ref,blocks h]
    exact stock.cached.ref h
  · have same : ∀ entries ids, (∀ id ∈ ids, id ∈ C) → List.Forall₂ (Parked strict v th) entries ids →
        List.Forall₂ (Parked strict v' th) entries ids := by
      intro entries ids sub all
      induction all with
      | nil => exact .nil
      | cons parked rest ih =>
        obtain ⟨m,found,facts⟩ := parked
        refine .cons ⟨m,?_,facts⟩ (ih fun id h => sub id (List.mem_cons_of_mem _ h))
        rw [maps (sub _ List.mem_cons_self)]
        exact found
    exact same _ _ (fun _ h => h) stock.cached.large

/-- The common case: the blocks the operation holds changed, and nothing else. -/
theorem retake (stock : Stock P strict v th L S C H M) (sane : v'.Sane P)
    (blocks : ∀ {c b}, b ∈ L c ++ S c → v'.blocks b = v.blocks b) (maps : v'.maps = v.maps)
    (loose : ∀ {b}, b ∈ H' ↔ (∃ B, v'.blocks b = some B) ∧ ∀ c, b ∉ L c ++ S c) :
    Stock P strict v' th L S C H' M :=
  stock.transfer sane blocks (fun _ => by rw [maps]) loose (by rw [maps]; exact stock.looseMap)
    (by rw [maps]; exact stock.uses)

theorem setLink (stock : Stock P strict v th L S C H M) {b : Nat} (h : b ∈ H)
    (x : Option (Option Nat)) : Stock P strict (v.setLink b x) th L S C H M := by
  refine stock.retake (stock.sane.setLink b x) (fun {c b'} cached => setLink_other x ?_) rfl ?_
  · rintro rfl
    exact stock.notCached h c cached
  · intro b'
    rw [setLink_some]
    exact stock.loose

theorem without (stock : Stock P strict v th L S C H M) {gone : List Nat}
    (sub : ∀ b ∈ gone, b ∈ H) :
    Stock P strict (v.without gone) th L S C (H \ {b | b ∈ gone}) M := by
  refine stock.retake (stock.sane.without gone) (fun {c b} cached => without_other ?_) rfl ?_
  · exact fun mem => stock.notCached (sub b mem) c cached
  · intro b
    rw [without_some,Set.mem_sdiff,stock.loose,Set.mem_ofPred_eq]
    tauto

/-- The slot, and with it the way the cache's heap is kept alive, does not matter. -/
theorem reslot (stock : Stock P strict v th L S C H M) {slot : ThreadHeapSlot}
    {hand : Option HeapHandle}
    (rooted : ({ v with slot := slot, hand := hand } : View).Rooted) :
    Stock P strict { v with slot := slot, hand := hand } th L S C H M :=
  stock.retake ⟨stock.sane.user,stock.sane.cls,rooted,stock.sane.maps⟩ (fun _ => rfl) rfl stock.loose

end Stock

end Numalloc
