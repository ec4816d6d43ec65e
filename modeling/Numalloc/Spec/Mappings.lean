import Numalloc.Spec.FreeLists

/-! What the large cache and the mappings in hand are to the stock of a thread. -/
namespace Numalloc

open Concurrent View Logic

variable {P : Platform} {strict : Bool} {v v' : View} {th : PerThreadHeap} {r : HeapRef}
  {L S : Nat → List Nat} {C : List Nat} {H M M' : Set Nat} {id : Nat} {m : Mapping}

/-- A cached mapping is the one of some entry. -/
theorem Cached.parked (cached : Cached strict v th L S C) (mem : id ∈ C) :
    ∃ entry ∈ th.largeCache.entries, Parked strict v th entry id := by
  obtain ⟨i,bound,rfl⟩ := List.mem_iff_getElem.mp mem
  obtain ⟨length,each⟩ := List.forall₂_iff_get.mp cached.large
  exact ⟨_,List.getElem_mem _,each i (by omega) bound⟩

theorem Cached.entry (cached : Cached strict v th L S C) {entry : LargeCacheEntry}
    (mem : entry ∈ th.largeCache.entries) : ∃ id ∈ C, Parked strict v th entry id := by
  obtain ⟨i,bound,rfl⟩ := List.mem_iff_getElem.mp mem
  obtain ⟨length,each⟩ := List.forall₂_iff_get.mp cached.large
  exact ⟨_,List.getElem_mem (by omega),each i bound (by omega)⟩

theorem Stock.large (stock : Stock P strict v th L S C H M) (found : v.maps id = some m) :
    ∃ i, m.use = .large i := by
  by_cases cached : id ∈ C
  · obtain ⟨_,_,m',found',_,_,use,_⟩ := stock.cached.parked cached
    obtain rfl := Option.some.inj (found.symm.trans found')
    exact ⟨_,use⟩
  · exact stock.uses (stock.looseMap.mpr ⟨⟨m,found⟩,cached⟩) found

/-- Storing a cache made of mappings the thread owned. -/
theorem Stock.setCache (stock : Stock P strict v th L S C H M) (M' : Set Nat) {cache : LargeCache} {C' : List Nat}
    (large : List.Forall₂ (Parked strict v th) cache.entries C') (ids : C'.Nodup) (ok : cache.Ok)
    (owned : ∀ {id}, id ∈ M' ↔ (id ∈ M ∨ id ∈ C) ∧ id ∉ C') :
    Stock P strict v { th with largeCache := cache } L S C' H M' := by
  have known : ∀ {id}, id ∈ M ∨ id ∈ C ↔ ∃ m, v.maps id = some m := by
    intro id
    constructor
    · rintro (loose | mem)
      · exact stock.heldMap loose
      · obtain ⟨_,_,m,found,_⟩ := stock.cached.parked mem
        exact ⟨m,found⟩
    · intro found
      by_cases mem : id ∈ C
      · exact Or.inr mem
      · exact Or.inl (stock.looseMap.mpr ⟨found,mem⟩)
  refine ⟨⟨stock.cached.counted,stock.cached.spare,stock.cached.nodup,stock.cached.ref,large,ids,ok⟩,
    stock.tight,stock.sane,stock.loose,fun {id} => ?_,fun _ found => stock.large found⟩
  rw [owned,known]

theorem Stock.notCachedMap (stock : Stock P strict v th L S C H M) (mem : id ∈ M) : id ∉ C :=
  (stock.looseMap.mp mem).2

/-- A mapping in hand goes away. -/
theorem Stock.dropMap (stock : Stock P strict v th L S C H M) (mem : id ∈ M) :
    Stock P strict (v.setMap id none) th L S C H (M \ {id}) := by
  have out := stock.notCachedMap mem
  refine stock.transfer (stock.sane.setMap (by simp)) (fun _ => rfl) (fun cached => ?_) stock.loose
    (fun {id'} => ?_) (fun {id' m} loose found => ?_)
  · exact setMap_other fun same => out (same ▸ cached)
  · by_cases same : id' = id
    · simp [same]
    · simp only [Set.mem_sdiff,Set.mem_singleton_iff,same,not_false_eq_true,and_true,
        setMap_other same]
      exact stock.looseMap
  · have ne : id' ≠ id := loose.2
    rw [setMap_other ne] at found
    exact stock.uses loose.1 found

/-- A mapping comes to hand, or one in hand is updated. -/
theorem Stock.holdMap (stock : Stock P strict v th L S C H M) (out : id ∉ C) (ok : MapOk P m)
    (use : ∃ i, m.use = .large i) :
    Stock P strict (v.setMap id (some m)) th L S C H (insert id M) := by
  refine stock.transfer (stock.sane.setMap fun m' h => Option.some.inj h ▸ ok) (fun _ => rfl)
    (fun cached => ?_) stock.loose (fun {id'} => ?_) (fun {id' m'} _ found => ?_)
  · exact setMap_other fun same => out (same ▸ cached)
  · by_cases same : id' = id
    · subst same
      simp [out]
    · rw [Set.mem_insert_iff,setMap_other same,or_iff_right same]
      exact stock.looseMap
  · by_cases same : id' = id
    · subst same
      rw [setMap_at] at found
      exact Option.some.inj found ▸ use
    · rw [setMap_other same] at found
      exact stock.large found

end Numalloc
