import Numalloc.Concurrent.Rules
import Numalloc.SizeClass

/-! Geometry of the heap (`heap.rs`): one mapping split into per-node regions, and
the bump allocation of bags. The atomic cells of a region are accessed through the
interface; the fields here never change after construction. -/
namespace Numalloc

open Concurrent

def maxNodes : Nat := 8

def minRegionSize : Nat := smallLimit

/-- Immutable part of a node's region. -/
structure NodeRegion where
  base : Nat
  size : Nat
  deriving DecidableEq

namespace NodeRegion

/-- The bump offset of one region. -/
inductive Op where
  | load
  | compareExchangeWeak (current new : Nat)

@[reducible] def Op.Res : Op → Type
  | load => Nat
  | compareExchangeWeak _ _ => Bool

@[reducible] def bumpI : Interface := ⟨Op,Op.Res⟩

/-- `NonNull::dangling()` and no bytes, for unused slots. -/
def empty : NodeRegion := ⟨1,0⟩

/-- Where the next bag would start, and the bump offset after it. -/
def nextBag (region : NodeRegion) (bagSize offset : Nat) : Option (Nat × Nat) := do
  let alignMask := bagSize - 1
  let address ← checkedAdd region.base offset
  let address ← checkedAdd address alignMask
  let address := address &&& bnot64 alignMask
  let aligned ← checkedSub address region.base
  let newOffset ← checkedAdd aligned bagSize
  if region.size < newOffset then none else some (aligned, newOffset)

def allocateBag (region : NodeRegion) (bagSize : Nat) : Prog bumpI (Option Nat) :=
  .iter (fun _ => do
    let offset ← .call (I := bumpI) .load
    match region.nextBag bagSize offset with
    | none => pure (.inr none)
    | some (aligned, newOffset) =>
      if ← .call (I := bumpI) (.compareExchangeWeak offset newOffset) then
        pure (.inr (some (region.base + aligned)))
      else
        pure (.inl ())) ()

variable {region : NodeRegion} {k offset aligned new : Nat}

theorem nextBag_spec (small : k ≤ 64) (bag : region.nextBag (2 ^ k) offset = some (aligned,new)) :
    offset ≤ aligned ∧ new = aligned + 2 ^ k ∧ new ≤ region.size ∧
      2 ^ k ∣ region.base + aligned := by
  simp only [nextBag,Option.bind_eq_bind,Option.bind_eq_some_iff,checkedAdd_eq_some,
    checkedSub_eq_some,Option.ite_none_left_eq_some,Option.some.injEq,Prod.mk.injEq] at bag
  obtain ⟨_,⟨_,rfl⟩,_,⟨word,rfl⟩,_,⟨above,rfl⟩,_,⟨_,rfl⟩,fits,rfl,rfl⟩ := bag
  unfold usizeMax at word
  have ge := alignUp_ge (x := region.base + offset) rfl small (by omega)
  have dvd := dvd_alignUp (x := region.base + offset) rfl small (by omega)
  unfold alignUp at ge dvd
  refine ⟨by omega,rfl,by omega,?_⟩
  rwa [Nat.add_sub_cancel' above]

end NodeRegion

structure GlobalHeap where
  base : Nat
  totalSize : Nat
  regionSize : Nat
  numNodes : Nat
  nodes : List NodeRegion
  mapBase : Nat
  mapSize : Nat
  deriving DecidableEq

/-- The sizes `GlobalHeap::new` settles on before it maps anything. -/
structure Reservation where
  numNodes : Nat
  regionSize : Nat
  totalSize : Nat
  mapSize : Nat

namespace GlobalHeap

def reserve (numNodes regionSize : Nat) : Option Reservation := do
  let numNodes := max 1 (min numNodes maxNodes)
  let regionSize ← checkedAdd (max regionSize minRegionSize) (minRegionSize - 1)
  let regionSize := regionSize &&& bnot64 (minRegionSize - 1)
  let totalSize ← checkedMul regionSize numNodes
  let mapSize ← checkedAdd totalSize minRegionSize
  if isizeMax < mapSize then none else some ⟨numNodes,regionSize,totalSize,mapSize⟩

/-- The heap laid out in a mapping that starts at `raw`. -/
def place (r : Reservation) (raw : Nat) : GlobalHeap :=
  let aligned := (raw + minRegionSize - 1) &&& bnot64 (minRegionSize - 1)
  let base := raw + (aligned - raw)
  { base := base
    totalSize := r.totalSize
    regionSize := r.regionSize
    numNodes := r.numNodes
    nodes := (List.range maxNodes).map fun i =>
      if i < r.numNodes then ⟨base + i * r.regionSize,r.regionSize⟩ else .empty
    mapBase := raw
    mapSize := r.mapSize }

def new (numNodes regionSize : Nat) (mmapAnonymous : Nat → Option Nat) : Option GlobalHeap := do
  let r ← reserve numNodes regionSize
  let raw ← mmapAnonymous r.mapSize
  some (place r raw)

def nodeForPtr (heap : GlobalHeap) (ptr : Nat) : Option Nat :=
  let offset := wrappingSub ptr heap.base
  if heap.totalSize ≤ offset then none else some (offset / heap.regionSize)

def isOwned (heap : GlobalHeap) (ptr : Nat) : Bool := (heap.nodeForPtr ptr).isSome

def nodeRegion (heap : GlobalHeap) (node : Nat) : NodeRegion := heap.nodes.getD node .empty

/-- What construction establishes about the geometry. -/
structure Valid (g : GlobalHeap) : Prop where
  some_node : 0 < g.numNodes
  few_nodes : g.numNodes ≤ maxNodes
  region_pos : 0 < g.regionSize
  region_dvd : minRegionSize ∣ g.regionSize
  total : g.totalSize = g.regionSize * g.numNodes
  aligned : minRegionSize ∣ g.base
  lower : g.mapBase ≤ g.base
  upper : g.base + g.totalSize ≤ g.mapBase + g.mapSize
  map_pos : 0 < g.mapBase
  map_bound : g.mapBase + g.mapSize ≤ 2 ^ 48
  node : ∀ i < g.numNodes, g.nodeRegion i = ⟨g.base + i * g.regionSize,g.regionSize⟩

variable {g : GlobalHeap} {p n i : Nat}

theorem reserve_spec {nodes size : Nat} {r : Reservation} (h : reserve nodes size = some r) :
    0 < r.numNodes ∧ r.numNodes ≤ maxNodes ∧ 0 < r.regionSize ∧ minRegionSize ∣ r.regionSize ∧
      r.totalSize = r.regionSize * r.numNodes ∧ r.mapSize = r.totalSize + minRegionSize := by
  simp only [reserve,Option.bind_eq_bind,Option.bind_eq_some_iff,checkedAdd_eq_some,
    checkedMul_eq_some,Option.ite_none_left_eq_some,Option.some.injEq] at h
  obtain ⟨_,⟨word,rfl⟩,_,⟨_,rfl⟩,_,⟨_,rfl⟩,_,rfl⟩ := h
  unfold usizeMax at word
  have pow : minRegionSize = 2 ^ 18 := rfl
  have ge := alignUp_ge (x := max size minRegionSize) pow (by decide) (by omega)
  have dvd := dvd_alignUp (x := max size minRegionSize) pow (by decide) (by omega)
  unfold alignUp at ge dvd
  refine ⟨by simp,?_,?_,dvd,rfl,rfl⟩
  · simp [maxNodes]
  · have : 0 < minRegionSize := by decide
    simp only
    omega

theorem place_valid {nodes size raw : Nat} {r : Reservation} (h : reserve nodes size = some r)
    (pos : 0 < raw) (bound : raw + r.mapSize ≤ 2 ^ 48) : (place r raw).Valid := by
  obtain ⟨some_node,few_nodes,region_pos,region_dvd,total,map⟩ := reserve_spec h
  have pow : minRegionSize = 2 ^ 18 := rfl
  have unit : minRegionSize = 262144 := rfl
  have step : raw + minRegionSize - 1 = raw + (minRegionSize - 1) := by omega
  have word : raw + (minRegionSize - 1) < 2 ^ 64 := by omega
  have ge := alignUp_ge (x := raw) pow (by decide) word
  have le := alignUp_le (x := raw) pow (by decide) word
  have dvd := dvd_alignUp (x := raw) pow (by decide) word
  have base : (place r raw).base = alignUp raw minRegionSize := by
    simp only [place,step,alignUp] at ge ⊢
    omega
  refine ⟨some_node,few_nodes,region_pos,region_dvd,total,?_,?_,?_,pos,bound,?_⟩
  · rw [base]; exact dvd
  · rw [base]; exact ge
  · rw [base]
    simp only [place,map]
    omega
  · intro i hi
    have slot : i < maxNodes := lt_of_lt_of_le hi few_nodes
    simp only [nodeRegion,List.getD_eq_getElem?_getD]
    simp only [place] at hi ⊢
    simp [slot,hi]

theorem Valid.node_upper (valid : g.Valid) (h : i < g.numNodes) :
    g.base + i * g.regionSize + g.regionSize ≤ g.base + g.totalSize := by
  rw [valid.total,Nat.mul_comm g.regionSize]
  have := Nat.mul_le_mul_right g.regionSize (Nat.succ_le_of_lt h)
  rw [Nat.succ_mul] at this
  omega

/-- The lookup is exact over all addresses: one comparison rejects both those past the
last region and those below the base, whose distance wraps around. -/
theorem nodeForPtr_eq_some (pos : 0 < g.regionSize)
    (total : g.totalSize = g.regionSize * g.numNodes) (top : g.base + g.totalSize ≤ 2 ^ 64)
    (word : p < 2 ^ 64) : g.nodeForPtr p = some n ↔
      n < g.numNodes ∧ g.base + n * g.regionSize ≤ p ∧
        p < g.base + n * g.regionSize + g.regionSize := by
  have last : n < g.numNodes → n * g.regionSize + g.regionSize ≤ g.totalSize := by
    intro low
    rw [total,Nat.mul_comm g.regionSize,← Nat.succ_mul]
    exact Nat.mul_le_mul_right _ low
  simp only [nodeForPtr]
  rcases Nat.lt_or_ge p g.base with below | above
  · have far : wrappingSub p g.base = p + 2 ^ 64 - g.base := Nat.mod_eq_of_lt (by omega)
    rw [far,if_pos (by omega)]
    constructor
    · intro h; cases h
    · rintro ⟨-,low,-⟩
      exact absurd (Nat.le_trans (Nat.le_add_right _ _) low) (by omega)
  have near : wrappingSub p g.base = p - g.base := by
    unfold wrappingSub
    rw [show p + 2 ^ 64 - g.base = (p - g.base) + 2 ^ 64 by omega,Nat.add_mod_right]
    exact Nat.mod_eq_of_lt (by omega)
  rw [near]
  split
  case isTrue past =>
    constructor
    · intro h; cases h
    · rintro ⟨low,-,high⟩
      have := last low
      omega
  case isFalse inside =>
    rw [Option.some.injEq,Nat.div_eq_iff pos]
    have index : (p - g.base) / g.regionSize < g.numNodes := by
      rw [Nat.div_lt_iff_lt_mul pos,Nat.mul_comm,← total]
      omega
    constructor
    · rintro ⟨low,high⟩
      refine ⟨?_,by omega,by omega⟩
      have : n ≤ (p - g.base) / g.regionSize := (Nat.le_div_iff_mul_le pos).mpr low
      omega
    · rintro ⟨-,low,high⟩
      exact ⟨by omega,by omega⟩

theorem Valid.nodeForPtr_eq_some (valid : g.Valid) (word : p < 2 ^ 64) : g.nodeForPtr p = some n ↔
    n < g.numNodes ∧ g.base + n * g.regionSize ≤ p ∧
      p < g.base + n * g.regionSize + g.regionSize := by
  have := valid.upper
  have := valid.map_bound
  exact GlobalHeap.nodeForPtr_eq_some valid.region_pos valid.total (by omega) word

/-- The lookup is exact inside a node's region. -/
theorem Valid.nodeForPtr_mem (valid : g.Valid) (h : n < g.numNodes)
    (low : g.base + n * g.regionSize ≤ p) (high : p < g.base + n * g.regionSize + g.regionSize) :
    g.nodeForPtr p = some n := by
  have := valid.node_upper h
  have := valid.upper
  have := valid.map_bound
  exact (valid.nodeForPtr_eq_some (by omega)).mpr ⟨h,low,high⟩

theorem Valid.nodeForPtr_inv (valid : g.Valid) (word : p < 2 ^ 64) (h : g.nodeForPtr p = some n) :
    n < g.numNodes ∧ g.base + n * g.regionSize ≤ p ∧
      p < g.base + n * g.regionSize + g.regionSize :=
  (valid.nodeForPtr_eq_some word).mp h

/-- Addresses outside the regions belong to no node, those below the base included. -/
theorem Valid.nodeForPtr_none (valid : g.Valid) (word : p < 2 ^ 64)
    (out : p < g.base ∨ g.base + g.totalSize ≤ p) : g.nodeForPtr p = none := by
  cases found : g.nodeForPtr p with
  | none => rfl
  | some n =>
    obtain ⟨low,above,below⟩ := valid.nodeForPtr_inv word found
    have := valid.node_upper low
    omega

/-- Regions of different nodes do not meet. -/
theorem nodes_apart (g : GlobalHeap) {i j : Nat} (ne : i ≠ j) :
    Apart (g.base + i * g.regionSize) g.regionSize (g.base + j * g.regionSize) g.regionSize := by
  rcases Nat.lt_or_gt_of_ne ne with lt | gt
  · have := Nat.mul_le_mul_right g.regionSize (Nat.succ_le_of_lt lt)
    rw [Nat.succ_mul] at this
    exact Or.inl (by omega)
  · have := Nat.mul_le_mul_right g.regionSize (Nat.succ_le_of_lt gt)
    rw [Nat.succ_mul] at this
    exact Or.inr (by omega)

end GlobalHeap

end Numalloc
