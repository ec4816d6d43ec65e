import Numalloc.Beside
import Numalloc.Construction
import Numalloc.Exhaustion
import Numalloc.Lifecycle
import Numalloc.Partition
import Numalloc.Validate
import Mathlib.Order.CompletePartialOrder

/-! The invariant walker raises no alarm: in every reachable state in which no operation is
in progress, all its assertions hold. -/
namespace Numalloc

open Concurrent View

/-! Loops that cannot fail. -/

section Loops

variable {α β ι : Type} {f : β → α → Option β} {l : List α} {b : β}

@[simp] theorem require_eq_some {p : Prop} [Decidable p] {u : Unit} : require p = some u ↔ p := by
  simp [require]

theorem require_pos {p : Prop} [Decidable p] (h : p) : require p = some () := if_pos h

/-- What every iteration keeps, the loop keeps. -/
theorem foldlM_keeps (inv : β → Prop) (start : inv b)
    (each : ∀ a ∈ l, ∀ b, inv b → ∃ b', f b a = some b' ∧ inv b') :
    ∃ b', l.foldlM f b = some b' ∧ inv b' := by
  induction l generalizing b with
  | nil => exact ⟨b,rfl,start⟩
  | cons a l ih =>
    obtain ⟨b₁,step,next⟩ := each a List.mem_cons_self b start
    obtain ⟨b₂,rest,last⟩ := ih next fun a mem => each a (List.mem_cons_of_mem _ mem)
    exact ⟨b₂,by simp [List.foldlM_cons,step,rest],last⟩

/-- A counted loop, with an invariant that counts along. -/
theorem foldlM_range {f : β → Nat → Option β} {n : Nat} (inv : Nat → β → Prop) (start : inv 0 b)
    (each : ∀ i < n, ∀ b, inv i b → ∃ b', f b i = some b' ∧ inv (i + 1) b') :
    ∃ b', (List.range n).foldlM f b = some b' ∧ inv n b' := by
  induction n with
  | zero => exact ⟨b,rfl,start⟩
  | succ n ih =>
    obtain ⟨b₁,front,next⟩ := ih fun i low => each i (Nat.lt_succ_of_lt low)
    obtain ⟨b₂,step,last⟩ := each n (Nat.lt_succ_self n) b₁ next
    exact ⟨b₂,by simp [List.range_succ,front,step],last⟩

theorem forM_passes {f : α → Option Unit} (each : ∀ a ∈ l, f a = some ()) :
    l.forM f = some () := by
  induction l with
  | nil => rfl
  | cons a l ih =>
    change (f a).bind (fun _ => l.forM f) = some ()
    rw [each a List.mem_cons_self]
    exact ih fun a mem => each a (List.mem_cons_of_mem _ mem)

/-- A loop whose iterations each add their own part to a set. -/
theorem foldlM_covers {S : Type} (inv : β → Set S → Prop) (part : α → Set S)
    (each : ∀ a ∈ l, ∀ b done, inv b done → Disjoint (part a) done →
      ∃ b', f b a = some b' ∧ inv b' (done ∪ part a))
    (apart : l.Pairwise fun a a' => Disjoint (part a) (part a')) {done : Set S} (start : inv b done)
    (fresh : ∀ a ∈ l, Disjoint (part a) done) :
    ∃ b', l.foldlM f b = some b' ∧ inv b' (done ∪ {x | ∃ a ∈ l, x ∈ part a}) := by
  induction l generalizing b done with
  | nil => exact ⟨b,rfl,by simpa using start⟩
  | cons a l ih =>
    obtain ⟨first,rest⟩ := List.pairwise_cons.mp apart
    obtain ⟨b₁,step,next⟩ := each a List.mem_cons_self b done start (fresh a List.mem_cons_self)
    obtain ⟨b₂,later,last⟩ := ih (fun a mem => each a (List.mem_cons_of_mem _ mem)) rest next
      fun a' mem => Disjoint.union_right (fresh a' (List.mem_cons_of_mem _ mem)) (first a' mem).symm
    refine ⟨b₂,by simp [List.foldlM_cons,step,later],?_⟩
    have same : done ∪ {x | ∃ a' ∈ a :: l, x ∈ part a'} =
        done ∪ part a ∪ {x | ∃ a ∈ l, x ∈ part a} := by
      ext x
      simp [or_assoc]
    rw [same]
    exact last

end Loops

/-! What the marks record. -/

variable {P : Platform} {strict : Bool} {s : State} {h node cls : Nat} {sh : SharedHeap}
  {marks : Marks} {b g i : Nat}

/-- Positions in equal slices are told apart by slice and index. -/
theorem slice_inj {size n n' i i' : Nat} (low : i < size) (low' : i' < size)
    (same : n * size + i = n' * size + i') : n = n' ∧ i = i' := by
  have pos : 0 < size := by omega
  have div : (n * size + i) / size = (n' * size + i') / size := by rw [same]
  rw [Nat.mul_comm n,Nat.mul_comm n',Nat.mul_add_div pos,Nat.mul_add_div pos,Nat.div_eq_of_lt low,
    Nat.div_eq_of_lt low'] at div
  have eq : n = n' := by omega
  subst eq
  exact ⟨rfl,by omega⟩

theorem divCeil_eq {a b : Nat} (pos : 0 < b) (dvd : b ∣ a) : divCeil a b = a / b := by
  obtain ⟨q,rfl⟩ := dvd
  rw [divCeil,Nat.mul_div_cancel_left q pos,show b * q + b - 1 = b * q + (b - 1) by omega,
    Nat.mul_add_div pos,Nat.div_eq_of_lt (by omega),Nat.add_zero]

namespace Marks

/-- Only these granules of blocks are marked. -/
def Marked (marks : Marks) (g : GlobalHeap) (D : Set (Nat × Nat)) : Prop :=
  ∀ node < g.numNodes, ∀ i < marks.bitmapBytes, ∀ k < 8,
    (marks.buf (node * marks.bitmapBytes + i)).testBit k = true → (node,i * 8 + k) ∈ D

/-- A claimed granule lies in a bag of the class that claimed it. -/
def Claimed (marks : Marks) (s : State) (h : Nat) (g : GlobalHeap) : Prop :=
  ∀ node < g.numNodes, ∀ i < marks.bagEntries,
    marks.buf (marks.bitmapBytes * marks.numNodes + node * marks.bagEntries + i) = unclaimed ∨
    ∃ bag ∈ s.bags, bag.heap = h ∧ bag.node = node ∧
      bag.addr ≤ g.base + node * g.regionSize + i * bagSize ∧
      g.base + node * g.regionSize + i * bagSize < bag.addr + bagSizeForClass bag.cls ∧
      marks.buf (marks.bitmapBytes * marks.numNodes + node * marks.bagEntries + i) = bag.cls

/-- The buffer is laid out for this heap, and true to it. -/
structure Faithful (marks : Marks) (s : State) (h : Nat) (g : GlobalHeap) (D : Set (Nat × Nat)) :
    Prop where
  nodes : marks.numNodes = g.numNodes
  bitmap : marks.bitmapBytes * 64 = g.regionSize
  bagMap : marks.bagEntries * bagSize = g.regionSize
  marked : marks.Marked g D
  claimed : marks.Claimed s h g

variable {g : GlobalHeap} {D : Set (Nat × Nat)}

/-- Bytes of bookkeeping for a heap. -/
def bytes (g : GlobalHeap) : Nat :=
  (divCeil g.regionSize (granule * 8) + divCeil g.regionSize bagSize) * g.numNodes

theorem new_faithful (valid : g.Valid) {mmapAnonymous : Nat → Option Nat}
    (granted : mmapAnonymous (bytes g) ≠ none) :
    ∃ marks, Marks.new g mmapAnonymous = some marks ∧ Faithful marks s h g ∅ := by
  have unit : minRegionSize = 262144 := rfl
  have dvd := valid.region_dvd
  rw [unit] at dvd
  have bits : divCeil g.regionSize (granule * 8) = g.regionSize / 64 :=
    divCeil_eq (by decide) ((by decide : granule * 8 ∣ 262144).trans dvd)
  have bags : divCeil g.regionSize bagSize = g.regionSize / 32768 :=
    divCeil_eq (by decide) ((by decide : bagSize ∣ 262144).trans dvd)
  have wholeBits : g.regionSize / 64 * 64 = g.regionSize :=
    Nat.div_mul_cancel ((by decide : 64 ∣ 262144).trans dvd)
  have wholeBags : g.regionSize / 32768 * 32768 = g.regionSize :=
    Nat.div_mul_cancel ((by decide : 32768 ∣ 262144).trans dvd)
  have room : (g.regionSize / 64 + g.regionSize / 32768) * g.numNodes ≤ usizeMax := by
    have := Nat.mul_le_mul_right g.numNodes
      (by omega : g.regionSize / 64 + g.regionSize / 32768 ≤ g.regionSize)
    have := valid.total
    have := valid.upper
    have := valid.map_bound
    unfold usizeMax
    omega
  obtain ⟨raw,mapped⟩ := Option.ne_none_iff_exists'.mp granted
  rw [bytes,bits,bags] at mapped
  refine ⟨blank (g.regionSize / 64) (g.regionSize / 32768) g.numNodes,?_,rfl,wholeBits,wholeBags,
    fun node inside i low k _ set_ => ?_,fun node inside i low => Or.inl ?_⟩
  · simp only [Marks.new,bits,bags,checkedMul,if_pos room,Option.bind_eq_bind,Option.bind_some,mapped]
  · simp only [blank] at set_ low
    have := Nat.mul_le_mul_right (g.regionSize / 64) (Nat.succ_le_of_lt inside)
    rw [Nat.succ_mul,Nat.mul_comm g.numNodes] at this
    rw [if_neg (by omega)] at set_
    simp at set_
  · simp only [blank] at low ⊢
    refine if_pos ⟨by omega,?_⟩
    have := Nat.mul_le_mul_right (g.regionSize / 32768) (Nat.succ_le_of_lt inside)
    rw [Nat.succ_mul,Nat.mul_comm g.numNodes] at this
    omega

/-- The bitmap of a node lies in front of all bag maps. -/
theorem bitmap_below {i j : Nat} (nodes : marks.numNodes = g.numNodes) (inside : node < g.numNodes)
    (low : i < marks.bitmapBytes) :
    node * marks.bitmapBytes + i < marks.bitmapBytes * marks.numNodes + j := by
  have := Nat.mul_le_mul_right marks.bitmapBytes (Nat.succ_le_of_lt inside)
  rw [Nat.succ_mul,Nat.mul_comm g.numNodes,← nodes] at this
  omega

/-- A granule of a bag can be claimed for the class of the bag. -/
theorem Faithful.claim (faithful : Faithful marks s h g D) (inside : node < g.numNodes)
    (low : i < marks.bagEntries) {bag : Bag} (mem : bag ∈ s.bags) (heap : bag.heap = h)
    (atNode : bag.node = node) (small : bag.cls < numSizeClasses)
    (above : bag.addr ≤ g.base + node * g.regionSize + i * bagSize)
    (below : g.base + node * g.regionSize + i * bagSize < bag.addr + bagSizeForClass bag.cls)
    (unique : ∀ bag' ∈ s.bags, bag'.addr ≤ g.base + node * g.regionSize + i * bagSize →
      g.base + node * g.regionSize + i * bagSize < bag'.addr + bagSizeForClass bag'.cls →
      bag'.cls = bag.cls) :
    ∃ marks', marks.claim bag.cls node i = some marks' ∧ Faithful marks' s h g D := by
  have class_ : bag.cls % 2 ^ 8 = bag.cls := Nat.mod_eq_of_lt (by unfold numSizeClasses at small; omega)
  obtain ⟨nodes,bitmap,bagMap,marked,claimed⟩ := faithful
  have free : marks.buf (marks.bitmapBytes * marks.numNodes + node * marks.bagEntries + i) = unclaimed ∨
      marks.buf (marks.bitmapBytes * marks.numNodes + node * marks.bagEntries + i) = bag.cls := by
    rcases claimed node inside i low with none_ | ⟨bag',mem',_,_,above',below',eq⟩
    · exact Or.inl none_
    · exact Or.inr (eq.trans (unique bag' mem' above' below'))
  refine ⟨marks.set (marks.bitmapBytes * marks.numNodes + node * marks.bagEntries + i) (bag.cls % 2 ^ 8),
    ?_,nodes,bitmap,bagMap,fun node' inside' i' low' k small' set_ => ?_,fun node' inside' i' low' => ?_⟩
  · simp only [Marks.claim,Marks.bagMap,if_pos low,Option.bind_eq_bind,Option.bind_some,
      require_pos free]
  · have ne := Nat.ne_of_lt (bitmap_below (j := node * marks.bagEntries + i) nodes inside' low')
    rw [← Nat.add_assoc] at ne
    refine marked node' inside' i' low' k small' ?_
    simpa only [Marks.set,replace_other ne] using set_
  · by_cases same : node' = node ∧ i' = i
    · obtain ⟨rfl,rfl⟩ := same
      refine Or.inr ⟨bag,mem,heap,atNode,above,below,?_⟩
      simp only [Marks.set,replace_same,class_]
    · have ne : marks.bitmapBytes * marks.numNodes + node' * marks.bagEntries + i' ≠
          marks.bitmapBytes * marks.numNodes + node * marks.bagEntries + i :=
        fun eq => same (slice_inj low' low (Nat.add_left_cancel (by rwa [Nat.add_assoc,Nat.add_assoc] at eq)))
      simp only [Marks.set,replace_other ne]
      exact claimed node' inside' i' low'

/-- A granule of a block that is not marked can be. -/
theorem Faithful.occupy (faithful : Faithful marks s h g D) (inside : node < g.numNodes) {x : Nat}
    (low : x / 8 < marks.bitmapBytes) (fresh : (node,x) ∉ D) :
    ∃ marks', marks.occupy node x = some marks' ∧ Faithful marks' s h g (insert (node,x) D) := by
  obtain ⟨nodes,bitmap,bagMap,marked,claimed⟩ := faithful
  have bit : 1 <<< (x % 8) = 2 ^ (x % 8) := Nat.one_shiftLeft _
  have clear : (marks.buf (node * marks.bitmapBytes + x / 8)).testBit (x % 8) = false := by
    by_contra set_
    have mem := marked node inside (x / 8) low (x % 8) (Nat.mod_lt _ (by decide)) (by simpa using set_)
    rw [Nat.div_add_mod'] at mem
    exact fresh mem
  have free : marks.buf (node * marks.bitmapBytes + x / 8) &&& 1 <<< (x % 8) = 0 := by
    rw [bit,Nat.and_two_pow,clear]
    simp
  refine ⟨marks.set (node * marks.bitmapBytes + x / 8)
      (marks.buf (node * marks.bitmapBytes + x / 8) ||| 1 <<< (x % 8)),?_,nodes,bitmap,bagMap,
    fun node' inside' i' low' k small' set_ => ?_,fun node' inside' i' low' => ?_⟩
  · simp only [Marks.occupy,Marks.bitmap,if_pos low,Option.bind_eq_bind,Option.bind_some,
      require_pos free]
  · by_cases same : node' = node ∧ i' = x / 8
    · obtain ⟨rfl,rfl⟩ := same
      simp only [Marks.set,replace_same,bit,Nat.testBit_or,Nat.testBit_two_pow,Bool.or_eq_true,
        decide_eq_true_eq] at set_
      rcases set_ with old | new
      · exact Or.inr (marked node' inside' _ low' k small' old)
      · left
        rw [← new,Nat.div_add_mod']
    · have ne : node' * marks.bitmapBytes + i' ≠ node * marks.bitmapBytes + x / 8 :=
        fun eq => same (slice_inj low' low eq)
      simp only [Marks.set,replace_other ne] at set_
      exact Or.inr (marked node' inside' i' low' k small' set_)
  · have ne := Nat.ne_of_gt (bitmap_below (j := node' * marks.bagEntries + i') nodes inside low)
    rw [← Nat.add_assoc] at ne
    simp only [Marks.set,replace_other ne]
    exact claimed node' inside' i' low'

/-- More may count as marked than is. -/
theorem Faithful.mono {D' : Set (Nat × Nat)} (faithful : Faithful marks s h g D) (sub : D ⊆ D') :
    Faithful marks s h g D' :=
  { faithful with
    marked := fun node inside i low k small set_ =>
      sub (faithful.marked node inside i low k small set_) }

end Marks

/-! Where blocks and bags are. -/

theorem sizeClasses_get (small : cls < numSizeClasses) : sizeClasses[cls]? = some (sizeForClass cls) := by
  unfold numSizeClasses at small
  interval_cases cls <;> rfl

/-- The object of a bag that an address of the bag belongs to. -/
theorem Bag.object_at {bag : Bag} {y : Nat} (small : bag.cls < numSizeClasses) (low : bag.addr ≤ y)
    (high : y < bag.addr + bagSizeForClass bag.cls) :
    ∃ o, bag.HasSlot o ∧ o ≤ y ∧ y < o + sizeForClass bag.cls := by
  have pos := sizeForClass_pos small
  have split := Nat.div_add_mod' (y - bag.addr) (sizeForClass bag.cls)
  have rest := Nat.mod_lt (y - bag.addr) pos
  refine ⟨bag.addr + (y - bag.addr) / sizeForClass bag.cls * sizeForClass bag.cls,
    ⟨Nat.le_add_right _ _,by simp,by omega⟩,by omega,by omega⟩

/-- Bags that share an address are carved for the same class. -/
theorem Inv.bags_meet (inv : Inv P s) {bag bag' : Bag} {y : Nat} (mem : bag ∈ s.bags)
    (mem' : bag' ∈ s.bags) (low : bag.addr ≤ y) (high : y < bag.addr + bagSizeForClass bag.cls)
    (low' : bag'.addr ≤ y) (high' : y < bag'.addr + bagSizeForClass bag'.cls) :
    bag.cls = bag'.cls := by
  obtain ⟨o,has,below,above⟩ := Bag.object_at (inv.slots.bagCls mem) low high
  obtain ⟨o',has',below',above'⟩ := Bag.object_at (inv.slots.bagCls mem') low' high'
  obtain ⟨hd,found⟩ := inv.slots.bag mem has
  obtain ⟨hd',found'⟩ := inv.slots.bag mem' has'
  have same : o = o' := by
    by_contra ne
    have apart := inv.slots.apart found found' ne
    unfold Apart at apart
    dsimp only at apart
    omega
  subst same
  exact congrArg Slot.cls (Option.some.inj (found.symm.trans found'))

/-- A bag lies in the region of its node. -/
theorem Inv.bag_region (inv : Inv P s) {bag : Bag} (mem : bag ∈ s.bags)
    (found : s.heaps bag.heap = some sh) :
    sh.heap.base + bag.node * sh.heap.regionSize ≤ bag.addr ∧
    bag.addr + bagSizeForClass bag.cls ≤
      sh.heap.base + bag.node * sh.heap.regionSize + sh.heap.regionSize := by
  have small := inv.slots.bagCls mem
  have pos : 0 < bagSizeForClass bag.cls := by
    rw [bagSizeForClass_eq small]
    exact Nat.two_pow_pos _
  obtain ⟨_,first⟩ := inv.slots.bag mem ⟨le_rfl,by simp,by omega⟩
  obtain ⟨o,has,_,last⟩ := Bag.object_at (y := bag.addr + bagSizeForClass bag.cls - 1) small (by omega)
    (by omega)
  obtain ⟨_,final⟩ := inv.slots.bag mem has
  obtain ⟨sh₁,found₁,_,_,_,low,_⟩ := inv.slot_region first
  obtain ⟨sh₂,found₂,_,_,_,_,high⟩ := inv.slot_region final
  obtain rfl := Option.some.inj (found.symm.trans found₁)
  obtain rfl := Option.some.inj (found.symm.trans found₂)
  exact ⟨low,by dsimp only at high; omega⟩

/-- The array of regions has its fixed length, and the unused ones are empty. -/
theorem Built.regions (built : Built P s) (found : s.heaps h = some sh) {i : Nat} (low : i < maxNodes) :
    sh.heap.nodes[i]? = some (sh.heap.nodeRegion i) ∧
      (sh.heap.numNodes ≤ i → (sh.heap.nodeRegion i).size = 0) := by
  obtain ⟨r,raw,laid⟩ := built.heaps found
  rw [laid]
  simp only [GlobalHeap.place,GlobalHeap.nodeRegion,List.getD_eq_getElem?_getD,List.getElem?_map,
    List.getElem?_range low,Option.map_some,Option.getD_some,true_and]
  intro unused
  rw [if_neg (by omega)]
  rfl

/-- The granules of a set of blocks. -/
def State.granules (s : State) (h : Nat) (g : GlobalHeap) (blocks : Set Nat) : Set (Nat × Nat) :=
  {p | ∃ b ∈ blocks, ∃ sl, s.slots b = some sl ∧ sl.heap = h ∧ sl.node = p.1 ∧
    b ≤ g.base + p.1 * g.regionSize + p.2 * granule ∧
    g.base + p.1 * g.regionSize + p.2 * granule < b + sizeForClass sl.cls}

/-- Only these blocks are marked. -/
def Marks.Noted (marks : Marks) (s : State) (h : Nat) (g : GlobalHeap) (blocks : Set Nat) : Prop :=
  Faithful marks s h g (s.granules h g blocks)

/-- What the walker computes from the address of a block, and what it finds there. -/
structure Laid (s : State) (sh : SharedHeap) (sl : Slot) (b : Nat) (bag : Bag) : Prop where
  start : (sh.heap.nodeRegion sl.node) =
    ⟨sh.heap.base + sl.node * sh.heap.regionSize,sh.heap.regionSize⟩
  node : sl.node < sh.heap.numNodes
  small : sl.cls < numSizeClasses
  owner : sh.heap.nodeForPtr b = some sl.node
  low : sh.heap.base + sl.node * sh.heap.regionSize ≤ b
  bump : b - (sh.heap.base + sl.node * sh.heap.regionSize) + sizeForClass sl.cls ≤ sh.bump sl.node
  high : b + sizeForClass sl.cls ≤ sh.heap.base + sl.node * sh.heap.regionSize + sh.heap.regionSize
  multiple : b % sizeForClass sl.cls = 0
  mem : bag ∈ s.bags
  heap : bag.heap = sl.heap
  atNode : bag.node = sl.node
  cls : bag.cls = sl.cls
  masked : b &&& bnot64 (bagSizeForClass sl.cls - 1) = bag.addr
  above : sh.heap.base + sl.node * sh.heap.regionSize ≤ bag.addr
  below : bag.addr + bagSizeForClass sl.cls ≤
    sh.heap.base + sl.node * sh.heap.regionSize + sh.heap.regionSize
  units : bagSize ∣ bag.addr - (sh.heap.base + sl.node * sh.heap.regionSize)
  eights : 8 ∣ b - (sh.heap.base + sl.node * sh.heap.regionSize)
  eight : 8 ∣ sizeForClass sl.cls
  whole : bagSize ∣ bagSizeForClass sl.cls
  word : sh.heap.base + sl.node * sh.heap.regionSize + sh.heap.regionSize ≤ 2 ^ 48

theorem Inv.laid (inv : Inv P s) (built : Built P s) {sl : Slot} (at_ : s.slots b = some sl)
    (found : s.heaps sl.heap = some sh) : ∃ bag, Laid s sh sl b bag := by
  obtain ⟨sh',found',refs,node,small,low,high⟩ := inv.slot_region at_
  obtain rfl := Option.some.inj (found.symm.trans found')
  obtain ⟨_,found'',_,_,_,_,bump,multiple⟩ := inv.slots.ok at_
  obtain rfl := Option.some.inj (found.symm.trans found'')
  have valid := inv.heaps.geom found
  have start := valid.node _ node
  obtain ⟨bag,mem,has,heap,atNode,cls⟩ := inv.slots.bagOf at_
  obtain ⟨above,below⟩ := inv.bag_region mem (heap ▸ found)
  have pos := sizeForClass_pos small
  have top := valid.node_upper node
  have upper := valid.upper
  have bound := valid.map_bound
  have pow := bagSizeForClass_eq small
  have aligned : 2 ^ max 15 (sl.cls + 3) ∣ bag.addr := by
    have aligned := built.bags mem
    rwa [cls,pow] at aligned
  have unit : minRegionSize = 2 ^ 18 := rfl
  have origin : 2 ^ 18 ∣ sh.heap.base + sl.node * sh.heap.regionSize :=
    Nat.dvd_add (unit ▸ valid.aligned) (Nat.dvd_mul_left_of_dvd (unit ▸ valid.region_dvd) _)
  have fifteen : bagSize = 2 ^ 15 := rfl
  have eight : 8 ∣ sizeForClass sl.cls := by
    rw [sizeForClass_eq small,show 8 = 2 ^ 3 from rfl]
    exact Nat.pow_dvd_pow 2 (by omega)
  rw [start] at bump
  dsimp only at bump
  rw [atNode] at above below
  rw [cls] at below
  refine ⟨bag,start,node,small,valid.nodeForPtr_mem node low (by omega),low,by omega,high,
    Nat.mod_eq_zero_of_dvd multiple,mem,heap,atNode,cls,?_,above,below,?_,?_,eight,?_,by omega⟩
  · rw [pow,and_bnot64_mask (by omega) (by unfold numSizeClasses at small; omega)]
    obtain ⟨first,_,last⟩ := has
    rw [cls,pow] at last
    obtain ⟨q,eq⟩ := aligned
    rw [eq] at first last ⊢
    rw [Nat.mul_comm (2 ^ max 15 (sl.cls + 3)) q] at first last ⊢
    congr 1
    exact Nat.div_eq_of_lt_le first (by rw [Nat.succ_mul]; exact last)
  · rw [fifteen]
    exact Nat.dvd_sub ((Nat.pow_dvd_pow 2 (Nat.le_max_left _ _)).trans aligned)
      ((Nat.pow_dvd_pow 2 (by decide)).trans origin)
  · exact Nat.dvd_sub (eight.trans multiple) ((by decide : 8 ∣ 2 ^ 18).trans origin)
  · rw [fifteen,pow]
    exact Nat.pow_dvd_pow 2 (Nat.le_max_left _ _)

namespace Marks

variable {blocks : Set Nat} {sl : Slot} {bag : Bag}

/-- The bag of a block is claimed for its class. -/
theorem Faithful.claims {D : Set (Nat × Nat)} (faithful : Faithful marks s h sh.heap D) (inv : Inv P s)
    (heap : sl.heap = h) (laid : Laid s sh sl b bag) :
    (bag.addr - (sh.heap.nodeRegion sl.node).base) / bagSize + bagSizeForClass sl.cls / bagSize ≤
      marks.bagEntries ∧
    ∃ marks', (List.range' ((bag.addr - (sh.heap.nodeRegion sl.node).base) / bagSize)
      (bagSizeForClass sl.cls / bagSize)).foldlM (Marks.claim sl.cls sl.node) marks = some marks' ∧
      Faithful marks' s h sh.heap D := by
  have unit : bagSize = 32768 := rfl
  have above := laid.above
  have below := laid.below
  have node := laid.node
  obtain ⟨q,offset⟩ := laid.units
  obtain ⟨n,whole⟩ := laid.whole
  have entries := faithful.bagMap
  rw [laid.start]
  dsimp only
  rw [unit] at offset whole entries ⊢
  rw [offset,whole,Nat.mul_div_cancel_left q (by decide),Nat.mul_div_cancel_left n (by decide)]
  refine ⟨by omega,foldlM_keeps (fun marks => Faithful marks s h sh.heap D) faithful
    fun i mem marks faithful => ?_⟩
  obtain ⟨first,last⟩ := List.mem_range'_1.mp mem
  have entries := faithful.bagMap
  rw [unit] at entries
  have class_ := laid.cls
  rw [← class_]
  refine faithful.claim node (by omega) laid.mem (laid.heap.trans heap) laid.atNode
    (class_ ▸ laid.small) (by rw [unit]; omega) (by rw [unit,class_]; omega)
    fun bag' mem' low' high' => ?_
  exact inv.bags_meet mem' laid.mem low' high' (by rw [unit]; omega) (by rw [unit,class_]; omega)

/-- A block that is not marked can be. -/
theorem Noted.mark (noted : Noted marks s h sh.heap blocks) (inv : Inv P s) (built : Built P s)
    (found : s.heaps h = some sh) (at_ : s.slots b = some sl) (heap : sl.heap = h)
    (fresh : b ∉ blocks) :
    ∃ marks', markBlock sh.heap sh.bump sl.node sl.cls marks b = some marks' ∧
      Noted marks' s h sh.heap (blocks ∪ {b}) := by
  obtain ⟨bag,laid⟩ := inv.laid built at_ (heap ▸ found)
  obtain ⟨fits,marks₁,claims,faithful⟩ := Faithful.claims noted inv heap laid
  have low := laid.low
  have high := laid.high
  have word := laid.word
  have node := laid.node
  have few := (inv.heaps.geom found).few_nodes
  obtain ⟨region,_⟩ := built.regions found (lt_of_lt_of_le node few)
  obtain ⟨q,offset⟩ := laid.eights
  obtain ⟨n,size⟩ := laid.eight
  have unit : granule = 8 := rfl
  have apart : ∀ x, b ≤ sh.heap.base + sl.node * sh.heap.regionSize + x * 8 →
      sh.heap.base + sl.node * sh.heap.regionSize + x * 8 < b + sizeForClass sl.cls →
      (sl.node,x) ∉ s.granules h sh.heap blocks := by
    rintro x above below ⟨b',mem,sl',at',_,_,above',below'⟩
    rw [unit] at above' below'
    have ne : b ≠ b' := fun same => fresh (same ▸ mem)
    have apart := inv.slots.apart at_ at' ne
    unfold Apart at apart
    dsimp only at above' below'
    omega
  have occupies : ∃ marks', (List.range' q n).foldlM (occupy sl.node) marks₁ = some marks' ∧
      Faithful marks' s h sh.heap (s.granules h sh.heap blocks ∪
        {x | ∃ g ∈ List.range' q n, x ∈ ({(sl.node,g)} : Set (Nat × Nat))}) := by
    refine foldlM_covers (fun marks D => Faithful marks s h sh.heap D) (fun g => {(sl.node,g)})
      (fun g mem marks D faithful fresh => ?_) ?_ faithful fun g mem => ?_
    · obtain ⟨first,last⟩ := List.mem_range'_1.mp mem
      have bitmap := faithful.bitmap
      rw [Set.union_singleton]
      exact faithful.occupy node (by omega) (Set.disjoint_singleton_left.mp fresh)
    · refine List.Pairwise.imp (fun ne => ?_) (List.nodup_range' (s := q) (n := n))
      simpa using ne
    · obtain ⟨first,last⟩ := List.mem_range'_1.mp mem
      exact Set.disjoint_singleton_left.mpr (apart g (by omega) (by omega))
  obtain ⟨marks₂,loop,faithful₂⟩ := occupies
  refine ⟨marks₂,?_,faithful₂.mono ?_⟩
  · have sub : checkedSub b (sh.heap.base + sl.node * sh.heap.regionSize) = some (8 * q) := by
      rw [checkedSub,if_pos low,offset]
    have add : checkedAdd (8 * q) (sizeForClass sl.cls) = some (8 * (q + n)) := by
      rw [checkedAdd,size,← Nat.mul_add,if_pos (by unfold usizeMax; omega)]
    have bags : checkedSub bag.addr (sh.heap.base + sl.node * sh.heap.regionSize) =
        some (bag.addr - (sh.heap.base + sl.node * sh.heap.regionSize)) := if_pos laid.above
    have bump := laid.bump
    rw [offset,size,← Nat.mul_add] at bump
    rw [laid.start] at fits claims region
    simp only [markBlock,region,sizeClasses_get laid.small,Option.bind_eq_bind,Option.bind_some,
      require_pos laid.owner,sub,add,require_pos bump,require_pos laid.multiple,laid.masked,bags,
      require_pos fits,claims,unit,Nat.mul_div_cancel_left _ (show 0 < 8 by decide),
      Nat.add_sub_cancel_left,loop]
  · rintro ⟨node',x⟩ (⟨b',mem,rest⟩ | ⟨g,mem,same⟩)
    · exact ⟨b',Or.inl mem,rest⟩
    · obtain ⟨first,last⟩ := List.mem_range'_1.mp mem
      obtain ⟨rfl,rfl⟩ := Prod.mk.inj (Set.mem_singleton_iff.mp same)
      exact ⟨b,Or.inr rfl,sl,at_,heap,rfl,by rw [unit]; dsimp only; omega,
        by rw [unit]; dsimp only; omega⟩

end Marks

/-! Chains. -/

variable {l : List Nat} {blocks : Set Nat} {mark : Marks → Nat → Option Marks}

theorem markChain_cons {limit b len : Nat} {last : Option Nat} {marks' : Marks}
    (step : mark marks b = some marks') :
    markChain s mark (limit + 1) (some b) len last marks =
      markChain s mark limit (s.readNext b) (len + 1) (some b) marks' := by
  simp only [markChain,step,Option.bind_eq_bind,Option.bind_some]

/-- A chain is walked to its end, and every block on it marked. -/
theorem markChain_marks (mark : Marks → Nat → Option Marks) {cursor : Option Nat} {limit : Nat}
    (chain : Links (fun b => some (s.readNext b)) cursor l none) (nodup : l.Nodup) (enough : l.length ≤ limit) (noted : marks.Noted s h sh.heap blocks)
    (each : ∀ b ∈ l, ∀ marks blocks, Marks.Noted marks s h sh.heap blocks → b ∉ blocks →
      ∃ marks', mark marks b = some marks' ∧ marks'.Noted s h sh.heap (blocks ∪ {b}))
    (fresh : ∀ b ∈ l, b ∉ blocks) (len : Nat) (last : Option Nat) :
    ∃ marks', markChain s mark limit cursor len last marks =
        some (len + l.length,l.getLast?.or last,marks') ∧
      marks'.Noted s h sh.heap (blocks ∪ {b | b ∈ l}) := by
  induction l generalizing cursor limit marks blocks len last with
  | nil =>
    obtain rfl := links_nil.mp chain
    refine ⟨marks,?_,by simpa using noted⟩
    cases limit <;> rfl
  | cons b l ih =>
    obtain ⟨rfl,n,next,rest⟩ := chain
    obtain ⟨out,nodup⟩ := List.nodup_cons.mp nodup
    cases limit with
    | zero => simp at enough
    | succ limit =>
      obtain ⟨marks₁,step,noted₁⟩ := each b List.mem_cons_self marks blocks noted
        (fresh b List.mem_cons_self)
      have later : ∀ c ∈ l, c ∉ blocks ∪ {b} := by
        rintro c mem (old | rfl)
        · exact fresh c (List.mem_cons_of_mem _ mem) old
        · exact out mem
      obtain ⟨marks₂,walk,noted₂⟩ := ih rest nodup (Nat.le_of_succ_le_succ enough) noted₁
        (fun c mem => each c (List.mem_cons_of_mem _ mem)) later (len + 1) (some b)
      obtain rfl : s.readNext b = n := Option.some.inj next
      refine ⟨marks₂,?_,?_⟩
      · have ends : (b :: l).getLast?.or last = l.getLast?.or (some b) := by
          cases l <;> simp [List.getLast?_cons]
        simp only [markChain_cons step,walk,ends,List.length_cons,Nat.add_assoc,Nat.add_comm 1]
      · have same : blocks ∪ {c | c ∈ b :: l} = blocks ∪ {b} ∪ {c | c ∈ l} := by
          ext c
          simp only [Set.mem_union,Set.mem_ofPred_eq,List.mem_cons,Set.mem_singleton_iff,or_assoc]
        rw [same]
        exact noted₂

/-- Blocks of one class in one region are no more than fit into it. -/
theorem Inv.chain_length (inv : Inv P s) (found : s.heaps h = some sh) (nodup : l.Nodup)
    (each : ∀ b ∈ l, ∃ sl, s.slots b = some sl ∧ sl.ref = ⟨h,node,cls⟩) :
    l.length ≤ sh.heap.regionSize / sizeForClass cls := by
  have facts : ∀ b ∈ l, cls < numSizeClasses ∧ ∃ q, b = sh.heap.base + node * sh.heap.regionSize +
      sizeForClass cls * q ∧ q < sh.heap.regionSize / sizeForClass cls := by
    intro b mem
    obtain ⟨sl,at_,ref⟩ := each b mem
    simp only [Slot.ref,StackRef.mk.injEq] at ref
    obtain ⟨rfl,rfl,rfl⟩ := ref
    obtain ⟨sh',found',_,_,small,low,high⟩ := inv.slot_region at_
    obtain rfl := Option.some.inj (found.symm.trans found')
    obtain ⟨_,_,_,_,_,_,_,multiple⟩ := inv.slots.ok at_
    have valid := inv.heaps.geom found
    have unit : sizeForClass sl.cls ∣ minRegionSize :=
      (sizeForClass_dvd_bag small).trans (bagSizeForClass_dvd_limit small)
    have origin : sizeForClass sl.cls ∣ sh.heap.base + sl.node * sh.heap.regionSize :=
      Nat.dvd_add (unit.trans valid.aligned) (Nat.dvd_mul_left_of_dvd (unit.trans valid.region_dvd) _)
    have pos := sizeForClass_pos small
    obtain ⟨q,eq⟩ := Nat.dvd_sub multiple origin
    refine ⟨small,q,by omega,(Nat.le_div_iff_mul_le pos).mpr ?_⟩
    rw [Nat.succ_mul,Nat.mul_comm]
    omega
  let index := fun b => (b - (sh.heap.base + node * sh.heap.regionSize)) / sizeForClass cls
  have index_eq : ∀ {q}, cls < numSizeClasses →
      index (sh.heap.base + node * sh.heap.regionSize + sizeForClass cls * q) = q := by
    intro q small
    simp only [index,Nat.add_sub_cancel_left]
    exact Nat.mul_div_cancel_left q (sizeForClass_pos small)
  have distinct : (l.map index).Nodup := by
    refine nodup.map_on fun b mem b' mem' same => ?_
    obtain ⟨small,q,rfl,_⟩ := facts b mem
    obtain ⟨_,q',rfl,_⟩ := facts b' mem'
    rw [index_eq small,index_eq small] at same
    rw [same]
  have sub : l.map index ⊆ List.range (sh.heap.regionSize / sizeForClass cls) := by
    intro x mem
    obtain ⟨b,inside,rfl⟩ := List.mem_map.mp mem
    obtain ⟨small,q,rfl,low⟩ := facts b inside
    rw [index_eq small]
    exact List.mem_range.mpr low
  have le := (List.subperm_of_subset distinct sub).length_le
  simpa using le

/-! The structures of the nodes. -/

/-- The blocks a stack holds. -/
def State.stacked (s : State) (k : StackRef) : Set Nat :=
  {b | ∃ sl, s.slots b = some sl ∧ sl.holder = .stack k}

theorem State.stacked_disjoint {k k' : StackRef} (ne : k ≠ k') :
    Disjoint (s.stacked k) (s.stacked k') := by
  refine Set.disjoint_left.mpr ?_
  rintro b ⟨sl,found,holder⟩ ⟨sl',found',holder'⟩
  obtain rfl := Option.some.inj (found.symm.trans found')
  exact ne (Holder.stack.inj (holder.symm.trans holder'))

/-- Blocks of one class and node are marked one after the other. -/
theorem Inv.markOne (inv : Inv P s) (built : Built P s) (found : s.heaps h = some sh)
    (own : ∃ sl, s.slots b = some sl ∧ sl.ref = ⟨h,node,cls⟩) (noted : marks.Noted s h sh.heap blocks)
    (fresh : b ∉ blocks) : ∃ marks', Marks.markBlock sh.heap sh.bump node cls marks b = some marks' ∧
      marks'.Noted s h sh.heap (blocks ∪ {b}) := by
  obtain ⟨sl,at_,ref⟩ := own
  simp only [Slot.ref,StackRef.mk.injEq] at ref
  obtain ⟨heap,rfl,rfl⟩ := ref
  exact noted.mark inv built found at_ heap fresh

theorem Inv.validateStack (inv : Inv P s) (built : Built P s) (found : s.heaps h = some sh)
    (refs : sh.refs ≠ []) (inside : node < sh.heap.numNodes) (small : cls < numSizeClasses)
    (noted : marks.Noted s h sh.heap blocks) (fresh : Disjoint (s.stacked ⟨h,node,cls⟩) blocks) :
    ∃ marks', GlobalHeap.validateStack s sh (sh.heap.nodeRegion node) node marks cls = some marks' ∧
      marks'.Noted s h sh.heap (blocks ∪ s.stacked ⟨h,node,cls⟩) := by
  obtain ⟨l,⟨chain,nodup⟩,mem⟩ := inv.stack found refs inside small
  have same : {b | b ∈ l} = s.stacked ⟨h,node,cls⟩ := Set.ext mem
  have own : ∀ b ∈ l, ∃ sl, s.slots b = some sl ∧ sl.ref = ⟨h,node,cls⟩ := by
    intro b inL
    obtain ⟨sl,at_,holder⟩ := (mem b).mp inL
    exact ⟨sl,at_,inv.nodes.ref at_ holder⟩
  have length := inv.chain_length found nodup own
  obtain ⟨marks',walk,noted'⟩ := markChain_marks (Marks.markBlock sh.heap sh.bump node cls) chain nodup
    (Nat.le_succ_of_le length) noted
    (fun b inL marks blocks noted fresh => inv.markOne built found (own b inL) noted fresh)
    (fun b inL => Set.disjoint_left.mp fresh ((mem b).mp inL)) 0 none
  refine ⟨marks',?_,same ▸ noted'⟩
  simp only [GlobalHeap.validateStack,sizeClasses_get small,(inv.heaps.geom found).node node inside,
    Option.bind_eq_bind,Option.bind_some,walk]

/-- The blocks the stacks of a node hold. -/
def State.stackedAt (s : State) (h node : Nat) : Set Nat :=
  {b | ∃ cls ∈ List.range numSizeClasses, b ∈ s.stacked ⟨h,node,cls⟩}

theorem Inv.validateNode (inv : Inv P s) (built : Built P s) (found : s.heaps h = some sh)
    (refs : sh.refs ≠ []) (inside : node < sh.heap.numNodes) (noted : marks.Noted s h sh.heap blocks)
    (fresh : Disjoint (s.stackedAt h node) blocks) :
    ∃ marks', GlobalHeap.validateNode s sh marks node = some marks' ∧
      marks'.Noted s h sh.heap (blocks ∪ s.stackedAt h node) := by
  have valid := inv.heaps.geom found
  have region := (built.regions found (lt_of_lt_of_le inside valid.few_nodes)).1
  have start := valid.node node inside
  have top := valid.node_upper inside
  have upper := valid.upper
  have bound := valid.map_bound
  have bump := inv.slots.bump found inside
  obtain ⟨marks',loop,noted'⟩ := foldlM_covers (fun marks blocks => Marks.Noted marks s h sh.heap blocks)
    (f := GlobalHeap.validateStack s sh (sh.heap.nodeRegion node) node)
    (fun cls => s.stacked ⟨h,node,cls⟩)
    (fun cls mem marks blocks noted fresh =>
      inv.validateStack built found refs inside (List.mem_range.mp mem) noted fresh)
    (List.nodup_range.imp fun ne => State.stacked_disjoint fun same => ne (StackRef.mk.inj same).2.2)
    noted fun cls mem => Set.disjoint_left.mpr fun b own => Set.disjoint_left.mp fresh ⟨cls,mem,own⟩
  refine ⟨marks',?_,noted'⟩
  rw [start] at region loop
  have offset : checkedMul node sh.heap.regionSize = some (node * sh.heap.regionSize) :=
    if_pos (by unfold usizeMax; omega)
  have base : checkedAdd sh.heap.base (node * sh.heap.regionSize) =
      some (sh.heap.base + node * sh.heap.regionSize) := if_pos (by unfold usizeMax; omega)
  simp only [GlobalHeap.validateNode,region,Option.bind_eq_bind,Option.bind_some,require_pos bump,
    offset,base,require_pos trivial,loop]

/-- The blocks the stacks of a heap hold. -/
def State.stackedIn (s : State) (h : Nat) : Set Nat := {b | ∃ node cls, b ∈ s.stacked ⟨h,node,cls⟩}

theorem Inv.validateHeap (inv : Inv P s) (built : Built P s) (found : s.heaps h = some sh)
    (refs : sh.refs ≠ []) (blank : marks.Noted s h sh.heap ∅) :
    ∃ marks', GlobalHeap.validate s sh marks = some marks' ∧
      ∃ blocks ⊆ s.stackedIn h, marks'.Noted s h sh.heap blocks := by
  have valid := inv.heaps.geom found
  have upper := valid.upper
  have bound := valid.map_bound
  have lower := valid.lower
  have total := valid.total
  have apart : (List.range sh.heap.numNodes).Pairwise fun n n' =>
      Disjoint (s.stackedAt h n) (s.stackedAt h n') := by
    refine List.nodup_range.imp fun ne => Set.disjoint_left.mpr ?_
    rintro b ⟨cls,_,own⟩ ⟨cls',_,own'⟩
    exact Set.disjoint_left.mp (State.stacked_disjoint fun same => ne (StackRef.mk.inj same).2.1) own own'
  obtain ⟨marks',loop,noted⟩ := foldlM_covers (fun marks blocks => Marks.Noted marks s h sh.heap blocks)
    (f := GlobalHeap.validateNode s sh) (s.stackedAt h)
    (fun node mem marks blocks noted fresh =>
      inv.validateNode built found refs (List.mem_range.mp mem) noted fresh)
    apart blank fun node _ => Set.disjoint_empty _
  refine ⟨marks',?_,_,?_,noted⟩
  · have unused : (List.range' sh.heap.numNodes (maxNodes - sh.heap.numNodes)).forM
        sh.heap.validateUnused = some () := by
      refine forM_passes fun node mem => ?_
      obtain ⟨first,last⟩ := List.mem_range'_1.mp mem
      have few := valid.few_nodes
      obtain ⟨region,empty⟩ := built.regions found (i := node) (by omega)
      simp only [GlobalHeap.validateUnused,region,Option.bind_eq_bind,Option.bind_some,
        require_pos (empty first)]
    have product : checkedMul sh.heap.regionSize sh.heap.numNodes = some sh.heap.totalSize := by
      rw [checkedMul,if_pos (by unfold usizeMax; omega),total]
    have mapEnd : checkedAdd sh.heap.mapBase sh.heap.mapSize =
        some (sh.heap.mapBase + sh.heap.mapSize) := if_pos (by unfold usizeMax; omega)
    have lastBase : checkedSub (sh.heap.mapBase + sh.heap.mapSize) sh.heap.totalSize =
        some (sh.heap.mapBase + sh.heap.mapSize - sh.heap.totalSize) := if_pos (by omega)
    have within : sh.heap.mapBase ≤ sh.heap.base ∧
        sh.heap.base ≤ sh.heap.mapBase + sh.heap.mapSize - sh.heap.totalSize := ⟨lower,by omega⟩
    simp only [GlobalHeap.validate,product,Option.bind_eq_bind,Option.bind_some,require_pos trivial,
      require_pos (Nat.mod_eq_zero_of_dvd valid.aligned),mapEnd,lastBase,require_pos within,loop,unused]
  · rintro b (none_ | ⟨node,_,cls,_,own⟩)
    · exact none_.elim
    · exact ⟨node,cls,own⟩

/-! The cache of a thread. -/

/-- A cache whose entries are mappings, and different ones. -/
structure LargeCache.Sound (P : Platform) (heap : GlobalHeap) (cache : LargeCache) : Prop where
  ok : cache.Ok
  page : ∀ {entry}, entry ∈ cache.entries → P.pageSize ∣ entry.originalPtr
  whole : ∀ {entry}, entry ∈ cache.entries → P.pageSize ∣ entry.allocSize
  pos : ∀ {entry}, entry ∈ cache.entries → 0 < entry.allocSize
  outside : ∀ {entry}, entry ∈ cache.entries → heap.nodeForPtr entry.originalPtr = none
  bound : ∀ {entry}, entry ∈ cache.entries → entry.originalPtr + entry.allocSize ≤ 2 ^ 48
  apart : cache.entries.Pairwise fun e e' => Apart e.originalPtr e.allocSize e'.originalPtr e'.allocSize

theorem LargeCache.Sound.pair {heap : GlobalHeap} {cache : LargeCache} (sound : cache.Sound P heap)
    {i j : Nat} {entry : LargeCacheEntry} (at_ : cache.entries[i]? = some entry) (low : j < i) :
    validatePair cache.entries entry j = some () := by
  obtain ⟨inside,rfl⟩ := List.getElem?_eq_some_iff.mp at_
  have inside' : j < cache.entries.length := by omega
  have apart := List.pairwise_iff_getElem.mp sound.apart j i inside' inside low
  have bound := sound.bound (List.getElem_mem inside)
  have bound' := sound.bound (List.getElem_mem inside')
  have entryEnd : checkedAdd cache.entries[i].originalPtr cache.entries[i].allocSize =
      some (cache.entries[i].originalPtr + cache.entries[i].allocSize) :=
    if_pos (by unfold usizeMax; omega)
  have otherEnd : checkedAdd cache.entries[j].originalPtr cache.entries[j].allocSize =
      some (cache.entries[j].originalPtr + cache.entries[j].allocSize) :=
    if_pos (by unfold usizeMax; omega)
  simp only [validatePair,List.getElem?_eq_getElem inside',Option.bind_eq_bind,Option.bind_some,
    entryEnd,otherEnd]
  split
  case isTrue => rfl
  case isFalse beyond => exact require_pos (apart.resolve_right beyond)

theorem LargeCache.Sound.validate {heap : GlobalHeap} {cache : LargeCache}
    (sound : cache.Sound P heap) : cache.validate P heap = some () := by
  have sums : ∀ i, ((cache.entries.take i).map LargeCacheEntry.allocSize).sum ≤ cache.bytes := by
    intro i
    rw [sound.ok.bytes]
    conv_rhs => rw [← List.take_append_drop i cache.entries]
    rw [List.map_append,List.sum_append]
    exact Nat.le_add_right _ _
  have limit := sound.ok.limit
  have word : maxLargeCacheBytes ≤ usizeMax := by decide
  obtain ⟨total,loop,sum⟩ := foldlM_range (f := validateEntry P heap cache.entries) (n := cache.count)
    (fun i total => total = ((cache.entries.take i).map LargeCacheEntry.allocSize).sum) (b := 0) rfl
    fun i low total sum => by
      have at_ := List.getElem?_eq_getElem low
      have mem := List.getElem_mem low
      have pairs : (List.range i).forM (validatePair cache.entries cache.entries[i]) = some () :=
        forM_passes fun j mem => sound.pair at_ (List.mem_range.mp mem)
      have outside : heap.isOwned cache.entries[i].originalPtr = false := by
        rw [GlobalHeap.isOwned,sound.outside mem]
        rfl
      have next : ((cache.entries.take (i + 1)).map LargeCacheEntry.allocSize).sum =
          total + cache.entries[i].allocSize := by
        rw [List.take_succ_eq_append_getElem low,List.map_append,List.sum_append,sum]
        simp
      have fits := next ▸ sums (i + 1)
      have add : checkedAdd total cache.entries[i].allocSize =
          some (total + cache.entries[i].allocSize) := if_pos (by omega)
      refine ⟨total + cache.entries[i].allocSize,?_,next.symm⟩
      simp only [validateEntry,at_,Option.bind_eq_bind,Option.bind_some,
        require_pos (Nat.mod_eq_zero_of_dvd (sound.page mem)),
        require_pos (Nat.mod_eq_zero_of_dvd (sound.whole mem)),require_pos (sound.pos mem),
        require_pos outside,pairs,add]
  have same : total = cache.bytes := by
    rw [sum,sound.ok.bytes,count,List.take_length]
  simp only [LargeCache.validate,require_pos sound.ok.slots,require_pos limit,loop,require_pos same,
    Option.bind_eq_bind,Option.bind_some]

variable {t : Nat} {th : PerThreadHeap} {L S : Nat → List Nat} {C : List Nat}

/-- The mappings in the cache of a thread bound to this heap. -/
theorem Inv.cacheSound (inv : Inv P s) (built : Built P s) (cached : Cached strict (s.view t) th L S C)
    (found : s.heaps h = some sh) (refs : sh.refs ≠ []) : th.largeCache.Sound P sh.heap := by
  have behind : ∀ {entry}, entry ∈ th.largeCache.entries → ∃ id m, s.maps id = some m ∧
      m.base = entry.originalPtr ∧ m.size = entry.allocSize ∧ ∃ i, m.use = .large i := by
    intro entry mem
    obtain ⟨id,_,m,held,base,size,use,_⟩ := cached.entry mem
    exact ⟨id,m,(view_map.mp held).1,base,size,_,use⟩
  refine ⟨cached.cache,fun mem => ?_,fun mem => ?_,fun mem => ?_,fun mem => ?_,fun mem => ?_,?_⟩
  · obtain ⟨id,m,at_,base,_,_⟩ := behind mem
    exact base ▸ (inv.maps.ok at_).page
  · obtain ⟨id,m,at_,_,size,i,use⟩ := behind mem
    exact size ▸ built.maps at_ use
  · obtain ⟨id,m,at_,_,size,_⟩ := behind mem
    exact size ▸ (inv.maps.ok at_).size_pos
  · obtain ⟨id,m,at_,base,_,i,use⟩ := behind mem
    obtain ⟨id',m',at',use',_,base',size'⟩ := inv.heaps.mapLive found refs
    have ne : id ≠ id' := by
      rintro rfl
      obtain rfl := Option.some.inj (at_.symm.trans at')
      rw [use] at use'
      cases use'
    have apart := inv.maps.apart at_ at' ne
    have ok := inv.maps.ok at_
    have pos := ok.size_pos
    have bound := ok.bound
    have valid := inv.heaps.geom found
    have lower := valid.lower
    have upper := valid.upper
    unfold Apart at apart
    exact valid.nodeForPtr_none (by omega) (by omega)
  · obtain ⟨id,m,at_,base,size,_⟩ := behind mem
    exact base ▸ size ▸ (inv.maps.ok at_).bound
  · obtain ⟨length,each⟩ := List.forall₂_iff_get.mp cached.large
    refine List.pairwise_iff_getElem.mpr fun i j low low' lt => ?_
    obtain ⟨m,held,base,size,_⟩ := each i low (length ▸ low)
    obtain ⟨m',held',base',size',_⟩ := each j low' (length ▸ low')
    have ne := List.pairwise_iff_getElem.mp cached.ids i j (length ▸ low) (length ▸ low') lt
    have apart := inv.maps.apart (view_map.mp held).1 (view_map.mp held').1 ne
    rwa [base,size,base',size'] at apart

theorem Inv.markOwn (inv : Inv P s) (built : Built P s) (found : s.heaps h = some sh)
    (own : ∃ sl, s.slots b = some sl ∧ sl.ref = ⟨h,th.nodeId,cls⟩)
    (noted : marks.Noted s h sh.heap blocks) (fresh : b ∉ blocks) :
    ∃ marks', th.markOwn sh cls marks b = some marks' ∧ marks'.Noted s h sh.heap (blocks ∪ {b}) := by
  obtain ⟨marks',mark,noted'⟩ := inv.markOne built found own noted fresh
  obtain ⟨sl,at_,ref⟩ := own
  simp only [Slot.ref,StackRef.mk.injEq] at ref
  obtain ⟨heap,node,_⟩ := ref
  obtain ⟨bag,laid⟩ := inv.laid built at_ (heap ▸ found)
  refine ⟨marks',?_,noted'⟩
  simp only [PerThreadHeap.markOwn,require_pos (node ▸ laid.owner),mark,Option.bind_eq_bind,
    Option.bind_some]

theorem Inv.validateClass (inv : Inv P s) (built : Built P s) (found : s.heaps h = some sh)
    (small : cls < numSizeClasses) (addr : th.globalHeap.addr = h)
    (cached : Cached strict (s.view t) th L S C) (tight : Tight (th.freelists cls) (L cls))
    (noted : marks.Noted s h sh.heap blocks) (fresh : Disjoint {b | b ∈ L cls ++ S cls} blocks) :
    ∃ marks', th.validateClass s sh marks cls = some marks' ∧
      marks'.Noted s h sh.heap (blocks ∪ {b | b ∈ L cls ++ S cls}) := by
  obtain ⟨⟨counted,nodup⟩,⟨spare,nodup'⟩,held⟩ := inv.cached cached cls
  have own : ∀ b ∈ L cls ++ S cls, ∃ sl, s.slots b = some sl ∧ sl.ref = ⟨h,th.nodeId,cls⟩ := by
    intro b mem
    obtain ⟨sl,at_,_,ref⟩ := held b mem
    exact ⟨sl,at_,addr ▸ ref⟩
  have length := inv.chain_length found nodup' fun b mem => own b (List.mem_append_right _ mem)
  have long : (L cls).length ≤ (th.freelists cls).count + 1 := by
    rw [tight.1]
    exact Nat.le_succ _
  obtain ⟨marks₁,walk,noted₁⟩ := markChain_marks (th.markOwn sh cls) counted nodup long noted
    (fun b mem marks blocks => inv.markOwn built found (own b (List.mem_append_left _ mem)))
    (fun b mem => Set.disjoint_left.mp fresh (List.mem_append_left _ mem)) 0 none
  obtain ⟨marks₂,walk',noted₂⟩ := markChain_marks (th.markOwn sh cls) spare nodup'
    (Nat.le_succ_of_le length) noted₁
    (fun b mem marks blocks => inv.markOwn built found (own b (List.mem_append_right _ mem)))
    (fun b mem => by
      rintro (old | twice)
      · exact Set.disjoint_left.mp fresh (List.mem_append_right _ mem) old
      · exact (List.nodup_append.mp (cached.nodup cls)).2.2 b twice b mem rfl) 0 none
  have ends : (L cls).getLast?.or none = (th.freelists cls).tail := by rw [Option.or_none,tight.2]
  have len : 0 + (L cls).length = (th.freelists cls).count := by rw [Nat.zero_add,tight.1]
  have same : blocks ∪ {b | b ∈ L cls} ∪ {b | b ∈ S cls} = blocks ∪ {b | b ∈ L cls ++ S cls} := by
    ext b
    simp only [Set.mem_union,Set.mem_ofPred_eq,List.mem_append,or_assoc]
  refine ⟨marks₂,?_,same ▸ noted₂⟩
  simp only [PerThreadHeap.validateClass,walk,Option.bind_eq_bind,Option.bind_some,require_pos len,
    require_pos ends,sizeClasses_get small,walk']

/-- The walk over a thread bound to this heap, after the walk over the heap. -/
theorem Inv.validateThread (inv : Inv P s) (built : Built P s) (alive : s.tls t = .alive th)
    (found : s.heaps th.globalHeap.addr = some sh) (refs : sh.refs ≠ [])
    (cached : Cached strict (s.view t) th L S C) (tight : ∀ cls, Tight (th.freelists cls) (L cls))
    (noted : marks.Noted s th.globalHeap.addr sh.heap blocks)
    (stacked : blocks ⊆ s.stackedIn th.globalHeap.addr) : th.validate P s sh marks = some () := by
  have facts := inv.cached cached
  have bound : th.nodeId < sh.heap.numNodes := by
    obtain ⟨sh',found',_,node⟩ := inv.heaps.slotOk alive
    obtain rfl := Option.some.inj (found.symm.trans found')
    exact node
  have apart : (List.range numSizeClasses).Pairwise fun cls cls' =>
      Disjoint {b | b ∈ L cls ++ S cls} {b | b ∈ L cls' ++ S cls'} := by
    refine List.nodup_range.imp fun ne => Set.disjoint_left.mpr fun b mem mem' => ne ?_
    obtain ⟨sl,at_,_,ref⟩ := (facts _).2.2 b mem
    obtain ⟨sl',at',_,ref'⟩ := (facts _).2.2 b mem'
    obtain rfl := Option.some.inj (at_.symm.trans at')
    exact (StackRef.mk.inj (ref.symm.trans ref')).2.2
  have fresh : ∀ cls ∈ List.range numSizeClasses, Disjoint {b | b ∈ L cls ++ S cls} blocks := by
    refine fun cls _ => Set.disjoint_left.mpr fun b mem old => ?_
    obtain ⟨node,cls',sl,at_,holder⟩ := stacked old
    obtain ⟨sl',at',holder',_⟩ := (facts cls).2.2 b mem
    obtain rfl := Option.some.inj (at_.symm.trans at')
    rw [holder] at holder'
    cases holder'
  obtain ⟨marks',loop,_⟩ := foldlM_covers
    (fun marks blocks => Marks.Noted marks s th.globalHeap.addr sh.heap blocks)
    (f := th.validateClass s sh) (fun cls => {b | b ∈ L cls ++ S cls})
    (fun cls mem marks blocks noted fresh => inv.validateClass built found (List.mem_range.mp mem) rfl
      cached (tight cls) noted fresh) apart noted fresh
  simp only [PerThreadHeap.validate,require_pos bound,loop,Option.bind_eq_bind,Option.bind_some,
    (inv.cacheSound built cached found refs).validate]

variable {c : World P strict} {s₁ : State} {inst : Nat} {ch : Choice} {r : HeapRef}

/-- In every reachable state in which all threads are at rest, any of them can walk any
allocator without an alarm. -/
theorem validation_passes (reachable : c.Reachable) (quiescent : ∀ t, c.prog t = .ret ())
    (enter : c.state.enter t inst = some s₁) (heap : exec P strict t (.heap inst) ch s₁ = some (r,s))
    {mmapAnonymous : Nat → Option Nat} (granted : mmapAnonymous (Marks.bytes r.geom) ≠ none) :
    validateInternalState P s t r.handle mmapAnonymous = some () := by
  have fine := World.Reachable.fine reachable
  have idle := Good.resting fine (quiescent t)
  have begin_ : c.state.start t (.alloc inst ⟨1,1,⟨0,rfl⟩,by decide⟩) = some s₁ := enter
  have fine₁ := World.Fine.start fine (quiescent t) begin_
  obtain ⟨_,⟨known,seen⟩,_,_,_,_,_,called,_⟩ := fine.inv.enter idle.pin enter
  have built₁ := (start_unmade begin_).built fine₁.inv (start_begun begin_).steady reachable.built
  have safe : safe P strict (.heap inst) (s₁.view t) := called
  have always : ∀ u, (allocLogic P strict).always (s₁.view u) := fine₁.always
  have inv₁ : Inv P s₁ := fine₁.inv
  obtain ⟨inv,step,_⟩ := exec_sound.keep (x := .heap inst) inv₁ always safe heap
  have built := heap_built fine₁.inv built₁ heap
  obtain ⟨view,_⟩ := step
  obtain ⟨i,I,sh,_,at_,own,found,geom⟩ :=
    inv.heaps.callHeap (t := t) (r := r) (congrArg (fun v => v.call.heap) view)
  obtain rfl : r.handle.inst = i := (inv.heaps.instHeap at_ own).1
  have refs : sh.refs ≠ [] := List.ne_nil_of_mem ((inv.heaps.refInst found).mpr ⟨I,at_,own⟩)
  obtain ⟨marks,made,blank⟩ := Marks.new_faithful (s := s) (h := r.handle.addr) (inv.heaps.geom found)
    (geom ▸ granted)
  have blank : marks.Noted s r.handle.addr sh.heap ∅ := blank.mono (Set.empty_subset _)
  obtain ⟨marks',walked,blocks,stacked,noted⟩ := inv.validateHeap built found refs blank
  simp only [validateInternalState,found,Option.bind_eq_bind,Option.bind_some,made,walked]
  split
  case h_2 => rfl
  case h_1 th alive =>
    split
    case isFalse => rfl
    case isTrue bound =>
      have slot : (c.state.view t).slot = .alive th := by
        have eq := congrArg View.slot view
        rw [seen] at eq
        exact eq.symm.trans alive
      rcases idle.holds with ⟨th',L,S,C,alive',stock⟩ | bare
      · obtain rfl := ThreadHeapSlot.alive.inj (slot.symm.trans alive')
        have cached : Cached strict (s.view t) th L S C := by
          rw [view,seen]
          exact stock.cached.grow rfl id
        exact inv.validateThread built alive (bound ▸ found) refs cached stock.tight (bound ▸ noted)
          (bound ▸ stacked)
      · exact absurd slot (bare.slot th)

set_option maxRecDepth 4000 in
theorem sample_validation : ∃ (c : World Sample.platform false) (s₁ s : State) (r : HeapRef),
    (World.initial fun _ => 0).execute Sample.carved = some c ∧ c.state.enter 1 0 = some s₁ ∧
    exec Sample.platform false 1 (.heap 0) .go s₁ = some (r,s) ∧ s.bags ≠ [] ∧
    validateInternalState Sample.platform s 1 r.handle (fun _ => some 4096) = some () := by
  have ends : ((World.initial fun _ => 0 : World Sample.platform false).execute Sample.carved).bind
      (fun c => (c.advance (.start 1 (.alloc 0 (Sample.layout 1 (by decide))))).bind fun c₁ =>
        (exec Sample.platform false 1 (.heap 0) .go c₁.state).map fun x => x.2.bags.length) =
      some 1 := by decide +kernel
  obtain ⟨c,run,eq⟩ := Option.bind_eq_some_iff.mp ends
  obtain ⟨c₁,start,eq⟩ := Option.bind_eq_some_iff.mp eq
  obtain ⟨⟨r,s⟩,heap,bags⟩ := Option.map_eq_some_iff.mp eq
  obtain ⟨s₁,rest,enter,rfl⟩ : ∃ s₁, c.prog 1 = .ret () ∧ c.state.enter 1 0 = some s₁ ∧
      c₁.state = s₁ := by
    simp only [World.advance] at start
    split at start
    case h_2 => cases start
    obtain ⟨s₁,enter,rfl⟩ := Option.map_eq_some_iff.mp start
    exact ⟨s₁,by assumption,enter,rfl⟩
  have quiescent : ∀ t, c.prog t = .ret () := by
    intro t
    by_cases one : t = 1
    · rw [one,rest]
    · exact World.prog_run run (by
        intro label mem same
        simp only [Sample.carved,Sample.go,List.mem_append,List.mem_cons,List.not_mem_nil,or_false,
          List.mem_replicate] at mem
        rcases mem with (((rfl | rfl) | ⟨_,rfl⟩) | rfl) | ⟨_,rfl⟩ <;>
          simp only [Label.thread,Option.some.injEq,reduceCtorEq] at same <;> exact one same.symm)
  have some_ : s.bags.length = 1 := bags
  exact ⟨c,_,s,r,run,enter,heap,List.ne_nil_of_length_pos (by omega),
    validation_passes ⟨_,_,run⟩ quiescent enter heap (by simp)⟩

end Numalloc
