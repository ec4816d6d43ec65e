import Numalloc.Geometry
import Numalloc.Validation

/-! The occupancy checker behind the invariant walker is exact: marking a sequence of blocks
fails if and only if the sequence breaks one of the rules it is there to check. -/
namespace Numalloc

open Concurrent

/-! Fallible loops that follow an abstract one. -/

section Loops

variable {α β σ : Type} {f : β → α → Option β} {l : List α} {b : β} {x : σ}

/-- Every iteration finds the abstract state as it needs it. -/
def Along (ok : α → σ → Prop) (next : α → σ → σ) : List α → σ → Prop
  | [], _ => True
  | a :: l, x => ok a x ∧ Along ok next l (next a x)

/-- A loop runs through exactly when each of its iterations may. -/
theorem foldlM_along (inv : β → σ → Prop) (ok : α → σ → Prop) (next : α → σ → σ)
    (pass : ∀ a ∈ l, ∀ b x, inv b x → ok a x → ∃ b', f b a = some b' ∧ inv b' (next a x))
    (stop : ∀ a ∈ l, ∀ b x, inv b x → ¬ok a x → f b a = none) (start : inv b x) :
    (Along ok next l x → ∃ b', l.foldlM f b = some b' ∧
      inv b' (l.foldl (fun x a => next a x) x)) ∧
    (¬Along ok next l x → l.foldlM f b = none) := by
  induction l generalizing b x with
  | nil => exact ⟨fun _ => ⟨b,rfl,start⟩,fun not => absurd trivial not⟩
  | cons a l ih =>
    by_cases here : ok a x
    · obtain ⟨b₁,step,kept⟩ := pass a List.mem_cons_self b x start here
      obtain ⟨through,stuck⟩ := ih (fun a mem => pass a (List.mem_cons_of_mem _ mem))
        (fun a mem => stop a (List.mem_cons_of_mem _ mem)) kept
      constructor
      · rintro ⟨_,rest⟩
        obtain ⟨b₂,loop,last⟩ := through rest
        exact ⟨b₂,by simp [List.foldlM_cons,step,loop],last⟩
      · intro not
        have rest := stuck fun rest => not ⟨here,rest⟩
        simp [List.foldlM_cons,step,rest]
    · have step := stop a List.mem_cons_self b x start here
      exact ⟨fun along => absurd along.1 here,fun _ => by simp [List.foldlM_cons,step]⟩

end Loops

/-- A heap over the whole range of addresses, with bump offsets inside its regions. -/
structure Ground (g : GlobalHeap) (bump : Nat → Nat) : Prop where
  slots : ∀ node < g.numNodes,
    g.nodes[node]? = some ⟨g.base + node * g.regionSize,g.regionSize⟩
  lookup : ∀ p ≤ usizeMax, ∀ node, g.nodeForPtr p = some node ↔ node < g.numNodes ∧
    g.base + node * g.regionSize ≤ p ∧ p < g.base + node * g.regionSize + g.regionSize
  aligned : ∀ node < g.numNodes, minRegionSize ∣ g.base + node * g.regionSize
  unit : minRegionSize ∣ g.regionSize
  small : g.regionSize ≤ isizeMax
  bumps : ∀ node < g.numNodes, bump node ≤ g.regionSize

/-- A block put to the checker. -/
structure MarkCall where
  node : Nat
  cls : Nat
  addr : Nat

namespace MarkCall

variable (c : MarkCall) (g : GlobalHeap)

/-- Where the region of the node starts. -/
def region : Nat := g.base + c.node * g.regionSize

def size : Nat := sizeForClass c.cls

/-- Start of the bag that encloses the block. -/
def bag : Nat := c.addr / bagSizeForClass c.cls * bagSizeForClass c.cls

/-- A node and a class that exist, and an address. -/
structure Typed : Prop where
  node : c.node < g.numNodes
  cls : c.cls < numSizeClasses
  addr : c.addr ≤ usizeMax

/-- What the checker asks of a block by itself. -/
structure Sits (bump : Nat → Nat) : Prop where
  low : c.region g ≤ c.addr
  high : c.addr < c.region g + g.regionSize
  bump : c.addr + c.size ≤ c.region g + bump c.node
  aligned : c.size ∣ c.addr

/-- The granule of 32 KiB with this number lies in the enclosing bag. -/
def Covers (q : Nat) : Prop := c.bag ≤ q * bagSize ∧ q * bagSize < c.bag + bagSizeForClass c.cls

/-- Granules of the block. -/
def granules : Set (Nat × Nat) :=
  {p | p.1 = c.node ∧ c.addr ≤ c.region g + p.2 * granule ∧ c.region g + p.2 * granule < c.addr + c.size}

/-- Granules of its bag, with its class. -/
def claims : Set ((Nat × Nat) × Nat) :=
  {p | p.1.1 = c.node ∧ (c.bag ≤ c.region g + p.1.2 * bagSize ∧
    c.region g + p.1.2 * bagSize < c.bag + bagSizeForClass c.cls) ∧ p.2 = c.cls}

end MarkCall

namespace Marks

/-- Granules of blocks that are marked, and granules of bags with the class they are claimed
for, each with its node. -/
structure Seen where
  marked : Set (Nat × Nat)
  claimed : Set ((Nat × Nat) × Nat)

/-- The buffer, laid out for this heap, says exactly this. -/
structure Exact (marks : Marks) (g : GlobalHeap) (seen : Seen) : Prop where
  nodes : marks.numNodes = g.numNodes
  bitmap : marks.bitmapBytes * 64 = g.regionSize
  bagMap : marks.bagEntries * bagSize = g.regionSize
  marked : ∀ node < g.numNodes, ∀ i < marks.bitmapBytes, ∀ k < 8,
    (marks.buf (node * marks.bitmapBytes + i)).testBit k = true ↔ (node,i * 8 + k) ∈ seen.marked
  claimed : ∀ node < g.numNodes, ∀ i < marks.bagEntries,
    (marks.buf (marks.bitmapBytes * marks.numNodes + node * marks.bagEntries + i) = unclaimed ∧
      ∀ cls, ((node,i),cls) ∉ seen.claimed) ∨
    ∃ cls < numSizeClasses,
      marks.buf (marks.bitmapBytes * marks.numNodes + node * marks.bagEntries + i) = cls ∧
      ∀ cls', ((node,i),cls') ∈ seen.claimed ↔ cls' = cls

variable {marks : Marks} {g : GlobalHeap} {seen : Seen} {node cls i x : Nat}

/-- A bag granule is claimed by one class only. -/
theorem Exact.claim (exact_ : Exact marks g seen) (inside : node < g.numNodes)
    (low : i < marks.bagEntries) (small : cls < numSizeClasses)
    (free : ∀ cls', ((node,i),cls') ∈ seen.claimed → cls' = cls) :
    ∃ marks', marks.claim cls node i = some marks' ∧
      Exact marks' g { seen with claimed := insert ((node,i),cls) seen.claimed } := by
  have class_ : cls % 2 ^ 8 = cls := Nat.mod_eq_of_lt (by unfold numSizeClasses at small; omega)
  obtain ⟨nodes,bitmap,bagMap,marked,claimed⟩ := exact_
  have entry : marks.buf (marks.bitmapBytes * marks.numNodes + node * marks.bagEntries + i) = unclaimed ∨
      marks.buf (marks.bitmapBytes * marks.numNodes + node * marks.bagEntries + i) = cls := by
    rcases claimed node inside i low with ⟨none_,_⟩ | ⟨cls',_,eq,only⟩
    · exact Or.inl none_
    · exact Or.inr (eq.trans (free cls' ((only cls').mpr rfl)))
  refine ⟨marks.set (marks.bitmapBytes * marks.numNodes + node * marks.bagEntries + i) (cls % 2 ^ 8),
    ?_,nodes,bitmap,bagMap,fun node' inside' i' low' k small' => ?_,fun node' inside' i' low' => ?_⟩
  · simp only [Marks.claim,Marks.bagMap,if_pos low,Option.bind_eq_bind,Option.bind_some,
      require_pos entry]
  · have ne := Nat.ne_of_lt (bitmap_below (j := node * marks.bagEntries + i) nodes inside' low')
    rw [← Nat.add_assoc] at ne
    simpa only [Marks.set,replace_other ne] using marked node' inside' i' low' k small'
  · by_cases same : node' = node ∧ i' = i
    · obtain ⟨rfl,rfl⟩ := same
      refine Or.inr ⟨cls,small,by simp only [Marks.set,replace_same,class_],fun cls' => ?_⟩
      constructor
      · rintro (same | old)
        · exact (Prod.mk.inj same).2
        · exact free cls' old
      · rintro rfl
        exact Or.inl rfl
    · have ne : marks.bitmapBytes * marks.numNodes + node' * marks.bagEntries + i' ≠
          marks.bitmapBytes * marks.numNodes + node * marks.bagEntries + i :=
        fun eq => same (slice_inj low' low (Nat.add_left_cancel (by rwa [Nat.add_assoc,Nat.add_assoc] at eq)))
      have other : ∀ cls', ((node',i'),cls') ∈ insert ((node,i),cls) seen.claimed ↔
          ((node',i'),cls') ∈ seen.claimed := by
        intro cls'
        refine ⟨fun mem => mem.resolve_left fun eq => ?_,Or.inr⟩
        exact same (Prod.mk.inj (Prod.mk.inj eq).1)
      simp only [Marks.set,replace_other ne,other]
      exact claimed node' inside' i' low'

theorem Exact.claim_none (exact_ : Exact marks g seen) (inside : node < g.numNodes)
    (low : i < marks.bagEntries) (taken : ¬∀ cls', ((node,i),cls') ∈ seen.claimed → cls' = cls) :
    marks.claim cls node i = none := by
  push Not at taken
  obtain ⟨cls',mem,ne⟩ := taken
  rcases exact_.claimed node inside i low with ⟨_,none_⟩ | ⟨cls₁,small,eq,only⟩
  · exact absurd mem (none_ cls')
  · obtain rfl := (only cls').mp mem
    have differs : ¬(marks.buf (marks.bitmapBytes * marks.numNodes + node * marks.bagEntries + i) =
        unclaimed ∨ marks.buf (marks.bitmapBytes * marks.numNodes + node * marks.bagEntries + i) = cls) := by
      rw [eq]
      unfold unclaimed
      unfold numSizeClasses at small
      omega
    simp only [Marks.claim,Marks.bagMap,if_pos low,Option.bind_eq_bind,Option.bind_some,require,
      if_neg differs,Option.bind_none]

/-- A block granule is marked once only. -/
theorem Exact.occupy (exact_ : Exact marks g seen) (inside : node < g.numNodes)
    (low : x / 8 < marks.bitmapBytes) (fresh : (node,x) ∉ seen.marked) :
    ∃ marks', marks.occupy node x = some marks' ∧
      Exact marks' g { seen with marked := insert (node,x) seen.marked } := by
  obtain ⟨nodes,bitmap,bagMap,marked,claimed⟩ := exact_
  have bit : 1 <<< (x % 8) = 2 ^ (x % 8) := Nat.one_shiftLeft _
  have clear : (marks.buf (node * marks.bitmapBytes + x / 8)).testBit (x % 8) = false := by
    have set_ := marked node inside (x / 8) low (x % 8) (Nat.mod_lt _ (by decide))
    rw [Nat.div_add_mod'] at set_
    exact Bool.eq_false_iff.mpr fun at_ => fresh (set_.mp at_)
  have free : marks.buf (node * marks.bitmapBytes + x / 8) &&& 1 <<< (x % 8) = 0 := by
    rw [bit,Nat.and_two_pow,clear]
    simp
  refine ⟨marks.set (node * marks.bitmapBytes + x / 8)
      (marks.buf (node * marks.bitmapBytes + x / 8) ||| 1 <<< (x % 8)),?_,nodes,bitmap,bagMap,
    fun node' inside' i' low' k small' => ?_,fun node' inside' i' low' => ?_⟩
  · simp only [Marks.occupy,Marks.bitmap,if_pos low,Option.bind_eq_bind,Option.bind_some,
      require_pos free]
  · by_cases same : node' = node ∧ i' = x / 8
    · obtain ⟨rfl,rfl⟩ := same
      simp only [Marks.set,replace_same,bit,Nat.testBit_or,Nat.testBit_two_pow,Bool.or_eq_true,
        decide_eq_true_eq]
      rw [marked node' inside' _ low' k small']
      constructor
      · rintro (old | new)
        · exact Or.inr old
        · rw [← new,Nat.div_add_mod']
          exact Or.inl rfl
      · rintro (new | old)
        · have := (Prod.mk.inj new).2
          exact Or.inr (by omega)
        · exact Or.inl old
    · have ne : node' * marks.bitmapBytes + i' ≠ node * marks.bitmapBytes + x / 8 :=
        fun eq => same (slice_inj low' low eq)
      simp only [Marks.set,replace_other ne]
      rw [marked node' inside' i' low' k small']
      refine ⟨Or.inr,fun mem => mem.resolve_left fun eq => same ?_⟩
      obtain ⟨rfl,eq⟩ := Prod.mk.inj eq
      exact ⟨rfl,by omega⟩
  · have ne := Nat.ne_of_gt (bitmap_below (j := node' * marks.bagEntries + i') nodes inside low)
    rw [← Nat.add_assoc] at ne
    simp only [Marks.set,replace_other ne]
    exact claimed node' inside' i' low'

theorem Exact.occupy_none (exact_ : Exact marks g seen) (inside : node < g.numNodes)
    (low : x / 8 < marks.bitmapBytes) (taken : (node,x) ∈ seen.marked) :
    marks.occupy node x = none := by
  have set_ := exact_.marked node inside (x / 8) low (x % 8) (Nat.mod_lt _ (by decide))
  rw [Nat.div_add_mod'] at set_
  have held : ¬marks.buf (node * marks.bitmapBytes + x / 8) &&& 1 <<< (x % 8) = 0 := by
    rw [Nat.one_shiftLeft,Nat.and_two_pow,set_.mpr taken]
    simp
  simp only [Marks.occupy,Marks.bitmap,if_pos low,Option.bind_eq_bind,Option.bind_some,require,
    if_neg held,Option.bind_none]

/-! The two loops. -/

variable {l : List Nat}

theorem along_occupy (nodup : l.Nodup) :
    Along (fun x (seen : Seen) => (node,x) ∉ seen.marked)
      (fun x seen => { seen with marked := insert (node,x) seen.marked }) l seen ↔
    ∀ x ∈ l, (node,x) ∉ seen.marked := by
  induction l generalizing seen with
  | nil => simp [Along]
  | cons x l ih =>
    obtain ⟨fresh,nodup⟩ := List.nodup_cons.mp nodup
    simp only [Along,ih nodup,List.forall_mem_cons]
    refine and_congr_right fun _ => forall₂_congr fun y mem => not_congr ?_
    refine ⟨fun seen => seen.resolve_left fun eq => ?_,Or.inr⟩
    exact fresh ((Prod.mk.inj eq).2 ▸ mem)

theorem foldl_occupy : l.foldl
      (fun (seen : Seen) x => { seen with marked := insert (node,x) seen.marked }) seen =
    { seen with marked := seen.marked ∪ {p | p.1 = node ∧ p.2 ∈ l} } := by
  induction l generalizing seen with
  | nil => simp
  | cons x l ih =>
    rw [List.foldl_cons,ih]
    congr 1
    ext ⟨n,y⟩
    simp only [Set.mem_union,Set.mem_insert_iff,Set.mem_ofPred_eq,List.mem_cons,Prod.mk.injEq]
    tauto

/-- The loop over the granules of a block. -/
theorem Exact.occupies (exact_ : Exact marks g seen) (inside : node < g.numNodes) (nodup : l.Nodup)
    (low : ∀ x ∈ l, x * 8 < g.regionSize) :
    ((∀ x ∈ l, (node,x) ∉ seen.marked) → ∃ marks', l.foldlM (Marks.occupy node) marks = some marks' ∧
      Exact marks' g { seen with marked := seen.marked ∪ {p | p.1 = node ∧ p.2 ∈ l} }) ∧
    (¬(∀ x ∈ l, (node,x) ∉ seen.marked) → l.foldlM (Marks.occupy node) marks = none) := by
  have loop := foldlM_along (fun marks seen => Exact marks g seen)
    (fun x (seen : Seen) => (node,x) ∉ seen.marked)
    (fun x seen => { seen with marked := insert (node,x) seen.marked })
    (fun x mem marks seen exact_ fresh => exact_.occupy inside (by
      have := exact_.bitmap
      have := low x mem
      omega) fresh)
    (fun x mem marks seen exact_ taken => exact_.occupy_none inside (by
      have := exact_.bitmap
      have := low x mem
      omega) (not_not.mp taken)) exact_
  rw [along_occupy nodup,foldl_occupy] at loop
  exact loop

theorem along_claim :
    Along (fun i (seen : Seen) => ∀ cls', ((node,i),cls') ∈ seen.claimed → cls' = cls)
      (fun i seen => { seen with claimed := insert ((node,i),cls) seen.claimed }) l seen ↔
    ∀ i ∈ l, ∀ cls', ((node,i),cls') ∈ seen.claimed → cls' = cls := by
  induction l generalizing seen with
  | nil => simp [Along]
  | cons i l ih =>
    simp only [Along,ih,List.forall_mem_cons]
    refine and_congr_right fun _ => forall₂_congr fun j _ => forall_congr' fun cls' => ?_
    refine ⟨fun all mem => all (Or.inr mem),fun all mem => ?_⟩
    rcases mem with same | old
    · exact (Prod.mk.inj same).2
    · exact all old

theorem foldl_claim : l.foldl
      (fun (seen : Seen) i => { seen with claimed := insert ((node,i),cls) seen.claimed }) seen =
    { seen with claimed := seen.claimed ∪ {p | p.1.1 = node ∧ p.1.2 ∈ l ∧ p.2 = cls} } := by
  induction l generalizing seen with
  | nil => simp
  | cons i l ih =>
    rw [List.foldl_cons,ih]
    congr 1
    ext ⟨⟨n,j⟩,k⟩
    simp only [Set.mem_union,Set.mem_insert_iff,Set.mem_ofPred_eq,List.mem_cons,Prod.mk.injEq]
    tauto

/-- The loop over the granules of a bag. -/
theorem Exact.claims (exact_ : Exact marks g seen) (inside : node < g.numNodes)
    (small : cls < numSizeClasses) (low : ∀ i ∈ l, i * bagSize < g.regionSize) :
    ((∀ i ∈ l, ∀ cls', ((node,i),cls') ∈ seen.claimed → cls' = cls) →
      ∃ marks', l.foldlM (Marks.claim cls node) marks = some marks' ∧
      Exact marks' g { seen with
        claimed := seen.claimed ∪ {p | p.1.1 = node ∧ p.1.2 ∈ l ∧ p.2 = cls} }) ∧
    (¬(∀ i ∈ l, ∀ cls', ((node,i),cls') ∈ seen.claimed → cls' = cls) →
      l.foldlM (Marks.claim cls node) marks = none) := by
  have within : ∀ {marks : Marks} {seen : Seen}, Exact marks g seen → ∀ i ∈ l, i < marks.bagEntries := by
    intro marks seen exact_ i mem
    have bound := low i mem
    rw [← exact_.bagMap] at bound
    exact Nat.lt_of_mul_lt_mul_right bound
  have loop := foldlM_along (fun marks seen => Exact marks g seen)
    (fun i (seen : Seen) => ∀ cls', ((node,i),cls') ∈ seen.claimed → cls' = cls)
    (fun i seen => { seen with claimed := insert ((node,i),cls) seen.claimed })
    (fun i mem marks seen exact_ free => exact_.claim inside (within exact_ i mem) small free)
    (fun i mem marks seen exact_ taken => exact_.claim_none inside (within exact_ i mem) taken) exact_
  rw [along_claim,foldl_claim] at loop
  exact loop

/-! One block. -/

variable {bump : Nat → Nat} {c : MarkCall}

/-- The bag of a block in a region, in whole granules. -/
theorem bag_units (ground : Ground g bump) (typed : c.Typed g) (sits : c.Sits g bump) :
    ∃ q n, c.bag = c.region g + q * bagSize ∧ bagSizeForClass c.cls = n * bagSize ∧
      (q + n) * bagSize ≤ g.regionSize := by
  have limit : minRegionSize = smallLimit := rfl
  obtain ⟨r,region⟩ : bagSizeForClass c.cls ∣ c.region g :=
    (bagSizeForClass_dvd_limit typed.cls).trans (limit ▸ ground.aligned _ typed.node)
  obtain ⟨k,whole⟩ : bagSizeForClass c.cls ∣ g.regionSize :=
    (bagSizeForClass_dvd_limit typed.cls).trans (limit ▸ ground.unit)
  obtain ⟨n,units⟩ : bagSize ∣ bagSizeForClass c.cls := by
    rw [bagSizeForClass_eq typed.cls,show bagSize = 2 ^ 15 from rfl]
    exact Nat.pow_dvd_pow 2 (Nat.le_max_left _ _)
  have pos : 0 < bagSizeForClass c.cls := by
    rw [bagSizeForClass_eq typed.cls]
    exact Nat.two_pow_pos _
  have low := sits.low
  have high := sits.high
  rw [region] at low
  rw [region,whole,← Nat.mul_add,Nat.mul_comm] at high
  have above : r ≤ c.addr / bagSizeForClass c.cls :=
    (Nat.le_div_iff_mul_le pos).mpr (by rwa [Nat.mul_comm])
  have below : c.addr / bagSizeForClass c.cls < r + k := Nat.div_lt_of_lt_mul (by rwa [Nat.mul_comm])
  obtain ⟨d,at_⟩ := Nat.exists_eq_add_of_le above
  refine ⟨d * n,n,?_,by rw [units,Nat.mul_comm],?_⟩
  · rw [MarkCall.bag,at_,region,units]
    ring
  · rw [whole,units,← Nat.succ_mul,Nat.mul_assoc,Nat.mul_comm n bagSize,Nat.mul_comm]
    exact Nat.mul_le_mul_left _ (by omega)

theorem block_units (ground : Ground g bump) (typed : c.Typed g) (sits : c.Sits g bump) :
    ∃ q n, c.addr = c.region g + q * granule ∧ c.size = n * granule ∧
      (q + n) * granule ≤ g.regionSize := by
  have grain : granule = 8 := rfl
  have unit : minRegionSize = 262144 := rfl
  have eight : 8 ∣ c.size := by
    rw [MarkCall.size,sizeForClass_eq typed.cls,show 8 = 2 ^ 3 from rfl]
    exact Nat.pow_dvd_pow 2 (by omega)
  have origin := ground.aligned _ typed.node
  have region : c.region g = g.base + c.node * g.regionSize := rfl
  rw [← region,unit] at origin
  have addr := eight.trans sits.aligned
  have low := sits.low
  have bump := sits.bump
  have bumps := ground.bumps _ typed.node
  refine ⟨(c.addr - c.region g) / 8,c.size / 8,?_,?_,?_⟩ <;> rw [grain] <;> omega

theorem granules_eq {q n : Nat} (addr : c.addr = c.region g + q * granule)
    (size : c.size = n * granule) :
    c.granules g = {p | p.1 = c.node ∧ p.2 ∈ List.range' q n} := by
  have grain : granule = 8 := rfl
  ext ⟨node,x⟩
  simp only [MarkCall.granules,Set.mem_ofPred_eq,List.mem_range'_1,addr,size,grain]
  refine and_congr_right fun _ => ⟨fun _ => ⟨by omega,by omega⟩,fun _ => ⟨by omega,by omega⟩⟩

theorem claims_eq {q n : Nat} (bag : c.bag = c.region g + q * bagSize)
    (bags : bagSizeForClass c.cls = n * bagSize) :
    c.claims g = {p | p.1.1 = c.node ∧ p.1.2 ∈ List.range' q n ∧ p.2 = c.cls} := by
  have unit : bagSize = 32768 := rfl
  ext ⟨⟨node,i⟩,cls⟩
  simp only [MarkCall.claims,Set.mem_ofPred_eq,List.mem_range'_1,bag,bags,unit]
  refine and_congr_right fun _ => and_congr_left fun _ => ?_
  exact ⟨fun _ => ⟨by omega,by omega⟩,fun _ => ⟨by omega,by omega⟩⟩

/-- The block may be marked after what has been seen. -/
def Fits (g : GlobalHeap) (bump : Nat → Nat) (c : MarkCall) (seen : Seen) : Prop :=
  c.Sits g bump ∧ (∀ p ∈ c.granules g, p ∉ seen.marked) ∧
    ∀ p ∈ c.claims g, ∀ cls', (p.1,cls') ∈ seen.claimed → cls' = c.cls

def Seen.add (g : GlobalHeap) (c : MarkCall) (seen : Seen) : Seen :=
  ⟨seen.marked ∪ c.granules g,seen.claimed ∪ c.claims g⟩

theorem require_neg {p : Prop} [Decidable p] (h : ¬p) : require p = none := if_neg h

/-- The checks that come before the marks. -/
theorem markBlock_out (ground : Ground g bump) (typed : c.Typed g) (out : ¬c.Sits g bump) :
    markBlock g bump c.node c.cls marks c.addr = none := by
  have isize : isizeMax = 9223372036854775807 := rfl
  have usize : usizeMax = 18446744073709551615 := rfl
  simp only [markBlock,ground.slots _ typed.node,sizeClasses_get typed.cls,Option.bind_eq_bind,
    Option.bind_some]
  by_cases owned : g.nodeForPtr c.addr = some c.node
  case neg => rw [require_neg owned,Option.bind_none]
  obtain ⟨_,low,high⟩ := (ground.lookup _ typed.addr _).mp owned
  have small := ground.small
  have size : sizeForClass c.cls ≤ 2 ^ 18 := by
    have few := typed.cls
    unfold numSizeClasses at few
    rw [sizeForClass_eq typed.cls]
    exact Nat.pow_le_pow_right (by omega) (by omega)
  have sub : checkedSub c.addr (g.base + c.node * g.regionSize) =
      some (c.addr - (g.base + c.node * g.regionSize)) := if_pos low
  have add : checkedAdd (c.addr - (g.base + c.node * g.regionSize)) (sizeForClass c.cls) =
      some (c.addr - (g.base + c.node * g.regionSize) + sizeForClass c.cls) := if_pos (by omega)
  simp only [require_pos owned,sub,add,Option.bind_some]
  by_cases bumped : c.addr - (g.base + c.node * g.regionSize) + sizeForClass c.cls ≤ bump c.node
  case neg => rw [require_neg bumped,Option.bind_none]
  rw [require_pos bumped,Option.bind_some,require_neg,Option.bind_none]
  intro aligned
  refine out ⟨low,high,?_,Nat.dvd_of_mod_eq_zero aligned⟩
  show c.addr + sizeForClass c.cls ≤ g.base + c.node * g.regionSize + bump c.node
  omega

theorem markBlock_in (ground : Ground g bump) (typed : c.Typed g) (sits : c.Sits g bump)
    (entries : marks.bagEntries * bagSize = g.regionSize) {q n q' n' : Nat}
    (bag : c.bag = c.region g + q * bagSize) (bags : bagSizeForClass c.cls = n * bagSize)
    (inside : (q + n) * bagSize ≤ g.regionSize)
    (addr : c.addr = c.region g + q' * granule) (size : c.size = n' * granule) :
    markBlock g bump c.node c.cls marks c.addr =
      ((List.range' q n).foldlM (Marks.claim c.cls c.node) marks).bind fun marks =>
        (List.range' q' n').foldlM (Marks.occupy c.node) marks := by
  have isize : isizeMax = 9223372036854775807 := rfl
  have usize : usizeMax = 18446744073709551615 := rfl
  have region : c.region g = g.base + c.node * g.regionSize := rfl
  have owned := (ground.lookup _ typed.addr c.node).mpr ⟨typed.node,sits.low,sits.high⟩
  have bumped := sits.bump
  have bumps := ground.bumps _ typed.node
  have small := ground.small
  have grain : 0 < granule := by decide
  have unit : 0 < bagSize := by decide
  have masked : c.addr &&& bnot64 (bagSizeForClass c.cls - 1) = c.bag := by
    rw [bagSizeForClass_eq typed.cls,and_bnot64_mask (by have := typed.addr; omega)
      (by have := typed.cls; unfold numSizeClasses at this; omega),MarkCall.bag,
      bagSizeForClass_eq typed.cls]
  rw [bags] at masked
  have sub : checkedSub c.addr (c.region g) = some (q' * granule) := by
    rw [checkedSub,if_pos sits.low,addr,Nat.add_sub_cancel_left]
  have add : checkedAdd (q' * granule) (sizeForClass c.cls) = some ((q' + n') * granule) := by
    rw [addr,size,Nat.add_assoc,← Nat.add_mul] at bumped
    rw [show sizeForClass c.cls = n' * granule from size,checkedAdd,← Nat.add_mul]
    exact if_pos (by omega)
  have top : (q' + n') * granule ≤ bump c.node := by
    rw [addr,size,Nat.add_assoc,← Nat.add_mul] at bumped
    omega
  have front : checkedSub c.bag (c.region g) = some (q * bagSize) := by
    rw [checkedSub,bag,if_pos (Nat.le_add_right _ _),Nat.add_sub_cancel_left]
  have room : q + n ≤ marks.bagEntries := by
    rw [← entries] at inside
    exact Nat.le_of_mul_le_mul_right inside unit
  simp only [markBlock,ground.slots _ typed.node,sizeClasses_get typed.cls,Option.bind_eq_bind,
    Option.bind_some,require_pos owned,← region,sub,add,require_pos top,
    require_pos (Nat.mod_eq_zero_of_dvd sits.aligned : c.addr % sizeForClass c.cls = 0),masked,front,
    bags,Nat.mul_div_cancel _ unit,Nat.mul_div_cancel _ grain,require_pos room,
    Nat.add_sub_cancel_left]

/-- Marking a block goes through exactly when the block fits. -/
theorem Exact.mark (exact_ : Exact marks g seen) (ground : Ground g bump) (typed : c.Typed g) :
    (Fits g bump c seen → ∃ marks', markBlock g bump c.node c.cls marks c.addr = some marks' ∧
      Exact marks' g (seen.add g c)) ∧
    (¬Fits g bump c seen → markBlock g bump c.node c.cls marks c.addr = none) := by
  by_cases sits : c.Sits g bump
  case neg => exact ⟨fun fits => absurd fits.1 sits,fun _ => markBlock_out ground typed sits⟩
  obtain ⟨q,n,bag,bags,inside⟩ := bag_units ground typed sits
  obtain ⟨q',n',addr,size,inside'⟩ := block_units ground typed sits
  have unit : bagSize = 32768 := rfl
  have grain : granule = 8 := rfl
  rw [markBlock_in ground typed sits exact_.bagMap bag bags inside addr size]
  have claimed := exact_.claims (l := List.range' q n) typed.node typed.cls fun i mem => by
    obtain ⟨_,last⟩ := List.mem_range'_1.mp mem
    rw [unit] at inside ⊢
    omega
  have fits : Fits g bump c seen ↔ (∀ i ∈ List.range' q n, ∀ cls',
      ((c.node,i),cls') ∈ seen.claimed → cls' = c.cls) ∧
      ∀ x ∈ List.range' q' n', (c.node,x) ∉ seen.marked := by
    rw [Fits,granules_eq addr size,claims_eq bag bags]
    constructor
    · rintro ⟨_,marked,claimed⟩
      exact ⟨fun i mem => claimed ((c.node,i),c.cls) ⟨rfl,mem,rfl⟩,
        fun x mem => marked (c.node,x) ⟨rfl,mem⟩⟩
    · rintro ⟨claimed,marked⟩
      refine ⟨sits,?_,?_⟩
      · rintro ⟨_,x⟩ ⟨rfl,mem⟩
        exact marked x mem
      · rintro ⟨⟨_,i⟩,_⟩ ⟨rfl,mem,rfl⟩
        exact claimed i mem
  rw [fits,Seen.add,granules_eq addr size,claims_eq bag bags]
  by_cases free : ∀ i ∈ List.range' q n, ∀ cls', ((c.node,i),cls') ∈ seen.claimed → cls' = c.cls
  case neg =>
    rw [claimed.2 free]
    exact ⟨fun both => absurd both.1 free,fun _ => rfl⟩
  obtain ⟨marks₁,loop,exact₁⟩ := claimed.1 free
  have occupied := exact₁.occupies (l := List.range' q' n') typed.node List.nodup_range' fun x mem => by
    obtain ⟨_,last⟩ := List.mem_range'_1.mp mem
    rw [grain] at inside'
    omega
  rw [loop,Option.bind_some]
  exact ⟨fun both => occupied.1 both.2,fun not => occupied.2 fun fresh => not ⟨free,fresh⟩⟩

/-! Any sequence of blocks. -/

/-- Two blocks that may be marked in one sequence. -/
def Compatible (g : GlobalHeap) (c d : MarkCall) : Prop :=
  Disjoint (c.granules g) (d.granules g) ∧
    ∀ p, (p,c.cls) ∈ c.claims g → (p,d.cls) ∈ d.claims g → c.cls = d.cls

theorem fits_add {d : MarkCall} : Fits g bump d (seen.add g c) ↔
    Fits g bump d seen ∧ Compatible g c d := by
  constructor
  · rintro ⟨sits,marked,claimed⟩
    refine ⟨⟨sits,fun p mem old => marked p mem (Or.inl old),
      fun p mem cls' old => claimed p mem cls' (Or.inl old)⟩,?_,?_⟩
    · exact Set.disjoint_left.mpr fun p mine other => marked p other (Or.inr mine)
    · exact fun p mine other => claimed (p,d.cls) other c.cls (Or.inr mine)
  · rintro ⟨⟨sits,marked,claimed⟩,apart,same⟩
    refine ⟨sits,?_,?_⟩
    · rintro p mem (old | new)
      · exact marked p mem old
      · exact Set.disjoint_left.mp apart new mem
    · rintro ⟨p,k⟩ mem cls' (old | new)
      · exact claimed (p,k) mem cls' old
      · obtain rfl : cls' = c.cls := new.2.2
        obtain rfl : k = d.cls := mem.2.2
        exact same p new mem

theorem along_fits {calls : List MarkCall} : Along (Fits g bump) (Seen.add g) calls seen ↔
    (∀ c ∈ calls, Fits g bump c seen) ∧ calls.Pairwise (Compatible g) := by
  induction calls generalizing seen with
  | nil => simp [Along]
  | cons c calls ih =>
    simp only [Along,ih,List.forall_mem_cons,List.pairwise_cons,fits_add]
    constructor
    · rintro ⟨first,each,rest⟩
      exact ⟨⟨first,fun d mem => (each d mem).1⟩,fun d mem => (each d mem).2,rest⟩
    · rintro ⟨⟨first,each⟩,apart,rest⟩
      exact ⟨first,fun d mem => ⟨each d mem,apart d mem⟩,rest⟩

variable {d : MarkCall}

theorem size_top (ground : Ground g bump) (typed : c.Typed g) (sits : c.Sits g bump) :
    c.addr + c.size ≤ c.region g + g.regionSize :=
  Nat.le_trans sits.bump (Nat.add_le_add_left (ground.bumps _ typed.node) _)

theorem disjoint_iff (ground : Ground g bump) (typed : c.Typed g) (sits : c.Sits g bump)
    (typed' : d.Typed g) (sits' : d.Sits g bump) :
    Disjoint (c.granules g) (d.granules g) ↔ Apart c.addr c.size d.addr d.size := by
  obtain ⟨q,n,addr,size,_⟩ := block_units ground typed sits
  obtain ⟨q',n',addr',size',_⟩ := block_units ground typed' sits'
  have pos : 0 < c.size := sizeForClass_pos typed.cls
  have pos' : 0 < d.size := sizeForClass_pos typed'.cls
  have grain : granule = 8 := rfl
  rw [granules_eq addr size,granules_eq addr' size',Set.disjoint_left]
  by_cases same : c.node = d.node
  · have region : c.region g = d.region g := by rw [MarkCall.region,MarkCall.region,same]
    rw [addr,size,addr',size',region,grain]
    rw [size,grain] at pos
    rw [size',grain] at pos'
    constructor
    · intro disjoint
      by_contra meet
      unfold Apart at meet
      have common := @disjoint (c.node,max q q')
      simp only [Set.mem_ofPred_eq,List.mem_range'_1,true_and,same] at common
      exact common ⟨by omega,by omega⟩ ⟨by omega,by omega⟩
    · intro apart
      unfold Apart at apart
      rintro ⟨_,x⟩ ⟨_,mem⟩ ⟨_,mem'⟩
      simp only [List.mem_range'_1] at mem mem'
      omega
  · have apart := (GlobalHeap.nodes_apart g same).mono sits.low (size_top ground typed sits) sits'.low
      (size_top ground typed' sits')
    refine ⟨fun _ => apart,fun _ => ?_⟩
    rintro ⟨_,x⟩ ⟨rfl,_⟩ ⟨same',_⟩
    exact same same'

theorem covers_iff {q n k : Nat} (bag : c.bag = q * bagSize)
    (bags : bagSizeForClass c.cls = n * bagSize) : c.Covers k ↔ q ≤ k ∧ k < q + n := by
  have unit : 0 < bagSize := by decide
  rw [MarkCall.Covers,bag,bags,← Nat.add_mul,Nat.mul_le_mul_right_iff unit,
    Nat.mul_lt_mul_right unit]

/-- Bags share a granule of the class map exactly when they share a granule of memory. -/
theorem claims_iff (ground : Ground g bump) (typed : c.Typed g) (sits : c.Sits g bump)
    (typed' : d.Typed g) (sits' : d.Sits g bump) :
    (∃ p, (p,c.cls) ∈ c.claims g ∧ (p,d.cls) ∈ d.claims g) ↔ ∃ q, c.Covers q ∧ d.Covers q := by
  obtain ⟨q,n,bag,bags,top⟩ := bag_units ground typed sits
  obtain ⟨q',n',bag',bags',top'⟩ := bag_units ground typed' sits'
  have units : ∀ {e : MarkCall}, e.Typed g → ∃ m, e.region g = m * bagSize := by
    intro e typed
    obtain ⟨m,origin⟩ := (by decide : bagSize ∣ minRegionSize).trans (ground.aligned _ typed.node)
    exact ⟨m,origin.trans (Nat.mul_comm _ _)⟩
  obtain ⟨m,origin⟩ := units typed
  obtain ⟨m',origin'⟩ := units typed'
  rw [claims_eq bag bags,claims_eq bag' bags']
  rw [origin,← Nat.add_mul] at bag
  rw [origin',← Nat.add_mul] at bag'
  simp only [covers_iff bag bags,covers_iff bag' bags',Set.mem_ofPred_eq,List.mem_range'_1,and_true]
  by_cases same : c.node = d.node
  · have equal : m = m' := by
      have region : c.region g = d.region g := by rw [MarkCall.region,MarkCall.region,same]
      rw [origin,origin'] at region
      exact Nat.eq_of_mul_eq_mul_right (by decide) region
    subst equal
    constructor
    · rintro ⟨⟨_,i⟩,⟨_,low,high⟩,_,low',high'⟩
      exact ⟨m + i,⟨by omega,by omega⟩,by omega,by omega⟩
    · rintro ⟨k,⟨low,high⟩,low',high'⟩
      exact ⟨(c.node,k - m),⟨rfl,by omega,by omega⟩,same,by omega,by omega⟩
  · constructor
    · rintro ⟨p,⟨node,_⟩,node',_⟩
      exact absurd (node.symm.trans node') same
    · -- the regions of two nodes share no granule
      rintro ⟨k,⟨low,high⟩,low',high'⟩
      have unit : 0 < bagSize := by decide
      obtain ⟨w,whole⟩ := (by decide : bagSize ∣ minRegionSize).trans ground.unit
      rw [Nat.mul_comm] at whole
      have fits := Nat.le_of_mul_le_mul_right (whole ▸ top) unit
      have fits' := Nat.le_of_mul_le_mul_right (whole ▸ top') unit
      rcases GlobalHeap.nodes_apart g same with before | after
      · rw [show g.base + c.node * g.regionSize = m * bagSize from origin,
          show g.base + d.node * g.regionSize = m' * bagSize from origin',whole,← Nat.add_mul] at before
        have := Nat.le_of_mul_le_mul_right before unit
        omega
      · rw [show g.base + c.node * g.regionSize = m * bagSize from origin,
          show g.base + d.node * g.regionSize = m' * bagSize from origin',whole,← Nat.add_mul] at after
        have := Nat.le_of_mul_le_mul_right after unit
        omega

theorem compatible_iff (ground : Ground g bump) (typed : c.Typed g) (sits : c.Sits g bump)
    (typed' : d.Typed g) (sits' : d.Sits g bump) :
    Compatible g c d ↔ Apart c.addr c.size d.addr d.size ∧
      (c.cls ≠ d.cls → ∀ q, ¬(c.Covers q ∧ d.Covers q)) := by
  refine and_congr (disjoint_iff ground typed sits typed' sits') ?_
  have shared := claims_iff ground typed sits typed' sits'
  constructor
  · intro one ne q covers
    obtain ⟨p,mine,other⟩ := shared.mpr ⟨q,covers⟩
    exact ne (one p mine other)
  · intro none_ p mine other
    by_contra ne
    obtain ⟨q,covers⟩ := shared.mp ⟨p,mine,other⟩
    exact none_ ne q covers

end Marks

theorem Ground.placed {nodes size raw : Nat} {r : Reservation} {bump : Nat → Nat}
    (reserved : GlobalHeap.reserve nodes size = some r) (top : raw + r.mapSize ≤ usizeMax)
    (bumps : ∀ node < r.numNodes, bump node ≤ r.regionSize) : Ground (.place r raw) bump := by
  obtain ⟨some_node,few,pos,unit,total,map⟩ := GlobalHeap.reserve_spec reserved
  have laid := GlobalHeap.place_laid pos few unit total map top
  have region : ∀ node < r.numNodes, (GlobalHeap.place r raw).nodeRegion node =
      ⟨(GlobalHeap.place r raw).base + node * r.regionSize,r.regionSize⟩ :=
    fun node low => GlobalHeap.place_region raw few low
  refine ⟨fun node low => ?_,fun p bound node => ?_,fun node low => ?_,unit,?_,bumps⟩
  · have slot : node < maxNodes := lt_of_lt_of_le low few
    have inside : node < r.numNodes := low
    simp only [GlobalHeap.place,List.getElem?_map,List.getElem?_range slot,Option.map_some,
      if_pos inside]
  · rw [laid.lookup p bound node]
    refine and_congr_right fun low => ?_
    rw [region node low]
    rfl
  · have aligned := laid.aligned node low
    rwa [region node low] at aligned
  · -- one region is no larger than the whole mapping
    have whole := GlobalHeap.reserve_le reserved
    have one : r.regionSize ≤ r.regionSize * r.numNodes := Nat.le_mul_of_pos_right _ some_node
    show r.regionSize ≤ isizeMax
    omega

/-- Nothing is marked or claimed at first. -/
theorem Marks.new_exact {g : GlobalHeap} {bump : Nat → Nat} (ground : Ground g bump)
    {mmapAnonymous : Nat → Option Nat} {fresh : Marks}
    (made : Marks.new g mmapAnonymous = some fresh) : Marks.Exact fresh g ⟨∅,∅⟩ := by
  have unit : minRegionSize = 262144 := rfl
  have dvd := ground.unit
  rw [unit] at dvd
  have bits : divCeil g.regionSize (granule * 8) = g.regionSize / 64 :=
    divCeil_eq (by decide) ((by decide : granule * 8 ∣ 262144).trans dvd)
  have bags : divCeil g.regionSize bagSize = g.regionSize / 32768 :=
    divCeil_eq (by decide) ((by decide : bagSize ∣ 262144).trans dvd)
  simp only [Marks.new,bits,bags,Option.bind_eq_bind,Option.bind_eq_some_iff,Option.some.injEq] at made
  obtain ⟨_,_,_,_,rfl⟩ := made
  refine ⟨rfl,Nat.div_mul_cancel ((by decide : 64 ∣ 262144).trans dvd),
    Nat.div_mul_cancel ((by decide : 32768 ∣ 262144).trans dvd),
    fun node inside i low k _ => ?_,fun node inside i low => Or.inl ⟨?_,fun _ mem => mem⟩⟩
  · simp only [blank] at low ⊢
    have := Nat.mul_le_mul_right (g.regionSize / 64) (Nat.succ_le_of_lt inside)
    rw [Nat.succ_mul,Nat.mul_comm g.numNodes] at this
    rw [if_neg (by omega)]
    simp
  · simp only [blank] at low ⊢
    refine if_pos ⟨by omega,?_⟩
    have := Nat.mul_le_mul_right (g.regionSize / 32768) (Nat.succ_le_of_lt inside)
    rw [Nat.succ_mul,Nat.mul_comm g.numNodes] at this
    omega

/-- Marking blocks one after the other on fresh marks goes through if and only if each of
them lies below the bump offset of its node, aligned to its class, no two of them overlap,
and no two of different classes have bags that share a granule. -/
theorem marks_exact {nodes size raw : Nat} {r : Reservation} {bump : Nat → Nat}
    {mmapAnonymous : Nat → Option Nat} {fresh : Marks}
    (reserved : GlobalHeap.reserve nodes size = some r)
    (top : raw + r.mapSize ≤ usizeMax) (bumps : ∀ node < r.numNodes, bump node ≤ r.regionSize)
    (made : Marks.new (.place r raw) mmapAnonymous = some fresh) (calls : List MarkCall)
    (typed : ∀ c ∈ calls, c.Typed (.place r raw)) :
    calls.foldlM (fun marks c =>
        Marks.markBlock (.place r raw) bump c.node c.cls marks c.addr) fresh ≠ none ↔
      (∀ c ∈ calls, c.Sits (.place r raw) bump) ∧
      calls.Pairwise fun c d => Apart c.addr c.size d.addr d.size ∧
        (c.cls ≠ d.cls → ∀ q, ¬(c.Covers q ∧ d.Covers q)) := by
  have ground := Ground.placed reserved top bumps
  have exact_ := Marks.new_exact ground made
  obtain ⟨through,stuck⟩ := foldlM_along (fun marks seen => Marks.Exact marks (.place r raw) seen)
    (Marks.Fits (.place r raw) bump) (Marks.Seen.add (.place r raw))
    (fun c mem marks seen exact_ => (exact_.mark ground (typed c mem)).1)
    (fun c mem marks seen exact_ => (exact_.mark ground (typed c mem)).2) exact_
  have runs : calls.foldlM (fun marks c =>
      Marks.markBlock (.place r raw) bump c.node c.cls marks c.addr) fresh ≠ none ↔
      Along (Marks.Fits (.place r raw) bump) (Marks.Seen.add (.place r raw)) calls ⟨∅,∅⟩ := by
    constructor
    · exact fun some_ => not_not.mp fun not => some_ (stuck not)
    · intro along
      obtain ⟨_,loop,_⟩ := through along
      rw [loop]
      exact Option.some_ne_none _
  have first : ∀ c : MarkCall, Marks.Fits (.place r raw) bump c ⟨∅,∅⟩ ↔ c.Sits (.place r raw) bump :=
    fun c => ⟨And.left,fun sits => ⟨sits,fun _ _ => id,fun _ _ _ => False.elim⟩⟩
  rw [runs,Marks.along_fits]
  simp only [first]
  refine and_congr_right fun sits => ?_
  refine List.Pairwise.iff_of_mem fun {c d} mem mem' => ?_
  exact Marks.compatible_iff ground (typed c mem) (sits c mem) (typed d mem') (sits d mem')

namespace Sample

/-- The smallest heap: one region of 256 KiB. -/
def reservation : Reservation := ⟨1,262144,262144,524288⟩

abbrev heap : GlobalHeap := .place reservation 262144

theorem reserved : GlobalHeap.reserve 1 0 = some reservation := by
  have least : IsLeast {x | minRegionSize ∣ x ∧ max 0 minRegionSize ≤ x} 262144 :=
    ⟨⟨by decide,by decide⟩,fun _ member => member.2⟩
  rw [GlobalHeap.reserve_eq 1 least,if_neg (by decide)]
  rfl

theorem heap_base : heap.base = 262144 := by decide +kernel

theorem marks : Marks.new heap some = some (.blank 4096 8 1) := by
  have bits : divCeil heap.regionSize (granule * 8) = 4096 := by decide +kernel
  have bags : divCeil heap.regionSize bagSize = 8 := by decide +kernel
  have nodes : heap.numNodes = 1 := rfl
  simp only [Marks.new,bits,bags,nodes]
  rfl

theorem sits {addr : Nat} (low : 262144 ≤ addr) (high : addr + 8 ≤ 294912) (dvd : 8 ∣ addr) :
    MarkCall.Sits ⟨0,0,addr⟩ heap fun _ => 32768 := by
  have region : MarkCall.region ⟨0,0,addr⟩ heap = 262144 := by
    simp only [MarkCall.region,heap_base]
    omega
  have whole : heap.regionSize = 262144 := rfl
  have size : MarkCall.size ⟨0,0,addr⟩ = 8 := rfl
  constructor
  case low => rwa [region]
  case high => rw [region,whole]; simp only; omega
  case bump => rw [region,size]; simp only; omega
  case aligned => rwa [size]

end Sample

/-- Two neighbouring blocks can be marked, one block twice cannot. -/
theorem sample_marks_exact :
    [⟨0,0,262144⟩,⟨0,0,262152⟩].foldlM (fun marks (c : MarkCall) =>
      Marks.markBlock Sample.heap (fun _ => 32768) c.node c.cls marks c.addr) (.blank 4096 8 1) ≠
        none ∧
    [⟨0,0,262144⟩,⟨0,0,262144⟩].foldlM (fun marks (c : MarkCall) =>
      Marks.markBlock Sample.heap (fun _ => 32768) c.node c.cls marks c.addr) (.blank 4096 8 1) =
        none := by
  have size : sizeForClass 0 = 8 := rfl
  have typed : ∀ addr ≤ usizeMax, MarkCall.Typed ⟨0,0,addr⟩ Sample.heap :=
    fun addr word => ⟨Nat.one_pos,Nat.succ_pos _,word⟩
  have first := typed 262144 (by decide)
  have next := typed 262152 (by decide)
  constructor
  · refine (marks_exact Sample.reserved (by decide) (by decide) Sample.marks _ ?_).mpr ⟨?_,?_⟩
    · exact List.forall_mem_cons.mpr ⟨first,List.forall_mem_singleton.mpr next⟩
    · exact List.forall_mem_cons.mpr ⟨Sample.sits (by decide) (by decide) (by decide),
        List.forall_mem_singleton.mpr (Sample.sits (by decide) (by decide) (by decide))⟩
    · simp [Apart,MarkCall.size,size]
  · by_contra through
    have sound := (marks_exact Sample.reserved (by decide) (by decide) Sample.marks _
      (List.forall_mem_cons.mpr ⟨first,List.forall_mem_singleton.mpr first⟩)).mp through
    simp [Apart,MarkCall.size,size] at sound

end Numalloc
