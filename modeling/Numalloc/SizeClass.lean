import Numalloc.Concurrent.Bytes
import Mathlib.Tactic.IntervalCases

/-! Size classes and request layouts (`size_class.rs`). Machine words are natural
numbers below `2 ^ 64`; checked arithmetic answers `none` on overflow. -/
namespace Numalloc

open Concurrent

def usizeMax : Nat := 2 ^ 64 - 1
def isizeMax : Nat := 2 ^ 63 - 1

def checkedAdd (a b : Nat) : Option Nat := if a + b ≤ usizeMax then some (a + b) else none
def checkedMul (a b : Nat) : Option Nat := if a * b ≤ usizeMax then some (a * b) else none
def checkedSub (a b : Nat) : Option Nat := if b ≤ a then some (a - b) else none
def wrappingSub (a b : Nat) : Nat := (a + 2 ^ 64 - b) % 2 ^ 64
def saturatingAdd (a b : Nat) : Nat := min (a + b) usizeMax

theorem checkedAdd_eq_some {a b c : Nat} : checkedAdd a b = some c ↔ a + b ≤ usizeMax ∧ a + b = c := by
  simp [checkedAdd]

theorem checkedMul_eq_some {a b c : Nat} : checkedMul a b = some c ↔ a * b ≤ usizeMax ∧ a * b = c := by
  simp [checkedMul]

theorem checkedSub_eq_some {a b c : Nat} : checkedSub a b = some c ↔ b ≤ a ∧ a - b = c := by
  simp [checkedSub]

def numSizeClasses : Nat := 16

def sizeClasses : List Nat :=
  [8, 16, 32, 64, 128, 256, 512, 1024, 2048, 4096, 8192, 16384, 32768, 65536, 131072, 262144]

def bagSize : Nat := 32 * 1024

def smallLimit : Nat := 262144

def leadingZeros (x : Nat) : Nat := if x = 0 then 64 else 63 - Nat.log2 x

def sizeClassIndex (size : Nat) : Option Nat :=
  if size = 0 ∨ smallLimit < size then none
  else if size ≤ 8 then some 0
  else some (64 - leadingZeros (size - 1) - 3)

def sizeForClass (index : Nat) : Nat := sizeClasses.getD index 0

def bagSizeForClass (index : Nat) : Nat :=
  let obj := sizeForClass index
  if bagSize < obj then obj else bagSize

/-- Objects carved from one bag. -/
def objectsPerBag (index : Nat) : Nat := bagSizeForClass index / sizeForClass index

/-- `std::alloc::Layout`: a power-of-two alignment, and a size that stays within
`isize::MAX` when rounded up to it. -/
structure Layout where
  size : Nat
  align : Nat
  pow : ∃ k, align = 2 ^ k
  bounded : size + (align - 1) ≤ isizeMax

namespace Layout

def effective (l : Layout) : Nat := max l.size l.align

/-- `Layout::from_size_align` at the alignment of an existing layout. -/
def resize (l : Layout) (size : Nat) : Option Layout :=
  if h : size + (l.align - 1) ≤ isizeMax then some ⟨size,l.align,l.pow,h⟩ else none

theorem align_pos (l : Layout) : 0 < l.align := by
  obtain ⟨k,hk⟩ := l.pow
  rw [hk]; exact Nat.two_pow_pos k

theorem effective_pos (l : Layout) : 0 < l.effective :=
  lt_of_lt_of_le l.align_pos (Nat.le_max_right _ _)

theorem resize_size {l l' : Layout} {size : Nat} (h : l.resize size = some l') :
    l'.size = size ∧ l'.align = l.align := by
  unfold resize at h
  split at h
  · obtain rfl := Option.some.inj h
    exact ⟨rfl,rfl⟩
  · contradiction

end Layout

variable {c size : Nat}

theorem sizeForClass_eq (h : c < numSizeClasses) : sizeForClass c = 2 ^ (c + 3) := by
  unfold numSizeClasses at h
  interval_cases c <;> rfl

theorem bagSizeForClass_eq (h : c < numSizeClasses) :
    bagSizeForClass c = 2 ^ max 15 (c + 3) := by
  unfold numSizeClasses at h
  interval_cases c <;> rfl

theorem sizeForClass_pos (h : c < numSizeClasses) : 0 < sizeForClass c := by
  rw [sizeForClass_eq h]; exact Nat.two_pow_pos _

/-- A link fits into every block. -/
theorem eight_le_sizeForClass (h : c < numSizeClasses) : 8 ≤ sizeForClass c := by
  rw [sizeForClass_eq h,Nat.pow_add]
  have := Nat.two_pow_pos c
  omega

theorem sizeForClass_dvd_bag (h : c < numSizeClasses) :
    sizeForClass c ∣ bagSizeForClass c := by
  rw [sizeForClass_eq h,bagSizeForClass_eq h]
  exact Nat.pow_dvd_pow 2 (Nat.le_max_right _ _)

theorem bagSizeForClass_dvd_limit (h : c < numSizeClasses) : bagSizeForClass c ∣ smallLimit := by
  rw [bagSizeForClass_eq h,show smallLimit = 2 ^ 18 from rfl]
  unfold numSizeClasses at h
  exact Nat.pow_dvd_pow 2 (by omega)

theorem objectsPerBag_mul (h : c < numSizeClasses) :
    objectsPerBag c * sizeForClass c = bagSizeForClass c :=
  Nat.div_mul_cancel (sizeForClass_dvd_bag h)

theorem objectsPerBag_pos (h : c < numSizeClasses) : 0 < objectsPerBag c := by
  have full := objectsPerBag_mul h
  have : 0 < bagSizeForClass c := by rw [bagSizeForClass_eq h]; exact Nat.two_pow_pos _
  rcases Nat.eq_zero_or_pos (objectsPerBag c) with zero | pos
  · simp [zero] at full; omega
  · exact pos

/-- Beyond the first class the index is the bit length of `size - 1`, less three. -/
theorem sizeClassIndex_big (low : 8 < size) (high : size ≤ smallLimit) :
    sizeClassIndex size = some (Nat.log2 (size - 1) - 2) := by
  have bits : Nat.log2 (size - 1) < 18 := by
    rw [Nat.log2_lt (by omega)]
    unfold smallLimit at high
    omega
  have floor : 3 ≤ Nat.log2 (size - 1) := (Nat.le_log2 (by omega)).mpr (by omega)
  have cond : ¬(size = 0 ∨ smallLimit < size) := by omega
  have tail : ¬size ≤ 8 := by omega
  simp only [sizeClassIndex,if_neg cond,if_neg tail,leadingZeros]
  rw [if_neg (by omega)]
  congr 1
  omega

/-- The index is that of the smallest class that holds the request. -/
theorem sizeClassIndex_spec (h : sizeClassIndex size = some c) :
    c < numSizeClasses ∧ 0 < size ∧ size ≤ smallLimit ∧ size ≤ sizeForClass c ∧
      ∀ d < c, sizeForClass d < size := by
  by_cases valid : size = 0 ∨ smallLimit < size
  · simp [sizeClassIndex,valid] at h
  by_cases first : size ≤ 8
  · simp only [sizeClassIndex,if_neg valid,if_pos first,Option.some.injEq] at h
    subst h
    exact ⟨by decide,by omega,by omega,first,by simp⟩
  have idx := sizeClassIndex_big (by omega : 8 < size) (by omega)
  rw [idx] at h
  obtain rfl := Option.some.inj h
  have nonzero : size - 1 ≠ 0 := by omega
  have bits : Nat.log2 (size - 1) < 18 := by
    rw [Nat.log2_lt nonzero]
    unfold smallLimit at valid
    omega
  have floor : 3 ≤ Nat.log2 (size - 1) := (Nat.le_log2 nonzero).mpr (by omega)
  have inRange : Nat.log2 (size - 1) - 2 < numSizeClasses := by unfold numSizeClasses; omega
  refine ⟨inRange,by omega,by omega,?_,?_⟩
  · rw [sizeForClass_eq inRange,show Nat.log2 (size - 1) - 2 + 3 = Nat.log2 (size - 1) + 1 by omega]
    have := (Nat.log2_lt nonzero).mp (Nat.lt_succ_self (Nat.log2 (size - 1)))
    omega
  · intro d hd
    rw [sizeForClass_eq (by omega)]
    have below : 2 ^ (d + 3) ≤ 2 ^ Nat.log2 (size - 1) :=
      Nat.pow_le_pow_right (by omega) (by omega)
    have := Nat.log2_self_le nonzero
    omega

theorem sizeClassIndex_isSome (low : 0 < size) (high : size ≤ smallLimit) :
    ∃ c, sizeClassIndex size = some c := by
  have cond : ¬(size = 0 ∨ smallLimit < size) := by omega
  by_cases first : size ≤ 8
  · exact ⟨0,by simp only [sizeClassIndex,if_neg cond,if_pos first]⟩
  · exact ⟨_,sizeClassIndex_big (by omega) high⟩

end Numalloc
