import Mathlib.Data.Nat.Bitwise
import Mathlib.Data.Nat.Log
import Mathlib.Order.Bounds.Defs
import Mathlib.Tactic.Ring

/-! Byte-addressed memory with little-endian words, and the 64-bit masking
arithmetic used to align addresses. -/
namespace Concurrent

abbrev Bytes := Nat → UInt8

/-- The ranges `[a, a + n)` and `[b, b + m)` do not meet. -/
def Apart (a n b m : Nat) : Prop := a + n ≤ b ∨ b + m ≤ a

instance : Decidable (Apart a n b m) := inferInstanceAs (Decidable (_ ∨ _))

theorem Apart.symm (h : Apart a n b m) : Apart b m a n := Or.symm h

/-- Parts of disjoint ranges are disjoint. -/
theorem Apart.mono {a n b m a' n' b' m' : Nat} (h : Apart a n b m) (la : a ≤ a')
    (ua : a' + n' ≤ a + n) (lb : b ≤ b') (ub : b' + m' ≤ b + m) : Apart a' n' b' m' := by
  unfold Apart at *
  omega

/-- Little-endian value of `n` bytes. -/
def readLE (mem : Bytes) (a : Nat) : Nat → Nat
  | 0 => 0
  | n + 1 => (mem a).toNat + 256 * readLE mem (a + 1) n

def writeLE (mem : Bytes) (a n w : Nat) : Bytes :=
  fun x => if a ≤ x ∧ x < a + n then UInt8.ofNat (w / 256 ^ (x - a)) else mem x

/-- Set every byte of a range. -/
def fill (mem : Bytes) (a n : Nat) (v : UInt8) : Bytes :=
  fun x => if a ≤ x ∧ x < a + n then v else mem x

/-- Copy a range; the source is read before anything is written. -/
def copyBytes (mem : Bytes) (src dst n : Nat) : Bytes :=
  fun x => if dst ≤ x ∧ x < dst + n then mem (src + (x - dst)) else mem x

section Words

variable {mem mem' : Bytes} {a b n m w x : Nat}

theorem readLE_congr (same : ∀ x, a ≤ x → x < a + n → mem x = mem' x) :
    readLE mem a n = readLE mem' a n := by
  induction n generalizing a with
  | zero => rfl
  | succ n ih =>
    simp only [readLE]
    rw [same a (by omega) (by omega),ih fun x lo hi => same x (by omega) (by omega)]

theorem writeLE_outside (out : x < a ∨ a + n ≤ x) : writeLE mem a n w x = mem x := by
  simp only [writeLE]
  rw [if_neg (by omega)]

theorem fill_outside (v : UInt8) (out : x < a ∨ a + n ≤ x) : fill mem a n v x = mem x := by
  simp only [fill]
  rw [if_neg (by omega)]

theorem copyBytes_outside (src : Nat) (out : x < a ∨ a + n ≤ x) :
    copyBytes mem src a n x = mem x := by
  simp only [copyBytes]
  rw [if_neg (by omega)]

theorem readLE_writeLE : readLE (writeLE mem a n w) a n = w % 256 ^ n := by
  induction n generalizing a w mem with
  | zero => simp [readLE,Nat.mod_one]
  | succ n ih =>
    have tail : readLE (writeLE mem a (n + 1) w) (a + 1) n =
        readLE (writeLE mem (a + 1) n (w / 256)) (a + 1) n := by
      refine readLE_congr fun x lo hi => ?_
      simp only [writeLE]
      rw [if_pos (by omega),if_pos (by omega)]
      rw [show x - a = (x - (a + 1)) + 1 by omega,Nat.pow_succ',Nat.div_div_eq_div_mul]
    have head : (writeLE mem a (n + 1) w a).toNat = w % 256 := by
      simp [writeLE]
    rw [readLE,tail,ih,head,Nat.pow_succ',Nat.mod_mul]

theorem readLE_writeLE_apart (apart : Apart a n b m) :
    readLE (writeLE mem b m w) a n = readLE mem a n :=
  readLE_congr fun x lo hi => writeLE_outside (by unfold Apart at apart; omega)

end Words

/-- Complement of a 64-bit word. -/
def bnot64 (x : Nat) : Nat := (2 ^ 64 - 1) ^^^ x

theorem testBit_bnot64 (x i : Nat) : (bnot64 x).testBit i = (decide (i < 64) ^^ x.testBit i) := by
  rw [bnot64,Nat.testBit_xor,Nat.testBit_two_pow_sub_one]

/-- Masking with the complement of `2 ^ k - 1` clears the low `k` bits. -/
theorem and_bnot64_mask {x k : Nat} (word : x < 2 ^ 64) (small : k ≤ 64) :
    x &&& bnot64 (2 ^ k - 1) = x / 2 ^ k * 2 ^ k := by
  apply Nat.eq_of_testBit_eq
  intro i
  rw [Nat.testBit_and,testBit_bnot64,Nat.testBit_two_pow_sub_one,Nat.testBit_mul_two_pow,
    Nat.testBit_div_two_pow]
  by_cases low : i < k
  · have : i < 64 := by omega
    simp [low,this]
  · by_cases high : i < 64
    · have : k ≤ i := by omega
      simp [low,high,this]
    · have zero : x.testBit i = false :=
        Nat.testBit_lt_two_pow (lt_of_lt_of_le word (Nat.pow_le_pow_right (by omega) (by omega)))
      have : k ≤ i := by omega
      simp [zero,this]

/-- Rounding up to a multiple of `2 ^ k`, as masked 64-bit arithmetic computes it. -/
def alignUp (x a : Nat) : Nat := (x + (a - 1)) &&& bnot64 (a - 1)

section AlignUp

variable {x k a : Nat}

theorem alignUp_eq (pow : a = 2 ^ k) (small : k ≤ 64) (word : x + (a - 1) < 2 ^ 64) :
    alignUp x a = (x + (a - 1)) / a * a := by
  subst pow
  exact and_bnot64_mask word small

theorem alignUp_ge (pow : a = 2 ^ k) (small : k ≤ 64) (word : x + (a - 1) < 2 ^ 64) :
    x ≤ alignUp x a := by
  have pos : 0 < a := pow ▸ Nat.two_pow_pos k
  rw [alignUp_eq pow small word]
  have := Nat.div_add_mod (x + (a - 1)) a
  have := Nat.mod_lt (x + (a - 1)) pos
  have := Nat.mul_comm a ((x + (a - 1)) / a)
  omega

theorem alignUp_le (pow : a = 2 ^ k) (small : k ≤ 64) (word : x + (a - 1) < 2 ^ 64) :
    alignUp x a ≤ x + (a - 1) := by
  rw [alignUp_eq pow small word]
  exact Nat.div_mul_le_self _ _

theorem dvd_alignUp (pow : a = 2 ^ k) (small : k ≤ 64) (word : x + (a - 1) < 2 ^ 64) :
    a ∣ alignUp x a := by
  rw [alignUp_eq pow small word]
  exact Nat.dvd_mul_left _ _

/-- The result is the least multiple that is not below the argument. -/
theorem alignUp_least {y : Nat} (pow : a = 2 ^ k) (small : k ≤ 64) (word : x + (a - 1) < 2 ^ 64)
    (above : x ≤ y) (multiple : a ∣ y) : alignUp x a ≤ y := by
  obtain ⟨q,rfl⟩ := multiple
  have pos : 0 < a := pow ▸ Nat.two_pow_pos k
  have := alignUp_le pow small word
  obtain ⟨r,hr⟩ := dvd_alignUp pow small word
  rw [hr] at this ⊢
  apply Nat.mul_le_mul_left
  by_contra far
  have : a * (q + 1) ≤ a * r := Nat.mul_le_mul_left a (by omega)
  rw [Nat.mul_succ] at this
  omega

theorem alignUp_isLeast (pow : a = 2 ^ k) (small : k ≤ 64) (word : x + (a - 1) < 2 ^ 64) :
    IsLeast {y | a ∣ y ∧ x ≤ y} (alignUp x a) :=
  ⟨⟨dvd_alignUp pow small word,alignUp_ge pow small word⟩,
    fun _ member => alignUp_least pow small word member.2 member.1⟩

/-- There is a least multiple for every argument, also where it is no machine word. -/
theorem least_multiple_exists (pos : 0 < a) (x : Nat) :
    ∃ y, IsLeast {y | a ∣ y ∧ x ≤ y} y := by
  have reached : ∃ y, a ∣ y ∧ x ≤ y :=
    ⟨a * x,Nat.dvd_mul_right a x,Nat.le_mul_of_pos_left x pos⟩
  exact ⟨Nat.find reached,Nat.find_spec reached,fun y member => Nat.find_min' reached member⟩

end AlignUp

end Concurrent
