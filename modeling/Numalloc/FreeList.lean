import Numalloc.Concurrent.Rules
import Numalloc.SizeClass

/-! Intrusive free lists (`freelist.rs`): the tagged-pointer Treiber stack shared by
the threads of a node, and the single-owner list of one thread. -/
namespace Numalloc

open Concurrent

/-- Accesses to the link stored in the first word of a block. `panic` is a failed
`unwrap`; it has no answer. -/
inductive LinkOp where
  | readNext (block : Nat)
  | writeNext (block : Nat) (next : Option Nat)
  | panic

@[reducible] def LinkOp.Res : LinkOp → Type
  | readNext _ => Option Nat
  | writeNext _ _ => Unit
  | panic => Empty

@[reducible] def linkI : Interface := ⟨LinkOp,LinkOp.Res⟩

def readNext (block : Nat) : Prog linkI (Option Nat) := .call (I := linkI) (.readNext block)
def writeNext (block : Nat) (next : Option Nat) : Prog linkI Unit :=
  .call (I := linkI) (.writeNext block next)

/-- `Option::unwrap` -/
def unwrap {α : Type} : Option α → Prog linkI α
  | some a => .ret a
  | none => .act (I := linkI) .panic (fun e => nomatch e)

namespace TreiberStack

/-- The atomic head word of one stack, and the link written before publishing. -/
inductive Op where
  | load
  | compareExchangeWeak (current new : Nat)
  | writeNext (block : Nat) (next : Option Nat)

@[reducible] def Op.Res : Op → Type
  | load => Nat
  | compareExchangeWeak _ _ => Bool
  | writeNext _ _ => Unit

@[reducible] def stackI : Interface := ⟨Op,Op.Res⟩

def addrMask : Nat := 0x0000FFFFFFFFFFFF

def pack (ptr : Option Nat) (tag : Nat) : Nat :=
  let raw := match ptr with
    | some p => p
    | none => 0
  (tag <<< 48) ||| (raw &&& addrMask)

def unpack (val : Nat) : Option Nat × Nat :=
  let addr := val &&& addrMask
  (if addr = 0 then none else some addr, (val >>> 48) % 2 ^ 16)

/-- `u16::wrapping_add(1)` -/
def nextTag (tag : Nat) : Nat := (tag + 1) % 2 ^ 16

/-- One attempt of a push: publish `first .. last` in front of the loaded head. -/
def publish (first last : Nat) : Prog stackI (Unit ⊕ Unit) := do
  let current ← .call (I := stackI) .load
  let (head, tag) := unpack current
  .call (I := stackI) (.writeNext last head)
  let new := pack (some first) (nextTag tag)
  if ← .call (I := stackI) (.compareExchangeWeak current new) then
    pure (.inr ())
  else
    pure (.inl ())

def push (block : Nat) : Prog stackI Unit := .iter (fun _ => publish block block) ()

def pushChain (first last : Nat) : Prog stackI Unit := .iter (fun _ => publish first last) ()

def takeAll : Prog stackI (Option Nat) :=
  .iter (fun _ => do
    let current ← .call (I := stackI) .load
    let (head, tag) := unpack current
    match head with
    | none => pure (.inr none)
    | some head =>
      let new := pack none (nextTag tag)
      if ← .call (I := stackI) (.compareExchangeWeak current new) then
        pure (.inr (some head))
      else
        pure (.inl ())) ()

variable {p tag w : Nat}

theorem addrMask_eq : addrMask = 2 ^ 48 - 1 := by decide

theorem unpack_eq (w : Nat) :
    unpack w = (if w % 2 ^ 48 = 0 then none else some (w % 2 ^ 48), w / 2 ^ 48 % 2 ^ 16) := by
  simp only [unpack,addrMask_eq,Nat.and_two_pow_sub_one_eq_mod,Nat.shiftRight_eq_div_pow]

theorem pack_eq (ptr : Option Nat) (tag : Nat) :
    pack ptr tag = tag * 2 ^ 48 + ptr.getD 0 % 2 ^ 48 := by
  have low : ptr.getD 0 % 2 ^ 48 < 2 ^ 48 := Nat.mod_lt _ (by decide)
  rw [← Nat.shiftLeft_eq,Nat.shiftLeft_add_eq_or_of_lt low]
  cases ptr with
  | none => simp [pack]
  | some p => simp only [pack,addrMask_eq,Nat.and_two_pow_sub_one_eq_mod,Option.getD_some]

@[simp] theorem unpack_zero : unpack 0 = (none, 0) := by simp [unpack_eq]

theorem unpack_pack_none (tag : Nat) : (unpack (pack none tag)).1 = none := by
  simp [unpack_eq,pack_eq]

/-- User-space addresses survive the packed word, whatever the tag. -/
theorem unpack_pack_some (tag : Nat) (pos : 0 < p) (bound : p < 2 ^ 48) :
    (unpack (pack (some p) tag)).1 = some p := by
  have low : (tag * 2 ^ 48 + p) % 2 ^ 48 = p := by
    rw [Nat.mul_add_mod_self_right,Nat.mod_eq_of_lt bound]
  simp only [unpack_eq,pack_eq,Option.getD_some,Nat.mod_eq_of_lt bound,low]
  rw [if_neg (by omega)]

end TreiberStack

/-- Per-thread list. `spare` is a detached chain of unknown length. -/
structure ThreadFreelist where
  head : Option Nat
  tail : Option Nat
  count : Nat
  spare : Option Nat

namespace ThreadFreelist

def new : ThreadFreelist := ⟨none,none,0,none⟩

def takeSpare (fl : ThreadFreelist) : Option Nat × ThreadFreelist :=
  (fl.spare, { fl with spare := none })

def setSpare (fl : ThreadFreelist) (chain : Option Nat) : ThreadFreelist :=
  { fl with spare := chain }

def push (fl : ThreadFreelist) (block : Nat) : Prog linkI ThreadFreelist := do
  writeNext block fl.head
  let tail := if fl.head.isNone then some block else fl.tail
  pure { fl with head := some block, tail := tail, count := fl.count + 1 }

def pop (fl : ThreadFreelist) : Prog linkI (Option Nat × ThreadFreelist) :=
  match fl.head with
  | none => pure (none, fl)
  | some block => do
    let head ← readNext block
    let tail := if head.isNone then none else fl.tail
    pure (some block, { fl with head := head, tail := tail, count := fl.count - 1 })

def pushChain (fl : ThreadFreelist) (first last : Nat) (chainCount : Nat) :
    Prog linkI ThreadFreelist := do
  writeNext last fl.head
  let tail := if fl.head.isNone then some last else fl.tail
  pure { fl with head := some first, tail := tail, count := fl.count + chainCount }

/-- The `unwrap`s of head and tail cannot fail on a counted list. -/
def drainAll (fl : ThreadFreelist) : Prog linkI (Option (Nat × Nat × Nat) × ThreadFreelist) :=
  if fl.count = 0 then pure (none, fl)
  else do
    let head ← unwrap fl.head
    let tail ← unwrap fl.tail
    pure (some (head, tail, fl.count), { fl with head := none, tail := none, count := 0 })

/-- Follow `hops` links; each of them must lead to a block. -/
def hop : Nat → Nat → Prog linkI Nat
  | 0, split => pure split
  | hops + 1, split => do
    let next ← readNext split
    let split ← unwrap next
    hop hops split

def drain (fl : ThreadFreelist) (keep : Nat) :
    Prog linkI (Option (Nat × Nat × Nat) × ThreadFreelist) :=
  if fl.count ≤ keep then pure (none, fl)
  else if keep = 0 then fl.drainAll
  else do
    let drainCount := fl.count - keep
    let head ← unwrap fl.head
    let split ← hop (keep - 1) head
    let next ← readNext split
    let chainHead ← unwrap next
    let chainTail ← unwrap fl.tail
    writeNext split none
    pure (some (chainHead, chainTail, drainCount), { fl with tail := some split, count := keep })

end ThreadFreelist

end Numalloc
