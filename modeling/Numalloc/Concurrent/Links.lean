import Numalloc.Concurrent.Prog
import Mathlib.Data.List.Nodup
import Mathlib.Data.List.Basic

/-! Intrusive singly linked chains. `next b` is `none` where no link is known and
`some e` where the link of `b` is `e`; `e = none` terminates a chain. -/
namespace Concurrent

variable {α : Type}

/-- Following the links from `h` spells the list and arrives at `e`. -/
def Links (next : α → Option (Option α)) : Option α → List α → Option α → Prop
  | h, [], e => h = e
  | h, b :: l, e => h = some b ∧ ∃ n, next b = some n ∧ Links next n l e

variable {next next' : α → Option (Option α)} {h e x : Option α} {l m : List α} {b : α}

@[simp] theorem links_nil : Links next h [] e ↔ h = e := Iff.rfl

theorem links_cons : Links next h (b :: l) e ↔
    h = some b ∧ ∃ n, next b = some n ∧ Links next n l e := Iff.rfl

instance Links.decidable [DecidableEq α] : (h : Option α) → (l : List α) → (e : Option α) →
    Decidable (Links next h l e)
  | h, [], e => inferInstanceAs (Decidable (h = e))
  | h, b :: l, e =>
    match at_ : next b with
    | none => .isFalse fun ⟨_,n,hn,_⟩ => nomatch at_.symm.trans hn
    | some n =>
      have := Links.decidable n l e
      decidable_of_iff (h = some b ∧ Links next n l e) (by simp [links_cons,at_])

theorem links_append : Links next h (l ++ m) e ↔
    ∃ x, Links next h l x ∧ Links next x m e := by
  induction l generalizing h with
  | nil => simp
  | cons b l ih =>
    simp only [List.cons_append,links_cons,ih]
    constructor
    · rintro ⟨rfl,n,hn,x,front,back⟩
      exact ⟨x,⟨rfl,n,hn,front⟩,back⟩
    · rintro ⟨x,⟨rfl,n,hn,front⟩,back⟩
      exact ⟨rfl,n,hn,x,front,back⟩

theorem links_congr (same : ∀ b ∈ l, next b = next' b) :
    Links next h l e ↔ Links next' h l e := by
  induction l generalizing h with
  | nil => rfl
  | cons b l ih =>
    simp only [links_cons,same b (by simp)]
    have tail : ∀ n, Links next n l e ↔ Links next' n l e :=
      fun n => ih fun c hc => same c (by simp [hc])
    simp only [tail]

theorem Links.head (chain : Links next h l none) : h = l.head? := by
  cases l with
  | nil => exact chain
  | cons b l => exact chain.1

theorem Links.head_cons (chain : Links next h (b :: l) e) : h = some b := chain.1

/-- A terminated chain is determined by its first block. -/
theorem Links.unique (left : Links next h l none) (right : Links next h m none) : l = m := by
  induction l generalizing h m with
  | nil =>
    cases m with
    | nil => rfl
    | cons b m => exact absurd (left.symm.trans right.1) (by simp)
  | cons b l ih =>
    obtain ⟨rfl,n,hn,rest⟩ := left
    cases m with
    | nil => exact absurd right (by simp)
    | cons c m =>
      obtain ⟨hc,n',hn',rest'⟩ := right
      obtain rfl := Option.some.inj hc
      obtain rfl := Option.some.inj (hn.symm.trans hn')
      rw [ih rest rest']

/-- A chain is determined by its first block and its length, wherever it ends. -/
theorem Links.unique_length {e' : Option α} (left : Links next h l e) (right : Links next h m e')
    (length : l.length = m.length) : l = m := by
  induction l generalizing h m with
  | nil => exact (List.length_eq_zero_iff.mp length.symm).symm
  | cons b l ih =>
    cases m with
    | nil => cases length
    | cons c m =>
      obtain ⟨rfl,n,hn,rest⟩ := left
      obtain ⟨hc,n',hn',rest'⟩ := right
      obtain rfl := Option.some.inj hc
      obtain rfl := Option.some.inj (hn.symm.trans hn')
      rw [ih rest rest' (Nat.succ.inj length)]

/-- Every block of a chain has a link. -/
theorem Links.linked (chain : Links next h l e) (mem : b ∈ l) : ∃ n, next b = some n := by
  induction l generalizing h with
  | nil => simp at mem
  | cons c l ih =>
    obtain ⟨_,n,hn,rest⟩ := chain
    rcases List.mem_cons.mp mem with rfl | inside
    · exact ⟨n,hn⟩
    · exact ih rest inside

/-- Links that are kept, whatever else changes, spell the same chain. -/
theorem Links.mono (chain : Links next h l e)
    (keep : ∀ b ∈ l, ∀ n, next b = some n → next' b = some n) : Links next' h l e := by
  refine (links_congr fun b mem => ?_).mp chain
  obtain ⟨n,hn⟩ := chain.linked mem
  rw [hn,keep b mem n hn]

/-- A list cut behind its first `n + 1` members. -/
theorem split_at (l : List α) {n : Nat} (more : n + 1 < l.length) :
    ∃ front split head rest, l = front ++ [split] ++ head :: rest ∧ front.length = n := by
  have short : (l.take n).length = n := by
    rw [List.length_take]
    omega
  have whole := List.take_append_drop n l
  have left : (l.drop n).length = l.length - n := List.length_drop
  match h : l.drop n with
  | [] =>
    rw [h] at left
    simp at left
    omega
  | [split] =>
    rw [h] at left
    simp at left
    omega
  | split :: head :: rest =>
    rw [h] at whole
    exact ⟨l.take n,split,head,rest,by simp [whole],short⟩

section Update

variable [DecidableEq α]

theorem links_replace (v : Option (Option α)) (fresh : b ∉ l) :
    Links (replace next b v) h l e ↔ Links next h l e :=
  links_congr fun _ hc => replace_other fun same => fresh (same ▸ hc)

/-- Rewriting the last link moves the end of a chain. -/
theorem Links.retarget (v : Option α) (fresh : b ∉ l) (chain : Links next h (l ++ [b]) e) :
    Links (replace next b (some v)) h (l ++ [b]) v := by
  obtain ⟨x,front,back⟩ := links_append.mp chain
  refine links_append.mpr ⟨x,(links_replace _ fresh).mpr front,back.1,v,by simp,rfl⟩

/-- Pushing a block in front of a chain. -/
theorem Links.push (fresh : b ∉ l) (chain : Links next h l e) :
    Links (replace next b (some h)) (some b) (b :: l) e :=
  ⟨rfl,h,by simp,(links_replace _ fresh).mpr chain⟩

end Update

/-- Blocks met from `h` while they satisfy `own`, at most `fuel` of them. -/
def walk (own : α → Bool) (next : α → Option (Option α)) : Nat → Option α → List α
  | 0, _ => []
  | _ + 1, none => []
  | fuel + 1, some b => if own b then b :: walk own next fuel ((next b).getD none) else []

/-- A walk over owned blocks finds exactly the chain up to the first foreign block. -/
theorem walk_eq {own : α → Bool} (chain : Links next h l e) (owned : ∀ b ∈ l, own b = true)
    (stop : ∀ b, e = some b → own b = false) (fuel : Nat) (enough : l.length ≤ fuel) :
    walk own next fuel h = l := by
  induction l generalizing h fuel with
  | nil =>
    obtain rfl := links_nil.mp chain
    cases fuel with
    | zero => rfl
    | succ fuel =>
      cases h with
      | none => rfl
      | some b => simp [walk,stop b rfl]
  | cons b l ih =>
    obtain ⟨rfl,n,hn,rest⟩ := chain
    cases fuel with
    | zero => simp at enough
    | succ fuel =>
      have tail := ih rest (fun c hc => owned c (by simp [hc])) fuel (by simpa using enough)
      simp [walk,owned b (by simp),hn,tail]

end Concurrent
