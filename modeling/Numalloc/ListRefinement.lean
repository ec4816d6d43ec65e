import Numalloc.Concurrent.Links
import Numalloc.Concurrent.Solo
import Numalloc.FreeList

/-! The list of one thread is a pair of pure lists, the counted blocks and the spare ones,
kept in the links of the blocks: head, tail and count are what the counted list says. -/
namespace Numalloc.ThreadFreelist

open Concurrent

/-- The link of every block. -/
abbrev LinkMemory := Nat → Option Nat

def linkExec : (x : LinkOp) → LinkMemory → Option (x.Res × LinkMemory)
  | .readNext b, mem => some (mem b,mem)
  | .writeNext b next, mem => some ((),replace mem b next)
  | .panic, _ => none

/-- Following the links from `h` spells the list and arrives at `e`. -/
def Spells (mem : LinkMemory) (h : Option Nat) (l : List Nat) (e : Option Nat) : Prop :=
  Links (fun b => some (mem b)) h l e

/-- The operations. A chain is given by its first block and those after it. -/
inductive Call where
  | push (block : Nat)
  | pop
  | pushChain (first : Nat) (rest : List Nat)
  | drain (keep : Nat)
  | drainAll
  | takeSpare
  | setSpare (chain : List Nat)

inductive Answer where
  | done
  | block (b : Option Nat)
  | chain (ends : Option (Nat × Nat × Nat))

def Call.code (fl : ThreadFreelist) : Call → Prog linkI (Answer × ThreadFreelist)
  | .push block => do
    let fl ← fl.push block
    pure (.done,fl)
  | .pop => do
    let (block,fl) ← fl.pop
    pure (.block block,fl)
  | .pushChain first rest => do
    let fl ← fl.pushChain first (rest.getLastD first) (rest.length + 1)
    pure (.done,fl)
  | .drain keep => do
    let (chain,fl) ← fl.drain keep
    pure (.chain chain,fl)
  | .drainAll => do
    let (chain,fl) ← fl.drainAll
    pure (.chain chain,fl)
  | .takeSpare => pure (.block fl.takeSpare.1,fl.takeSpare.2)
  | .setSpare chain => pure (.done,fl.setSpare chain.head?)

/-- What the operations are about. -/
structure Lists where
  counted : List Nat
  spare : List Nat

def Call.apply : Call → Lists → Lists
  | .push block, s => { s with counted := block :: s.counted }
  | .pop, s => { s with counted := s.counted.tail }
  | .pushChain first rest, s => { s with counted := first :: rest ++ s.counted }
  | .drain keep, s => { s with counted := s.counted.take keep }
  | .drainAll, s => { s with counted := [] }
  | .takeSpare, s => { s with spare := [] }
  | .setSpare chain, s => { s with spare := chain }

/-- What the caller has to see to: nothing is handed over twice, a chain is linked, and a
spare chain is parked where there is none. -/
def Call.Admits (mem : LinkMemory) (s : Lists) : Call → Prop
  | .push block => block ∉ s.counted ++ s.spare
  | .pushChain first rest => (first :: rest ++ (s.counted ++ s.spare)).Nodup ∧
      ∃ e, Spells mem (some first) (first :: rest) e
  | .setSpare chain => s.spare = [] ∧ (s.counted ++ chain).Nodup ∧ Spells mem chain.head? chain none
  | _ => True

/-- A drained chain is what lies behind the kept blocks, with its ends and its length. -/
def Drained (mem : LinkMemory) (keep : Nat) (l : List Nat) : Answer → Prop
  | .chain none => l.length ≤ keep
  | .chain (some (head,tail,count)) => keep < l.length ∧ count = l.length - keep ∧
      Spells mem (some head) (l.drop keep) none ∧ (l.drop keep).getLast? = some tail
  | _ => False

def Call.Returns (mem : LinkMemory) (s : Lists) : Call → Answer → Prop
  | .pop, a => a = .block s.counted.head?
  | .drain keep, a => Drained mem keep s.counted a
  | .drainAll, a => Drained mem 0 s.counted a
  | .takeSpare, a => ∃ head, a = .block head ∧ Spells mem head s.spare none
  | _, a => a = .done

/-- The blocks whose link an operation may write. -/
def Call.writes (s : Lists) : Call → List Nat
  | .push block => [block]
  | .pushChain first rest => [rest.getLastD first]
  | .drain keep => (s.counted.take keep).getLast?.toList
  | _ => []

/-- The fields and the links are what the lists say. -/
structure Holds (mem : LinkMemory) (fl : ThreadFreelist) (s : Lists) : Prop where
  head : Spells mem fl.head s.counted none
  tail : fl.tail = s.counted.getLast?
  count : fl.count = s.counted.length
  spare : Spells mem fl.spare s.spare none
  distinct : (s.counted ++ s.spare).Nodup

/-- The call runs to its end, does to the lists what it should, and writes nothing else. -/
def Call.Works (mem : LinkMemory) (fl : ThreadFreelist) (s : Lists) (c : Call) : Prop :=
  ∃ a fl' mem', (c.code fl).straight linkExec mem = some ((a,fl'),mem') ∧
    Holds mem' fl' (c.apply s) ∧ c.Returns mem' s a ∧ ∀ b, b ∉ c.writes s → mem' b = mem b

/-- States reached by calls of one owner, while others may write the links of any block that
is not held. -/
inductive Reached : LinkMemory → ThreadFreelist → Lists → Prop where
  | new (mem : LinkMemory) : Reached mem .new ⟨[],[]⟩
  | other {mem : LinkMemory} {fl : ThreadFreelist} {s : Lists} (before : Reached mem fl s) {b : Nat}
      (next : Option Nat) (out : b ∉ s.counted ++ s.spare) : Reached (replace mem b next) fl s
  | call {mem mem' : LinkMemory} {fl fl' : ThreadFreelist} {s : Lists} (before : Reached mem fl s)
      {c : Call} {a : Answer} (admits : c.Admits mem s)
      (run : (c.code fl).straight linkExec mem = some ((a,fl'),mem')) : Reached mem' fl' (c.apply s)

variable {mem mem' : LinkMemory} {fl fl' : ThreadFreelist} {s : Lists} {b first : Nat}
  {l rest : List Nat} {h e next : Option Nat} {c : Call} {α : Type}

/-! Chains in memory. -/

theorem spells_congr (same : ∀ b ∈ l, mem' b = mem b) (chain : Spells mem h l e) :
    Spells mem' h l e :=
  (links_congr fun b inside => by rw [same b inside]).mp chain

theorem Spells.write (chain : Spells mem h l e) (next : Option Nat) (out : b ∉ l) :
    Spells (replace mem b next) h l e :=
  spells_congr (fun _ inside => replace_other fun same => out (same ▸ inside)) chain

theorem spells_append {m : List Nat} : Spells mem h (l ++ m) e ↔
    ∃ x, Spells mem h l x ∧ Spells mem x m e := links_append

/-- Writing the last link joins a chain to another one. -/
theorem Spells.join {front m : List Nat} (chain : Spells mem h (front ++ [b]) e)
    (back : Spells mem next m none) (distinct : (front ++ [b] ++ m).Nodup) :
    Spells (replace mem b next) h (front ++ [b] ++ m) none := by
  obtain ⟨x,left,middle⟩ := spells_append.mp chain
  obtain ⟨_,_,apart⟩ := List.nodup_append.mp distinct
  have fresh : b ∉ front := by
    have inner := (List.nodup_append.mp distinct).1
    exact fun mem => (List.nodup_append.mp inner).2.2 b mem b (by simp) rfl
  have out : b ∉ m := fun mem => apart b (by simp) b mem rfl
  refine spells_append.mpr ⟨next,spells_append.mpr ⟨x,left.write next fresh,?_⟩,back.write next out⟩
  exact ⟨middle.1,next,by simp,rfl⟩

namespace Holds

/-- A nonempty list shows in the head and in the count. -/
theorem cons (holds : Holds mem fl s) (at_ : s.counted = b :: rest) :
    fl.head = some b ∧ fl.count = rest.length + 1 ∧ Spells mem (mem b) rest none := by
  have head := holds.head
  have count := holds.count
  rw [at_] at head count
  obtain ⟨first,n,same,behind⟩ := head
  exact ⟨first,count,Option.some.inj same ▸ behind⟩

theorem nil (holds : Holds mem fl s) (empty : s.counted = []) :
    fl.head = none ∧ fl.tail = none ∧ fl.count = 0 := by
  have head := holds.head
  have tail := holds.tail
  have count := holds.count
  rw [empty] at head tail count
  exact ⟨head,tail,count⟩

theorem head_eq (holds : Holds mem fl s) : fl.head = s.counted.head? := Links.head holds.head

/-- The tail a list has once something stands in front of it. -/
theorem tail_eq (holds : Holds mem fl s) (last : Nat) :
    (if fl.head.isNone then some last else fl.tail) = some (s.counted.getLastD last) := by
  rw [holds.head_eq,holds.tail]
  cases at_ : s.counted with
  | nil => rfl
  | cons c rest => simp [List.getLast?_cons]

/-- Blocks in front of the list, linked to one another up to `last`. -/
theorem prepend {front : List Nat} {last : Nat} (holds : Holds mem fl s)
    (distinct : (front ++ [last] ++ (s.counted ++ s.spare)).Nodup)
    (chain : Spells mem (some first) (front ++ [last]) e) :
    Holds (replace mem last fl.head)
      { fl with
        head := some first
        tail := if fl.head.isNone then some last else fl.tail
        count := fl.count + (front.length + 1) }
      { s with counted := front ++ [last] ++ s.counted } := by
  have whole : (front ++ [last] ++ s.counted ++ s.spare).Nodup := by
    rw [List.append_assoc (front ++ [last])]
    exact distinct
  have joined := chain.join holds.head (List.nodup_append.mp whole).1
  have out : last ∉ s.spare := fun inside =>
    (List.nodup_append.mp whole).2.2 last (by simp) last inside rfl
  refine ⟨joined,?_,?_,holds.spare.write _ out,whole⟩
  · show (if fl.head.isNone then some last else fl.tail) = _
    rw [holds.tail_eq last,List.getLast?_append]
    cases s.counted with
    | nil => simp
    | cons c rest => simp [List.getLast?_cons]
  · show fl.count + (front.length + 1) = _
    rw [holds.count]
    simp only [List.length_append,List.length_singleton]
    omega

end Holds

/-! The operations, one by one. -/

theorem push_works (holds : Holds mem fl s) (fresh : b ∉ s.counted ++ s.spare) :
    (Call.push b).Works mem fl s := by
  have chain : Spells mem (some b) ([] ++ [b]) (mem b) := ⟨rfl,mem b,rfl,rfl⟩
  have distinct : ([] ++ [b] ++ (s.counted ++ s.spare)).Nodup :=
    List.nodup_cons.mpr ⟨fresh,holds.distinct⟩
  refine ⟨.done,_,_,rfl,holds.prepend distinct chain,rfl,fun c out => ?_⟩
  exact replace_other fun same => out (by simp [Call.writes,same])

theorem pushChain_works (holds : Holds mem fl s)
    (distinct : (first :: rest ++ (s.counted ++ s.spare)).Nodup)
    (chain : Spells mem (some first) (first :: rest) e) :
    (Call.pushChain first rest).Works mem fl s := by
  -- the chain, with its last block told apart
  obtain ⟨front,split⟩ : ∃ front, first :: rest = front ++ [rest.getLastD first] := by
    rw [← List.getLast_eq_getLastD (List.cons_ne_nil first rest)]
    exact ⟨_,(List.dropLast_concat_getLast (List.cons_ne_nil first rest)).symm⟩
  rw [split] at distinct chain
  have length : front.length = rest.length := by
    have := congrArg List.length split
    simpa using this.symm
  have kept := holds.prepend distinct chain
  rw [length,← split] at kept
  refine ⟨.done,_,_,rfl,kept,rfl,fun c out => ?_⟩
  exact replace_other fun same => out (by simp [Call.writes,same])

theorem pop_works (holds : Holds mem fl s) : Call.pop.Works mem fl s := by
  obtain ⟨counted,spare⟩ := s
  cases counted with
  | nil =>
    obtain ⟨head,_⟩ := holds.nil rfl
    refine ⟨.block none,fl,mem,?_,holds,rfl,fun _ _ => rfl⟩
    simp [Call.code,pop,head,Prog.straight]
  | cons b rest =>
    obtain ⟨head,count,behind⟩ := holds.cons rfl
    have tail := holds.tail
    refine ⟨.block (some b),{ fl with
      head := mem b
      tail := if (mem b).isNone then none else fl.tail
      count := fl.count - 1 },mem,?_,⟨behind,?_,?_,holds.spare,?_⟩,rfl,fun _ _ => rfl⟩
    · simp [Call.code,pop,head,Prog.straight,readNext,Prog.call,Prog.bind,linkExec]
    · show (if (mem b).isNone then none else fl.tail) = _
      rw [show mem b = rest.head? from Links.head behind,tail]
      cases rest with
      | nil => rfl
      | cons c rest => simp [Call.apply,List.getLast?_cons]
    · show fl.count - 1 = rest.length
      omega
    · exact (List.nodup_cons.mp holds.distinct).2

/-- An empty list is drained of nothing, any other as a whole. -/
theorem drainAll_straight (holds : Holds mem fl s) :
    ∃ ends, fl.drainAll.straight linkExec mem =
        some ((ends,{ fl with head := none, tail := none, count := 0 }),mem) ∧
      Drained mem 0 s.counted (.chain ends) := by
  obtain ⟨counted,spare⟩ := s
  cases counted with
  | nil =>
    obtain ⟨head,tail,count⟩ := holds.nil rfl
    refine ⟨none,?_,le_rfl⟩
    obtain ⟨_,_,_,_⟩ := fl
    simp only at head tail count
    subst head tail count
    rfl
  | cons b rest =>
    obtain ⟨head,count,_⟩ := holds.cons rfl
    have tail := holds.tail
    rw [List.getLast?_cons] at tail
    refine ⟨some (b,rest.getLast?.getD b,fl.count),?_,Nat.succ_pos _,holds.count,head ▸ holds.head,
      List.getLast?_cons⟩
    simp only [drainAll,count,head,tail]
    rfl

theorem drainAll_works (holds : Holds mem fl s) : Call.drainAll.Works mem fl s := by
  obtain ⟨ends,run,drained⟩ := drainAll_straight holds
  refine ⟨.chain ends,{ fl with head := none, tail := none, count := 0 },mem,?_,
    ⟨rfl,rfl,rfl,holds.spare,?_⟩,drained,fun _ _ => rfl⟩
  · simp only [Call.code,Prog.bind_eq,Prog.straight_bind run]
    rfl
  · exact (List.nodup_append.mp holds.distinct).2.1

/-- Following as many links as there are blocks in front leads to the block behind them. -/
theorem hop_straight {front back : List Nat} {split : Nat}
    (chain : Spells mem (some b) (front ++ split :: back) e) :
    (hop front.length b).straight linkExec mem = some (split,mem) := by
  induction front generalizing b with
  | nil =>
    obtain ⟨same,_⟩ := chain
    obtain rfl := Option.some.inj same
    rfl
  | cons c front ih =>
    obtain ⟨same,n,link,behind⟩ := chain
    obtain rfl := Option.some.inj same
    obtain rfl := Option.some.inj link
    have next : ∃ d, mem b = some d := by
      cases front with
      | nil => exact ⟨split,behind.1⟩
      | cons d front => exact ⟨d,behind.1⟩
    obtain ⟨d,next⟩ := next
    rw [next] at behind
    simp only [List.length_cons,hop,readNext,Prog.call,Prog.bind_eq,Prog.bind,Prog.straight,linkExec,
      next,Option.bind_some,unwrap]
    exact ih behind

theorem drain_works (keep : Nat) (holds : Holds mem fl s) :
    (Call.drain keep).Works mem fl s := by
  by_cases few : fl.count ≤ keep
  case pos =>
    have short : s.counted.length ≤ keep := holds.count ▸ few
    refine ⟨.chain none,fl,mem,?_,?_,short,fun _ _ => rfl⟩
    · simp [Call.code,drain,few,Prog.straight]
    · simpa [Call.apply,List.take_of_length_le short] using holds
  cases keep with
  | zero =>
    obtain ⟨ends,run,drained⟩ := drainAll_straight holds
    refine ⟨.chain ends,{ fl with head := none, tail := none, count := 0 },mem,?_,
      ⟨rfl,rfl,rfl,holds.spare,?_⟩,drained,fun _ _ => rfl⟩
    · simp only [Call.code,drain,if_neg few,if_pos,Prog.bind_eq,Prog.straight_bind run]
      rfl
    · exact (List.nodup_append.mp holds.distinct).2.1
  | succ kept =>
    obtain ⟨counted,spare⟩ := s
    have count : fl.count = counted.length := holds.count
    obtain ⟨front,split,head,back,rfl,rfl⟩ :=
      split_at counted (show kept + 1 < counted.length by omega)
    obtain ⟨x,left,right⟩ := spells_append.mp holds.head
    obtain rfl : x = some head := right.1
    have link : mem split = some head := by
      obtain ⟨_,_,_,n,same,ends⟩ := spells_append.mp left
      exact (Option.some.inj same).trans ends
    have first : ∃ b, fl.head = some b := by
      rw [holds.head_eq]
      cases front <;> exact ⟨_,rfl⟩
    obtain ⟨b,first⟩ := first
    have tail := holds.tail
    rw [List.getLast?_append,List.getLast?_cons,Option.some_or] at tail
    have walked : (hop front.length b).straight linkExec mem = some (split,mem) :=
      hop_straight (first ▸ left)
    have whole := (List.nodup_append.mp holds.distinct).1
    have out : split ∉ head :: back := fun inside =>
      (List.nodup_append.mp whole).2.2 split (by simp) split inside rfl
    have keeps : (front ++ [split] ++ head :: back).take (front.length + 1) = front ++ [split] :=
      List.take_left' (by simp)
    have drops : (front ++ [split] ++ head :: back).drop (front.length + 1) = head :: back :=
      List.drop_left' (by simp)
    refine ⟨.chain (some (head,back.getLast?.getD head,fl.count - (front.length + 1))),
      { fl with tail := some split, count := front.length + 1 },replace mem split none,?_,
      ⟨?_,?_,?_,?_,?_⟩,⟨?_,?_,?_,?_⟩,?_⟩
    · simp only [Call.code,drain,if_neg few,if_neg (Nat.succ_ne_zero _),first,tail,unwrap,
        Prog.bind_eq,Prog.bind_ret,Prog.bind_assoc,Nat.add_sub_cancel,Prog.straight_bind walked]
      simp only [readNext,writeNext,Prog.call,Prog.bind,Prog.straight,linkExec,link,
        Option.bind_some,Prog.pure_eq]
    · simp only [Call.apply,keeps]
      have kept := left.join (show Spells mem none [] none from rfl) (by
        simpa using (List.nodup_append.mp whole).1)
      simpa using kept
    · simp only [Call.apply,keeps]
      simp
    · simp only [Call.apply,keeps]
      simp
    · refine holds.spare.write none fun inside => ?_
      exact (List.nodup_append.mp holds.distinct).2.2 split (by simp) split inside rfl
    · simp only [Call.apply,keeps]
      refine List.Nodup.sublist ?_ holds.distinct
      exact List.Sublist.append_right (List.sublist_append_left _ _) spare
    · simp
    · simp only [count]
    · rw [drops]
      exact right.write none out
    · rw [drops,List.getLast?_cons]
    · intro c fresh
      refine replace_other fun same => fresh ?_
      simp only [Call.writes,keeps,same]
      simp

/-! Any run of calls. -/

/-- The underflow-free decrement of `pop`: a list that shows a block counts it. -/
theorem Holds.count_pos (holds : Holds mem fl s) (some_ : fl.head ≠ none) : 0 < fl.count := by
  rw [holds.count]
  rw [holds.head_eq] at some_
  cases at_ : s.counted with
  | nil => simp [at_] at some_
  | cons b rest => simp

/-- One admitted call. -/
theorem Holds.works (holds : Holds mem fl s) (admits : c.Admits mem s) : c.Works mem fl s := by
  cases c with
  | push block => exact push_works holds admits
  | pop => exact pop_works holds
  | pushChain first rest =>
    obtain ⟨distinct,_,chain⟩ := admits
    exact pushChain_works holds distinct chain
  | drain keep => exact drain_works keep holds
  | drainAll => exact drainAll_works holds
  | takeSpare =>
    refine ⟨.block fl.spare,{ fl with spare := none },mem,rfl,
      ⟨holds.head,holds.tail,holds.count,rfl,?_⟩,⟨fl.spare,rfl,holds.spare⟩,fun _ _ => rfl⟩
    simpa [Call.apply] using (List.nodup_append.mp holds.distinct).1
  | setSpare chain =>
    obtain ⟨_,distinct,linked⟩ := admits
    exact ⟨.done,{ fl with spare := chain.head? },mem,rfl,
      ⟨holds.head,holds.tail,holds.count,linked,distinct⟩,rfl,fun _ _ => rfl⟩

theorem Reached.holds (reached : Reached mem fl s) : Holds mem fl s := by
  induction reached with
  | new mem => exact ⟨rfl,rfl,rfl,rfl,List.nodup_nil⟩
  | other before next out ih =>
    refine ⟨ih.head.write next ?_,ih.tail,ih.count,ih.spare.write next ?_,ih.distinct⟩
    · exact fun inside => out (List.mem_append_left _ inside)
    · exact fun inside => out (List.mem_append_right _ inside)
  | call before admits run ih =>
    obtain ⟨_,_,_,ends,holds,_⟩ := ih.works admits
    obtain ⟨same,rfl⟩ := Prod.mk.inj (Option.some.inj (run.symm.trans ends))
    obtain ⟨_,rfl⟩ := Prod.mk.inj same
    exact holds

/-- After any sequence of calls the fields and the links are what the two lists say, and
the next call, whichever it is, runs to its end, answers from the lists, leaves what it
should, and writes no other link. -/
theorem freelist_refines (reached : Reached mem fl s) : Holds mem fl s ∧
    (fl.head ≠ none → 0 < fl.count) ∧ ∀ c : Call, c.Admits mem s → c.Works mem fl s :=
  ⟨reached.holds,reached.holds.count_pos,fun _ => reached.holds.works⟩

/-- Three blocks, all but the newest drained again. -/
theorem sample_freelist_refines : ∃ (mem : LinkMemory) (fl : ThreadFreelist),
    fl.head = some 24 ∧ fl.count = 1 ∧ mem 16 = some 8 ∧ Holds mem fl ⟨[24],[]⟩ ∧
    (Call.drain 0).Works mem fl ⟨[24],[]⟩ := by
  have none_ := Reached.new fun _ => none
  have one := none_.call (c := .push 8) (by simp [Call.Admits]) rfl
  have two := one.call (c := .push 16) (by simp [Call.Admits,Call.apply]) rfl
  have three := two.call (c := .push 24) (by simp [Call.Admits,Call.apply]) rfl
  have drained := three.call (c := .drain 1) trivial rfl
  obtain ⟨holds,_,works⟩ := freelist_refines drained
  exact ⟨_,_,rfl,rfl,rfl,holds,works (.drain 0) trivial⟩

end Numalloc.ThreadFreelist
