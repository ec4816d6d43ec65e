import Numalloc.Concurrent.Links
import Numalloc.Concurrent.Sessions
import Numalloc.FreeList

/-! The tagged-pointer stack, used by any number of threads, is an atomic stack of blocks:
a call takes effect with its successful compare-exchange, whatever the tags do. -/
namespace Numalloc

open Concurrent

namespace TreiberStack

/-- The head word and the link of every block. `owner` is the thread that owns a block
exclusively, none for the blocks of the stack; `pending` is what a thread is pushing. -/
structure Memory where
  head : Nat
  next : Nat → Option Nat
  owner : Nat → Option Nat
  pending : Nat → List Nat

def Memory.link (s : Memory) (b : Nat) : Option (Option Nat) := some (s.next b)

/-- What clients do: the operations of the stack, and whatever they like with the blocks they
own. `blocks` is the chain from `first` to `last`. -/
inductive Request where
  | push (block : Nat)
  | pushChain (first last : Nat) (blocks : List Nat)
  | takeAll
  | write (block : Nat) (next : Option Nat)
  | pass (block heir : Nat)

inductive Answer where
  | done
  | taken (head : Option Nat)
  deriving DecidableEq

/-- A block address the packed word has room for, owned by the thread. -/
def Memory.Owned (s : Memory) (t b : Nat) : Prop := s.owner b = some t ∧ 0 < b ∧ b < 2 ^ 48

instance (s : Memory) (t b : Nat) : Decidable (s.Owned t b) := inferInstanceAs (Decidable (_ ∧ _))

def enter (t : Nat) : Request → Memory → Option Memory
  | .push block, s =>
    if s.Owned t block then some { s with pending := replace s.pending t [block] } else none
  | .pushChain first last blocks, s =>
    if blocks.Nodup ∧ blocks.getLast? = some last ∧ (∀ b ∈ blocks, s.Owned t b) ∧
        Links s.link (some first) blocks (s.next last) then
      some { s with pending := replace s.pending t blocks }
    else none
  | .takeAll, s => some s
  | .write block next, s =>
    if s.owner block = some t then some { s with next := replace s.next block next } else none
  | .pass block heir, s =>
    if s.owner block = some t then some { s with owner := replace s.owner block (some heir) } else none

/-- One action of thread `t`. A detached stack belongs to the thread that detached it. -/
def exec (t : Nat) : (x : Op) → Bool → Memory → Option (x.Res × Memory)
  | .load, _, s => some (s.head,s)
  | .compareExchangeWeak current new, spurious, s =>
    if spurious = false ∧ s.head = current then
      match (unpack new).1 with
      | none => some (true, { s with
          head := new
          owner := fun b => if s.owner b = none then some t else s.owner b })
      | some _ => some (true, { s with
          head := new
          owner := fun b => if b ∈ s.pending t then none else s.owner b })
    else some (false,s)
  | .writeNext block next, _, s => some ((), { s with next := replace s.next block next })

def Request.code : Request → Prog stackI Answer
  | .push block => do
    TreiberStack.push block
    pure .done
  | .pushChain first last _ => do
    TreiberStack.pushChain first last
    pure .done
  | .takeAll => do
    let head ← TreiberStack.takeAll
    pure (.taken head)
  | .write _ _ | .pass _ _ => pure .done

@[reducible] def stackObject : Object stackI where
  State := Memory
  Choice := Bool
  exec := exec
  Request := Request
  Answer := Answer
  code := Request.code
  enter := enter

/-- Following the links from the packed head spells the list. -/
def Memory.Spells (s : Memory) (l : List Nat) : Prop := Links s.link (unpack s.head).1 l none

/-- The atomic stack: what a call makes of it, and what it answers. -/
def Takes : Request → Answer → List Nat → List Nat → Prop
  | .push block, .done, l, l' => l' = block :: l
  | .pushChain _ _ blocks, .done, l, l' => l' = blocks ++ l
  | .takeAll, .taken head, l, l' => head = l.head? ∧ l' = []
  | .write _ _, .done, l, l' => l' = l
  | .pass _ _, .done, l, l' => l' = l
  | _, _, _, _ => False

/-! Where a call can be. -/

/-- The pushes differ in their chain only. -/
inductive Request.Pushes : Request → Nat → Nat → List Nat → Prop where
  | push {block : Nat} : Pushes (.push block) block block [block]
  | pushChain {first last : Nat} {blocks : List Nat} :
      Pushes (.pushChain first last blocks) first last blocks

def pushLoop (first last : Nat) : Prog stackI Answer :=
  .loop (fun _ => publish first last) () fun _ => .ret .done

/-- At the compare-exchange of a push that has loaded `current`. -/
def AtPush (first last current : Nat) (p : Prog stackI Answer) : Prop :=
  ∃ k, p = .act (I := stackI)
      (.compareExchangeWeak current (pack (some first) (nextTag (unpack current).2))) k ∧
    k true = .ret .done ∧ k false = pushLoop first last

/-- About to link the chain in front of the loaded head. -/
def AtWrite (first last current : Nat) (p : Prog stackI Answer) : Prop :=
  ∃ k, p = .act (I := stackI) (.writeNext last (unpack current).1) k ∧
    AtPush first last current (k ())

def AtPushLoad (first last : Nat) (p : Prog stackI Answer) : Prop :=
  ∃ k, p = .act (I := stackI) .load k ∧ ∀ current, AtWrite first last current (k current)

theorem pushLoop_unrolls {first last : Nat} :
    AtPushLoad first last
      (.unroll (fun _ => publish first last) () fun _ => .ret .done) :=
  ⟨_,rfl,fun _ => ⟨_,rfl,_,rfl,rfl,rfl⟩⟩

def AtTake (current head : Nat) (p : Prog stackI Answer) : Prop :=
  ∃ k, p = .act (I := stackI) (.compareExchangeWeak current (pack none (nextTag (unpack current).2))) k ∧
    k true = .ret (.taken (some head)) ∧ k false = Request.takeAll.code

def AtTakeLoad (p : Prog stackI Answer) : Prop :=
  ∃ k, p = .act (I := stackI) .load k ∧ ∀ current,
    ((unpack current).1 = none → k current = .ret (.taken none)) ∧
    ∀ head, (unpack current).1 = some head → AtTake current head (k current)

theorem takeAll_unrolls : ∃ body, Request.takeAll.code =
    .loop body () (fun head : Option Nat => .ret (.taken head)) ∧
    AtTakeLoad (.unroll body () fun head => .ret (.taken head)) := by
  refine ⟨_,rfl,_,rfl,fun current => ⟨fun none_ => ?_,fun head some_ => ?_⟩⟩
  · simp only [Prog.bind_ret,none_]
    rfl
  · simp only [Prog.bind_ret,some_]
    exact ⟨_,rfl,rfl,rfl⟩

/-! The invariant. -/

/-- A push in progress: its chain is whole and its thread's own. -/
structure Pushing (s : Memory) (t first last : Nat) (blocks : List Nat)
    (rest : Prog stackI Answer) : Prop where
  pending : s.pending t = blocks
  nodup : blocks.Nodup
  ends : blocks.getLast? = some last
  own : ∀ b ∈ blocks, s.Owned t b
  chain : Links s.link (some first) blocks (s.next last)
  stage : rest = pushLoop first last ∨ AtPushLoad first last rest ∨
    (∃ current, AtWrite first last current rest) ∨
    ∃ current, AtPush first last current rest ∧ s.next last = (unpack current).1

def Taking (rest : Prog stackI Answer) : Prop :=
  rest = Request.takeAll.code ∨ AtTakeLoad rest ∨
    ∃ current head, (unpack current).1 = some head ∧ AtTake current head rest

def CallOk (s : Memory) (t : Nat) (run : Running stackObject) : Prop :=
  (∃ first last blocks, Request.Pushes run.request first last blocks ∧
    Pushing s t first last blocks run.rest) ∨
  (run.request = Request.takeAll ∧ Taking run.rest)

/-- The stack holds the blocks of the list: they are chained, and nobody owns them. -/
structure Holds (s : Memory) (l : List Nat) : Prop where
  spells : s.Spells l
  nodup : l.Nodup
  mem : ∀ b, b ∈ l ↔ s.owner b = none

structure StackOk (c : Session stackObject) (l : List Nat) : Prop where
  calls : ∀ {t run}, c.calls t = some run → CallOk c.state t run
  holds : Holds c.state l

variable {s s' : Memory} {t u first last current head : Nat} {blocks l l' : List Nat}
  {rest : Prog stackI Answer} {run : Running stackObject} {c c' : Session stackObject}
  {event : Event stackObject}

/-- What a thread owns is out of reach of the others. -/
def Keeps (u : Nat) (s s' : Memory) : Prop := s'.pending u = s.pending u ∧
  ∀ b, s.owner b = some u → s'.owner b = some u ∧ s'.next b = s.next b

theorem Pushing.mem_last (pushing : Pushing s t first last blocks rest) : last ∈ blocks :=
  List.mem_of_getLast? pushing.ends

theorem Pushing.keep (pushing : Pushing s t first last blocks rest) (keeps : Keeps t s s') :
    Pushing s' t first last blocks rest where
  pending := keeps.1.trans pushing.pending
  nodup := pushing.nodup
  ends := pushing.ends
  own b mem := ⟨(keeps.2 b (pushing.own b mem).1).1,(pushing.own b mem).2⟩
  chain := by
    rw [(keeps.2 last (pushing.own last pushing.mem_last).1).2]
    refine (links_congr fun b mem => ?_).mp pushing.chain
    simp only [Memory.link,(keeps.2 b (pushing.own b mem).1).2]
  stage := by
    rw [(keeps.2 last (pushing.own last pushing.mem_last).1).2]
    exact pushing.stage

theorem CallOk.keep (ok : CallOk s t run) (keeps : Keeps t s s') : CallOk s' t run := by
  rcases ok with ⟨first,last,blocks,pushes,pushing⟩ | taking
  · exact Or.inl ⟨first,last,blocks,pushes,pushing.keep keeps⟩
  · exact Or.inr taking

/-- The stack keeps its blocks while nobody touches them. -/
theorem Holds.keep (holds : Holds s l) (head : s'.head = s.head)
    (owner : ∀ b, s'.owner b = none ↔ s.owner b = none)
    (next : ∀ b, s.owner b = none → s'.next b = s.next b) : Holds s' l where
  spells := by
    unfold Memory.Spells
    rw [head]
    refine (links_congr fun b mem => ?_).mp holds.spells
    simp only [Memory.link,next b ((holds.mem b).mp mem)]
  nodup := holds.nodup
  mem b := (holds.mem b).trans (owner b).symm

/-- The calls of the other threads go on when a call of thread `t` does, or returns. -/
theorem StackOk.busy (ok : StackOk c l) (holds : Holds s' l')
    (keeps : ∀ u, u ≠ t → Keeps u c.state s') (mine : CallOk s' t run) :
    StackOk ⟨s',replace c.calls t (some run),c.log⟩ l' where
  calls {u run'} at_ := by
    by_cases same : u = t
    · subst same
      obtain rfl : run = run' := by simpa using at_
      exact mine
    · exact (ok.calls (by simpa [replace_other same] using at_)).keep (keeps u same)
  holds := holds

theorem StackOk.done (ok : StackOk c l) (holds : Holds s' l')
    (keeps : ∀ u, u ≠ t → Keeps u c.state s') (log : List (Returned stackObject)) :
    StackOk ⟨s',replace c.calls t none,log⟩ l' where
  calls {u run'} at_ := by
    by_cases same : u = t
    · subst same
      simp at at_
    · exact (ok.calls (by simpa [replace_other same] using at_)).keep (keeps u same)
  holds := holds

/-- Writing the link of a block of its own, a thread disturbs nobody. -/
theorem write_keeps (own : s.owner current = some t) (next : Option Nat) (other : u ≠ t) :
    Keeps u s { s with next := replace s.next current next } := by
  refine ⟨rfl,fun b mine => ⟨mine,replace_other ?_⟩⟩
  rintro rfl
  exact other (Option.some.inj (mine.symm.trans own))

theorem Holds.write (holds : Holds s l) (own : s.owner current = some t) (next : Option Nat) :
    Holds { s with next := replace s.next current next } l := by
  refine holds.keep rfl (fun _ => Iff.rfl) fun b free => replace_other ?_
  rintro rfl
  simp [own] at free

theorem pass_keeps (own : s.owner current = some t) (heir : Nat) (other : u ≠ t) :
    Keeps u s { s with owner := replace s.owner current (some heir) } := by
  refine ⟨rfl,fun b mine => ⟨(replace_other ?_).trans mine,rfl⟩⟩
  rintro rfl
  exact other (Option.some.inj (mine.symm.trans own))

theorem Holds.pass (holds : Holds s l) (own : s.owner current = some t) (heir : Nat) :
    Holds { s with owner := replace s.owner current (some heir) } l := by
  refine holds.keep rfl (fun b => ?_) fun _ _ => rfl
  by_cases same : b = current
  · subst same
    simp [own]
  · simp [replace_other same]

/-- The link write of a push readies its chain for publication. -/
theorem Pushing.write (pushing : Pushing s t first last blocks rest) {rest' : Prog stackI Answer}
    (at_ : AtPush first last current rest') :
    Pushing { s with next := replace s.next last (unpack current).1 } t first last blocks rest' := by
  obtain ⟨front,rfl⟩ : ∃ front, blocks = front ++ [last] := by
    have last := pushing.ends
    rw [List.getLast?_eq_some_iff] at last
    exact last
  have link : ({ s with next := replace s.next last (unpack current).1 } : Memory).link =
      replace s.link last (some (unpack current).1) := by
    funext b
    by_cases same : b = last <;> simp [Memory.link,replace,same]
  have fresh : last ∉ front := fun mem =>
    (List.nodup_append.mp pushing.nodup).2.2 _ mem _ (List.mem_singleton_self _) rfl
  refine ⟨pushing.pending,pushing.nodup,pushing.ends,pushing.own,?_,
    Or.inr (Or.inr (Or.inr ⟨current,at_,replace_same⟩))⟩
  rw [link]
  simpa using pushing.chain.retarget (unpack current).1 fresh

/-- A successful compare-exchange of a push puts its chain on top. -/
theorem Pushing.publish (pushing : Pushing s t first last blocks rest) (holds : Holds s l)
    (linked : s.next last = (unpack s.head).1) {new : Nat} (packed : (unpack new).1 = some first) :
    Holds { s with head := new, owner := fun b => if b ∈ s.pending t then none else s.owner b }
      (blocks ++ l) where
  spells := by
    unfold Memory.Spells
    rw [packed]
    exact links_append.mpr ⟨_,pushing.chain,linked ▸ holds.spells⟩
  nodup := by
    refine List.nodup_append.mpr ⟨pushing.nodup,holds.nodup,fun b mine b' theirs same => ?_⟩
    subst same
    have free := (holds.mem b).mp theirs
    simp [(pushing.own b mine).1] at free
  mem b := by
    simp only [List.mem_append,pushing.pending,holds.mem]
    by_cases mine : b ∈ blocks <;> simp [mine]

theorem Pushing.publish_keeps (pushing : Pushing s t first last blocks rest) (new : Nat)
    (other : u ≠ t) :
    Keeps u s { s with
      head := new, owner := fun b => if b ∈ s.pending t then none else s.owner b } := by
  refine ⟨rfl,fun b mine => ⟨?_,rfl⟩⟩
  dsimp only
  rw [if_neg,mine]
  intro mem
  rw [pushing.pending] at mem
  exact other (Option.some.inj (mine.symm.trans (pushing.own b mem).1))

theorem detached_holds {new : Nat} (none_ : (unpack new).1 = none) (t : Nat) :
    Holds { s with head := new, owner := fun b => if s.owner b = none then some t else s.owner b }
      [] where
  spells := none_
  nodup := List.nodup_nil
  mem b := by
    dsimp only
    by_cases free : s.owner b = none <;> simp [free]

/-- The event is a compare-exchange of thread `t` that succeeds. -/
def Swaps (t : Nat) (c : Session stackObject) (event : Event stackObject) : Prop :=
  ∃ run current new k, event = .step t false ∧ c.calls t = some run ∧
    run.rest = .act (I := stackI) (.compareExchangeWeak current new) k ∧ c.state.head = current

/-- The step a call takes effect with: its successful compare-exchange; the load, where
`take_all` finds nothing; and what clients do with their own blocks is one step. -/
def AtEffect (c : Session stackObject) (event : Event stackObject) (t : Nat) :
    Request → Answer → Prop
  | .takeAll, .taken none => ∃ run k choice, event = .step t choice ∧ c.calls t = some run ∧
      run.rest = .act (I := stackI) .load k
  | .write block next, _ => event = .call t (Request.write block next)
  | .pass block heir, _ => event = .call t (Request.pass block heir)
  | _, _ => Swaps t c event

/-- A detached chain is the thread's own, with the links it had. -/
def Delivered (s : Memory) (t : Nat) (l : List Nat) : Answer → Prop
  | .taken head => Links s.link head l none ∧ ∀ b ∈ l, s.owner b = some t
  | .done => True

/-- One event: nothing happens to the stack, or a call takes effect and returns. -/
inductive Outcome (c : Session stackObject) (event : Event stackObject) (l : List Nat)
    (c' : Session stackObject) : List Nat → Prop where
  | quiet (log : c'.log = c.log) (still : ∀ t, ¬Swaps t c event) : Outcome c event l c' l
  | effect {l' : List Nat} (t since : Nat) (request : Request) (answer : Answer)
      (log : c'.log = c.log ++ [⟨t,request,since,answer⟩]) (takes : Takes request answer l l')
      (delivered : Delivered c'.state t l answer) (at_ : AtEffect c event t request answer) :
      Outcome c event l c' l'

theorem StackOk.call {request : Request} (ok : StackOk c l)
    (step : c.advance (.call t request) = some c') :
    ∃ l', StackOk c' l' ∧ Outcome c (.call t request) l c' l' := by
  simp only [Session.advance] at step
  split at step
  case h_2 => cases step
  case h_1 rest =>
  obtain ⟨s',entered,rfl⟩ := Option.map_eq_some_iff.mp step
  have still : ∀ u, ¬Swaps u c (.call t request) := by
    rintro u ⟨_,_,_,_,event,_⟩
    cases event
  cases request with
  | takeAll =>
    obtain rfl := Option.some.inj entered
    exact ⟨l,ok.busy ok.holds (fun u _ => ⟨rfl,fun b mine => ⟨mine,rfl⟩⟩) (Or.inr ⟨rfl,Or.inl rfl⟩),
      .quiet rfl still⟩
  | push block =>
    simp only [enter,Option.ite_none_right_eq_some,Option.some.injEq] at entered
    obtain ⟨owned,rfl⟩ := entered
    refine ⟨l,ok.busy (ok.holds.keep rfl (fun _ => Iff.rfl) fun _ _ => rfl)
      (fun u other => ⟨replace_other other,fun b mine => ⟨mine,rfl⟩⟩)
      (Or.inl ⟨block,block,[block],.push,replace_same,List.nodup_singleton _,rfl,?_,
        ⟨rfl,_,rfl,rfl⟩,Or.inl rfl⟩),.quiet rfl still⟩
    intro b mem
    obtain rfl := List.mem_singleton.mp mem
    exact owned
  | pushChain first last blocks =>
    simp only [enter,Option.ite_none_right_eq_some,Option.some.injEq] at entered
    obtain ⟨⟨nodup,ends,owned,chain⟩,rfl⟩ := entered
    exact ⟨l,ok.busy (ok.holds.keep rfl (fun _ => Iff.rfl) fun _ _ => rfl)
      (fun u other => ⟨replace_other other,fun b mine => ⟨mine,rfl⟩⟩)
      (Or.inl ⟨first,last,blocks,.pushChain,replace_same,nodup,ends,owned,chain,Or.inl rfl⟩),
      .quiet rfl still⟩
  | write block next =>
    simp only [enter,Option.ite_none_right_eq_some,Option.some.injEq] at entered
    obtain ⟨own,rfl⟩ := entered
    exact ⟨l,ok.done (ok.holds.write own next) (fun u other => write_keeps own next other) _,
      .effect t _ _ _ rfl rfl trivial rfl⟩
  | pass block heir =>
    simp only [enter,Option.ite_none_right_eq_some,Option.some.injEq] at entered
    obtain ⟨own,rfl⟩ := entered
    exact ⟨l,ok.done (ok.holds.pass own heir) (fun u other => pass_keeps own heir other) _,
      .effect t _ _ _ rfl rfl trivial rfl⟩

/-- A silent step, a load, a link write or a failed compare-exchange of a call. -/
theorem StackOk.goes_on {request : Request} {since : Nat} {rest' : Prog stackI Answer} (ok : StackOk c l)
    (holds : Holds s' l) (keeps : ∀ u, u ≠ t → Keeps u c.state s')
    (mine : CallOk s' t ⟨request,since,rest'⟩) (busy : ∀ a, rest' ≠ .ret a)
    (still : ∀ u, ¬Swaps u c event) :
    ∃ l', StackOk (c.settle t ⟨request,since,rest'⟩ s') l' ∧
      Outcome c event l (c.settle t ⟨request,since,rest'⟩ s') l' := by
  rw [Session.settle_busy busy]
  exact ⟨l,ok.busy holds keeps mine,.quiet rfl still⟩

theorem not_swaps {choice : Bool} (at_ : c.calls t = some run)
    (other : ∀ current new k, run.rest = .act (I := stackI) (.compareExchangeWeak current new) k →
      ¬(choice = false ∧ c.state.head = current)) : ∀ u, ¬Swaps u c (.step t choice) := by
  rintro u ⟨run',current,new,k,event,at',rest,same⟩
  obtain ⟨rfl,rfl⟩ : t = u ∧ choice = false := by simpa using event
  obtain rfl := Option.some.inj (at_.symm.trans at')
  exact other current new k rest ⟨rfl,same⟩

theorem keeps_refl : ∀ u, u ≠ t → Keeps u s s := fun _ _ => ⟨rfl,fun _ mine => ⟨mine,rfl⟩⟩

theorem Pushing.first_fits (pushing : Pushing s t first last blocks rest) :
    0 < first ∧ first < 2 ^ 48 := by
  cases h : blocks with
  | nil => simpa [h] using pushing.ends
  | cons b more =>
    have chain := pushing.chain
    rw [h] at chain
    obtain rfl := Option.some.inj chain.head_cons
    exact (pushing.own first (h ▸ List.mem_cons_self)).2

theorem pushes_takes {request : Request} (pushes : request.Pushes first last blocks) :
    Takes request .done l (blocks ++ l) ∧ AtEffect c event t request .done = Swaps t c event := by
  cases pushes <;> exact ⟨rfl,rfl⟩

theorem StackOk.push_step {request : Request} {since : Nat} {choice : Bool} (ok : StackOk c l)
    (at_ : c.calls t = some ⟨request,since,rest⟩) (pushes : request.Pushes first last blocks)
    (pushing : Pushing c.state t first last blocks rest)
    (step : c.advance (.step t choice) = some c') :
    ∃ l', StackOk c' l' ∧ Outcome c (.step t choice) l c' l' := by
  simp only [Session.advance,at_] at step
  have goes_on : ∀ {rest'}, Pushing c.state t first last blocks rest' →
      CallOk c.state t ⟨request,since,rest'⟩ := fun p => Or.inl ⟨first,last,blocks,pushes,p⟩
  rcases pushing.stage with rfl | ⟨k,rfl,next⟩ | ⟨current,k,rfl,next⟩ |
    ⟨current,⟨k,rfl,won,lost⟩,linked⟩
  · obtain rfl := Option.some.inj step
    refine ok.goes_on ok.holds keeps_refl
      (goes_on { pushing with stage := Or.inr (Or.inl pushLoop_unrolls) }) ?_ (not_swaps at_ ?_)
    · obtain ⟨_,act,_⟩ : AtPushLoad first last _ := pushLoop_unrolls
      simp [act]
    · rintro _ _ _ rest
      cases rest
  · obtain rfl := Option.some.inj step
    refine ok.goes_on ok.holds keeps_refl
      (goes_on { pushing with stage := Or.inr (Or.inr (Or.inl ⟨_,next _⟩)) }) ?_ (not_swaps at_ ?_)
    · obtain ⟨_,act,_⟩ := next c.state.head
      simp [act]
    · rintro _ _ _ rest
      cases rest
  · obtain rfl := Option.some.inj step
    have own := (pushing.own last pushing.mem_last).1
    refine ok.goes_on (ok.holds.write own _) (fun u other => write_keeps own _ other)
      (Or.inl ⟨first,last,blocks,pushes,pushing.write next⟩) ?_ (not_swaps at_ ?_)
    · obtain ⟨_,act,_⟩ := next
      simp [act]
    · rintro _ _ _ rest
      cases rest
  · obtain ⟨pos,bound⟩ := pushing.first_fits
    have packed := unpack_pack_some (nextTag (unpack current).2) pos bound
    simp only [exec,packed] at step
    split at step
    case isTrue swaps =>
      obtain ⟨rfl,rfl⟩ := swaps
      obtain rfl := Option.some.inj step
      dsimp only
      rw [won]
      obtain ⟨takes,effect⟩ : Takes request .done l (blocks ++ l) ∧
          AtEffect c (.step t false) t request .done = Swaps t c (.step t false) := pushes_takes pushes
      refine ⟨_,ok.done (pushing.publish ok.holds linked packed)
        (fun u other => pushing.publish_keeps _ other) _,
        .effect t since request .done rfl takes trivial (effect ▸ ?_)⟩
      exact ⟨_,_,_,_,rfl,at_,rfl,rfl⟩
    case isFalse fails =>
      obtain rfl := Option.some.inj step
      dsimp only
      rw [lost]
      refine ok.goes_on ok.holds keeps_refl (goes_on { pushing with stage := Or.inl rfl })
        (by simp [pushLoop]) (not_swaps at_ ?_)
      rintro _ _ _ rest
      obtain ⟨⟨rfl,_⟩,_⟩ := by simpa using rest
      exact fails

theorem StackOk.take_step {since : Nat} {choice : Bool} (ok : StackOk c l)
    (at_ : c.calls t = some ⟨Request.takeAll,since,rest⟩) (taking : Taking rest)
    (step : c.advance (.step t choice) = some c') :
    ∃ l', StackOk c' l' ∧ Outcome c (.step t choice) l c' l' := by
  simp only [Session.advance,at_] at step
  rcases taking with rfl | ⟨k,rfl,next⟩ | ⟨current,head,loaded,k,rfl,won,lost⟩
  · obtain ⟨body,eq,load⟩ := takeAll_unrolls
    rw [eq] at step at_
    obtain rfl := Option.some.inj step
    refine ok.goes_on ok.holds keeps_refl (Or.inr ⟨rfl,Or.inr (Or.inl load)⟩) ?_
      (not_swaps at_ ?_)
    · obtain ⟨_,act,_⟩ := load
      simp [act]
    · rintro _ _ _ rest
      cases rest
  · obtain rfl := Option.some.inj step
    have still : ∀ u, ¬Swaps u c (.step t choice) := by
      refine not_swaps at_ ?_
      rintro _ _ _ rest
      cases rest
    dsimp only
    cases loaded : (unpack c.state.head).1 with
    | none =>
      obtain rfl : l = [] := by
        have spells := ok.holds.spells
        unfold Memory.Spells at spells
        rw [loaded] at spells
        cases l with
        | nil => rfl
        | cons b l => simp [links_cons] at spells
      rw [(next _).1 loaded]
      exact ⟨[],ok.done ok.holds keeps_refl _,.effect t since .takeAll (.taken none) rfl ⟨rfl,rfl⟩
        ⟨rfl,fun _ mem => absurd mem List.not_mem_nil⟩ ⟨_,_,_,rfl,at_,rfl⟩⟩
    | some head =>
      have take := (next _).2 head loaded
      refine ok.goes_on ok.holds keeps_refl
        (Or.inr ⟨rfl,Or.inr (Or.inr ⟨_,head,loaded,take⟩)⟩) ?_ still
      obtain ⟨_,act,_⟩ := take
      simp [act]
  · have cleared := unpack_pack_none (nextTag (unpack current).2)
    simp only [exec,cleared] at step
    split at step
    case isTrue swaps =>
      obtain ⟨rfl,rfl⟩ := swaps
      obtain rfl := Option.some.inj step
      have spells := ok.holds.spells
      unfold Memory.Spells at spells
      rw [loaded] at spells
      dsimp only
      rw [won]
      refine ⟨_,ok.done (detached_holds cleared t) (fun u other => ⟨rfl,fun b mine => ⟨?_,rfl⟩⟩) _,
        .effect t since .takeAll (.taken (some head)) rfl ⟨spells.head,rfl⟩
        ⟨spells,fun b mem => ?_⟩ ⟨_,_,_,_,rfl,at_,rfl,rfl⟩⟩
      · simp [mine]
      · simp [Session.settle,(ok.holds.mem b).mp mem]
    case isFalse fails =>
      obtain rfl := Option.some.inj step
      dsimp only
      rw [lost]
      refine ok.goes_on ok.holds keeps_refl (Or.inr ⟨rfl,Or.inl rfl⟩) ?_ (not_swaps at_ ?_)
      · obtain ⟨_,eq,_⟩ := takeAll_unrolls
        simp [eq]
      · rintro _ _ _ rest
        obtain ⟨⟨rfl,_⟩,_⟩ := by simpa using rest
        exact fails

theorem StackOk.step (ok : StackOk c l) (step : c.advance event = some c') :
    ∃ l', StackOk c' l' ∧ Outcome c event l c' l' := by
  cases event with
  | call t request => exact ok.call step
  | step t choice =>
    cases at_ : c.calls t with
    | none => simp [Session.advance,at_] at step
    | some run =>
      obtain ⟨request,since,rest⟩ := run
      rcases ok.calls at_ with ⟨first,last,blocks,pushes,pushing⟩ | ⟨rfl,taking⟩
      · exact ok.push_step at_ pushes pushing step
      · exact ok.take_step at_ taking step

/-- The calls in the order they returned, played on the atomic stack. -/
def Plays : List (Returned stackObject) → List Nat → List Nat → Prop
  | [], l, l' => l = l'
  | r :: log, l, l' => ∃ m, Takes r.request r.answer l m ∧ Plays log m l'

theorem Plays.snoc {log : List (Returned stackObject)} {r : Returned stackObject} {m : List Nat}
    (plays : Plays log l m) (takes : Takes r.request r.answer m l') : Plays (log ++ [r]) l l' := by
  induction log generalizing l with
  | nil => exact ⟨l',(show l = m from plays) ▸ takes,rfl⟩
  | cons first log ih =>
    obtain ⟨next,here,rest⟩ := plays
    exact ⟨next,here,ih rest⟩

theorem fresh_ok {memory : Memory} (empty : (unpack memory.head).1 = none)
    (owned : ∀ b, memory.owner b ≠ none) : StackOk (.fresh memory) [] where
  calls at_ := by simp [Session.fresh] at at_
  holds := ⟨empty,List.nodup_nil,fun b => by simp [Session.fresh,owned b]⟩

/-- From an empty stack, whose blocks all have owners: the chain from the packed head always
spells the list the returned calls make of it, and a call returns with its effect. -/
theorem stack_refines {memory : Memory} (empty : (unpack memory.head).1 = none)
    (owned : ∀ b, memory.owner b ≠ none) {events : List (Event stackObject)}
    (run : (Session.fresh memory : Session stackObject).execute events = some c) :
    ∃ l, c.state.Spells l ∧ Plays c.log [] l ∧ ∀ event c', c.advance event = some c' →
      ∃ l', c'.state.Spells l' ∧ Outcome c event l c' l' := by
  obtain ⟨l,ok,plays⟩ := Session.execute_keeps (fun c => ∃ l, StackOk c l ∧ Plays c.log [] l)
    (fun {c event c'} before step => by
      obtain ⟨l,ok,plays⟩ := before
      obtain ⟨l',ok',outcome⟩ := ok.step step
      refine ⟨l',ok',?_⟩
      cases outcome with
      | quiet log _ => exact log ▸ plays
      | effect _ _ _ _ log takes _ _ => exact log ▸ plays.snoc takes)
    ⟨[],fresh_ok empty owned,rfl⟩ run
  refine ⟨l,ok.holds.spells,plays,fun event c' step => ?_⟩
  obtain ⟨l',ok',outcome⟩ := ok.step step
  exact ⟨l',ok'.holds.spells,outcome⟩

/-- Thread 1 pushes a block, with one spurious failure, and thread 2 detaches it. -/
theorem sample_stack_refines : ∃ c : Session stackObject,
    c.log.map Returned.answer = [.done,.taken (some 4096)] ∧
    ∃ l, c.state.Spells l ∧ Plays c.log [] l ∧ ∀ event c', c.advance event = some c' →
      ∃ l', c'.state.Spells l' ∧ Outcome c event l c' l' := by
  have ends : ((Session.fresh ⟨0,fun _ => none,fun _ => some 1,fun _ => []⟩ :
      Session stackObject).execute
      [.call 1 (.push 4096),.step 1 false,.step 1 false,.step 1 false,.step 1 true,.step 1 false,
        .step 1 false,.step 1 false,.step 1 false,.call 2 .takeAll,.step 2 false,.step 2 false,
        .step 2 false]).map (fun c => c.log.map Returned.answer) =
      some [.done,.taken (some 4096)] := by decide +kernel
  obtain ⟨c,run,log⟩ := Option.map_eq_some_iff.mp ends
  exact ⟨c,log,stack_refines (by simp) (by simp) run⟩

end TreiberStack

end Numalloc
