import Numalloc.Concurrent.Sessions
import Numalloc.Heap

/-! Concurrent calls of `allocate_bag` on one region: the bump offset, and the bags the calls
return, whatever the interleaving. -/
namespace Numalloc

open Concurrent

namespace NodeRegion

/-- The geometry `GlobalHeap::new` gives a region. -/
structure Built (region : NodeRegion) : Prop where
  base : smallLimit ∣ region.base
  size : smallLimit ∣ region.size
  word : region.base + region.size < 2 ^ 64

/-- The bump offset of one region and the callers of `allocate_bag`. A choice tells whether
a compare-exchange fails spuriously. -/
@[reducible] def bagObject (region : NodeRegion) : Object bumpI where
  State := Nat
  Choice := Bool
  exec _ x spurious bump := match x with
    | .load => some (bump,bump)
    | .compareExchangeWeak current new =>
      if spurious = false ∧ bump = current then some (true,new) else some (false,bump)
  Request := Fin numSizeClasses
  Answer := Option Nat
  code cls := region.allocateBag (bagSizeForClass cls)
  enter _ _ bump := some bump

variable {region : NodeRegion} {k B offset offset' aligned new : Nat}

/-- Without overflow the bag starts at the next aligned address. -/
theorem nextBag_eq (small : k ≤ 18) (word : region.base + offset + 2 ^ k ≤ 2 ^ 64)
    (above : region.size < 2 ^ 64)
    (fits : alignUp (region.base + offset) (2 ^ k) - region.base + 2 ^ k ≤ region.size) :
    region.nextBag (2 ^ k) offset = some (alignUp (region.base + offset) (2 ^ k) - region.base,
      alignUp (region.base + offset) (2 ^ k) - region.base + 2 ^ k) := by
  have pos := Nat.two_pow_pos k
  have ge := alignUp_ge (x := region.base + offset) rfl (by omega : k ≤ 64) (by omega)
  have max : usizeMax = 2 ^ 64 - 1 := rfl
  unfold alignUp at ge fits ⊢
  simp only [nextBag,Option.bind_eq_bind,Option.bind_eq_some_iff,checkedAdd_eq_some,
    checkedSub_eq_some,Option.ite_none_left_eq_some,Option.some.injEq]
  exact ⟨_,⟨by omega,rfl⟩,_,⟨by omega,rfl⟩,_,⟨ge.trans' (by omega),rfl⟩,_,⟨by omega,rfl⟩,by omega,rfl⟩

/-- Nothing is answered only when nothing fits. -/
theorem nextBag_none (built : region.Built) (small : k ≤ 18) :
    region.nextBag (2 ^ k) offset = none ↔
      ∀ a, offset ≤ a → 2 ^ k ∣ region.base + a → region.size < a + 2 ^ k := by
  constructor
  · intro full a above multiple
    by_contra fits
    have word := built.word
    have pos := Nat.two_pow_pos k
    have least := alignUp_least (x := region.base + offset) rfl (by omega : k ≤ 64) (by omega)
      (Nat.add_le_add_left above _) multiple
    rw [nextBag_eq small (by omega) (by omega) (by omega)] at full
    cases full
  · intro unfit
    by_contra some_
    obtain ⟨⟨aligned,new⟩,bag⟩ := Option.ne_none_iff_exists'.mp some_
    obtain ⟨above,rfl,fits,multiple⟩ := nextBag_spec (by omega) bag
    have := unfit aligned above multiple
    omega

/-- What does not fit now does not fit later, nor does anything larger. -/
theorem nextBag_none_mono (built : region.Built) {k' : Nat} (small : k ≤ k') (small' : k' ≤ 18)
    (later : offset ≤ offset') (full : region.nextBag (2 ^ k) offset = none) :
    region.nextBag (2 ^ k') offset' = none := by
  rw [nextBag_none built (by omega)] at full
  refine (nextBag_none built small').mpr fun a above multiple => ?_
  have := full a (by omega) ((Nat.pow_dvd_pow 2 small).trans multiple)
  have := Nat.pow_le_pow_right (n := 2) (by omega) small
  omega

/-- The bag starts at the first aligned address. -/
theorem nextBag_least (small : k ≤ 64) (bag : region.nextBag (2 ^ k) offset = some (aligned,new))
    {a : Nat} (above : offset ≤ a) (multiple : 2 ^ k ∣ region.base + a) : aligned ≤ a := by
  simp only [nextBag,Option.bind_eq_bind,Option.bind_eq_some_iff,checkedAdd_eq_some,
    checkedSub_eq_some,Option.ite_none_left_eq_some,Option.some.injEq,Prod.mk.injEq] at bag
  obtain ⟨_,⟨_,rfl⟩,_,⟨word,rfl⟩,_,⟨_,rfl⟩,_,⟨_,rfl⟩,_,rfl,_⟩ := bag
  unfold usizeMax at word
  have least := alignUp_least (x := region.base + offset) rfl small (by omega)
    (Nat.add_le_add_left above _) multiple
  unfold alignUp at least
  omega

/-- Bag sizes are powers of two. -/
theorem bagSize_pow (cls : Fin numSizeClasses) :
    ∃ k ≤ 18, bagSizeForClass cls = 2 ^ k := by
  have bound := cls.isLt
  unfold numSizeClasses at bound
  exact ⟨_,by omega,bagSizeForClass_eq cls.isLt⟩

theorem nextBag_class {cls : Fin numSizeClasses}
    (bag : region.nextBag (bagSizeForClass cls) offset = some (aligned,new)) :
    offset ≤ aligned ∧ new = aligned + bagSizeForClass cls ∧ new ≤ region.size ∧
      bagSizeForClass cls ∣ region.base + aligned ∧
      ∀ a, offset ≤ a → bagSizeForClass cls ∣ region.base + a → aligned ≤ a := by
  obtain ⟨k,small,size⟩ := bagSize_pow cls
  rw [size] at bag ⊢
  obtain ⟨above,end_,fits,multiple⟩ := nextBag_spec (by omega) bag
  exact ⟨above,end_,fits,multiple,fun a => nextBag_least (by omega) bag⟩

theorem refused_later (built : region.Built) {cls cls' : Fin numSizeClasses}
    (size : bagSizeForClass cls ≤ bagSizeForClass cls') (later : offset ≤ offset')
    (full : region.nextBag (bagSizeForClass cls) offset = none) :
    region.nextBag (bagSizeForClass cls') offset' = none := by
  obtain ⟨k,_,eq⟩ := bagSize_pow cls
  obtain ⟨k',small,eq'⟩ := bagSize_pow cls'
  rw [eq] at size full
  rw [eq'] at size ⊢
  exact nextBag_none_mono built ((Nat.pow_le_pow_iff_right (by omega)).mp size) small later full

/-! Where a call can be: before its loop, at the load, at the compare-exchange. -/

/-- About to publish the offset behind a bag. -/
structure Publishing (region : NodeRegion) (B offset aligned new : Nat)
    (p : Prog bumpI (Option Nat)) : Prop where
  bag : region.nextBag B offset = some (aligned,new)
  next : ∃ k, p = .act (I := bumpI) (.compareExchangeWeak offset new) k ∧
    k true = .ret (some (region.base + aligned)) ∧ k false = region.allocateBag B

/-- About to load the bump offset. -/
def Loading (region : NodeRegion) (B : Nat) (p : Prog bumpI (Option Nat)) : Prop :=
  ∃ k, p = .act (I := bumpI) .load k ∧
    (∀ offset, region.nextBag B offset = none → k offset = .ret none) ∧
    ∀ offset aligned new, region.nextBag B offset = some (aligned,new) →
      Publishing region B offset aligned new (k offset)

theorem allocateBag_unrolls : ∃ body, region.allocateBag B = .loop body () .ret ∧
    Loading region B (.unroll body () .ret) := by
  refine ⟨_,rfl,_,rfl,fun offset full => ?_,fun offset aligned new bag => ⟨bag,?_⟩⟩
  · simp only [Prog.bind_ret,full]
    rfl
  · simp only [Prog.bind_ret,bag]
    exact ⟨_,rfl,rfl,rfl⟩

/-- A call in progress. A loaded offset is not from before the refusals the call has seen. -/
structure CallOk (region : NodeRegion) (log : List (Returned (bagObject region)))
    (run : Running (bagObject region)) : Prop where
  since : run.since ≤ log.length
  stage : run.rest = region.allocateBag (bagSizeForClass run.request) ∨
    Loading region (bagSizeForClass run.request) run.rest ∨
    ∃ offset aligned new,
      Publishing region (bagSizeForClass run.request) offset aligned new run.rest ∧
      ∀ i r, log[i]? = some r → i < run.since → r.answer = none →
        region.nextBag (bagSizeForClass r.request) offset = none

variable {c c' : Session (bagObject region)} {event : Event (bagObject region)}
  {run : Running (bagObject region)} {log : List (Returned (bagObject region))}

theorem CallOk.append (ok : CallOk region log run) (r : Returned (bagObject region)) :
    CallOk region (log ++ [r]) run where
  since := by
    have := ok.since
    simp only [List.length_append]
    omega
  stage := by
    have old : ∀ i, i < run.since → (log ++ [r])[i]? = log[i]? := fun i before =>
      List.getElem?_append_left (by have := ok.since; omega)
    refine ok.stage.imp_right (Or.imp_right ?_)
    rintro ⟨offset,aligned,new,at_,seen⟩
    exact ⟨offset,aligned,new,at_,fun i r' found before => seen i r' (old i before ▸ found) before⟩

def bump (c : Session (bagObject region)) : Nat := c.state

theorem bump_mk (bump' : Nat) (calls : Nat → Option (Running (bagObject region))) :
    bump ⟨bump',calls,log⟩ = bump' := rfl

structure BagInv (region : NodeRegion) (c : Session (bagObject region)) : Prop where
  calls : ∀ {t run}, c.calls t = some run → CallOk region c.log run
  bound : bump c ≤ region.size
  granted : ∀ {r a}, r ∈ c.log → r.answer = some a → region.base ≤ a ∧
    bagSizeForClass r.request ∣ a ∧ a + bagSizeForClass r.request ≤ region.base + bump c
  apart : c.log.Pairwise fun r r' => ∀ a a', r.answer = some a → r'.answer = some a' →
    Apart a (bagSizeForClass r.request) a' (bagSizeForClass r'.request)
  refused : ∀ {r}, r ∈ c.log → r.answer = none →
    region.nextBag (bagSizeForClass r.request) (bump c) = none
  since : ∀ {r}, r ∈ c.log → r.since ≤ c.log.length
  later : ∀ {i j : Nat} {r r' : Returned (bagObject region)}, c.log[i]? = some r → c.log[j]? = some r' → i < r'.since →
    r.answer = none → bagSizeForClass r.request ≤ bagSizeForClass r'.request → r'.answer = none

/-- What an event can do: move a call along, return a bag, or return nothing. -/
theorem BagInv.cases (inv : BagInv region c) (step : c.advance event = some c') :
    (∃ t run, c' = ⟨c.state,replace c.calls t (some run),c.log⟩ ∧ CallOk region c.log run) ∨
    (∃ (t : Nat) (request : Fin numSizeClasses) (since aligned new : Nat), since ≤ c.log.length ∧
      region.nextBag (bagSizeForClass request) (bump c) = some (aligned,new) ∧
      (∀ i r, c.log[i]? = some r → i < since → r.answer = none →
        region.nextBag (bagSizeForClass r.request) (bump c) = none) ∧
      c' = ⟨new,replace c.calls t none,
        c.log ++ [⟨t,request,since,some (region.base + aligned)⟩]⟩) ∨
    (∃ (t : Nat) (request : Fin numSizeClasses) (since : Nat), since ≤ c.log.length ∧
      region.nextBag (bagSizeForClass request) (bump c) = none ∧
      c' = ⟨c.state,replace c.calls t none,c.log ++ [⟨t,request,since,none⟩]⟩) := by
  cases event with
  | call t request =>
    simp only [Session.advance] at step
    split at step
    case h_2 => cases step
    case h_1 rest =>
    obtain rfl := Option.some.inj step
    exact Or.inl ⟨t,_,rfl,le_rfl,Or.inl rfl⟩
  | step t spurious =>
    simp only [Session.advance] at step
    split at step
    case h_1 => cases step
    case h_2 run at_ =>
    obtain ⟨request,since,rest⟩ := run
    obtain ⟨bound,stage⟩ := inv.calls at_
    dsimp only at stage bound step
    rcases stage with rfl | loading | ⟨offset,aligned,new,publishing,seen⟩
    · obtain ⟨body,eq,loading⟩ := show ∃ body,
          region.allocateBag (bagSizeForClass request) = .loop body () .ret ∧
          Loading region (bagSizeForClass request) (.unroll body () .ret) from allocateBag_unrolls
      rw [eq] at step
      obtain rfl := Option.some.inj step
      have busy : ∀ a, Prog.unroll body () .ret ≠ .ret a := by
        obtain ⟨k,act,_⟩ := loading
        simp [act]
      exact Or.inl ⟨t,⟨request,since,_⟩,Session.settle_busy busy,bound,Or.inr (Or.inl loading)⟩
    · obtain ⟨k,rfl,full,some_⟩ := loading
      obtain rfl := Option.some.inj step
      cases bag : region.nextBag (bagSizeForClass request) c.state with
      | none =>
        dsimp only
        rw [full _ bag]
        exact Or.inr (Or.inr ⟨t,request,since,bound,bag,rfl⟩)
      | some found =>
        obtain ⟨aligned,new⟩ := found
        have publishing := some_ _ _ _ bag
        obtain ⟨k',act,_⟩ := publishing.next
        refine Or.inl ⟨t,⟨request,since,k c.state⟩,Session.settle_busy fun a => ?_,bound,
          Or.inr (Or.inr ⟨_,_,_,publishing,fun i r found _ none_ =>
            inv.refused (List.mem_of_getElem? found) none_⟩)⟩
        simp [act]
    · obtain ⟨bag,k,rfl,won,lost⟩ := publishing
      dsimp only at step
      split at step
      case isTrue ok =>
        obtain ⟨_,rfl⟩ := ok
        obtain rfl := Option.some.inj step
        dsimp only
        rw [won]
        exact Or.inr (Or.inl ⟨t,request,since,aligned,new,bound,bag,seen,rfl⟩)
      case isFalse =>
        obtain rfl := Option.some.inj step
        dsimp only
        rw [lost]
        exact Or.inl ⟨t,_,rfl,bound,Or.inl rfl⟩

/-- Nothing carved and nobody calling. -/
def idle (region : NodeRegion) : Session (bagObject region) := .fresh (0 : Nat)

theorem idle_inv : BagInv region (idle region) where
  calls none_ := nomatch none_
  bound := Nat.zero_le _
  granted mem := nomatch mem
  apart := .nil
  refused mem := nomatch mem
  since mem := nomatch mem
  later found := nomatch found

/-- The log's entries before the last one are those it had. -/
theorem getElem?_log {r x : Returned (bagObject region)} {i : Nat}
    (found : (log ++ [x])[i]? = some r) :
    log[i]? = some r ∨ i = log.length ∧ r = x := by
  rcases Nat.lt_or_ge i log.length with inside | outside
  · exact Or.inl (List.getElem?_append_left inside ▸ found)
  · rw [List.getElem?_append_right outside,List.getElem?_singleton] at found
    split at found
    · exact Or.inr ⟨by omega,(Option.some.inj found).symm⟩
    · cases found

/-- One more answer in the log keeps what it says about later calls. -/
theorem BagInv.later_append {x r r' : Returned (bagObject region)} {i j : Nat}
    (inv : BagInv region c) (bound : x.since ≤ c.log.length)
    (refused : ∀ i r, c.log[i]? = some r → i < x.since → r.answer = none →
      bagSizeForClass r.request ≤ bagSizeForClass x.request → x.answer = none)
    (found : (c.log ++ [x])[i]? = some r) (found' : (c.log ++ [x])[j]? = some r')
    (before : i < r'.since) (none_ : r.answer = none)
    (size : bagSizeForClass r.request ≤ bagSizeForClass r'.request) : r'.answer = none := by
  have since : r'.since ≤ c.log.length := by
    rcases getElem?_log found' with old' | ⟨_,rfl⟩
    · exact inv.since (List.mem_of_getElem? old')
    · exact bound
  rcases getElem?_log found with old | ⟨rfl,_⟩
  · rcases getElem?_log found' with old' | ⟨_,rfl⟩
    · exact inv.later old old' before none_ size
    · exact refused i r old before none_ size
  · omega

theorem BagInv.since_append {x r : Returned (bagObject region)} (inv : BagInv region c)
    (bound : x.since ≤ c.log.length) (mem : r ∈ c.log ++ [x]) :
    r.since ≤ (c.log ++ [x]).length := by
  rw [List.length_append]
  rcases List.mem_append.mp mem with old | new
  · exact Nat.le_add_right_of_le (inv.since old)
  · obtain rfl := List.mem_singleton.mp new
    exact Nat.le_add_right_of_le bound

/-- The calls of the other threads go on when one returns. -/
theorem BagInv.calls_append {x : Returned (bagObject region)} (inv : BagInv region c) {t u : Nat}
    (at_ : replace c.calls t none u = some run) : CallOk region (c.log ++ [x]) run := by
  by_cases same : u = t
  · subst same
    simp at at_
  · exact (inv.calls (by simpa [replace_other same] using at_)).append x

theorem BagInv.keep (built : region.Built) (inv : BagInv region c)
    (step : c.advance event = some c') : BagInv region c' := by
  rcases inv.cases step with ⟨t,run,rfl,ok⟩ |
    ⟨t,request,since,aligned,new,bound,bag,seen,rfl⟩ | ⟨t,request,since,bound,full,rfl⟩
  · refine ⟨fun {u run'} at_ => ?_,inv.bound,inv.granted,inv.apart,inv.refused,inv.since,inv.later⟩
    by_cases same : u = t
    · subst same
      obtain rfl : run = run' := by simpa using at_
      exact ok
    · exact inv.calls (by simpa [replace_other same] using at_)
  · obtain ⟨above,end_,fits,multiple,_⟩ := nextBag_class bag
    refine ⟨inv.calls_append,fits,fun {r a} mem answer => ?_,?_,fun {r} mem none_ => ?_,
      inv.since_append bound,inv.later_append bound fun i r found before none_ size => ?_⟩
    · rw [bump_mk]
      rcases List.mem_append.mp mem with old | last
      · obtain ⟨low,dvd,high⟩ := inv.granted old answer
        exact ⟨low,dvd,by omega⟩
      · obtain rfl := List.mem_singleton.mp last
        obtain rfl := Option.some.inj answer
        exact ⟨Nat.le_add_right _ _,multiple,by dsimp only; omega⟩
    · refine List.pairwise_append.mpr ⟨inv.apart,List.pairwise_singleton _ _,fun r old r' last => ?_⟩
      intro a a' answer answer'
      obtain rfl := List.mem_singleton.mp last
      obtain rfl := Option.some.inj answer'
      obtain ⟨_,_,high⟩ := inv.granted old answer
      exact Or.inl (by omega)
    · rw [bump_mk]
      rcases List.mem_append.mp mem with old | last
      · exact refused_later built le_rfl (by omega) (inv.refused old none_)
      · obtain rfl := List.mem_singleton.mp last
        cases none_
    · have full := refused_later built size le_rfl (seen i r found before none_)
      rw [bag] at full
      cases full
  · refine ⟨inv.calls_append,inv.bound,fun {r a} mem answer => ?_,?_,fun {r} mem none_ => ?_,
      inv.since_append bound,inv.later_append bound fun _ _ _ _ _ _ => rfl⟩
    · rcases List.mem_append.mp mem with old | last
      · exact inv.granted old answer
      · obtain rfl := List.mem_singleton.mp last
        cases answer
    · refine List.pairwise_append.mpr ⟨inv.apart,List.pairwise_singleton _ _,fun r _ r' last => ?_⟩
      intro a a' _ answer'
      obtain rfl := List.mem_singleton.mp last
      cases answer'
    · rcases List.mem_append.mp mem with old | last
      · exact inv.refused old none_
      · obtain rfl := List.mem_singleton.mp last
        exact full

/-- With one bag size the bump offset counts the bags. -/
def Counted (B : Nat) (c : Session (bagObject region)) : Prop :=
  (∀ r ∈ c.log, bagSizeForClass r.request = B) →
    bump c = B * c.log.countP fun r => r.answer.isSome

theorem BagInv.counted (built : region.Built) (inv : BagInv region c) (counted : Counted B c)
    (step : c.advance event = some c') : Counted B c' := by
  rcases inv.cases step with ⟨t,run,rfl,_⟩ |
    ⟨t,request,since,aligned,new,_,bag,_,rfl⟩ | ⟨t,request,since,_,_,rfl⟩
  · exact counted
  · intro same
    have before := counted fun r mem => same r (List.mem_append_left _ mem)
    have size : bagSizeForClass request = B := same _ (List.mem_append_right _ List.mem_cons_self)
    have multiple : bagSizeForClass request ∣ region.base + bump c := by
      refine Nat.dvd_add ((bagSizeForClass_dvd_limit request.isLt).trans built.base) ?_
      rw [before,size]
      exact Nat.dvd_mul_right _ _
    obtain ⟨above,end_,_,_,least⟩ := nextBag_class bag
    have start := least _ le_rfl multiple
    simp only [bump_mk,List.countP_append,List.countP_singleton,Option.isSome_some,if_true,
      Nat.mul_add]
    omega
  · intro same
    have before := counted fun r mem => same r (List.mem_append_left _ mem)
    change bump c = _
    simpa [List.countP_append] using before

/-- What the callers of `allocate_bag` can rely on. -/
structure Serves (region : NodeRegion) (c : Session (bagObject region)) : Prop where
  bound : bump c ≤ region.size
  inside : ∀ r ∈ c.log, ∀ a, r.answer = some a → region.base ≤ a ∧
    a + bagSizeForClass r.request ≤ region.base + region.size ∧ bagSizeForClass r.request ∣ a
  apart : c.log.Pairwise fun r r' => ∀ a a', r.answer = some a → r'.answer = some a' →
    Apart a (bagSizeForClass r.request) a' (bagSizeForClass r'.request)
  grows : ∀ event c', c.advance event = some c' → bump c ≤ bump c' ∧
    (bump c' ≠ bump c → ∃ r a, c'.log = c.log ++ [r] ∧ r.answer = some a)
  refuses : ∀ event c' r, c.advance event = some c' → c'.log = c.log ++ [r] → r.answer = none →
    bump c' = bump c ∧ ∀ a, bump c ≤ a → bagSizeForClass r.request ∣ region.base + a →
      region.size < a + bagSizeForClass r.request
  later : ∀ (i j : Nat) (r r' : Returned (bagObject region)), c.log[i]? = some r →
    c.log[j]? = some r' → i < r'.since → r.answer = none →
    bagSizeForClass r.request ≤ bagSizeForClass r'.request → r'.answer = none
  exact_ : ∀ B, (∀ r ∈ c.log, bagSizeForClass r.request = B) →
    (c.log.countP fun r => r.answer.isSome) = min c.log.length (region.size / B)

theorem bags_served (built : region.Built) {events : List (Event (bagObject region))}
    (run : (idle region).execute events = some c) : Serves region c := by
  have inv : BagInv region c := Session.execute_keeps (BagInv region) (fun inv step => inv.keep built step)
    idle_inv run
  have counted : ∀ B, Counted B c := fun B =>
    (Session.execute_keeps (fun c => BagInv region c ∧ Counted B c)
      (fun both step => ⟨both.1.keep built step,both.1.counted built both.2 step⟩)
      ⟨idle_inv,fun _ => rfl⟩ run).2
  refine ⟨inv.bound,fun r mem a answer => ?_,inv.apart,fun event c' step => ?_,
    fun event c' r step log none_ => ?_,fun i j r r' => inv.later,fun B same => ?_⟩
  · obtain ⟨low,dvd,high⟩ := inv.granted mem answer
    have := inv.bound
    exact ⟨low,by omega,dvd⟩
  · rcases inv.cases step with ⟨_,_,rfl,_⟩ | ⟨_,_,_,aligned,new,_,bag,_,rfl⟩ | ⟨_,_,_,_,_,rfl⟩
    · exact ⟨le_rfl,fun moved => absurd rfl moved⟩
    · obtain ⟨above,end_,_⟩ := nextBag_class bag
      exact ⟨by rw [bump_mk new]; omega,fun _ => ⟨_,_,rfl,rfl⟩⟩
    · exact ⟨le_rfl,fun moved => absurd rfl moved⟩
  · rcases inv.cases step with ⟨_,_,rfl,_⟩ | ⟨_,_,_,_,_,_,_,_,rfl⟩ | ⟨_,request,_,_,full,rfl⟩
    · simp at log
    · obtain rfl : _ = r := by simpa using log
      cases none_
    · obtain rfl : _ = r := by simpa using log
      obtain ⟨k,small,size⟩ := bagSize_pow request
      dsimp only
      rw [size] at full ⊢
      exact ⟨rfl,(nextBag_none built small).mp full⟩
  · have bags := counted B same
    have bound := inv.bound
    by_cases refusal : ∃ r ∈ c.log, r.answer = none
    · obtain ⟨r,mem,none_⟩ := refusal
      have full := inv.refused mem none_
      have size := same r mem
      have multiple : B ∣ region.base + bump c := by
        rw [bags,← size]
        exact Nat.dvd_add ((bagSizeForClass_dvd_limit r.request.isLt).trans built.base)
          (Nat.dvd_mul_right _ _)
      have beyond : region.size < bump c + B := by
        obtain ⟨k,small,pow⟩ := bagSize_pow r.request
        rw [pow] at full size
        exact size ▸ (nextBag_none built small).mp full _ le_rfl (size ▸ multiple)
      have le : (c.log.countP fun r => r.answer.isSome) ≤ c.log.length := List.countP_le_length
      rw [bags] at beyond bound
      rw [Nat.div_eq_of_lt_le (by rw [Nat.mul_comm]; exact bound)
        (by rw [Nat.succ_mul,Nat.mul_comm]; exact beyond)]
      omega
    · have all : (c.log.countP fun r => r.answer.isSome) = c.log.length := by
        refine List.countP_eq_length.mpr fun r mem => ?_
        cases answer : r.answer with
        | none => exact absurd ⟨r,mem,answer⟩ refusal
        | some a => rfl
      rw [all] at bags ⊢
      cases log : c.log with
      | nil => simp
      | cons r rest =>
        have size := same r (log ▸ List.mem_cons_self)
        have pos : 0 < B := by
          obtain ⟨k,_,pow⟩ := bagSize_pow r.request
          rw [← size,pow]
          exact Nat.two_pow_pos k
        rw [log] at bags
        rw [bags] at bound
        have := (Nat.le_div_iff_mul_le pos).mpr (Nat.mul_comm B _ ▸ bound)
        omega

/-- Two calls on a region of one bag. -/
theorem sample_bags_served : ∃ c : Session (bagObject ⟨262144,262144⟩),
    c.log.map Returned.answer = [some 262144,none] ∧ Serves ⟨262144,262144⟩ c := by
  have built : Built ⟨262144,262144⟩ := ⟨by decide,by decide,by decide⟩
  have ends : ((idle ⟨262144,262144⟩).execute
      [.call 1 ⟨15,by decide⟩,.call 2 ⟨15,by decide⟩,.step 1 false,.step 1 false,.step 1 true,
        .step 1 false,.step 1 false,.step 1 false,.step 2 false,.step 2 false]).map
      (fun c => c.log.map Returned.answer) = some [some 262144,none] := by decide +kernel
  obtain ⟨c,run,log⟩ := Option.map_eq_some_iff.mp ends
  exact ⟨c,log,bags_served built run⟩

end NodeRegion

/-- Construction lays out regions that calls can be served from. -/
theorem GlobalHeap.Valid.built {g : GlobalHeap} {i : Nat} (valid : g.Valid)
    (node : i < g.numNodes) : (g.nodeRegion i).Built := by
  have top := valid.node_upper node
  have := valid.upper
  have := valid.map_bound
  rw [valid.node i node]
  exact ⟨Nat.dvd_add valid.aligned (Nat.dvd_mul_left_of_dvd valid.region_dvd i),valid.region_dvd,
    by dsimp only; omega⟩

end Numalloc
