import Numalloc.Concurrent.Solo
import Numalloc.ThreadHeap
import Mathlib.Data.List.Nodup

/-! The large cache of one thread over any sequence of calls: it is a bounded multiset of
mappings with best-fit lookup. -/
namespace Numalloc

open Concurrent

namespace LargeCache

/-- The cache while a call runs, and what the call has unmapped so far. -/
structure Working where
  cache : LargeCache
  unmapped : List LargeCacheEntry
  deriving DecidableEq

def access : (x : Op) → Working → x.Res × Working
  | .get, w => (w.cache,w)
  | .set cache, w => ((), { w with cache := cache })
  | .munmap ptr size, w => ((), { w with unmapped := w.unmapped ++ [⟨ptr,size⟩] })

inductive Call where
  | put (originalPtr allocSize : Nat)
  | take (allocSize : Nat)
  | flush

@[reducible] def Call.Res : Call → Type
  | put _ _ => Bool
  | take _ => Option (Nat × Nat)
  | flush => Unit

def Call.code : (call : Call) → Prog cacheI call.Res
  | .put originalPtr allocSize => LargeCache.put originalPtr allocSize
  | .take allocSize => do
    let cache ← .call (I := cacheI) .get
    let (found, cache) := cache.take allocSize
    .call (I := cacheI) (.set cache)
    pure found
  | .flush => LargeCache.flush

/-- Accounting is exact whenever a call looks at the cache or has changed it. -/
def cacheLogic : Logic cacheI Working where
  always w := w.cache.Ok
  safe
    | .set cache, _ => cache.Ok
    | _, _ => True
  step x w r w' := access x w = (r,w')

/-- The first `m` slots. -/
def front (cache : LargeCache) (m : Nat) : LargeCache :=
  ⟨cache.entries.take m,((cache.entries.take m).map LargeCacheEntry.allocSize).sum⟩

/-- `m` is where the eviction loop stops: the longest front with room for the newcomer. -/
structure Keeps (cache : LargeCache) (allocSize m : Nat) : Prop where
  le : m ≤ cache.count
  room : (cache.front m).full allocSize = false
  full : ∀ j, m < j → j ≤ cache.count → (cache.front j).full allocSize = true

variable {cache : LargeCache} {n m p : Nat}

theorem Ok.ext {other : LargeCache} (ok : cache.Ok) (ok' : other.Ok)
    (same : cache.entries = other.entries) : cache = other := by
  have bytes := ok.bytes
  rw [same,← ok'.bytes] at bytes
  cases cache
  cases other
  simp_all

theorem Ok.front_count (ok : cache.Ok) : cache.front cache.count = cache := by
  rw [front,count,List.take_length,← ok.bytes]

theorem front_zero : cache.front 0 = empty := by
  simp [front,empty]

theorem front_count_le : (cache.front m).count = min m cache.count := by
  simp [front,count]

theorem Ok.front (ok : cache.Ok) (m : Nat) : (cache.front m).Ok := by
  have split := congrArg (fun l => (l.map LargeCacheEntry.allocSize).sum)
    (List.take_append_drop m cache.entries)
  simp only [List.map_append,List.sum_append,← ok.bytes] at split
  have slots := ok.slots
  have limit := ok.limit
  simp only [count] at slots
  refine ⟨?_,rfl,?_⟩
  · simp only [LargeCache.front,count,List.length_take]
    omega
  · simp only [LargeCache.front]
    omega

theorem full_eq : cache.full n = true ↔ 0 < cache.count ∧
    (largeCacheSlots ≤ cache.count ∨ maxLargeCacheBytes < saturatingAdd cache.bytes n) := by
  simp [full]

/-- One slot more. -/
theorem front_succ (bound : m < cache.count) : ∃ e, cache.entries.drop m = e :: cache.entries.drop (m + 1) ∧
    (cache.front (m + 1)).entries = (cache.front m).entries ++ [e] ∧
    (cache.front (m + 1)).bytes = (cache.front m).bytes + e.allocSize := by
  have at_ : cache.entries[m]? = some cache.entries[m] := List.getElem?_eq_getElem bound
  refine ⟨_,List.drop_eq_getElem_cons bound,?_⟩
  simp only [front,List.take_add_one,at_,Option.toList_some,List.map_append,List.sum_append,
    List.map_cons,List.map_nil,List.sum_cons,List.sum_nil,Nat.add_zero,and_self]

/-- Evicting the last of `m + 1` slots leaves `m`. -/
theorem wp_evict (bound : m < cache.count) (ok : cache.Ok) {Q : Unit → Working → Prop}
    (post : Q () ⟨cache.front m,(cache.entries.drop m).reverse⟩) :
    cacheLogic.wp (evict (cache.front (m + 1))) Q
      ⟨cache.front (m + 1),(cache.entries.drop (m + 1)).reverse⟩ := by
  obtain ⟨e,tail,entries,bytes⟩ := front_succ bound
  have rest : (⟨(cache.front (m + 1)).entries.dropLast,
      (cache.front (m + 1)).bytes - e.allocSize⟩ : LargeCache) = cache.front m := by
    rw [entries,bytes,List.dropLast_concat,Nat.add_sub_cancel]
  have okRest := ok.front m
  rw [← rest] at okRest post
  have last : (cache.front (m + 1)).entries.getLast? = some e := by
    rw [entries,List.getLast?_concat]
  simp only [evict,last]
  refine ⟨ok.front _,okRest,fun _ w same => ?_⟩
  obtain rfl := (Prod.mk.inj same).2
  refine ⟨okRest,trivial,fun _ w' same' => ?_⟩
  obtain rfl := (Prod.mk.inj same').2
  refine ⟨okRest,?_⟩
  simpa only [tail,List.reverse_cons] using post

theorem wp_put (ok : cache.Ok) : cacheLogic.wp (put p n) (fun stored w =>
      ∃ m, cache.Keeps n m ∧ w.unmapped = (cache.entries.drop m).reverse ∧
        (stored = true ↔ n ≤ maxLargeCacheBytes) ∧
        w.cache.entries = cache.entries.take m ++ if stored then [⟨p,n⟩] else [])
    ⟨cache,[]⟩ := by
  refine Logic.wp_seq (P := fun _ w => ∃ m, cache.Keeps n m ∧
    w = ⟨cache.front m,(cache.entries.drop m).reverse⟩) ?_ ?_
  · refine Logic.wp_iter (fun _ w => ∃ m, m ≤ cache.count ∧
      w = ⟨cache.front m,(cache.entries.drop m).reverse⟩ ∧
      ∀ j, m < j → j ≤ cache.count → (cache.front j).full n = true) ok
      ⟨cache.count,le_rfl,?_,fun j above le => absurd le (by omega)⟩ ?_
    · rw [ok.front_count,count,List.drop_length,List.reverse_nil]
    · rintro ⟨⟩ w ⟨m,le,rfl,full⟩
      refine ⟨ok.front m,trivial,?_⟩
      rintro r w' same
      obtain ⟨rfl,rfl⟩ := Prod.mk.inj same
      simp only [Prog.bind_ret]
      split
      case isTrue more =>
        obtain ⟨pos,_⟩ := full_eq.mp more
        obtain ⟨m,rfl⟩ : ∃ k, m = k + 1 := by
          refine ⟨m - 1,?_⟩
          simp only [front,count,List.length_take] at pos
          omega
        refine Logic.wp_bind.mpr (wp_evict (by omega) ok
          ⟨ok.front m,m,by omega,rfl,fun j above le => ?_⟩)
        rcases Nat.lt_or_ge (m + 1) j with later | now
        · exact full j later le
        · obtain rfl : j = m + 1 := by omega
          exact more
      case isFalse done =>
        exact ⟨ok.front m,m,⟨le,by simpa using done,full⟩,rfl⟩
  · rintro ⟨⟩ w _ ⟨m,keeps,rfl⟩
    have okM := ok.front m
    have limit := okM.limit
    have room : ¬(0 < (cache.front m).count ∧ (largeCacheSlots ≤ (cache.front m).count ∨
        maxLargeCacheBytes < saturatingAdd (cache.front m).bytes n)) := by
      rw [← full_eq,keeps.room]
      simp
    have small : maxLargeCacheBytes < usizeMax := by decide
    have bytesOf : (cache.front m).count = 0 → (cache.front m).bytes = 0 := by
      intro zero
      rw [okM.bytes,List.eq_nil_of_length_eq_zero zero]
      rfl
    simp only [saturatingAdd] at room
    refine ⟨okM,trivial,?_⟩
    rintro r w' same
    obtain ⟨rfl,rfl⟩ := Prod.mk.inj same
    simp only [Prog.bind_ret]
    split
    case isTrue beyond =>
      simp only [saturatingAdd] at beyond
      refine ⟨okM,m,keeps,rfl,?_,by simp [front]⟩
      simp only [Bool.false_eq_true,false_iff]
      omega
    case isFalse fits =>
      have some_slot : 0 < largeCacheSlots := by decide
      have fits' := fits
      simp only [saturatingAdd] at fits'
      have added := okM.add ⟨p,n⟩ (by omega) (by simpa using fits)
      refine ⟨okM,added,fun _ w' same' => ?_⟩
      obtain rfl := (Prod.mk.inj same').2
      refine ⟨added,m,keeps,rfl,?_,by simp [front]⟩
      simp only [true_iff]
      omega

theorem wp_unmapEach (ok : cache.Ok) {Q : Unit → Working → Prop} (entries : List LargeCacheEntry) :
    ∀ gone, Q () ⟨cache,gone ++ entries⟩ → cacheLogic.wp (unmapEach entries) Q ⟨cache,gone⟩ := by
  induction entries with
  | nil => exact fun gone post => ⟨ok,by simpa using post⟩
  | cons entry rest ih =>
    intro gone post
    refine ⟨ok,trivial,fun _ w same => ?_⟩
    obtain rfl := (Prod.mk.inj same).2
    exact ih _ (by simpa using post)

theorem wp_flush (ok : cache.Ok) : cacheLogic.wp flush
    (fun _ w => w.unmapped = cache.entries ∧ w.cache = empty) ⟨cache,[]⟩ := by
  refine ⟨ok,trivial,fun r w same => ?_⟩
  obtain ⟨rfl,rfl⟩ := Prod.mk.inj same
  simp only [Prog.bind_ret]
  refine Logic.wp_bind.mpr (wp_unmapEach ok cache.entries [] ⟨ok,empty_ok,fun _ w same => ?_⟩)
  obtain rfl := (Prod.mk.inj same).2
  exact ⟨empty_ok,rfl,rfl⟩

theorem wp_take (ok : cache.Ok) : cacheLogic.wp (Call.take n).code
    (fun found w => w.unmapped = [] ∧ cache.take n = (found,w.cache)) ⟨cache,[]⟩ := by
  have ok' : (cache.take n).2.Ok := by
    rcases take_cases ok n with ⟨missed,_⟩ | ⟨e,at_,hit,_⟩
    · rw [missed]
      exact ok
    · rw [hit]
      exact ok.remove (swapRemove_perm at_)
  refine ⟨ok,trivial,fun r w same => ?_⟩
  obtain ⟨rfl,rfl⟩ := Prod.mk.inj same
  refine ⟨ok,ok',fun _ w same => ?_⟩
  obtain rfl := (Prod.mk.inj same).2
  exact ⟨ok',rfl,rfl⟩

/-- What one call does, whichever it is. -/
def Call.Does : (call : Call) → LargeCache → call.Res → Working → Prop
  | .put p n, cache, stored, w => ∃ m, cache.Keeps n m ∧
      w.unmapped = (cache.entries.drop m).reverse ∧ (stored = true ↔ n ≤ maxLargeCacheBytes) ∧
      w.cache.entries = cache.entries.take m ++ if stored then [⟨p,n⟩] else []
  | .take n, cache, found, w => w.unmapped = [] ∧ cache.take n = (found,w.cache)
  | .flush, cache, _, w => w.unmapped = cache.entries ∧ w.cache = empty

theorem wp_code (ok : cache.Ok) (call : Call) :
    cacheLogic.wp call.code (fun r w => call.Does cache r w ∧ w.cache.Ok) ⟨cache,[]⟩ := by
  have done : cacheLogic.wp call.code (call.Does cache) ⟨cache,[]⟩ := by
    cases call with
    | put p n => exact wp_put ok
    | take n => exact wp_take ok
    | flush => exact wp_flush ok
  exact Logic.wp_mono done fun _ _ okW does => ⟨does,okW⟩

/-! Every call returns. -/

theorem evict_runs (w : Working) (more : w.cache.entries ≠ []) :
    ∃ w', Runs cacheLogic.step (evict w.cache) w () w' ∧
      w'.cache.entries = w.cache.entries.dropLast := by
  simp only [evict,List.getLast?_eq_some_getLast more]
  exact ⟨_,.act rfl (.act rfl .ret),rfl⟩

theorem put_runs (w : Working) : ∃ stored w', Runs cacheLogic.step (put p n) w stored w' := by
  have loop : ∀ k (w : Working), w.cache.count = k → ∃ w', Runs cacheLogic.step
      (.iter (fun _ => do
        let cache ← .call (I := cacheI) .get
        if cache.full n then
          evict cache
          pure (.inl ())
        else
          pure (.inr ())) ()) w () w' := by
    intro k
    induction k with
    | zero =>
      intro w none_
      have room : w.cache.full n = false := by simp [full,none_]
      refine ⟨w,.last (.act rfl ?_)⟩
      simp only [Prog.bind_ret]
      rw [if_neg (by simp [room])]
      exact .ret
    | succ k ih =>
      intro w some_
      cases more : w.cache.full n with
      | false =>
        refine ⟨w,.last (.act rfl ?_)⟩
        simp only [Prog.bind_ret]
        rw [if_neg (by simp [more])]
        exact .ret
      | true =>
        obtain ⟨w₁,once,entries⟩ := evict_runs w (List.ne_nil_of_length_eq_add_one some_)
        obtain ⟨w',rest⟩ := ih w₁ (by simp only [count] at some_ ⊢; simp [entries,some_])
        refine ⟨w',.again (.act rfl ?_) rest⟩
        simp only [Prog.bind_ret]
        rw [if_pos more]
        exact once.bind .ret
  obtain ⟨w₁,evicted⟩ := loop _ w rfl
  by_cases beyond : maxLargeCacheBytes < saturatingAdd w₁.cache.bytes n
  · refine ⟨false,w₁,evicted.bind (.act rfl ?_)⟩
    simp only [Prog.bind_ret]
    rw [if_pos beyond]
    exact .ret
  · refine ⟨true,⟨⟨w₁.cache.entries ++ [⟨p,n⟩],w₁.cache.bytes + n⟩,w₁.unmapped⟩,
      evicted.bind (.act rfl ?_)⟩
    simp only [Prog.bind_ret]
    rw [if_neg beyond]
    exact .act rfl .ret

theorem code_runs (call : Call) (w : Working) :
    ∃ answer w', Runs cacheLogic.step call.code w answer w' := by
  cases call with
  | put p n => exact put_runs w
  | take n => exact ⟨_,_,.act rfl (.act rfl .ret)⟩
  | flush =>
    have each : ∀ l (w : Working), ∃ w', Runs cacheLogic.step (unmapEach l) w () w' := by
      intro l
      induction l with
      | nil => exact fun w => ⟨w,.ret⟩
      | cons entry rest ih =>
        intro w
        obtain ⟨w',run⟩ := ih ⟨w.cache,w.unmapped ++ [⟨entry.originalPtr,entry.allocSize⟩]⟩
        exact ⟨w',.act rfl run⟩
    obtain ⟨w₁,run⟩ := each w.cache.entries w
    exact ⟨(),_,.act rfl (run.bind (.act rfl .ret))⟩

/-! Runs of calls. -/

/-- One call of a run. `dates` names, slot by slot, the call that put the entry there. -/
structure Visit where
  call : Call
  before : LargeCache
  dates : List Nat
  answer : call.Res
  unmapped : List LargeCacheEntry
  after : LargeCache
  dates' : List Nat

/-- Entries keep their date while `put` pops slots from the end and appends one, and `take`
moves the last one into the hole it leaves. -/
def Call.redate (now : Nat) (cache : LargeCache) (dates : List Nat)
    (unmapped : List LargeCacheEntry) : (call : Call) → call.Res → List Nat
  | .put _ _, stored => dates.take (dates.length - unmapped.length) ++ if stored then [now] else []
  | .take n, found => if found.isSome then
      swapRemove dates (bestIdx n cache.entries 0 usizeMax usizeMax) else dates
  | .flush, _ => []

/-- The calls made on a new cache, and what they leave. -/
inductive History : List Visit → LargeCache → List Nat → Prop where
  | start : History [] .empty []
  | call {visits : List Visit} {cache : LargeCache} {dates : List Nat} {w : Working} {call : Call}
      {answer : call.Res} (past : History visits cache dates)
      (run : Runs cacheLogic.step call.code ⟨cache,[]⟩ answer w) :
      History (visits ++ [⟨call,cache,dates,answer,w.unmapped,w.cache,
        call.redate visits.length cache dates w.unmapped answer⟩]) w.cache
        (call.redate visits.length cache dates w.unmapped answer)

variable {visits : List Visit} {dates : List Nat} {v : Visit}

/-- The call run to its end, when twenty steps are enough. -/
abbrev Call.result (call : Call) (cache : LargeCache) : Option (call.Res × Working) :=
  call.code.runFor (fun x w => some (access x w)) 20 ⟨cache,[]⟩

theorem History.run (history : History visits cache dates) {call : Call} {answer : call.Res}
    {w : Working} (run : call.result cache = some (answer,w)) :
    History (visits ++ [⟨call,cache,dates,answer,w.unmapped,w.cache,
      call.redate visits.length cache dates w.unmapped answer⟩]) w.cache
      (call.redate visits.length cache dates w.unmapped answer) :=
  .call history (.of_runFor (fun same => Option.some.inj same) 20 run)

theorem History.ok (history : History visits cache dates) : cache.Ok := by
  induction history with
  | start => exact empty_ok
  | call _ run ih => exact (run.post (wp_code ih _)).2

/-- A call of a history was made on what an earlier history left. -/
theorem History.visit (history : History visits cache dates) (mem : v ∈ visits) :
    ∃ past, History past v.before v.dates ∧
      Runs cacheLogic.step v.call.code ⟨v.before,[]⟩ v.answer ⟨v.after,v.unmapped⟩ ∧
      v.dates' = v.call.redate past.length v.before v.dates v.unmapped v.answer := by
  induction history with
  | start => cases mem
  | call past run ih =>
    rcases List.mem_append.mp mem with old | new
    · exact ih old
    · obtain rfl := List.mem_singleton.mp new
      exact ⟨_,past,run,rfl⟩

theorem History.does (history : History visits cache dates) (mem : v ∈ visits) :
    v.before.Ok ∧ v.after.Ok ∧ v.call.Does v.before v.answer ⟨v.after,v.unmapped⟩ := by
  obtain ⟨past,was,run,_⟩ := history.visit mem
  obtain ⟨does,after⟩ := run.post (wp_code was.ok v.call)
  exact ⟨was.ok,after,does⟩

/-- No slot index leaves the array and no count or sum wraps while the call runs. -/
def Visit.Exact (v : Visit) : Prop :=
  ∀ cache w, Meets cacheLogic.step v.call.code ⟨v.before,[]⟩ (.set cache) w →
    w.cache.Ok ∧ cache.Ok

/-- What the call answers and leaves, as multisets of entries. -/
def Visit.BestFit : Visit → Prop
  | ⟨.put p n,before,_,stored,unmapped,after,_⟩ =>
    (stored = true ↔ n ≤ maxLargeCacheBytes) ∧
    (stored = true → (⟨p,n⟩ :: before.entries).Perm (after.entries ++ unmapped))
  | ⟨.take n,before,_,found,unmapped,after,_⟩ => unmapped = [] ∧
    (found = none → after = before) ∧
    (found = none ↔ ∀ e ∈ before.entries, ¬(n ≤ e.allocSize ∧ e.allocSize ≤ n + closeSizeTolerance)) ∧
    ∀ raw size, found = some (raw,size) → n ≤ size ∧
      before.entries.Perm (⟨raw,size⟩ :: after.entries) ∧
      ∀ e ∈ before.entries, n ≤ e.allocSize → size ≤ e.allocSize
  | ⟨.flush,before,_,_,unmapped,after,_⟩ => unmapped = before.entries ∧ after = empty

/-- The cache is a bounded multiset of mappings with exact accounting and best-fit lookup. -/
theorem cache_best_fit (history : History visits cache dates) : cache.Ok ∧
    (∀ call : Call, ∃ answer w, Runs cacheLogic.step call.code ⟨cache,[]⟩ answer w) ∧
    ∀ v ∈ visits, v.Exact ∧ v.BestFit := by
  refine ⟨history.ok,fun call => code_runs call _,fun v mem => ?_⟩
  obtain ⟨ok,_,does⟩ := history.does mem
  refine ⟨fun cache w meets => meets.safe (wp_code ok v.call),?_⟩
  obtain ⟨call,before,dates,answer,unmapped,after,dates'⟩ := v
  dsimp only at ok does
  cases call with
  | put p n =>
    obtain ⟨m,_,gone,stored,entries⟩ := does
    refine ⟨stored,fun yes => ?_⟩
    dsimp only at gone entries
    rw [entries,if_pos yes,gone,List.append_assoc]
    have whole : before.entries.Perm (before.entries.take m ++ (before.entries.drop m).reverse) := by
      conv_lhs => rw [← List.take_append_drop m before.entries]
      exact List.Perm.append_left _ (List.reverse_perm _).symm
    exact (whole.cons _).trans List.perm_middle.symm
  | take n =>
    obtain ⟨none_gone,taken⟩ := does
    refine ⟨none_gone,?_⟩
    rcases take_cases ok n with ⟨missed,unfit⟩ | ⟨e,at_,hit,low,high,least⟩
    · obtain ⟨rfl,rfl⟩ := Prod.mk.inj (missed.symm.trans taken)
      exact ⟨fun _ => rfl,⟨fun _ => unfit,fun _ => rfl⟩,fun _ _ found => nomatch found⟩
    · obtain ⟨rfl,rfl⟩ := Prod.mk.inj (hit.symm.trans taken)
      refine ⟨fun miss => (nomatch miss),⟨fun miss => (nomatch miss),fun unfit => ?_⟩,?_⟩
      · exact absurd ⟨low,high⟩ (unfit e (List.mem_of_getElem? at_))
      · intro raw size found
        obtain ⟨rfl,rfl⟩ := Prod.mk.inj (Option.some.inj found)
        exact ⟨low,swapRemove_perm at_,least⟩
  | flush => exact does

/-- A mapping of two pages is found by a request for one. -/
theorem sample_best_fit : ∃ (visits : List Visit) (cache : LargeCache), visits.length = 2 ∧ cache.Ok ∧
    (∀ call : Call, ∃ answer w, Runs cacheLogic.step call.code ⟨cache,[]⟩ answer w) ∧
    ∀ v ∈ visits, v.Exact ∧ v.BestFit := by
  have put : (Call.put 4096 8192).result .empty = some (true,⟨⟨[⟨4096,8192⟩],8192⟩,[]⟩) := by
    decide +kernel
  have take : (Call.take 4096).result ⟨[⟨4096,8192⟩],8192⟩ = some (some (4096,8192),⟨⟨[],0⟩,[]⟩) := by
    decide +kernel
  have history := (History.start.run put).run take
  exact ⟨_,_,rfl,cache_best_fit history⟩

/-- A `put` that answers `false` has left the cache alone. -/
def Visit.Intact : Visit → Prop
  | ⟨.put _ _,before,_,stored,unmapped,after,_⟩ =>
    stored = false → after = before ∧ unmapped = []
  | _ => True

/-- The mapping is small enough to be stored, or there is nothing to evict for it. -/
def Visit.Harmless : Visit → Prop
  | ⟨.put _ n,before,_,_,_,_,_⟩ => n ≤ maxLargeCacheBytes ∨ before.entries = []
  | _ => True

theorem rejected_intact_iff (history : History visits cache dates) :
    (∀ v ∈ visits, v.Intact) ↔ ∀ v ∈ visits, v.Harmless := by
  refine forall₂_congr fun v mem => ?_
  obtain ⟨ok,okAfter,does⟩ := history.does mem
  obtain ⟨call,before,dates,answer,unmapped,after,dates'⟩ := v
  dsimp only at ok okAfter does
  cases call with
  | take n => exact Iff.rfl
  | flush => exact Iff.rfl
  | put p n =>
    obtain ⟨m,keeps,gone,stored,entries⟩ := does
    dsimp only at gone entries
    constructor
    · intro intact
      refine or_iff_not_imp_left.mpr fun big => ?_
      have rejected : answer = false := Bool.eq_false_iff.mpr fun yes => big (stored.mp yes)
      have none_gone := (intact rejected).2
      -- nothing has room beside it, so the loop has stopped at the empty front
      have emptied : m = 0 := by
        by_contra pos
        have le := keeps.le
        have full : (before.front m).full n = true := by
          refine full_eq.mpr ⟨?_,Or.inr ?_⟩
          · simp only [front,count,List.length_take] at le ⊢
            omega
          · have small : maxLargeCacheBytes < usizeMax := by decide
            simp only [saturatingAdd]
            omega
        simp [keeps.room] at full
      rw [gone,emptied,List.drop_zero,List.reverse_eq_nil_iff] at none_gone
      exact none_gone
    · rintro harmless rejected
      rcases harmless with small | none_
      · simp [stored.mpr small] at rejected
      · rw [none_] at entries gone
        refine ⟨okAfter.ext ok ?_,by simpa using gone⟩
        simp [entries,none_,rejected]

/-- A cached page, and an object that no cache can hold. -/
theorem oversized_calls : ∃ visits cache dates, History visits cache dates ∧ visits.length = 2 ∧
    ¬∀ v ∈ visits, v.Intact := by
  have first : (Call.put 4096 4096).result .empty = some (true,⟨⟨[⟨4096,4096⟩],4096⟩,[]⟩) := by
    decide +kernel
  have second : (Call.put 8192 629145600).result ⟨[⟨4096,4096⟩],4096⟩ =
      some (false,⟨⟨[],0⟩,[⟨4096,4096⟩]⟩) := by decide +kernel
  have history := (History.start.run first).run second
  refine ⟨_,_,_,history,rfl,fun intact => ?_⟩
  have lost := (intact _ (List.mem_append_right _ (List.mem_singleton_self _)) rfl).2
  cases lost

theorem rejected_put_evicts : ¬∀ visits cache dates, History visits cache dates →
    ∀ v ∈ visits, v.Intact := by
  intro intact
  obtain ⟨visits,cache,dates,history,_,lost⟩ := oversized_calls
  exact lost (intact visits cache dates history)

theorem sample_rejected_intact : ∃ visits cache dates, History visits cache dates ∧
    visits.length = 2 ∧ ((∀ v ∈ visits, v.Intact) ↔ ∀ v ∈ visits, v.Harmless) := by
  obtain ⟨visits,cache,dates,history,length,_⟩ := oversized_calls
  exact ⟨visits,cache,dates,history,length,rejected_intact_iff history⟩

/-! Which entries are evicted. -/

structure Dated (cache : LargeCache) (dates : List Nat) (now : Nat) : Prop where
  length : dates.length = cache.count
  nodup : dates.Nodup
  past : ∀ d ∈ dates, d < now

/-- Dates of a `put`: those of the slots that survive, and its own. -/
theorem redate_put {stored : Bool} {w : Working} {now : Nat} {dates : List Nat}
    (dated : Dated cache dates now) (keeps : cache.Keeps n m)
    (gone : w.unmapped = (cache.entries.drop m).reverse) :
    (Call.put p n).redate now cache dates w.unmapped stored =
      dates.take m ++ if stored then [now] else [] := by
  have le := keeps.le
  have length := dated.length
  simp only [count] at le length
  simp only [Call.redate,gone,List.length_reverse,List.length_drop,length]
  rw [Nat.sub_sub_self le]

theorem History.dated (history : History visits cache dates) :
    Dated cache dates visits.length := by
  induction history with
  | start => exact ⟨rfl,List.nodup_nil,fun d mem => absurd mem List.not_mem_nil⟩
  | @call visits cache dates w call answer past run ih =>
    have ok := past.ok
    have does := (run.post (wp_code ok call)).1
    rw [List.length_append,List.length_singleton]
    cases call with
    | put p n =>
      obtain ⟨m,keeps,gone,_,entries⟩ := does
      have le := keeps.le
      have length := ih.length
      rw [redate_put ih keeps gone]
      simp only [count] at le length
      refine ⟨?_,?_,?_⟩
      · simp only [count,entries,List.length_append,List.length_take]
        split <;> simp only [List.length_singleton,List.length_nil] <;> omega
      · refine List.Nodup.append ((List.take_sublist m _).nodup ih.nodup) (by split <;> simp) ?_
        intro d old new
        have := ih.past d (List.mem_of_mem_take old)
        split at new <;> simp at new
        omega
      · intro d mem
        rcases List.mem_append.mp mem with old | new
        · have := ih.past d (List.mem_of_mem_take old)
          omega
        · split at new <;> simp at new
          omega
    | take n =>
      obtain ⟨_,taken⟩ := does
      rcases take_cases ok n with ⟨missed,_⟩ | ⟨e,at_,hit,_⟩
      · obtain ⟨rfl,same⟩ := Prod.mk.inj (missed.symm.trans taken)
        rw [← same]
        exact ⟨ih.length,ih.nodup,fun d mem => Nat.lt_succ_of_lt (ih.past d mem)⟩
      · obtain ⟨rfl,left⟩ := Prod.mk.inj (hit.symm.trans taken)
        obtain ⟨inside,_⟩ := List.getElem?_eq_some_iff.mp at_
        have length := ih.length
        simp only [count] at length
        have perm := swapRemove_perm (List.getElem?_eq_getElem (length ▸ inside))
        have fewer := perm.length_eq
        have fewer' := (swapRemove_perm at_).length_eq
        simp only [List.length_cons] at fewer fewer'
        rw [← left]
        simp only [Call.redate,Option.isSome_some,if_pos]
        refine ⟨by simp only [count]; omega,?_,fun d mem => ?_⟩
        · exact (List.nodup_cons.mp (perm.nodup_iff.mp ih.nodup)).2
        · exact Nat.lt_succ_of_lt (ih.past d (perm.mem_iff.mpr (List.mem_cons_of_mem _ mem)))
    | flush =>
      obtain ⟨_,left⟩ := does
      rw [left]
      exact ⟨rfl,List.nodup_nil,fun d mem => absurd mem List.not_mem_nil⟩

end LargeCache

end Numalloc
