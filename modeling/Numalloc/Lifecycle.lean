import Numalloc.History
import Numalloc.Separation

/-! The life of a large mapping: handed out, cached, in the hands of an operation, and
finally unmapped, with the size it was mapped with. -/
namespace Numalloc

open Concurrent View

inductive MapPlace where
  | live
  | cached (t : Nat)
  | operation (t : Nat)
  | unmapped

variable {P : Platform} {strict : Bool}

/-- Mapping `id`, made with base and size of `m`, is in this place. -/
def World.MapAt (c : World P strict) (id : Nat) (m : Mapping) : MapPlace → Prop
  | .live => ∃ a ∈ c.state.live, a.source = .mapping id
  | .cached t => c.state.maps id ≠ none ∧ ∃ th, c.state.tls t = .alive th ∧
      ⟨m.base,m.size⟩ ∈ th.largeCache.entries
  | .operation t => c.prog t ≠ .ret () ∧ (∃ m', c.state.maps id = some m' ∧ m'.holder = .thread t) ∧
      ∀ th, c.state.tls t = .alive th → ⟨m.base,m.size⟩ ∉ th.largeCache.entries
  | .unmapped => c.state.maps id = none ∧ c.state.unmaps id = 1

/-- What is known of a large mapping at any time after it was made. -/
structure Lifecycle (P : Platform) (c : World P strict) (id : Nat) (m : Mapping) : Prop where
  place : ∃! place, c.MapAt id m place
  extent : ∀ {m'}, c.state.maps id = some m' → m'.base = m.base ∧ m'.size = m.size ∧
    m'.extent = [(m.base,m.base + m.size)]
  once : c.state.unmaps id ≤ 1
  one : ∀ {a a'}, a ∈ c.state.live → a' ∈ c.state.live → a.source = .mapping id →
    a'.source = .mapping id → a = a'
  alloc : ∀ {a}, a ∈ c.state.live → a.source = .mapping id →
    readLE c.state.mem (a.ptr - headerSize) 8 = m.base ∧
    readLE c.state.mem (a.ptr - headerSize + 8) 8 = m.size ∧
    ∃ needed, largeAllocSize P a.layout = some needed ∧ needed ≤ m.size ∧
      m.size ≤ needed + LargeCache.closeSizeTolerance
  entries : ∀ {t th}, c.state.tls t = .alive th →
    (th.largeCache.entries.map LargeCacheEntry.originalPtr).Nodup ∧
    ∀ entry ∈ th.largeCache.entries, c.state.maps id ≠ none → entry.originalPtr = m.base →
      entry.allocSize = m.size
  unmap : ∀ {t ptr size}, (c.prog t).next = some (.munmap ptr size) → c.state.maps id ≠ none →
    ¬Apart ptr size m.base m.size → ptr = m.base ∧ size = m.size ∧ c.MapAt id m (.operation t)

variable {c c₀ : World P strict} {t id : Nat} {m : Mapping}

namespace World.Fine

/-- The mapping behind a cached entry. -/
theorem parked (fine : Fine P strict c) {th : PerThreadHeap} (alive : c.state.tls t = .alive th)
    {entry : LargeCacheEntry} (mem : entry ∈ th.largeCache.entries) : ∃ id m,
      c.state.maps id = some m ∧ m.holder = .thread t ∧ m.base = entry.originalPtr ∧
      m.size = entry.allocSize ∧ m.use = .large th.globalHeap.inst := by
  obtain ⟨L,S,C,cached⟩ := (fine.always t).2 th alive
  obtain ⟨id,_,m,held,base,size,use,_⟩ := cached.entry mem
  obtain ⟨found,holder⟩ := view_map.mp held
  exact ⟨id,m,found,holder,base,size,use⟩

/-- No mapping is cached twice. -/
theorem bases_nodup (fine : Fine P strict c) {th : PerThreadHeap}
    (alive : c.state.tls t = .alive th) :
    (th.largeCache.entries.map LargeCacheEntry.originalPtr).Nodup := by
  obtain ⟨L,S,C,cached⟩ := (fine.always t).2 th alive
  have distinct := cached.ids
  have large := cached.large
  clear cached
  generalize th.largeCache.entries = entries at large
  induction large with
  | nil => exact List.nodup_nil
  | @cons entry id entries ids parked rest ih =>
    obtain ⟨fresh,distinct⟩ := List.nodup_cons.mp distinct
    refine List.nodup_cons.mpr ⟨fun mem => ?_,ih distinct⟩
    obtain ⟨entry',mem',same⟩ := List.mem_map.mp mem
    obtain ⟨m,held,base,_⟩ := parked
    obtain ⟨i,bound,rfl⟩ := List.mem_iff_getElem.mp mem'
    obtain ⟨length,each⟩ := List.forall₂_iff_get.mp rest
    obtain ⟨m',held',base',_⟩ := each i bound (by omega)
    have eq := fine.inv.map_base (view_map.mp held).1 (view_map.mp held').1
      (base.trans (same.symm.trans base'.symm))
    exact fresh (eq ▸ List.getElem_mem _)

/-- A thread at rest holds large mappings only in its cache. -/
theorem resting_map (fine : Fine P strict c) (rest : c.prog t = .ret ())
    (found : c.state.maps id = some m) (holder : m.holder = .thread t) :
    ∃ th, c.state.tls t = .alive th ∧ ⟨m.base,m.size⟩ ∈ th.largeCache.entries := by
  have held : (c.state.view t).maps id = some m := view_map.mpr ⟨found,holder⟩
  rcases (Good.resting fine rest).holds with ⟨th,L,S,C,alive,stock⟩ | bare
  · refine ⟨th,alive,?_⟩
    have cached : id ∈ C := by
      by_contra out
      exact (stock.looseMap.mpr ⟨⟨m,held⟩,out⟩).elim
    obtain ⟨entry,mem,m',held',base,size,_⟩ := stock.cached.parked cached
    obtain rfl := Option.some.inj (held.symm.trans held')
    rw [base,size]
    exact mem
  · exact (bare.looseMap.mpr ⟨m,held⟩).elim

/-- What is about to be unmapped is in nobody's cache. -/
theorem munmap_uncached (fine : Fine P strict c) {ptr size : Nat}
    (at_ : (c.prog t).next = some (.munmap ptr size)) : ∃ id m, c.state.maps id = some m ∧
      m.base = ptr ∧ m.size = size ∧ m.holder = .thread t ∧
      ∀ th, c.state.tls t = .alive th → ⟨ptr,size⟩ ∉ th.largeCache.entries := by
  obtain ⟨id,m,held,base,extent⟩ := fine.safe at_
  obtain ⟨found,holder⟩ := view_map.mp held
  refine ⟨id,m,found,base,extent,holder,fun th alive mem => ?_⟩
  -- after the step the entry would stand for a mapping that is gone
  obtain ⟨k,prog⟩ : ∃ k, c.prog t = .act (.munmap ptr size) k := by
    cases prog : c.prog t with
    | act x k =>
      rw [prog] at at_
      obtain rfl := Option.some.inj at_
      exact ⟨k,rfl⟩
    | ret a => simp [prog,Prog.next] at at_
    | loop body s k => simp [prog,Prog.next] at at_
  have step : ∃ c', Config.advance t Choice.go c = some c' ∧ c'.state.tls t = .alive th ∧
      c'.state.maps = fun id => (c.state.maps id).bind (Mapping.cut ptr size) := by
    simp only [Config.advance,prog]
    exact ⟨_,rfl,alive,rfl⟩
  obtain ⟨c',step,alive',maps⟩ := step
  have fine' : Fine P strict c' := Fine.advance fine (show World.advance c (.step t .go) = some c' from step)
  obtain ⟨id',m',found',_,base',_⟩ := parked fine' alive' mem
  rw [maps] at found'
  obtain ⟨m₀,found₀,cut⟩ := Option.bind_eq_some_iff.mp found'
  have ok := fine.inv.maps.ok found
  have same : id' = id := by
    by_contra ne
    have apart := fine.inv.maps.apart found₀ found ne
    rw [base,extent] at apart
    rw [cut_apart (fine.inv.maps.ok found₀) apart] at cut
    obtain rfl := Option.some.inj cut
    exact ne (fine.inv.map_base found₀ found (base'.trans base.symm))
  subst same
  obtain rfl := Option.some.inj (found.symm.trans found₀)
  rw [← base,← extent,cut_whole ok] at cut
  cases cut

end World.Fine

/-- A place of a mapping that still exists, by who holds it. -/
theorem World.Fine.map_place (fine : Fine P strict c) {m' : Mapping}
    (found : c.state.maps id = some m') (base : m'.base = m.base) (size : m'.size = m.size)
    {i : Nat} (use : m'.use = .large i) : ∃! place, c.MapAt id m place := by
  have inv := fine.inv
  have own : ∀ {u th}, c.state.tls u = .alive th → ⟨m.base,m.size⟩ ∈ th.largeCache.entries →
      m'.holder = .thread u := by
    intro u th alive mem
    obtain ⟨id',m₁,found',holder,base',_⟩ := World.Fine.parked fine alive mem
    obtain rfl := inv.map_base found found' (base.trans base'.symm)
    obtain rfl := Option.some.inj (found.symm.trans found')
    exact holder
  have user : (∃ a ∈ c.state.live, a.source = .mapping id) → m'.holder = .user := by
    rintro ⟨a,live,source⟩
    have backed := inv.live.backed live
    simp only [Backed,source] at backed
    obtain ⟨m₁,found',holder,_⟩ := backed
    obtain rfl := Option.some.inj (found.symm.trans found')
    exact holder
  have holder : ∀ {place}, c.MapAt id m place → match place with
      | .live => m'.holder = .user
      | .cached u => m'.holder = .thread u
      | .operation u => m'.holder = .thread u
      | .unmapped => False := by
    intro place at_
    cases place with
    | live => exact user at_
    | cached u =>
      obtain ⟨_,th,alive,mem⟩ := at_
      exact own alive mem
    | operation u =>
      obtain ⟨_,⟨m₁,found',holder⟩,_⟩ := at_
      obtain rfl := Option.some.inj (found.symm.trans found')
      exact holder
    | unmapped => exact absurd at_.1 (by simp [found])
  obtain ⟨place,at_⟩ : ∃ place, c.MapAt id m place := by
    cases held : m'.holder with
    | heap => exact absurd held (inv.heaps.mapLarge found use).1
    | user => exact ⟨.live,inv.live.ofMap found held⟩
    | thread u =>
      by_cases cached : ∃ th, c.state.tls u = .alive th ∧ ⟨m.base,m.size⟩ ∈ th.largeCache.entries
      · exact ⟨.cached u,by simp [found],cached⟩
      · refine ⟨.operation u,fun rest => cached ?_,⟨m',found,held⟩,fun th alive mem =>
          cached ⟨th,alive,mem⟩⟩
        rw [← base,← size]
        exact World.Fine.resting_map fine rest found held
  refine ⟨place,at_,fun place' at' => ?_⟩
  have left := holder at_
  have right := holder at'
  cases place <;> try exact (left : False).elim
  all_goals cases place' <;> try exact (right : False).elim
  all_goals
    simp only [left,MapHolder.thread.injEq,reduceCtorEq] at right
    try subst right
  case live.live | cached.cached | operation.operation => rfl
  case cached.operation =>
    obtain ⟨_,th,alive,mem⟩ := at_
    exact absurd mem (at'.2.2 th alive)
  case operation.cached =>
    obtain ⟨_,th,alive,mem⟩ := at'
    exact absurd mem (at_.2.2 th alive)

theorem World.Fine.gone_place (gone : c.state.maps id = none) (once : c.state.unmaps id = 1)
    (fine : Fine P strict c) : ∃! place, c.MapAt id m place := by
  refine ⟨.unmapped,⟨gone,once⟩,fun place at_ => ?_⟩
  cases place with
  | unmapped => rfl
  | cached u => exact absurd gone at_.1
  | operation u =>
    obtain ⟨_,⟨m',found,_⟩,_⟩ := at_
    simp [gone] at found
  | live =>
    obtain ⟨a,live,source⟩ := at_
    have backed := fine.inv.live.backed live
    simp only [Backed,source] at backed
    obtain ⟨m',found,_⟩ := backed
    simp [gone] at found

/-- From the moment it was made, a large mapping is at any time in exactly one place, its
header and its cache entry record the size it was mapped with, it fits its allocation
within the tolerance, and it is unmapped at most once, whole, by an operation that holds it. -/
theorem mapping_lifecycle (reachable : c₀.Reachable) {schedule : List Label}
    (run : c₀.execute schedule = some c) {i : Nat} (made : c₀.state.maps id = some m)
    (use : m.use = .large i) : Lifecycle P c id m := by
  have fine₀ := World.Reachable.fine reachable
  have fine := World.Fine.execute fine₀ run
  have inv := fine.inv
  have old : id < c₀.state.nextMap := by
    by_contra le
    simp [fine₀.inv.maps.fresh (Nat.le_of_not_lt le)] at made
  obtain ⟨known,later⟩ := World.Fine.shape_run fine₀ run old
  have shape : ∀ {m'}, c.state.maps id = some m' → m'.base = m.base ∧ m'.size = m.size ∧
      m'.use = m.use := by
    intro m' found
    rcases later with same | gone
    · rw [found,made] at same
      simpa [Mapping.shape] using same
    · simp [gone] at found
  refine ⟨?_,fun {m'} found => ?_,?_,fun {a a'} live live' source source' => ?_,fun {a} live source => ?_,
    fun {u th} alive => ⟨World.Fine.bases_nodup fine alive,fun entry mem present base => ?_⟩,
    fun {u ptr size} at_ present meets => ?_⟩
  · cases found : c.state.maps id with
    | none => exact World.Fine.gone_place found (inv.maps.gone known found) fine
    | some m' =>
      obtain ⟨base,size,use'⟩ := shape found
      exact World.Fine.map_place fine found base size (use'.trans use)
  · obtain ⟨base,size,_⟩ := shape found
    exact ⟨base,size,by rw [(inv.maps.ok found).whole,base,size]⟩
  · cases found : c.state.maps id with
    | none => exact (inv.maps.gone known found).le
    | some m' => simp [inv.maps.present (show c.state.maps id ≠ none by simp [found])]
  · by_contra ne
    exact inv.live.keys live live' ne (by simp [Alloc.key,source,source'])
  · have backed := inv.live.backed live
    simp only [Backed,source] at backed
    obtain ⟨m',found,_,_,payload,placed⟩ := backed
    obtain ⟨base,size,_⟩ := shape found
    obtain ⟨_,_,_,first,second⟩ := inv.mem.header found payload
    rw [base] at first
    rw [size] at second
    exact ⟨first,second,size ▸ placed.fits⟩
  · obtain ⟨m',found⟩ := Option.ne_none_iff_exists'.mp present
    obtain ⟨id',m₁,found',_,base',size',_⟩ := World.Fine.parked fine alive mem
    obtain ⟨base₀,size₀,_⟩ := shape found
    obtain rfl := inv.map_base found found' (base₀.trans (base.symm.trans base'.symm))
    obtain rfl := Option.some.inj (found.symm.trans found')
    exact size'.symm.trans size₀
  · obtain ⟨m',found⟩ := Option.ne_none_iff_exists'.mp present
    obtain ⟨id',m₁,found',base',size',holder,uncached⟩ := World.Fine.munmap_uncached fine at_
    obtain ⟨base₀,size₀,_⟩ := shape found
    have same : id' = id := by
      by_contra ne
      have apart := inv.maps.apart found' found ne
      rw [base',size',base₀,size₀] at apart
      exact meets apart
    subst same
    obtain rfl := Option.some.inj (found.symm.trans found')
    obtain rfl : m.base = ptr := base₀.symm.trans base'
    obtain rfl : m.size = size := size₀.symm.trans size'
    exact ⟨rfl,rfl,fun rest => by simp [rest,Prog.next] at at_,⟨_,found,holder⟩,uncached⟩

set_option maxRecDepth 4000 in
theorem sample_lifecycle : ∃ (c : World Sample.platform false) (m : Mapping),
    (World.initial fun _ => 0).execute Sample.schedule = some c ∧
    c.state.maps 1 = some m ∧ m.shape = (8192000,266240,.large 0) ∧
    Lifecycle Sample.platform c 1 m := by
  have ends : ((World.initial fun _ => 0 : World Sample.platform false).execute
      Sample.schedule).map (fun c => (c.state.maps 1).map Mapping.shape) =
        some (some (8192000,266240,.large 0)) := by decide +kernel
  obtain ⟨c,run,made⟩ := Option.map_eq_some_iff.mp ends
  obtain ⟨m,made,shape⟩ := Option.map_eq_some_iff.mp made
  have later : c.execute [] = some c := rfl
  have use : m.use = .large 0 := congrArg (fun shape => shape.2.2) shape
  exact ⟨c,m,run,made,shape,mapping_lifecycle ⟨_,_,run⟩ later made use⟩

end Numalloc
