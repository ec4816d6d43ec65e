import Numalloc.History
import Numalloc.Separation

/-! What callers stored stays: no action of the allocator writes into, or unmaps, the
range of a live allocation. -/
namespace Numalloc

open Concurrent View

/-- An address that lies in what is left of some mapping. -/
def State.Mapped (s : State) (y : Nat) : Prop :=
  ∃ id m lo hi, s.maps id = some m ∧ (lo,hi) ∈ m.extent ∧ lo ≤ y ∧ y < hi

variable {P : Platform} {strict : Bool} {s s' : State} {c c' : World P strict} {t y lo n : Nat}
  {a : Alloc} {x : Act}

/-- The storage of an allocation is out of reach for every thread. -/
theorem Extent.unreachable (inv : Inv P s) (extent : Extent s a lo n) (low : lo ≤ y)
    (high : y < lo + n) : ¬Reach s t y := by
  rintro (⟨found,holder,low',high'⟩ | @⟨id,m,found,holder,low',high'⟩ | free)
  · have apart := extent.apart_block inv found (by
      rintro ⟨source,rfl⟩
      cases extent with
      | block _ found' user =>
        obtain rfl := Option.some.inj (found.symm.trans found')
        simp [holder] at user
      | mapping source' => simp [source] at source')
    unfold Apart at apart
    omega
  · cases extent with
    | block _ found' user =>
      have apart := inv.slot_apart_map found' found (by simp [holder])
      unfold Apart at apart
      omega
    | @mapping id' m' _ found' user =>
      have ne : id' ≠ id := by
        rintro rfl
        obtain rfl := Option.some.inj (found.symm.trans found')
        simp [holder] at user
      have apart := inv.maps.apart found' found ne
      unfold Apart at apart
      omega
  · cases extent with
    | block _ found' user =>
      obtain ⟨_,m,_,found,_,_,low',high'⟩ := inv.slot_mapping found'
      have := free found
      omega
    | mapping _ found' user =>
      have := free found'
      omega

/-- The mapping a storage lies in, which no thread holds. -/
theorem Extent.mapping_of (inv : Inv P s) (extent : Extent s a lo n) : ∃ id m, s.maps id = some m ∧
    (∀ t, m.holder ≠ .thread t) ∧ m.base ≤ lo ∧ lo + n ≤ m.base + m.size := by
  cases extent with
  | block _ found user =>
    obtain ⟨id,m,_,at_,_,holder,low,high⟩ := inv.slot_mapping found
    exact ⟨id,m,at_,by simp [holder],low,high⟩
  | @mapping id m _ found user => exact ⟨id,m,found,by simp [user],le_rfl,le_rfl⟩

/-- An action neither changes a byte of the storage nor unmaps it. -/
theorem Effect.keeps (inv : Inv P s) (inv' : Inv P s') (effect : Effect t x s s')
    (extent : Extent s a lo n) (low : lo ≤ y) (high : y < lo + n) :
    s'.mem y = s.mem y ∧ s'.Mapped y := by
  refine ⟨by_contra fun changed => extent.unreachable inv low high (effect.mem y changed),?_⟩
  obtain ⟨id,m,found,free,below,above⟩ := extent.mapping_of inv
  rcases effect.maps (inv.maps.old found) with same | ⟨m',found',holder,_⟩
  · rw [found,Option.map_some] at same
    obtain ⟨m',found',shape⟩ := Option.map_eq_some_iff.mp same
    simp only [Mapping.shape,Prod.mk.injEq] at shape
    obtain ⟨base,size,_⟩ := shape
    refine ⟨id,m',m'.base,m'.base + m'.size,found',?_,by omega,by omega⟩
    simp [(inv'.maps.ok found').whole]
  · obtain rfl := Option.some.inj (found.symm.trans found')
    exact absurd holder (free t)

/-- A step other than a caller's write to the byte keeps every byte of a live range. -/
theorem World.Fine.keeps_contents (fine : Fine P strict c) {label : Label}
    (step : c.advance label = some c') (live : a ∈ c.state.live) (low : a.ptr ≤ y)
    (high : y < a.ptr + a.layout.size) (other : ∀ value, label ≠ .write y value) :
    c'.state.mem y = c.state.mem y ∧ c'.state.Mapped y := by
  have inv := fine.inv
  have inv' := (World.Fine.advance fine step).inv
  obtain ⟨lo,n,extent,below,above,_⟩ := inv.extent live
  obtain ⟨id,m,found,_,low',high'⟩ := extent.mapping_of inv
  have still : ∀ {s' : State}, s'.mem y = c.state.mem y → s'.maps = c.state.maps →
      s'.mem y = c.state.mem y ∧ s'.Mapped y := by
    intro s' mem maps
    refine ⟨mem,id,m,m.base,m.base + m.size,maps ▸ found,?_,by omega,by omega⟩
    simp [(inv.maps.ok found).whole]
  cases label with
  | step t ch =>
    rcases World.Fine.effect fine step with ⟨x,_,_,effect⟩ | ⟨_,same⟩
    · exact effect.keeps inv inv' extent (by omega) (by omega)
    · exact still (by rw [same]) (by rw [same])
  | start t request =>
    simp only [World.advance] at step
    split at step
    case h_2 => cases step
    obtain ⟨s,run,rfl⟩ := Option.map_eq_some_iff.mp step
    have begun := start_begun run
    exact still (by simp only [begun.mem]) begun.maps
  | write addr value =>
    have ne : y ≠ addr := fun same => other value (by rw [same])
    simp only [World.advance,Option.ite_none_right_eq_some,Option.some.injEq] at step
    obtain ⟨_,rfl⟩ := step
    obtain ⟨m',found',base,size,_⟩ :=
      (store_same c.state addr 1 (fill c.state.mem addr 1 value)).symm.back found
    refine ⟨fill_outside value (by omega),id,m',m'.base,m'.base + m'.size,found',?_,by omega,by omega⟩
    simp [(inv'.maps.ok found').whole]
  | create numNodes regionSize =>
    obtain rfl := Option.some.inj step
    exact still rfl rfl

/-- The allocation is live at every moment of the run, whoever it is passed to. -/
def World.Lasting (c : World P strict) (schedule : List Label) (a : Alloc) : Prop :=
  ∀ before after c', schedule = before ++ after → c.execute before = some c' →
    ∃ pin, { a with pin := pin } ∈ c'.state.live

theorem World.Lasting.tail {label : Label} {schedule : List Label}
    (lasting : c.Lasting (label :: schedule) a) (step : c.advance label = some c') :
    c'.Lasting schedule a := by
  intro before after c'' split run
  refine lasting (label :: before) after c'' (by rw [split]; rfl) ?_
  simp only [World.execute,step,Option.bind_eq_bind,Option.bind_some]
  exact run

/-- As long as an allocation is live, its bytes are what callers write. -/
theorem World.Fine.contents_run {schedule : List Label} (fine : Fine P strict c)
    (run : c.execute schedule = some c') (lasting : c.Lasting schedule a) (low : a.ptr ≤ y)
    (high : y < a.ptr + a.layout.size) (other : ∀ value, .write y value ∉ schedule) :
    c'.state.mem y = c.state.mem y := by
  induction schedule generalizing c with
  | nil => exact Option.some.inj run ▸ rfl
  | cons label rest ih =>
    obtain ⟨c₁,step,later⟩ := Option.bind_eq_some_iff.mp run
    obtain ⟨pin,live⟩ := lasting [] (label :: rest) c rfl rfl
    have once := World.Fine.keeps_contents fine step live low high fun value same =>
      other value (same ▸ List.mem_cons_self)
    exact (ih (World.Fine.advance fine step) later (lasting.tail step) fun value mem =>
      other value (List.mem_cons_of_mem label mem)).trans once.1

/-- Nothing but the caller's own writes changes what an allocation holds: every other step
of a run keeps every byte of every live range, and keeps it mapped. -/
theorem contents_preserved (reachable : c.Reachable) {label : Label}
    (step : c.advance label = some c') (other : ∀ addr value, label ≠ .write addr value) :
    ∀ a ∈ c.state.live, ∀ y, a.ptr ≤ y → y < a.ptr + a.layout.size →
      c'.state.mem y = c.state.mem y ∧ c'.state.Mapped y :=
  fun _ live y low high =>
    World.Fine.keeps_contents (World.Reachable.fine reachable) step live low high (other y)

set_option maxRecDepth 4000 in
theorem sample_contents_preserved : ∃ c c' : World Sample.platform false,
    (World.initial fun _ => 0).execute (Sample.schedule.take 36) = some c ∧
    c.advance (.step 1 .go) = some c' ∧ c.state.live.map Alloc.ptr = [278528] ∧
    ∀ a ∈ c.state.live, ∀ y, a.ptr ≤ y → y < a.ptr + a.layout.size →
      c'.state.mem y = c.state.mem y ∧ c'.state.Mapped y := by
  have ends : ((World.initial fun _ => 0 : World Sample.platform false).execute
      (Sample.schedule.take 36)).map (fun c => (c.state.live.map Alloc.ptr,
        (c.advance (.step 1 .go)).isSome)) = some ([278528],true) := by decide +kernel
  obtain ⟨c,run,eq⟩ := Option.map_eq_some_iff.mp ends
  obtain ⟨live,steps⟩ := Prod.mk.inj eq
  obtain ⟨c',step⟩ := Option.isSome_iff_exists.mp steps
  exact ⟨c,c',run,step,live,contents_preserved ⟨_,_,run⟩ step (by simp)⟩

end Numalloc
