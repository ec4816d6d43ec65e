import Numalloc.Beside
import Numalloc.Contents

/-! What a thread has in its hands: the bytes of its blocks and mappings, and of the
allocation passed to its operation. Nobody else changes them. -/
namespace Numalloc

open Concurrent View

/-- The address lies in a block or mapping in the thread's hands. -/
def View.Owns (v : View) (y : Nat) : Prop :=
  (∃ b B, v.blocks b = some B ∧ b ≤ y ∧ y < b + sizeForClass B.ref.cls) ∨
    ∃ id m, v.maps id = some m ∧ m.base ≤ y ∧ y < m.base + m.size

variable {P : Platform} {strict : Bool} {s s' : State} {c c' : World P strict} {t y : Nat}

theorem view_owns : (s.view t).Owns y ↔ (∃ b sl, s.slots b = some sl ∧ sl.holder = .thread t ∧
    b ≤ y ∧ y < b + sizeForClass sl.cls) ∨ ∃ id m, s.maps id = some m ∧ m.holder = .thread t ∧
    m.base ≤ y ∧ y < m.base + m.size := by
  constructor
  · rintro (⟨b,B,held,low,high⟩ | ⟨id,m,held,low,high⟩)
    · obtain ⟨sl,found,holder,rfl⟩ := view_block held
      exact Or.inl ⟨b,sl,found,holder,low,high⟩
    · obtain ⟨found,holder⟩ := view_map.mp held
      exact Or.inr ⟨id,m,found,holder,low,high⟩
  · rintro (⟨b,sl,found,holder,low,high⟩ | ⟨id,m,found,holder,low,high⟩)
    · exact Or.inl ⟨b,_,view_block_some found holder,low,high⟩
    · exact Or.inr ⟨id,m,view_map.mpr ⟨found,holder⟩,low,high⟩

theorem View.Owns.reach (owns : (s.view t).Owns y) : Reach s t y := by
  rcases view_owns.mp owns with ⟨b,sl,found,holder,low,high⟩ | ⟨id,m,found,holder,low,high⟩
  · exact .block found holder low high
  · exact .mapping found holder low high

/-- What one thread owns, another cannot reach. -/
theorem Inv.owns_unreachable {u : Nat} (inv : Inv P s) (ne : u ≠ t) (owns : (s.view t).Owns y) :
    ¬Reach s u y := by
  intro reach
  rcases view_owns.mp owns with ⟨b,sl,found,holder,low,high⟩ | ⟨id,m,found,holder,low,high⟩
  · cases reach with
    | @block b' sl' found' holder' low' high' =>
      have other : b ≠ b' := by
        rintro rfl
        obtain rfl := Option.some.inj (found.symm.trans found')
        exact ne (Holder.thread.inj (holder'.symm.trans holder))
      have apart := inv.slots.apart found found' other
      unfold Apart at apart
      omega
    | mapping found' holder' low' high' =>
      have apart := inv.slot_apart_map found found' (by simp [holder'])
      unfold Apart at apart
      omega
    | vacant free =>
      obtain ⟨id,m,_,found',_,_,low',high'⟩ := inv.slot_mapping found
      have := free found'
      omega
  · cases reach with
    | block found' holder' low' high' =>
      have apart := inv.slot_apart_map found' found (by simp [holder])
      unfold Apart at apart
      omega
    | @mapping id' m' found' holder' low' high' =>
      have other : id ≠ id' := by
        rintro rfl
        obtain rfl := Option.some.inj (found.symm.trans found')
        exact ne (MapHolder.thread.inj (holder'.symm.trans holder))
      have apart := inv.maps.apart found found' other
      unfold Apart at apart
      omega
    | vacant free =>
      have := free found
      omega

/-- Others change neither what a thread owns nor a byte of it. -/
theorem World.Fine.owned_bytes {label : Label} (fine : Fine P strict c)
    (step : c.advance label = some c') (other : ∀ ch, label ≠ .step t ch)
    (fresh : ∀ request, label ≠ .start t request) : c'.state.view t = c.state.view t ∧
      ∀ y, (c.state.view t).Owns y → c'.state.mem y = c.state.mem y := by
  cases label with
  | step u ch =>
    have ne : t ≠ u := fun same => other ch (same ▸ rfl)
    refine ⟨(World.Fine.frame fine step ne).2,fun y owns => ?_⟩
    rcases World.Fine.effect fine step with ⟨x,_,_,effect⟩ | ⟨_,same⟩
    · by_contra changed
      exact fine.inv.owns_unreachable (Ne.symm ne) owns (effect.mem y changed)
    · rw [same]
  | start u request =>
    have ne : t ≠ u := fun same => fresh request (same ▸ rfl)
    simp only [World.advance] at step
    split at step
    case h_2 => cases step
    rename_i rest
    obtain ⟨s,run,rfl⟩ := Option.map_eq_some_iff.mp step
    have idle := Good.resting fine rest
    exact ⟨(fine.inv.start idle.pin idle.hand run).2.2 t ne,fun y _ =>
      congrFun (start_begun run).mem y⟩
  | write addr value =>
    simp only [World.advance,Option.ite_none_right_eq_some,Option.some.injEq] at step
    obtain ⟨writable,rfl⟩ := step
    refine ⟨(callerWrite_kept value fine.inv writable).2 t,fun y owns => ?_⟩
    simp only [World.writable,List.any_eq_true,decide_eq_true_eq] at writable
    obtain ⟨a,live,_,low,high⟩ := writable
    obtain ⟨lo,n,extent,below,above,_⟩ := fine.inv.extent live
    refine fill_outside value ?_
    by_contra inside
    obtain rfl : y = addr := by omega
    exact extent.unreachable fine.inv (by omega) (by omega) owns.reach
  | create numNodes regionSize =>
    obtain rfl := Option.some.inj step
    exact ⟨rfl,fun _ _ => rfl⟩

/-- Owned bytes stay owned when nothing changes hands. -/
theorem View.Owns.same (owns : (s.view t).Owns y) (slots : s'.slots = s.slots)
    (maps : SameMaps s.maps s'.maps) : (s'.view t).Owns y := by
  rw [view_owns] at owns ⊢
  rcases owns with block | ⟨id,m,found,holder,low,high⟩
  · exact Or.inl (by rw [slots]; exact block)
  · obtain ⟨m',found',base,size,_,_,holder'⟩ := maps.symm.back found
    exact Or.inr ⟨id,m',found',holder'.trans holder,by omega,by omega⟩

theorem Inv.writable_owns {a n : Nat} (inv : Inv P s) (writable : (s.view t).Writable a n)
    (above : a ≤ y) (below : y < a + n) : (s.view t).Owns y := by
  rcases writable with ⟨b,B,held,low,high⟩ | ⟨id,m,p,held,payload,low,high⟩
  · exact Or.inl ⟨b,B,held,by omega,by omega⟩
  · obtain ⟨_,front,_⟩ := inv.mem.header (view_map.mp held).1 payload
    exact Or.inr ⟨id,m,held,by omega,by omega⟩

/-- The address lies in the thread's hands, or in the allocation passed to its operation. -/
def View.Guards (v : View) (y : Nat) : Prop :=
  v.Owns y ∨ ∃ a, v.pin = some a ∧ a.ptr ≤ y ∧ y < a.ptr + a.layout.size

/-- Thread `t` sees the same, down to the bytes it may count on. -/
structure State.Same (t : Nat) (s s' : State) : Prop where
  view : s'.view t = s.view t
  mem : ∀ y, (s.view t).Guards y → s'.mem y = s.mem y

theorem State.Same.refl (t : Nat) (s : State) : Same t s s := ⟨rfl,fun _ _ => rfl⟩

theorem State.Same.trans {s'' : State} (first : Same t s s') (second : Same t s' s'') :
    Same t s s'' where
  view := second.view.trans first.view
  mem y guards := (second.mem y (first.view ▸ guards)).trans (first.mem y guards)

/-- A caller cannot write into an allocation that is in use by an operation. -/
theorem World.Fine.write_unpinned (fine : Fine P strict c) {addr : Nat} {value : UInt8} {a : Alloc}
    (step : c.advance (.write addr value) = some c') (pinned : c.state.pinned t = some a) :
    ¬(a.ptr ≤ addr ∧ addr < a.ptr + a.layout.size) := by
  rintro ⟨low,high⟩
  obtain ⟨live,pin⟩ := pinned_some pinned
  simp only [World.advance,Option.ite_none_right_eq_some] at step
  have writable := step.1
  simp only [World.writable,List.any_eq_true,decide_eq_true_eq] at writable
  obtain ⟨b,live',free,low',high'⟩ := writable
  have ne : a ≠ b := by
    rintro rfl
    rw [pin] at free
    cases free
  have : Std.Symm fun a a' : Alloc => a.key ≠ a'.key := ⟨fun _ _ => Ne.symm⟩
  have keys : a.key ≠ b.key := fine.inv.live.distinct.forall live live' ne
  obtain ⟨lo,n,extent,below,above,_⟩ := fine.inv.extent live
  obtain ⟨lo',n',extent',below',above',_⟩ := fine.inv.extent live'
  have apart := extent.apart fine.inv extent' keys
  unfold Apart at apart
  omega

/-- Whoever else moves, thread `t` sees the same. -/
theorem World.Fine.others {label : Label} (fine : Fine P strict c)
    (step : c.advance label = some c') (other : ∀ ch, label ≠ .step t ch)
    (fresh : ∀ request, label ≠ .start t request) : State.Same t c.state c'.state := by
  obtain ⟨view,owned⟩ := World.Fine.owned_bytes fine step other fresh
  refine ⟨view,fun y guards => ?_⟩
  rcases guards with owns | ⟨a,pinned,low,high⟩
  · exact owned y owns
  · refine (World.Fine.keeps_contents fine step (pinned_some pinned).1 low high ?_).1
    rintro value rfl
    exact World.Fine.write_unpinned fine step pinned ⟨low,high⟩

/-- A thread at an action either still waits for its turn or took it at some point. -/
theorem World.Fine.await {schedule : List Label} {x : Act} {k : x.Res → Prog allocI Unit}
    (fine : Fine P strict c) (run : c.execute schedule = some c')
    (fresh : ∀ request, .start t request ∉ schedule) (at_ : c.prog t = .act x k) :
    (c'.prog t = .act x k ∧ State.Same t c.state c'.state ∧ ∀ f, c.count t f schedule = 0) ∨
    ∃ before ch after c₁ c₂ r, schedule = before ++ .step t ch :: after ∧
      c.execute before = some c₁ ∧ State.Same t c.state c₁.state ∧ c₁.prog t = .act x k ∧
      c₁.advance (.step t ch) = some c₂ ∧ exec P strict t x ch c₁.state = some (r,c₂.state) ∧
      c₂.prog t = k r ∧ c₂.execute after = some c' ∧ ∀ f, c.count t f before = 0 := by
  induction schedule generalizing c with
  | nil =>
    obtain rfl := Option.some.inj run
    exact Or.inl ⟨at_,.refl t _,fun _ => rfl⟩
  | cons label rest ih =>
    obtain ⟨c₁,step,later⟩ := Option.bind_eq_some_iff.mp run
    by_cases own : ∃ ch, label = .step t ch
    · obtain ⟨ch,rfl⟩ := own
      obtain ⟨r,taken,prog⟩ : ∃ r, exec P strict t x ch c.state = some (r,c₁.state) ∧
          c₁.prog t = k r := by
        simp only [World.advance,Config.advance,at_,Option.map_eq_some_iff] at step
        obtain ⟨⟨r,s⟩,taken,rfl⟩ := step
        exact ⟨r,taken,replace_same⟩
      exact Or.inr ⟨[],ch,rest,c,c₁,r,rfl,rfl,.refl t _,at_,step,taken,prog,later,fun _ => rfl⟩
    · have other : ∀ ch, label ≠ .step t ch := fun ch same => own ⟨ch,same⟩
      have first : ∀ request, label ≠ .start t request := fun request same =>
        fresh request (same ▸ List.mem_cons_self)
      have same := World.Fine.others fine step other first
      have quiet : ∀ f rest', c.count t f (label :: rest') = c₁.count t f rest' := by
        intro f rest'
        have untaken : c.takes t f label = false := by
          cases label with
          | step u ch =>
            have ne : u ≠ t := by
              rintro rfl
              exact other ch rfl
            simp [World.takes,ne]
          | _ => rfl
        simp [World.count,untaken,step]
      rcases ih (World.Fine.advance fine step) later
        (fun request mem => fresh request (List.mem_cons_of_mem label mem))
        ((World.prog_same step other first).trans at_) with
        ⟨still,same',count⟩ | ⟨before,ch,after,c₂,c₃,r,eq,front,same',here,turn,taken,prog,back,count⟩
      · exact Or.inl ⟨still,same.trans same',fun f => (quiet f rest).trans (count f)⟩
      · refine Or.inr ⟨label :: before,ch,after,c₂,c₃,r,by rw [eq]; rfl,?_,same.trans same',here,turn,
          taken,prog,back,fun f => (quiet f before).trans (count f)⟩
        simp only [World.execute,step,Option.bind_eq_bind,Option.bind_some]
        exact front

end Numalloc
