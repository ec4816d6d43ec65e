import Numalloc.Capacity
import Numalloc.Sight
import Numalloc.Traces
import Numalloc.Partition
import Numalloc.ReuseOrder
import Numalloc.Routing

/-! `realloc`: whatever way it goes, the caller's bytes are there, and the old storage is
given up once or not at all. -/
namespace Numalloc

open Concurrent View Logic

variable {P : Platform} {strict : Bool} {v v' : View} {th : PerThreadHeap} {L S : Nat → List Nat}
  {C bs ids : List Nat} {H H' H₁ M M' M₁ : Set Nat} {inst ptr p t y : Nat} {layout : Layout}

/-! An operation that holds more than it needs. -/

theorem View.Sane.hide (sane : v.Sane P) (bs ids : List Nat) : (v.hide bs ids).Sane P where
  user held := sane.user (hide_block.mp held).2
  cls held := sane.cls (hide_block.mp held).2
  rooted b B held := sane.rooted b B (hide_block.mp held).2
  maps found := sane.maps (hide_map.mp found).2

theorem Stock.hide (stock : Stock P strict v th L S C H M) (blocks : ∀ b ∈ bs, b ∈ H)
    (maps : ∀ id ∈ ids, id ∈ M) :
    Stock P strict (v.hide bs ids) th L S C (H \ {b | b ∈ bs}) (M \ {id | id ∈ ids}) := by
  refine stock.transfer (stock.sane.hide bs ids) (fun {c b} mem => hide_blocks_of fun hidden => ?_)
    (fun {id} mem => hide_maps_of fun hidden => ?_) (fun {b} => ?_) (fun {id} => ?_)
    fun {id m} mem found => stock.uses mem.1 (hide_map.mp found).2
  · exact stock.notCached (blocks b hidden) c mem
  · exact (stock.looseMap.mp (maps id hidden)).2 mem
  · simp only [hide_block,exists_and_left,Set.mem_sdiff,Set.mem_ofPred_eq,stock.loose]
    tauto
  · simp only [hide_map,exists_and_left,Set.mem_sdiff,Set.mem_ofPred_eq,stock.looseMap]
    tauto

theorem Ready.hide (ready : Ready P strict v inst H M) (blocks : ∀ b ∈ bs, b ∈ H)
    (maps : ∀ id ∈ ids, id ∈ M) :
    Ready P strict (v.hide bs ids) inst (H \ {b | b ∈ bs}) (M \ {id | id ∈ ids}) where
  holds := ready.holds.lift rfl fun stock => stock.hide blocks maps
  inst := ready.inst
  hand := ready.hand
  dying := ready.dying
  carried := ⟨fun b mem k ref => ready.carried.blocks b mem.1 k (hide_ref_some ref).2,
    fun id mem m found => ready.carried.maps id mem.1 m (hide_map.mp found).2⟩

/-- The operand of a deallocation is not among what is hidden from it. -/
theorem Returned.hide (returned : Returned strict v inst ptr layout H₁ M₁ H M)
    (blocks : ∀ b ∈ bs, b ∈ H) (maps : ∀ id ∈ ids, id ∈ M) :
    (∀ b ∈ bs, b ∈ H₁) ∧ (∀ id ∈ ids, id ∈ M₁) ∧ ∃ H₂ M₂,
      Returned strict (v.hide bs ids) inst ptr layout (H₁ \ {b | b ∈ bs}) (M₁ \ {id | id ∈ ids}) H₂ M₂ := by
  cases returned with
  | block mem user call node cls ref =>
    have out : ptr ∉ bs := fun hidden => (blocks ptr hidden).2 rfl
    exact ⟨fun b hidden => (blocks b hidden).1,maps,_,_,
      .block ⟨mem,out⟩ user call node cls ((hide_ref_of out).trans ref)⟩
  | @mapping id m mem found use payload header inside home =>
    have out : id ∉ ids := fun hidden => (maps id hidden).2 rfl
    exact ⟨blocks,fun id hidden => (maps id hidden).1,_,_,
      .mapping ⟨mem,out⟩ (hide_map.mpr ⟨out,found⟩) use payload header inside home⟩

/-- What was obtained is one block or one mapping, which covers what was asked for. -/
theorem Obtained.part (got : Obtained P strict v layout p H M H' M') : ∃ bs ids : List Nat,
    (∀ b ∈ bs, b ∈ H') ∧ (∀ id ∈ ids, id ∈ M') ∧ v.Has bs ids ∧ v.Covers bs ids p ∧
    ∀ y, p ≤ y → y < p + layout.size → v.Covers bs ids y := by
  cases got with
  | @block th r c fresh present ref cls =>
    obtain ⟨B,block,ref'⟩ := block_of_ref ref
    have fits := Layout.size_le_class cls
    have pos := sizeForClass_pos (sizeClassIndex_spec cls).1
    refine ⟨[p],[],by simp,by simp,⟨by simpa using ⟨B,block⟩,by simp⟩,
      Or.inl ⟨p,by simp,B,block,le_rfl,?_⟩,fun y low high => Or.inl ⟨p,by simp,B,block,low,?_⟩⟩
    · rw [ref']
      simp only
      omega
    · rw [ref']
      simp only
      omega
  | @mapping id m inst fresh found payload called use placed fixed =>
    have header := placed.header
    have room := placed.room
    exact ⟨[],[id],by simp,by simp,⟨by simp,by simpa using ⟨m,found⟩⟩,
      Or.inr ⟨id,by simp,m,found,by omega,placed.inside⟩,
      fun y low high => Or.inr ⟨id,by simp,m,found,by omega,by omega⟩⟩

/-! How far an operation has come. -/

def Act.isRelease : Act → Bool
  | .release => true
  | _ => false

def Act.isGive : Act → Bool
  | .give _ _ => true
  | _ => false

/-- What an operation does before it answers, the release of its operand apart. -/
def Act.inner : Act → Bool
  | .release | .give _ _ | .finish => false
  | _ => true

theorem Allocates.inner (x : allocI.Op) (h : Allocates P x) : Act.inner x = true := by
  cases x <;> first | rfl | cases h

theorem Frees.inner (x : allocI.Op) (h : Frees x) : Act.inner x = true := by
  cases x <;> first | rfl | cases h

/-- The old block serves the new size: both sizes are small and of the same class, and the
block is one of a region. -/
def Alloc.StaysPut (a : Alloc) (newSize : Nat) : Prop :=
  a.source = .slot ∧ a.layout.effective ≤ smallLimit ∧ max newSize a.layout.align ≤ smallLimit ∧
    sizeClassIndex a.layout.effective = sizeClassIndex (max newSize a.layout.align)

namespace World

variable {c c₁ c' : World P strict} {schedule before after : List Label} {α : Type}
  {prog : Prog allocI α} {f : α → Prog allocI Unit} {Q : α → View × Set (Nat × UInt8) → Prop}

/-- The operation has not answered, and is not about to. -/
def Underway (c : World P strict) (t : Nat) : Prop :=
  ∀ x, (c.prog t).next = some x → Act.isGive x = false ∧ x ≠ .finish

/-- A stretch of a run in which the thread releases so many operands, and hands nothing out. -/
structure Leads (c c' : World P strict) (t n : Nat) (before : List Label) : Prop where
  run : c.execute before = some c'
  releases : c.count t Act.isRelease before = n
  gives : c.count t Act.isGive before = 0

theorem Leads.refl (c : World P strict) (t : Nat) : c.Leads c t 0 [] := ⟨rfl,rfl,rfl⟩

theorem Leads.trans {m n : Nat} (first : c.Leads c₁ t m before) (second : c₁.Leads c' t n after) :
    c.Leads c' t (m + n) (before ++ after) where
  run := execute_trans first.run second.run
  releases := by rw [count_append first.run,first.releases,second.releases]
  gives := by rw [count_append first.run,first.gives,second.gives]

/-- A part of an operation: it is still in progress, or has come to its end. -/
theorem Fine.leg (fine : Fine P strict c) (run : c.execute schedule = some c')
    (fresh : ∀ request, .start t request ∉ schedule) (at_ : c.prog t = prog.bind f)
    (only : prog.Only fun x => Act.inner x = true)
    (pre : (sightLogic P strict).wp prog Q (c.state.sight t)) :
    c'.Underway t ∨ ∃ before after cm a, schedule = before ++ after ∧ c.Leads cm t 0 before ∧
      cm.execute after = some c' ∧ (∀ request, .start t request ∉ after) ∧ Fine P strict cm ∧
      cm.prog t = f a ∧ Q a (cm.state.sight t) := by
  have quiet : ∀ g : Act → Bool, (g = Act.isRelease ∨ g = Act.isGive) →
      ∀ x : Act, x.inner = true → g x = false := by
    rintro g (rfl | rfl) x inner <;> cases x <;> first | rfl | cases inner
  rcases sight_beside.split fine run fresh at_ only pre with
    ⟨next,_⟩ | ⟨before,after,cm,a,eq,front,back,here,post,none_⟩
  · refine Or.inl fun x at' => ?_
    have inner := next x at'
    refine ⟨quiet _ (Or.inr rfl) x inner,?_⟩
    rintro rfl
    cases inner
  · refine Or.inr ⟨before,after,cm,a,eq,⟨front,none_ _ (quiet _ (Or.inl rfl)),none_ _ (quiet _ (Or.inr rfl))⟩,
      back,fun request mem => fresh request ?_,World.Fine.execute fine front,here,post⟩
    rw [eq]
    exact List.mem_append_right _ mem

/-- The operand is still the caller's, with its bytes. -/
structure Keeps (c c' : World P strict) (t : Nat) (a : Alloc) : Prop where
  pinned : c'.state.pinned t = some a
  bytes : ∀ y, a.ptr ≤ y → y < a.ptr + a.layout.size → c'.state.mem y = c.state.mem y

/-- The operand's bytes are at the new place, which is in the thread's hands. -/
structure Moved (c c' : World P strict) (t q n : Nat) (a : Alloc) : Prop where
  pinned : c'.state.pinned t = none
  bytes : ∀ i < n, c'.state.mem (q + i) = c.state.mem (a.ptr + i)
  guards : ∀ i < n, (c'.state.view t).Guards (q + i)

/-- The two places do not meet. -/
def Asunder (p m q n : Nat) : Prop := p ≠ q ∧ ∀ y, p ≤ y → y < p + m → ¬(q ≤ y ∧ y < q + n)

/-- What a thread has in its hands does not meet an allocation that is live. -/
theorem Fine.asunder {a : Alloc} (fine : Fine P strict c) (live : a ∈ c.state.live) {q n : Nat}
    (first : (c.state.view t).Owns q)
    (covers : ∀ y, q ≤ y → y < q + n → (c.state.view t).Owns y) :
    Asunder a.ptr a.layout.size q n := by
  obtain ⟨lo,m,extent,below,above,inside⟩ := fine.inv.extent live
  refine ⟨fun same => ?_,fun y low high meet => ?_⟩
  · have here : a.ptr < lo + m := by
      cases extent with
      | block source found user =>
        have := fine.inv.slot_eight found
        omega
      | mapping source found user => exact (inside _ source).2
    exact extent.unreachable fine.inv below here (same ▸ first).reach
  · exact extent.unreachable fine.inv (by omega) (by omega) (covers y meet.1 meet.2).reach

variable {a : Alloc} {newLayout : Layout} {newSize : Nat} {k : Option Nat → Prog allocI Unit}

/-- Allocating a place to move to, and filling it. -/
theorem Fine.copies (fine : Fine P strict c) (run : c.execute schedule = some c')
    (fresh : ∀ request, .start t request ∉ schedule)
    (at_ : c.prog t = (reallocMove P inst ptr layout newSize).bind k)
    (resized : layout.resize newSize = some newLayout)
    (ready : Ready P strict (c.state.view t) inst H M)
    (operand : Operand (c.state.view t) inst ptr layout a) :
    c'.Underway t ∨ ∃ before after cm, schedule = before ++ after ∧ c.Leads cm t 0 before ∧
      cm.execute after = some c' ∧ (∀ request, .start t request ∉ after) ∧ Fine P strict cm ∧
      ((cm.prog t = k none ∧ Keeps c cm t a) ∨
       ∃ q H' M', cm.prog t = (act .release).bind (fun _ => (dealloc inst ptr layout).bind fun _ => k (some q)) ∧
        Ready P strict (cm.state.view t) inst H' M' ∧ Operand (cm.state.view t) inst ptr layout a ∧
        Obtained P strict (cm.state.view t) newLayout q H M H' M' ∧
        ∀ i < min layout.size newSize, (q + i,c.state.mem (ptr + i)) ∈ (cm.state.sight t).2) := by
  rw [reallocMove_eq resized,Prog.bind_assoc] at at_
  rcases Fine.leg fine run fresh at_ ((alloc_only inst newLayout).mono Allocates.inner)
      (wp_sight (B := (c.state.sight t).2) (wp_alloc ready) (wp_pinned (alloc_only inst newLayout) operand.pin)) with
    underway | ⟨before,after,cm,x,eq,leads,back,fresh₁,fine₁,here,answered,pin,bytes⟩
  · exact Or.inl underway
  have known : ∀ y, a.ptr ≤ y → y < a.ptr + a.layout.size → (y,c.state.mem y) ∈ (cm.state.sight t).2 :=
    fun y low high => bytes y _ low high ⟨rfl,Or.inr ⟨a,operand.pin,low,high⟩⟩
  cases x with
  | none => exact Or.inr ⟨before,after,cm,eq,leads,back,fresh₁,fine₁,
      Or.inl ⟨here,pin,fun y low high => (known y low high).1⟩⟩
  | some q =>
    obtain ⟨frame,H',M',holds,got⟩ := answered
    obtain ⟨size,_⟩ := Layout.resize_size resized
    have le : min layout.size newSize ≤ newLayout.size := by omega
    have copied : (sightLogic P strict).wp (act (.copy ptr q (min layout.size newSize))) (fun _ w =>
        Frame (cm.state.view t) w.1 H' M' ∧ Holds P strict w.1 H' M' ∧
          Obtained P strict w.1 newLayout q H M H' M' ∧
          ∀ i < min layout.size newSize, (q + i,c.state.mem (ptr + i)) ∈ w.2) (cm.state.sight t) := by
      refine ⟨trivial,trivial,fun _ w st => ?_⟩
      obtain ⟨_,wrote,_,_,_,bytes⟩ := st
      obtain ⟨frame',holds'⟩ := got.overwritten holds le wrote
      have got' := got.carry frame'
      refine ⟨trivial,frame',holds',got',fun i inside => ?_⟩
      obtain ⟨_,_,_,_,_,_,covers⟩ := got'.part
      refine bytes i _ inside ?_ (Or.inl (covers _ (by omega) (by omega)).owns)
      refine known _ (by rw [operand.ptr]; omega) ?_
      rw [operand.ptr,operand.layout]
      omega
    have here : cm.prog t = (act (.copy ptr q (min layout.size newSize))).bind fun _ =>
        (act .release).bind fun _ => ((dealloc inst ptr layout).bind fun _ => .ret (some q)).bind k := here
    rcases Fine.leg fine₁ back fresh₁ here (.call rfl) copied with
      underway | ⟨before',after',cm',_,eq',leads',back',fresh',fine',here',frame',holds',got',bytes'⟩
    · exact Or.inl underway
    have sub := got'.grown
    have whole := frame.trans (frame'.mono sub.1 sub.2)
    refine Or.inr ⟨before ++ before',after',cm',by rw [eq,eq',List.append_assoc],leads.trans leads',back',
      fresh',fine',Or.inr ⟨q,H',M',?_,?_,?_,got',bytes'⟩⟩
    · rw [here']
      simp only [Prog.bind_assoc]
      rfl
    · exact ready.next whole holds' (got'.carried (whole.carried ready.carried))
    · exact ⟨whole.pin.trans operand.pin,operand.ptr,operand.layout,operand.inst⟩

/-- Giving up the old place, once the new one is filled. -/
theorem Fine.releases {q n : Nat} {u : Nat → UInt8} (fine : Fine P strict c)
    (run : c.execute schedule = some c') (fresh : ∀ request, .start t request ∉ schedule)
    (at_ : c.prog t = (act .release).bind fun _ => (dealloc inst ptr layout).bind fun _ => k (some q))
    (ready : Ready P strict (c.state.view t) inst H' M')
    (operand : Operand (c.state.view t) inst ptr layout a)
    (got : Obtained P strict (c.state.view t) newLayout q H M H' M') (le : n ≤ newLayout.size)
    (bytes : ∀ i < n, (q + i,u i) ∈ (c.state.sight t).2) :
    c'.Underway t ∨ ∃ before after cm, schedule = before ++ after ∧ c.Leads cm t 1 before ∧
      cm.execute after = some c' ∧ (∀ request, .start t request ∉ after) ∧ Fine P strict cm ∧
      cm.prog t = k (some q) ∧ cm.state.pinned t = none ∧
      ∀ i < n, (q + i,u i) ∈ (cm.state.sight t).2 := by
  rcases Fine.await fine run fresh at_ with
    ⟨waits,_⟩ | ⟨before,ch,after,c₁,c₂,r,eq,front,same,here,turn,taken,prog,back,quiet⟩
  · refine Or.inl fun x next => ?_
    rw [waits] at next
    obtain rfl := Option.some.inj next
    exact ⟨rfl,by simp⟩
  have prog : c₂.prog t = (dealloc inst ptr layout).bind fun _ => k (some q) := prog
  have fine₁ := World.Fine.execute fine front
  have fine₂ := World.Fine.advance fine₁ turn
  have once : c₁.Leads c₂ t 1 [.step t ch] := by
    refine ⟨by simp [World.execute,turn],?_,?_⟩ <;>
      simp [World.count,World.takes,turn,here,Prog.next,Act.isRelease,Act.isGive]
  have first : c.Leads c₂ t 1 (before ++ [.step t ch]) :=
    Leads.trans ⟨front,quiet _,quiet _⟩ once
  have fresh₂ : ∀ request, .start t request ∉ after := fun request mem => fresh request (by
    rw [eq]
    exact List.mem_append_right _ (List.mem_cons_of_mem _ mem))
  -- the release itself: the operand joins what is in hand
  have sight := same.sight
  have view := same.view
  have released := sight_beside.own fine₁.inv fine₁.always (fine₁.safe (t := t) (by rw [here]; rfl))
    trivial taken
  rw [sight] at released
  have spec := wp_release (k := .ret) (Q := fun _ v' => v'.pin = none ∧
    Frame { (c.state.view t) with pin := none } v' H' M' ∧ ∃ H₁ M₁, Ready P strict v' inst H₁ M₁ ∧
      Returned strict v' inst ptr layout H₁ M₁ H' M') ready operand fun v' H₁ M₁ pin frame ready' returned =>
        ⟨ready'.holds.always,pin,frame,H₁,M₁,ready',returned⟩
  obtain ⟨_,step,_,_,bytes₂,_⟩ := released
  obtain ⟨pin,frame,H₁,M₁,ready₂,returned⟩ := (spec.2.2 r (c₂.state.view t) step).2
  have got₂ := got.unpin.carry frame
  obtain ⟨bs,ids,blocks,maps,has,_,covers⟩ := got₂.part
  obtain ⟨inBlocks,inMaps,H₂,M₂,returned'⟩ := returned.hide blocks maps
  have bytes₂ : ∀ i < n, (q + i,u i) ∈ (c₂.state.sight t).2 := fun i inside =>
    bytes₂ rfl _ _ (Or.inl (covers _ (by omega) (by omega)).owns) (bytes i inside)
  -- the deallocation does not know of the new place
  have pre := wp_spared (B := (c₂.state.sight t).2) (wp_dealloc (ready₂.hide inBlocks inMaps) returned')
    (dealloc_only inst ptr layout) has
  rcases Fine.leg fine₂ back fresh₂ prog ((dealloc_only inst ptr layout).mono Frees.inner) pre with
    underway | ⟨before',after',cm,_,eq',leads,back',fresh',fine',here',kept,shielded⟩
  · exact Or.inl underway
  refine Or.inr ⟨before ++ [.step t ch] ++ before',after',cm,by simp [eq,eq'],first.trans leads,back',fresh',
    fine',here',?_,fun i inside => ?_⟩
  · exact kept.1.pin.trans pin
  · exact shielded.2 _ _ (covers _ (by omega) (by omega)) (bytes₂ i inside)

theorem Keeps.refl (pinned : c.state.pinned t = some a) : Keeps c c t a := ⟨pinned,fun _ _ _ => rfl⟩

theorem Keeps.trans (first : Keeps c c₁ t a) (second : Keeps c₁ c' t a) : Keeps c c' t a :=
  ⟨second.pinned,fun y low high => (second.bytes y low high).trans (first.bytes y low high)⟩

/-- What a reallocation has come to when it returns. -/
inductive Reallocated (k : Option Nat → Prog allocI Unit) (c c' : World P strict) (t newSize : Nat)
    (a : Alloc) (before : List Label) : Option Nat → Prop where
  | failed (leads : c.Leads c' t 0 before) (keeps : Keeps c c' t a) :
      Reallocated k c c' t newSize a before none
  | stayed (leads : c.Leads c' t 0 before) (keeps : Keeps c c' t a) (stays : a.StaysPut newSize) :
      Reallocated k c c' t newSize a before (some a.ptr)
  | moved {q : Nat} {first rest : List Label} {cr : World P strict} (leads : c.Leads c' t 1 before)
      (moved : Moved c c' t q (min a.layout.size newSize) a)
      (asunder : Asunder a.ptr a.layout.size q newSize) (leaves : ¬a.StaysPut newSize)
      (resized : (a.layout.resize newSize).isSome) (split : before = first ++ rest) (front : c.execute first = some cr)
      (release : cr.prog t = (act .release).bind fun _ =>
        (dealloc a.inst a.ptr a.layout).bind fun _ => k (some q))
      (pinned : cr.state.pinned t = some a) : Reallocated k c c' t newSize a before (some q)

theorem Reallocated.run {x : Option Nat} (done : Reallocated k c c' t newSize a before x) :
    c.execute before = some c' := by
  cases done with
  | failed leads => exact leads.run
  | stayed leads => exact leads.run
  | moved leads => exact leads.run

/-- What came before the part that decides does not matter. -/
theorem Reallocated.since {x : Option Nat} (leads : c.Leads c₁ t 0 before) (keeps : Keeps c c₁ t a)
    (done : Reallocated k c₁ c' t newSize a after x) :
    Reallocated k c c' t newSize a (before ++ after) x := by
  cases done with
  | failed leads' keeps' =>
    have whole := leads.trans leads'
    exact .failed whole (keeps.trans keeps')
  | stayed leads' keeps' stays =>
    have whole := leads.trans leads'
    exact .stayed whole (keeps.trans keeps') stays
  | @moved q first rest cr leads' moved asunder leaves resized split front release pinned =>
    have whole := leads.trans leads'
    refine .moved whole ⟨moved.pinned,fun i inside => ?_,moved.guards⟩ asunder leaves resized
      (by rw [split,List.append_assoc]) (execute_trans leads.run front) release pinned
    rw [moved.bytes i inside]
    exact keeps.bytes _ (by omega) (by omega)

/-- Allocate, copy, deallocate. -/
theorem Fine.moves (fine : Fine P strict c) (run : c.execute schedule = some c')
    (fresh : ∀ request, .start t request ∉ schedule)
    (at_ : c.prog t = (reallocMove P a.inst a.ptr a.layout newSize).bind k)
    (ready : Ready P strict (c.state.view t) a.inst H M) (pinned : c.state.pinned t = some a)
    (leaves : ¬a.StaysPut newSize) :
    c'.Underway t ∨ ∃ before after cm x, schedule = before ++ after ∧ cm.execute after = some c' ∧
      (∀ request, .start t request ∉ after) ∧ Fine P strict cm ∧ cm.prog t = k x ∧
      Reallocated k c cm t newSize a before x := by
  have operand : Operand (c.state.view t) a.inst a.ptr a.layout a := ⟨pinned,rfl,rfl,rfl⟩
  cases resized : a.layout.resize newSize with
  | none =>
    have failed : reallocMove P a.inst a.ptr a.layout newSize = .ret none := by
      unfold reallocMove
      rw [resized]
      rfl
    rw [failed] at at_
    exact Or.inr ⟨[],schedule,c,none,rfl,run,fresh,fine,at_,.failed (.refl c t) (.refl pinned)⟩
  | some newLayout =>
    obtain ⟨size,_⟩ := Layout.resize_size resized
    rcases Fine.copies fine run fresh at_ resized ready operand with
      underway | ⟨before,after,cm,eq,leads,back,fresh₁,fine₁,ends⟩
    · exact Or.inl underway
    rcases ends with ⟨here,keeps⟩ | ⟨q,H',M',here,ready₁,operand₁,got,bytes⟩
    · exact Or.inr ⟨before,after,cm,none,eq,back,fresh₁,fine₁,here,.failed leads keeps⟩
    rcases Fine.releases (u := fun i => c.state.mem (a.ptr + i)) fine₁ back fresh₁ here ready₁ operand₁ got
        (by omega) bytes with
      underway | ⟨before',after',cm',eq',leads',back',fresh',fine',here',free,bytes'⟩
    · exact Or.inl underway
    have whole := leads.trans leads'
    obtain ⟨bs,ids,_,_,_,first,covers⟩ := got.part
    refine Or.inr ⟨before ++ before',after',cm',some q,by rw [eq,eq',List.append_assoc],back',fresh',fine',
      here',.moved whole ⟨free,fun i inside => (bytes' i inside).1,fun i inside => (bytes' i inside).2⟩ ?_
        leaves (by rw [resized]; rfl) rfl leads.run here operand₁.pin⟩
    have asunder := Fine.asunder fine₁ (pinned_some operand₁.pin).1 first.owns
      fun y low high => (covers y low high).owns
    rwa [size] at asunder

end World

namespace Sample

/-- A thread owns two blocks, and has written to the first of them. -/
def written : List Label := twoBlocks ++ [.write 262144 7]

end Sample

end Numalloc
