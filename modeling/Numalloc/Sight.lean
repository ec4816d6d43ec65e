import Numalloc.Hiding

/-! The bytes a thread may count on, beside its view: of the allocation passed to its
operation, of whatever a deallocation was not told about, and of what it copies. -/
namespace Numalloc

open Concurrent View Logic

namespace View

/-- The address lies in one of these blocks and mappings of the thread. -/
def Covers (v : View) (bs ids : List Nat) (y : Nat) : Prop :=
  (∃ b ∈ bs, ∃ B, v.blocks b = some B ∧ b ≤ y ∧ y < b + sizeForClass B.ref.cls) ∨
    ∃ id ∈ ids, ∃ m, v.maps id = some m ∧ m.base ≤ y ∧ y < m.base + m.size

variable {v v' : View} {bs ids : List Nat} {y : Nat}

theorem Covers.owns (covers : v.Covers bs ids y) : v.Owns y := by
  rcases covers with ⟨b,_,B,held,low,high⟩ | ⟨id,_,m,held,low,high⟩
  · exact Or.inl ⟨b,B,held,low,high⟩
  · exact Or.inr ⟨id,m,held,low,high⟩

end View

variable {P : Platform} {strict : Bool} {s s' : State} {t y : Nat} {ch : Choice} {x : Act}
  {v v' : View} {bs ids : List Nat} {B B' : Set (Nat × UInt8)} {α : Type} {p : Prog allocI α}
  {Q : α → View → Prop} {a : Alloc}

theorem Spared.covers (spared : Spared v v' bs ids) : v'.Covers bs ids y ↔ v.Covers bs ids y := by
  unfold View.Covers
  refine or_congr ?_ ?_
  · refine exists_congr fun b => and_congr_right fun mem => ?_
    rw [spared.blocks b mem]
  · refine exists_congr fun id => and_congr_right fun mem => ?_
    rw [spared.maps id mem]

theorem Spared.has (spared : Spared v v' bs ids) (has : v.Has bs ids) : v'.Has bs ids := by
  refine ⟨fun b mem => ?_,fun id mem => ?_⟩
  · rw [spared.blocks b mem]
    exact has.blocks b mem
  · rw [spared.maps id mem]
    exact has.maps id mem

/-- Actions that may write memory. -/
def Act.writes : Act → Bool
  | .heap _ | .link (.writeNext _ _) | .mmap _ | .madvise _ _ | .writeHeader _ _ _ | .writeBytes _ _
  | .copy _ _ _ => true
  | _ => false

theorem exec_reads {r : x.Res} (reads : x.writes = false) (run : exec P strict t x ch s = some (r,s')) :
    s'.mem = s.mem := by
  cases x with
  | takeHeap | slotGet | readHeader place =>
    all_goals
      obtain ⟨_,rfl⟩ := Prod.mk.inj (Option.some.inj run)
      rfl
  | extent h | loadHead k | loadBump heap node | fetchAddNode inst | slotSet th | fetchAddRefs h =>
    all_goals
      simp only [exec,Option.bind_eq_bind,Option.bind_eq_some_iff,Option.some.injEq,
        Prod.mk.injEq] at run
      obtain ⟨_,_,_,rfl⟩ := run
      rfl
  | slotTake destroy =>
    simp only [exec] at run
    split at run
    · simp only [Option.bind_eq_bind,Option.bind_eq_some_iff,Option.some.injEq,Prod.mk.injEq] at run
      obtain ⟨_,_,_,rfl⟩ := run
      rfl
    · obtain ⟨_,rfl⟩ := Prod.mk.inj (Option.some.inj run)
      rfl
  | thread | setFreelist cls fl | setLargeCache cache =>
    all_goals
      simp only [exec] at run
      split at run
      case h_2 => cases run
      obtain ⟨_,rfl⟩ := Prod.mk.inj (Option.some.inj run)
      rfl
  | link op =>
    cases op with
    | readNext b =>
      obtain ⟨_,rfl⟩ := Prod.mk.inj (Option.some.inj run)
      rfl
    | writeNext b next => cases reads
    | panic => cases run
  | casHead k current new =>
    simp only [exec,Option.bind_eq_bind,Option.bind_eq_some_iff] at run
    obtain ⟨sh,_,run⟩ := run
    split at run
    case h_1 =>
      obtain ⟨_,rfl⟩ := Prod.mk.inj (Option.some.inj run)
      rfl
    split at run
    · split at run <;>
        · obtain ⟨_,rfl⟩ := Prod.mk.inj (Option.some.inj run)
          rfl
    · obtain ⟨_,rfl⟩ := Prod.mk.inj (Option.some.inj run)
      rfl
  | casBump heap node cls current new =>
    simp only [exec,Option.bind_eq_bind,Option.bind_eq_some_iff] at run
    obtain ⟨sh,_,run⟩ := run
    split at run
    case h_1 =>
      obtain ⟨_,rfl⟩ := Prod.mk.inj (Option.some.inj run)
      rfl
    split at run <;>
      · obtain ⟨_,rfl⟩ := Prod.mk.inj (Option.some.inj run)
        rfl
  | fetchSubRefs h =>
    simp only [exec,Option.bind_eq_bind,Option.bind_eq_some_iff,Option.some.injEq,
      Prod.mk.injEq] at run
    obtain ⟨sh,_,_,rfl⟩ := run
    split <;> rfl
  | sysDealloc h | munmap ptr size | bindToNode ptr size node | finish =>
    all_goals
      obtain ⟨_,rfl⟩ := Prod.mk.inj (Option.some.inj run)
      rfl
  | release =>
    simp only [exec,Option.bind_eq_bind,Option.bind_eq_some_iff] at run
    obtain ⟨a,_,run⟩ := run
    split at run
    case isTrue => cases run
    obtain ⟨_,rfl⟩ := Prod.mk.inj (Option.some.inj run)
    unfold State.release
    cases a.source <;> rfl
  | give ptr layout =>
    obtain ⟨_,rfl⟩ := Prod.mk.inj (Option.some.inj run)
    unfold State.give
    split
    · rfl
    · split
      · rfl
      · split <;> rfl
  | abort => exact r.elim
  | _ => cases reads

/-- What a thread has in its hands is mapped. -/
theorem Inv.owns_mapped (inv : Inv P s) (owns : (s.view t).Owns y) :
    ∃ id m, s.maps id = some m ∧ m.base ≤ y ∧ y < m.base + m.size := by
  rcases view_owns.mp owns with ⟨b,sl,found,_,low,high⟩ | ⟨id,m,found,_,low,high⟩
  · obtain ⟨id,m,_,at_,_,_,below,above⟩ := inv.slot_mapping found
    exact ⟨id,m,at_,by omega,by omega⟩
  · exact ⟨id,m,found,low,high⟩

/-- The link of a block in sight is no part of what is hidden. -/
theorem Inv.hidden_link {b : Nat} (inv : Inv P s) {B : Block}
    (held : ((s.view t).hide bs ids).blocks b = some B) (covers : (s.view t).Covers bs ids y) :
    y < b ∨ b + 8 ≤ y := by
  obtain ⟨out,held⟩ := hide_block.mp held
  obtain ⟨sl,found,_,rfl⟩ := view_block held
  have eight := inv.slot_eight found
  rcases covers with ⟨b',mem,B',held',low,high⟩ | ⟨id,_,m,held',low,high⟩
  · obtain ⟨sl',found',_,rfl⟩ := view_block held'
    have apart := inv.slots.apart found found' fun same => out (same ▸ mem)
    have high : y < b' + sizeForClass sl'.cls := high
    unfold Apart at apart
    omega
  · obtain ⟨found',holder⟩ := view_map.mp held'
    have apart := inv.slot_apart_map found found' (by simp [holder])
    unfold Apart at apart
    omega

/-- Nor is a mapping in sight. -/
theorem Inv.hidden_mapping {id : Nat} {m : Mapping} (inv : Inv P s)
    (held : ((s.view t).hide bs ids).maps id = some m) (covers : (s.view t).Covers bs ids y) :
    y < m.base ∨ m.base + m.size ≤ y := by
  obtain ⟨out,held⟩ := hide_map.mp held
  obtain ⟨found,holder⟩ := view_map.mp held
  rcases covers with ⟨b,_,B,held',low,high⟩ | ⟨id',mem,m',held',low,high⟩
  · obtain ⟨sl,found',_,rfl⟩ := view_block held'
    have apart := inv.slot_apart_map found' found (by simp [holder])
    have high : y < b + sizeForClass sl.cls := high
    unfold Apart at apart
    omega
  · obtain ⟨found',_⟩ := view_map.mp held'
    have apart := inv.maps.apart found found' fun same => out (same ▸ mem)
    unfold Apart at apart
    omega

/-- A deallocation that is safe without the hidden part does not write there. -/
theorem exec_spares {r : x.Res} (inv : Inv P s) (frees : Frees x)
    (safe : safe P strict x ((s.view t).hide bs ids)) (run : exec P strict t x ch s = some (r,s'))
    (covers : (s.view t).Covers bs ids y) : s'.mem y = s.mem y := by
  by_cases reads : x.writes = false
  · rw [exec_reads reads run]
  cases x with
  | heap inst =>
    simp only [exec,Option.bind_eq_bind,Option.bind_eq_some_iff] at run
    obtain ⟨I,_,run⟩ := run
    cases hx : I.heap with
    | some h =>
      simp only [hx,Option.bind_eq_some_iff,Option.some.injEq,Prod.mk.injEq] at run
      obtain ⟨sh,_,_,rfl⟩ := run
      rfl
    | none =>
      simp only [hx,Option.bind_eq_some_iff] at run
      obtain ⟨res,_,run⟩ := run
      cases ch with
      | place raw addr =>
        simp only at run
        split at run
        case isFalse => cases run
        rename_i ok
        obtain ⟨_,rfl⟩ := Prod.mk.inj (Option.some.inj run)
        obtain ⟨id,m,found,low,high⟩ := inv.owns_mapped covers.owns
        have apart := (inv.vacant ok.1).apart found
        unfold Apart at apart
        have out : y < raw ∨ raw + res.mapSize ≤ y := by omega
        exact fill_outside 0 out
      | _ => cases run
  | link op =>
    cases op with
    | writeNext b next =>
      obtain ⟨_,rfl⟩ := Prod.mk.inj (Option.some.inj run)
      obtain ⟨⟨B,held⟩,_⟩ := safe
      exact writeLE_outside (inv.hidden_link held covers)
    | _ => exact absurd rfl reads
  | madvise ptr size =>
    obtain ⟨_,rfl⟩ := Prod.mk.inj (Option.some.inj run)
    obtain ⟨id,m,held,rfl,rfl⟩ := safe
    have out := inv.hidden_mapping held covers
    exact if_neg fun inside => by omega
  | _ => first | exact absurd rfl reads | cases frees

/-- What a thread sees: its view, and the bytes it may count on. -/
def State.sight (t : Nat) (s : State) : View × Set (Nat × UInt8) :=
  (s.view t,{z | s.mem z.1 = z.2 ∧ (s.view t).Guards z.1})

theorem State.Same.sight (same : State.Same t s s') : s'.sight t = s.sight t := by
  refine Prod.ext same.view ?_
  ext z
  simp only [State.sight,Set.mem_ofPred_eq,same.view]
  refine and_congr_left fun guards => ?_
  rw [same.mem z.1 guards]

/-- What the steps of a thread do to the bytes it may count on. -/
@[reducible] def sightLogic (P : Platform) (strict : Bool) :
    Logic allocI (View × Set (Nat × UInt8)) where
  always _ := True
  safe _ _ := True
  step x w r w' := safe P strict x w.1 ∧ step P strict x w.1 r w'.1 ∧
    (∀ a, w.1.pin = some a → ∀ y u, a.ptr ≤ y → y < a.ptr + a.layout.size → w'.1.Guards y →
      (y,u) ∈ w.2 → (y,u) ∈ w'.2) ∧
    (∀ bs ids, Frees x → w.1.Has bs ids → safe P strict x (w.1.hide bs ids) →
      ∀ y u, w.1.Covers bs ids y → (y,u) ∈ w.2 → (y,u) ∈ w'.2) ∧
    (x.writes = false → ∀ y u, w'.1.Guards y → (y,u) ∈ w.2 → (y,u) ∈ w'.2) ∧
    match x with
    | .copy src dst n => ∀ i u, i < n → (src + i,u) ∈ w.2 → w'.1.Guards (dst + i) →
        (dst + i,u) ∈ w'.2
    | _ => True

theorem sight_beside : Beside P strict (sightLogic P strict) State.sight where
  own {t x ch s r s'} inv always safe _ run := by
    have seen := (exec_sound.keep inv always safe run).2.1
    refine ⟨safe,seen,fun a pin y u low high guards known => ?_,
      fun bs ids frees has hidden y u covers known => ?_,fun reads y u guards known => ?_,?_⟩
    · obtain ⟨live,_⟩ := pinned_some pin
      obtain ⟨lo,n,extent,below,above,_⟩ := inv.extent live
      have effect := exec_effect inv always safe run
      refine ⟨?_,guards⟩
      rw [← known.1]
      exact by_contra fun changed =>
        extent.unreachable inv (by omega) (by omega) (effect.mem y changed)
    · have spared := (step_hide frees has hidden seen).2
      refine ⟨?_,Or.inl (spared.covers.mpr covers).owns⟩
      rw [← known.1]
      exact exec_spares inv frees hidden run covers
    · refine ⟨?_,guards⟩
      rw [← known.1,exec_reads reads run]
    · cases x with
      | copy src dst n =>
        obtain ⟨_,rfl⟩ := Prod.mk.inj (Option.some.inj run)
        intro i u inside known guards
        refine ⟨?_,guards⟩
        rw [← known.1]
        show copyBytes s.mem src dst n (dst + i) = s.mem (src + i)
        rw [copyBytes,if_pos (by omega),Nat.add_sub_cancel_left]
      | _ => trivial
  others fine step other fresh := (World.Fine.others fine step other fresh).sight

/-! Rules. -/

/-- What is known of the views. -/
theorem wp_sight (pre : (allocLogic P strict).wp p Q v) {R : α → View × Set (Nat × UInt8) → Prop}
    (bytes : (sightLogic P strict).wp p R (v,B)) :
    (sightLogic P strict).wp p (fun a w => Q a w.1 ∧ R a w) (v,B) :=
  wp_along (M := sightLogic P strict) Prod.fst (fun _ _ _ _ st => st.2.1) pre bytes

/-- Allocating keeps the operand. -/
theorem Allocates.pin {r : x.Res} (allocates : Allocates P x) (ok : safe P strict x v)
    (st : step P strict x v r v') : v'.pin = v.pin := by
  cases x with
  | slotGet | slotTake destroy =>
    all_goals
      obtain ⟨_,rfl⟩ := st
      rfl
  | heap inst | thread | extent h =>
    all_goals
      obtain ⟨rfl,_⟩ := st
      rfl
  | slotSet th | loadHead k | loadBump heap node | fetchAddNode inst | fetchAddRefs h | sysDealloc h =>
    all_goals
      obtain rfl := st
      rfl
  | setFreelist cls fl | setLargeCache cache =>
    all_goals
      obtain ⟨_,_,rfl⟩ := st
      rfl
  | munmap ptr size | bindToNode ptr size node | writeHeader place original size =>
    all_goals
      obtain ⟨_,_,_,_,rfl⟩ := st
      rfl
  | mmap size =>
    cases r with
    | none =>
      obtain rfl : v' = v := st
      rfl
    | some raw =>
      obtain ⟨_,_,_,_,_,_,_,_,_,rfl⟩ := st
      rfl
  | link op =>
    cases op with
    | readNext b =>
      obtain ⟨rfl,_⟩ := st
      rfl
    | writeNext b next =>
      obtain rfl := st
      rfl
    | panic => exact st.elim
  | casHead k current new =>
    obtain ⟨_,ok⟩ := ok
    simp only [step] at st
    split at st
    · split at st
      · obtain ⟨l,gained⟩ := st
        rw [gained.same]
      · rename_i first packed
        rw [packed] at ok
        obtain ⟨l,chain⟩ := ok
        rw [st l chain]
        rfl
    · rw [st]
  | casBump heap node cls current new =>
    simp only [step] at st
    split at st
    · obtain ⟨_,_,_,_,_,rfl,_⟩ := st
      rfl
    · rw [st]
  | fetchSubRefs h =>
    simp only [step] at st
    split at st
    · obtain ⟨_,_,_,_,_,_,rfl⟩ := st
      rfl
    · rw [st]
  | abort => exact st.elim
  | _ => cases allocates

/-- The operand keeps its bytes while memory is allocated. -/
theorem wp_pinned (only : p.Only (Allocates P)) (pin : v.pin = some a) :
    (sightLogic P strict).wp p (fun _ w => w.1.pin = some a ∧ ∀ y u, a.ptr ≤ y →
      y < a.ptr + a.layout.size → (y,u) ∈ B → (y,u) ∈ w.2) (v,B) := by
  refine wp_only (L := sightLogic P strict) (fun w => w.1.pin = some a ∧ ∀ y u, a.ptr ≤ y →
    y < a.ptr + a.layout.size → (y,u) ∈ B → (y,u) ∈ w.2) only (fun _ _ => trivial)
    (fun x w ok inv => ⟨trivial,fun r w' st => ?_⟩) ⟨pin,fun _ _ _ _ known => known⟩
  obtain ⟨pin,bytes⟩ := inv
  obtain ⟨safe,st,pinned,_⟩ := st
  have pin' := (Allocates.pin ok safe st).trans pin
  exact ⟨pin',fun y u low high known =>
    pinned a pin y u low high (Or.inr ⟨a,pin',low,high⟩) (bytes y u low high known)⟩

theorem Spared.trans {v'' : View} (first : Spared v v' bs ids) (second : Spared v' v'' bs ids) :
    Spared v v'' bs ids :=
  ⟨fun b mem => (second.blocks b mem).trans (first.blocks b mem),
    fun id mem => (second.maps id mem).trans (first.maps id mem)⟩

/-- The part of the view and the bytes that are hidden from a deallocation. -/
def Shielded (v : View) (B : Set (Nat × UInt8)) (bs ids : List Nat) (w : View × Set (Nat × UInt8)) :
    Prop :=
  Spared v w.1 bs ids ∧ ∀ y u, v.Covers bs ids y → (y,u) ∈ B → (y,u) ∈ w.2

theorem Shielded.refl (v : View) (B : Set (Nat × UInt8)) (bs ids : List Nat) :
    Shielded v B bs ids (v,B) := ⟨.same rfl rfl,fun _ _ _ known => known⟩

theorem Shielded.trans {w : View × Set (Nat × UInt8)} (first : Shielded v B bs ids (v',B'))
    (second : Shielded v' B' bs ids w) : Shielded v B bs ids w :=
  ⟨first.1.trans second.1,fun y u covers known =>
    second.2 y u (first.1.covers.mpr covers) (first.2 y u covers known)⟩

/-- A deallocation that does not need them leaves blocks and mappings of the thread alone,
down to the bytes. -/
theorem wp_spared (pre : (allocLogic P strict).wp p Q (v.hide bs ids)) (only : p.Only Frees)
    (has : v.Has bs ids) :
    (sightLogic P strict).wp p (fun a w => Q a (w.1.hide bs ids) ∧ Shielded v B bs ids w) (v,B) := by
  induction p generalizing v B with
  | ret a => exact ⟨trivial,pre.2,.refl v B bs ids⟩
  | act x k ih =>
    refine ⟨trivial,trivial,fun r w st => ?_⟩
    obtain ⟨_,st,_,bytes,_⟩ := st
    obtain ⟨v₁,B₁⟩ := w
    obtain ⟨seen,spared⟩ := step_hide only.1 has pre.2.1 st
    have once : Shielded v B bs ids (v₁,B₁) := ⟨spared,bytes bs ids only.1 has pre.2.1⟩
    refine wp_mono (ih r (pre.2.2 r _ seen) (only.2 r) (spared.has has)) fun a w _ post => ?_
    exact ⟨post.1,once.trans post.2⟩
  | loop body s k ihBody ihK =>
    obtain ⟨_,inv,start,keep⟩ := pre
    refine ⟨trivial,fun s w => inv s (w.1.hide bs ids) ∧ Shielded v B bs ids w,
      ⟨start,.refl v B bs ids⟩,fun s w now => ?_⟩
    obtain ⟨v₁,B₁⟩ := w
    obtain ⟨now,since⟩ := now
    refine wp_mono (ihBody s (keep s _ now) (only.1 s) (since.1.has has)) fun r w _ post => ?_
    obtain ⟨post,more⟩ := post
    have since := since.trans more
    cases r with
    | inl s => exact ⟨post,since⟩
    | inr b =>
      obtain ⟨v₂,B₂⟩ := w
      exact wp_mono (ihK b post (only.2 b) (since.1.has has)) fun a w _ post => ⟨post.1,since.trans post.2⟩

end Numalloc
