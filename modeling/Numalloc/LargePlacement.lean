import Numalloc.Runs

/-! Placement of large objects with every arithmetic step checked, for any page size and
mappings anywhere in the address space. -/
namespace Numalloc

open Concurrent

/-- `large_alloc_size` on a machine with this page size. -/
def largeSize (pageSize : Nat) (layout : Layout) : Option Nat := do
  let align := max layout.align headerAlign
  let allocSize ← checkedAdd headerSize (align - 1)
  let allocSize ← checkedAdd allocSize layout.size
  let allocSize ← checkedAdd allocSize (pageSize - 1)
  let rounded := allocSize &&& bnot64 (pageSize - 1)
  if rounded ≤ isizeMax then some rounded else none

/-- `prepare_large_payload` with its overflow checks and its debug assertion: where the
header and the payload go. -/
def placePayload (raw allocSize : Nat) (layout : Layout) : Option (Nat × Nat) := do
  let align := max layout.align headerAlign
  let front ← checkedAdd raw headerSize
  let slack ← checkedAdd front align
  let last ← checkedSub slack 1
  let payload := last &&& bnot64 (align - 1)
  let skip ← checkedSub payload raw
  let used ← checkedAdd skip layout.size
  if allocSize < used then none
  else do
    let header ← checkedSub payload headerSize
    some (header,payload)

variable {P : Platform} {strict : Bool} {layout : Layout} {page k raw mapped rounded : Nat}

theorem largeAllocSize_eq (P : Platform) (layout : Layout) :
    largeAllocSize P layout = largeSize P.pageSize layout := rfl

/-- Bytes a request needs before its size is rounded up to pages. -/
def Layout.footprint (layout : Layout) : Nat :=
  headerSize + (max layout.align headerAlign - 1) + layout.size

/-- The slack of `align - 1` bytes and the size are below the limit together. -/
theorem Layout.footprint_le (layout : Layout) : layout.footprint ≤ isizeMax + 23 := by
  have bounded := layout.bounded
  have pos := layout.align_pos
  unfold Layout.footprint headerSize headerAlign
  omega

/-- A size is refused exactly when it is no `isize` once rounded up. -/
theorem largeSize_eq (pow : page = 2 ^ k) (pages : page ≤ usizeMax)
    (least : IsLeast {y | page ∣ y ∧ layout.footprint ≤ y} rounded) :
    largeSize page layout = if rounded ≤ isizeMax then some rounded else none := by
  have isize : isizeMax = 9223372036854775807 := rfl
  have usize : usizeMax = 18446744073709551615 := rfl
  have small : k < 64 := by
    have : 2 ^ k < 2 ^ 64 := by omega
    exact (Nat.pow_lt_pow_iff_right (by omega)).mp this
  have half : page ≤ 2 ^ 63 := pow ▸ Nat.pow_le_pow_right (by omega) (by omega)
  have bound := layout.footprint_le
  have above := least.1.2
  have sum : headerSize + (max layout.align headerAlign - 1) + layout.size = layout.footprint := rfl
  unfold largeSize
  simp only [checkedAdd,Option.bind_eq_bind]
  rw [if_pos (by omega : headerSize + (max layout.align headerAlign - 1) ≤ usizeMax)]
  simp only [Option.bind_some,sum]
  rw [if_pos (by omega : layout.footprint ≤ usizeMax)]
  simp only [Option.bind_some]
  by_cases word : layout.footprint + (page - 1) ≤ usizeMax
  · have same := (alignUp_isLeast pow small.le (by omega)).unique least
    unfold alignUp at same
    rw [if_pos word]
    simp only [Option.bind_some,same]
  · -- the sum overflows only when it is past the limit before it is rounded
    rw [if_neg word,if_neg (by omega)]
    rfl

/-- The payload in any mapping that is large enough, and no check fails on the way. -/
theorem placePayload_eq (eight : 8 ∣ mapped) (room : layout.footprint ≤ mapped)
    (top : raw + mapped ≤ usizeMax) : ∃ payload,
      placePayload raw mapped layout = some (payload - headerSize,payload) ∧
      max layout.align headerAlign ∣ payload ∧ raw + headerSize ≤ payload ∧
      payload + layout.size ≤ raw + mapped := by
  have usize : usizeMax = 18446744073709551615 := rfl
  obtain ⟨k,small,pow,three⟩ := layout.large_align
  have unit : 8 ∣ max layout.align headerAlign := pow ▸ Nat.pow_dvd_pow 2 three
  have pos : 0 < max layout.align headerAlign := pow ▸ Nat.two_pow_pos k
  have sum : headerSize + (max layout.align headerAlign - 1) + layout.size = layout.footprint := rfl
  have header : headerSize = 16 := rfl
  unfold placePayload
  generalize max layout.align headerAlign = align at *
  -- the footprint of an empty request is odd, the mapping is not
  have slack : raw + headerSize + align ≤ usizeMax := by omega
  have step : raw + headerSize + align - 1 = raw + headerSize + (align - 1) := by omega
  have word : raw + headerSize + (align - 1) < 2 ^ 64 := by omega
  have ge := alignUp_ge pow small word
  have le := alignUp_le pow small word
  have dvd := dvd_alignUp pow small word
  refine ⟨alignUp (raw + headerSize) align,?_,dvd,ge,by omega⟩
  have masked : (raw + headerSize + align - 1) &&& bnot64 (align - 1) =
      alignUp (raw + headerSize) align := by
    rw [step]
    rfl
  simp only [Option.bind_eq_bind,Option.bind_eq_some_iff,checkedAdd_eq_some,checkedSub_eq_some,
    Option.ite_none_left_eq_some,Option.some.injEq,Prod.mk.injEq]
  refine ⟨_,⟨by omega,rfl⟩,_,⟨slack,rfl⟩,_,⟨by omega,rfl⟩,_,⟨?_,rfl⟩,_,⟨?_,rfl⟩,?_,_,⟨?_,rfl⟩,?_,?_⟩
  all_goals
    rw [masked]
    try omega

/-- It is the payload address of the model's allocator. -/
theorem placePayload_addr {place payload : Nat}
    (placed : placePayload raw mapped layout = some (place,payload)) :
    payload = payloadAddr raw layout ∧ place = payload - headerSize := by
  simp only [placePayload,Option.bind_eq_bind,Option.bind_eq_some_iff,checkedAdd_eq_some,
    checkedSub_eq_some,Option.ite_none_left_eq_some,Option.some.injEq,Prod.mk.injEq] at placed
  obtain ⟨_,⟨_,rfl⟩,_,⟨_,rfl⟩,_,⟨_,rfl⟩,_,⟨_,rfl⟩,_,⟨_,rfl⟩,_,_,⟨_,rfl⟩,rfl,rfl⟩ := placed
  exact ⟨rfl,rfl⟩

theorem Layout.align_dvd (layout : Layout) : layout.align ∣ max layout.align headerAlign := by
  obtain ⟨j,pow⟩ := layout.pow
  rcases Nat.le_total layout.align headerAlign with low | high
  · rw [Nat.max_eq_right low]
    rw [pow,show headerAlign = 2 ^ 3 from rfl] at low ⊢
    exact Nat.pow_dvd_pow 2 ((Nat.pow_le_pow_iff_right (by omega)).mp low)
  · rw [Nat.max_eq_left high]

/-- What the header says, read from memory that still holds its bytes. -/
theorem readHeader_written {s s' : State} {t u place size : Nat} {ch : Choice}
    (base : raw ≤ usizeMax) (extent : size ≤ usizeMax)
    (kept : ∀ x, place ≤ x → x < place + headerSize →
      s'.mem x = (s.writeHeader t place raw size).mem x) :
    exec P strict u (.readHeader place) ch s' = some ((raw,size),s') := by
  have usize : usizeMax = 18446744073709551615 := rfl
  have header : headerSize = 16 := rfl
  have first : readLE s'.mem place 8 = raw := by
    calc readLE s'.mem place 8
      _ = readLE (s.writeHeader t place raw size).mem place 8 :=
        readLE_congr fun x lo hi => kept x lo (by omega)
      _ = readLE (writeLE s.mem place 8 raw) place 8 := readLE_writeLE_apart (Or.inl le_rfl)
      _ = raw % 256 ^ 8 := readLE_writeLE
      _ = raw := Nat.mod_eq_of_lt (by omega)
  have second : readLE s'.mem (place + 8) 8 = size := by
    calc readLE s'.mem (place + 8) 8
      _ = readLE (s.writeHeader t place raw size).mem (place + 8) 8 :=
        readLE_congr fun x lo hi => kept x (by omega) (by omega)
      _ = size % 256 ^ 8 := readLE_writeLE
      _ = size := Nat.mod_eq_of_lt (by omega)
  simp only [exec,first,second]

/-- In any run the header of a live large object names its mapping. -/
theorem World.Fine.header {c : World P strict} (fine : Fine P strict c) {a : Alloc} {id : Nat}
    (live : a ∈ c.state.live) (source : a.source = .mapping id) : ∃ m,
      c.state.maps id = some m ∧ ∀ u ch,
        exec P strict u (.readHeader (a.ptr - headerSize)) ch c.state =
          some ((m.base,m.size),c.state) := by
  have backed := fine.inv.live.backed live
  simp only [Backed,source] at backed
  obtain ⟨m,found,_,_,payload,_⟩ := backed
  obtain ⟨_,_,_,first,second⟩ := fine.inv.mem.header found payload
  exact ⟨m,found,fun u ch => by simp only [exec,first,second]⟩

/-- Sizes and placement of large objects, near every limit of a 64-bit machine: a size is
refused exactly when it is no `isize`, and in any mapping that is large enough the payload
is aligned and inside, behind a header from which the mapping is read back. -/
theorem large_placement (pow : page = 2 ^ k) (low : 4096 ≤ page) (high : page ≤ usizeMax)
    (layout : Layout) : ∃ rounded,
      IsLeast {y | page ∣ y ∧ 16 + (max layout.align 8 - 1) + layout.size ≤ y} rounded ∧
      (largeSize page layout = none ↔ isizeMax < rounded) ∧
      (rounded ≤ isizeMax → largeSize page layout = some rounded) ∧
      (∀ raw mapped, 0 < raw → page ∣ raw → page ∣ mapped → rounded ≤ mapped →
        raw + mapped ≤ usizeMax → ∃ payload,
          placePayload raw mapped layout = some (payload - 16,payload) ∧
          payload = payloadAddr raw layout ∧ layout.align ∣ payload ∧
          16 ≤ payload ∧ raw ≤ payload - 16 ∧ 8 ∣ payload - 16 ∧
          payload + layout.size ≤ raw + mapped ∧
          ∀ (P : Platform) (strict : Bool) (t u : Nat) (ch : Choice) (s s' : State),
            (∀ x, payload - 16 ≤ x → x < payload →
              s'.mem x = (s.writeHeader t (payload - 16) raw mapped).mem x) →
            exec P strict u (.readHeader (payload - 16)) ch s' = some ((raw,mapped),s')) ∧
      ∀ (P : Platform) (strict : Bool) (c : World P strict), c.Reachable →
        ∀ a ∈ c.state.live, ∀ id, a.source = .mapping id → ∃ m, c.state.maps id = some m ∧
          ∀ u ch, exec P strict u (.readHeader (a.ptr - 16)) ch c.state =
            some ((m.base,m.size),c.state) := by
  obtain ⟨rounded,least⟩ := least_multiple_exists (by omega : 0 < page) layout.footprint
  have size := largeSize_eq pow high least
  refine ⟨rounded,least,?_,fun fits => size.trans (if_pos fits),?_,?_⟩
  · rw [size]
    simp
  · intro raw mapped _ _ whole room top
    have eight : 8 ∣ mapped := by
      have three : 3 ≤ k := by
        by_contra small
        have : 2 ^ k ≤ 2 ^ 2 := Nat.pow_le_pow_right (by omega) (by omega)
        omega
      exact (pow ▸ Nat.pow_dvd_pow 2 three : 8 ∣ page).trans whole
    obtain ⟨payload,placed,multiple,front,inside⟩ :=
      placePayload_eq eight (Nat.le_trans least.1.2 room) top
    have header : headerSize = 16 := rfl
    have unit : 8 ∣ max layout.align headerAlign := by
      obtain ⟨j,_,pow,three⟩ := layout.large_align
      exact pow ▸ Nat.pow_dvd_pow 2 three
    have word := unit.trans multiple
    refine ⟨payload,placed,(placePayload_addr placed).1,layout.align_dvd.trans multiple,by omega,
      by omega,by omega,inside,fun P strict t u ch s s' kept => ?_⟩
    exact readHeader_written (by omega) (by omega) fun x lo hi => kept x lo (by omega)
  · intro P strict c reachable a live id source
    exact World.Fine.header (World.Reachable.fine reachable) live source

/-- An empty request of huge alignment, in the last mapping a machine can have. -/
theorem last_placement : ∃ payload,
    largeSize 4096 ⟨0,2 ^ 62,⟨62,rfl⟩,by decide⟩ = some (2 ^ 62 + 4096) ∧
    placePayload (2 ^ 64 - 2 ^ 62 - 8192) (2 ^ 62 + 4096) ⟨0,2 ^ 62,⟨62,rfl⟩,by decide⟩ =
      some (payload - 16,payload) ∧ 2 ^ 62 ∣ payload := by
  obtain ⟨rounded,_,refused,granted,placed,_⟩ := @large_placement 4096 12 rfl (by decide)
    (by decide) ⟨0,2 ^ 62,⟨62,rfl⟩,by decide⟩
  have size : largeSize 4096 ⟨0,2 ^ 62,⟨62,rfl⟩,by decide⟩ = some (2 ^ 62 + 4096) := by
    decide +kernel
  have fits : rounded ≤ isizeMax := by
    by_contra beyond
    rw [refused.mpr (by omega)] at size
    cases size
  obtain rfl : rounded = 2 ^ 62 + 4096 := Option.some.inj ((granted fits).symm.trans size)
  obtain ⟨payload,at_,_,multiple,_⟩ := placed (2 ^ 64 - 2 ^ 62 - 8192) (2 ^ 62 + 4096) (by decide)
    (by decide) (by decide) le_rfl (by decide)
  exact ⟨payload,size,at_,multiple⟩

end Numalloc
