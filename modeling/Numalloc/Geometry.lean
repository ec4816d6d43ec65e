import Numalloc.Heap

/-! Construction of the heap with every arithmetic step checked, over the whole range of
addresses. The model's layouts stay below `2 ^ 48`; here only the end of the mapping must
be a word. -/
namespace Numalloc.GlobalHeap

open Concurrent

/-- What construction asks of the platform. `panic` is an overflow or a failed debug
assertion. -/
inductive Op where
  | mmapAnonymous (size : Nat)
  | panic

@[reducible] def Op.Res : Op → Type
  | mmapAnonymous _ => Option Nat
  | panic => Empty

@[reducible] def buildI : Interface := ⟨Op,Op.Res⟩

/-- The value of an arithmetic operation that must not overflow. -/
def checked {α : Type} : Option α → Prog buildI α
  | some a => .ret a
  | none => .act (I := buildI) .panic (fun e => nomatch e)

/-- The region of one slot of the node table. -/
def regionAt (r : Reservation) (base i : Nat) : Prog buildI NodeRegion :=
  if i < r.numNodes then do
    let offset ← checked (checkedMul i r.regionSize)
    let nodeBase ← checked (checkedAdd base offset)
    pure ⟨nodeBase,r.regionSize⟩
  else pure .empty

/-- `std::array::from_fn`, from slot `i` on. -/
def regionsFrom (r : Reservation) (base : Nat) : Nat → Nat → Prog buildI (List NodeRegion)
  | 0, _ => pure []
  | slots + 1, i => do
    let region ← regionAt r base i
    let rest ← regionsFrom r base slots (i + 1)
    pure (region :: rest)

/-- `place` with its overflow checks and its debug assertion. -/
def placeChecked (r : Reservation) (raw : Nat) : Prog buildI GlobalHeap := do
  let above ← checked (checkedAdd raw minRegionSize)
  let last ← checked (checkedSub above 1)
  let aligned := last &&& bnot64 (minRegionSize - 1)
  let used ← checked (checkedAdd aligned r.totalSize)
  let mapped ← checked (checkedAdd raw r.mapSize)
  checked (if used ≤ mapped then some () else none)
  let skip ← checked (checkedSub aligned raw)
  let base ← checked (checkedAdd raw skip)
  let nodes ← regionsFrom r base maxNodes 0
  pure ⟨base,r.totalSize,r.regionSize,r.numNodes,nodes,raw,r.mapSize⟩

/-- `GlobalHeap::new` as a program over the platform. -/
def newChecked (numNodes regionSize : Nat) : Prog buildI (Option GlobalHeap) :=
  match reserve numNodes regionSize with
  | none => pure none
  | some r => do
    match ← .call (I := buildI) (.mmapAnonymous r.mapSize) with
    | none => pure none
    | some raw => do
      let heap ← placeChecked r raw
      pure (some heap)

/-- `n` regions of one size, one after the other inside a mapping, and a lookup that is
exact over all addresses. -/
structure Laid (g : GlobalHeap) (n region mapBase mapSize : Nat) : Prop where
  numNodes : g.numNodes = n
  mapping : g.mapBase = mapBase ∧ g.mapSize = mapSize
  sizes : ∀ i < n, (g.nodeRegion i).size = region
  aligned : ∀ i < n, minRegionSize ∣ (g.nodeRegion i).base
  inside : ∀ i < n, mapBase ≤ (g.nodeRegion i).base ∧
    (g.nodeRegion i).base + region ≤ mapBase + mapSize
  contiguous : ∀ i, i + 1 < n → (g.nodeRegion (i + 1)).base = (g.nodeRegion i).base + region
  apart : ∀ i < n, ∀ j < n, i ≠ j →
    Apart (g.nodeRegion i).base region (g.nodeRegion j).base region
  lookup : ∀ p ≤ usizeMax, ∀ i, g.nodeForPtr p = some i ↔
    i < n ∧ (g.nodeRegion i).base ≤ p ∧ p < (g.nodeRegion i).base + region

variable {nodes size raw base : Nat} {r : Reservation}

theorem minRegionSize_eq : minRegionSize = 2 ^ 18 := rfl

theorem checked_bind {α β : Type} {a : α} {x : Option α} (f : α → Prog buildI β) (ok : x = some a) :
    (checked x).bind f = f a := by
  subst ok
  rfl

/-- The reservation is refused exactly when it is no `isize`. -/
theorem reserve_eq (nodes : Nat) {region : Nat}
    (least : IsLeast {x | minRegionSize ∣ x ∧ max size minRegionSize ≤ x} region) :
    reserve nodes size =
      if isizeMax < region * max 1 (min nodes maxNodes) + minRegionSize then none
      else some ⟨max 1 (min nodes maxNodes),region,region * max 1 (min nodes maxNodes),
        region * max 1 (min nodes maxNodes) + minRegionSize⟩ := by
  have unit : minRegionSize = 262144 := rfl
  have isize : isizeMax = 9223372036854775807 := rfl
  have usize : usizeMax = 18446744073709551615 := rfl
  have clamped : 1 ≤ max 1 (min nodes maxNodes) := Nat.le_max_left _ _
  have once : region ≤ region * max 1 (min nodes maxNodes) := Nat.le_mul_of_pos_right _ clamped
  have above := least.1.2
  have same (word : max size minRegionSize + (minRegionSize - 1) ≤ usizeMax) :
      (max size minRegionSize + (minRegionSize - 1)) &&& bnot64 (minRegionSize - 1) = region :=
    (alignUp_isLeast minRegionSize_eq (by decide) (by omega)).unique least
  refine Option.ext fun r => ?_
  simp only [reserve,Option.bind_eq_bind,Option.bind_eq_some_iff,checkedAdd_eq_some,
    checkedMul_eq_some,Option.ite_none_left_eq_some,Option.some.injEq]
  constructor
  · rintro ⟨_,⟨word,rfl⟩,_,⟨_,rfl⟩,_,⟨_,rfl⟩,fits,rfl⟩
    rw [same word] at fits ⊢
    exact ⟨fits,rfl⟩
  · rintro ⟨fits,rfl⟩
    have word : max size minRegionSize + (minRegionSize - 1) ≤ usizeMax := by omega
    refine ⟨_,⟨word,rfl⟩,_,⟨?_,rfl⟩,_,⟨?_,rfl⟩,?_⟩
    all_goals rw [same word]
    · omega
    · omega
    · exact ⟨fits,rfl⟩

theorem reserve_le (granted : reserve nodes size = some r) : r.mapSize ≤ isizeMax := by
  simp only [reserve,Option.bind_eq_bind,Option.bind_eq_some_iff,checkedAdd_eq_some,
    checkedMul_eq_some,Option.ite_none_left_eq_some,Option.some.injEq] at granted
  obtain ⟨_,_,_,_,_,_,fits,rfl⟩ := granted
  exact Nat.not_lt.mp fits

theorem regionAt_eq (i : Nat) (total : r.totalSize = r.regionSize * r.numNodes)
    (top : base + r.totalSize ≤ usizeMax) :
    regionAt r base i =
      .ret (if i < r.numNodes then ⟨base + i * r.regionSize,r.regionSize⟩ else .empty) := by
  unfold regionAt
  split
  case isFalse => rfl
  case isTrue low =>
    have within : i * r.regionSize ≤ r.totalSize := by
      rw [total,Nat.mul_comm r.regionSize]
      exact Nat.mul_le_mul_right _ (by omega)
    simp only [Prog.bind_eq,Prog.pure_eq]
    rw [checked_bind (a := i * r.regionSize) _ (checkedMul_eq_some.mpr ⟨by omega,rfl⟩),
      checked_bind (a := base + i * r.regionSize) _ (checkedAdd_eq_some.mpr ⟨by omega,rfl⟩)]

theorem regionsFrom_eq (total : r.totalSize = r.regionSize * r.numNodes)
    (top : base + r.totalSize ≤ usizeMax) (slots i : Nat) :
    regionsFrom r base slots i = .ret ((List.range' i slots).map fun j =>
      if j < r.numNodes then ⟨base + j * r.regionSize,r.regionSize⟩ else .empty) := by
  induction slots generalizing i with
  | zero => rfl
  | succ slots ih =>
    simp only [regionsFrom,regionAt_eq i total top,ih,Prog.bind_eq,Prog.bind_ret,Prog.pure_eq,
      List.range'_succ,List.map_cons]

/-- The base that `place` settles on is the mapping's start, rounded up. -/
theorem place_base (word : raw + (minRegionSize - 1) < 2 ^ 64) :
    (place r raw).base = alignUp raw minRegionSize := by
  have unit : minRegionSize = 262144 := rfl
  have ge := alignUp_ge (x := raw) minRegionSize_eq (by decide) word
  unfold alignUp at ge
  simp only [place,alignUp,show raw + minRegionSize - 1 = raw + (minRegionSize - 1) by omega]
  omega

/-- No check fails when the mapping ends at a machine word. -/
theorem placeChecked_eq (total : r.totalSize = r.regionSize * r.numNodes)
    (map : r.mapSize = r.totalSize + minRegionSize) (top : raw + r.mapSize ≤ usizeMax) :
    placeChecked r raw = .ret (place r raw) := by
  have unit : minRegionSize = 262144 := rfl
  have usize : usizeMax = 18446744073709551615 := rfl
  have step : raw + minRegionSize - 1 = raw + (minRegionSize - 1) := by omega
  have word : raw + (minRegionSize - 1) < 2 ^ 64 := by omega
  have ge := alignUp_ge (x := raw) minRegionSize_eq (by decide) word
  have le := alignUp_le (x := raw) minRegionSize_eq (by decide) word
  have aligned : (raw + minRegionSize - 1) &&& bnot64 (minRegionSize - 1) =
      alignUp raw minRegionSize := by rw [step]; rfl
  have base : raw + (alignUp raw minRegionSize - raw) = (place r raw).base := by
    rw [place_base word]
    omega
  unfold placeChecked
  simp only [Prog.bind_eq,Prog.pure_eq]
  rw [checked_bind (a := raw + minRegionSize) _ (checkedAdd_eq_some.mpr ⟨by omega,rfl⟩),
    checked_bind (a := raw + minRegionSize - 1) _ (checkedSub_eq_some.mpr ⟨by omega,rfl⟩),aligned,
    checked_bind (a := alignUp raw minRegionSize + r.totalSize) _
      (checkedAdd_eq_some.mpr ⟨by omega,rfl⟩),
    checked_bind (a := raw + r.mapSize) _ (checkedAdd_eq_some.mpr ⟨by omega,rfl⟩),
    checked_bind (a := ()) _ (if_pos (by omega)),
    checked_bind (a := alignUp raw minRegionSize - raw) _ (checkedSub_eq_some.mpr ⟨by omega,rfl⟩),
    checked_bind (a := (place r raw).base) _ (checkedAdd_eq_some.mpr ⟨by omega,base⟩),
    regionsFrom_eq total (by rw [← base]; omega)]
  simp only [Prog.bind_ret,← List.range_eq_range']
  rfl

theorem place_region (raw : Nat) {i : Nat} (few : r.numNodes ≤ maxNodes) (low : i < r.numNodes) :
    (place r raw).nodeRegion i = ⟨(place r raw).base + i * r.regionSize,r.regionSize⟩ := by
  have slot : i < maxNodes := lt_of_lt_of_le low few
  simp only [nodeRegion,List.getD_eq_getElem?_getD,place]
  simp [slot,low]

/-- The layout over the whole range of addresses. -/
theorem place_laid (pos : 0 < r.regionSize) (few : r.numNodes ≤ maxNodes)
    (multiple : minRegionSize ∣ r.regionSize) (total : r.totalSize = r.regionSize * r.numNodes)
    (map : r.mapSize = r.totalSize + minRegionSize) (top : raw + r.mapSize ≤ usizeMax) :
    (place r raw).Laid r.numNodes r.regionSize raw r.mapSize := by
  have unit : minRegionSize = 262144 := rfl
  have usize : usizeMax = 18446744073709551615 := rfl
  have word : raw + (minRegionSize - 1) < 2 ^ 64 := by omega
  have base := place_base (r := r) word
  have ge := alignUp_ge (x := raw) minRegionSize_eq (by decide) word
  have le := alignUp_le (x := raw) minRegionSize_eq (by decide) word
  have last : ∀ i < r.numNodes, i * r.regionSize + r.regionSize ≤ r.totalSize := by
    intro i low
    rw [total,Nat.mul_comm r.regionSize,← Nat.succ_mul]
    exact Nat.mul_le_mul_right _ low
  have region {i} (low : i < r.numNodes) := place_region raw few low
  constructor
  case numNodes => rfl
  case mapping => exact ⟨rfl,rfl⟩
  case sizes =>
    intro i low
    rw [region low]
  case aligned =>
    intro i low
    rw [region low]
    apply Nat.dvd_add
    · rw [base]
      exact dvd_alignUp minRegionSize_eq (by decide) word
    · exact Nat.dvd_mul_left_of_dvd multiple i
  case inside =>
    intro i low
    have := last i low
    rw [region low]
    exact ⟨by simp only; omega,by simp only; omega⟩
  case contiguous =>
    intro i low
    rw [region low,region (by omega : i < r.numNodes)]
    simp only [Nat.succ_mul,Nat.add_assoc]
  case apart =>
    intro i lowI j lowJ ne
    rw [region lowI,region lowJ]
    exact nodes_apart (place r raw) ne
  case lookup =>
    intro p bound i
    rw [nodeForPtr_eq_some (g := place r raw) pos total (by show _ + r.totalSize ≤ _; omega)
      (by omega)]
    refine and_congr_right fun low => ?_
    rw [region low]
    rfl

/-- What construction does once its reservation is settled. -/
def construct : Option Reservation → Prog buildI (Option GlobalHeap)
  | none => pure none
  | some r => do
    match ← .call (I := buildI) (.mmapAnonymous r.mapSize) with
    | none => pure none
    | some raw => do
      let heap ← placeChecked r raw
      pure (some heap)

/-- The kernel would count the constants of `reserve` down to see through the match. -/
theorem newChecked_construct : newChecked nodes size = construct (reserve nodes size) := rfl

/-- Once a reservation is settled, construction is one mapping request and `place`. -/
theorem newChecked_eq (granted : reserve nodes size = some r)
    (total : r.totalSize = r.regionSize * r.numNodes)
    (map : r.mapSize = r.totalSize + minRegionSize) :
    ∃ answer : Option Nat → Prog buildI (Option GlobalHeap),
      newChecked nodes size = .act (I := buildI) (.mmapAnonymous r.mapSize) answer ∧
      answer none = .ret none ∧
      ∀ raw, raw + r.mapSize ≤ usizeMax → answer (some raw) = .ret (some (place r raw)) := by
  rw [newChecked_construct,granted]
  refine ⟨_,rfl,rfl,fun raw top => ?_⟩
  rw [Prog.bind_ret]
  dsimp only
  rw [placeChecked_eq total map top]
  rfl

/-- `GlobalHeap::new`, for every number of nodes and every region size: refused before
anything is mapped exactly when the reservation is no `isize`; else one mapping is asked
for, and a heap laid out in it whenever it is granted, without any overflow. -/
theorem new_geometry (nodes size : Nat) :
    ∃ region, IsLeast {x | minRegionSize ∣ x ∧ max size minRegionSize ≤ x} region ∧
      (isizeMax < region * max 1 (min nodes maxNodes) + minRegionSize →
        newChecked nodes size = .ret none) ∧
      (region * max 1 (min nodes maxNodes) + minRegionSize ≤ isizeMax →
        ∃ answer : Option Nat → Prog buildI (Option GlobalHeap),
          newChecked nodes size =
            .act (I := buildI)
              (.mmapAnonymous (region * max 1 (min nodes maxNodes) + minRegionSize)) answer ∧
          answer none = .ret none ∧
          ∀ raw, 0 < raw →
            raw + (region * max 1 (min nodes maxNodes) + minRegionSize) ≤ usizeMax →
            ∃ g, answer (some raw) = .ret (some g) ∧
              g.Laid (max 1 (min nodes maxNodes)) region raw
                (region * max 1 (min nodes maxNodes) + minRegionSize)) := by
  obtain ⟨region,least⟩ := least_multiple_exists (a := minRegionSize) (by decide)
    (max size minRegionSize)
  have reserved := reserve_eq nodes least
  have pos : 0 < region := lt_of_lt_of_le (by decide) (Nat.le_trans (Nat.le_max_right _ _) least.1.2)
  refine ⟨region,least,fun beyond => ?_,fun fits => ?_⟩
  · have refused := reserved.trans (if_pos beyond)
    unfold newChecked
    rw [refused]
    rfl
  · have granted := reserved.trans (if_neg (Nat.not_lt.mpr fits))
    obtain ⟨answer,asked,failed,placed⟩ := newChecked_eq granted rfl rfl
    refine ⟨answer,asked,failed,fun raw _ top => ⟨_,placed raw top,?_⟩⟩
    have few : max 1 (min nodes maxNodes) ≤ maxNodes :=
      Nat.max_le.mpr ⟨by decide,Nat.min_le_right _ _⟩
    exact place_laid pos few least.1.1 rfl rfl top

end Numalloc.GlobalHeap
