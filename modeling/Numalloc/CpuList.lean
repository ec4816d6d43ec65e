import Mathlib.Data.List.SplitOn
import Numalloc.Heap

/-! Thread affinity (`platform.rs`): the CPU list of a node, as the kernel writes it, read
into the mask that the thread is bound to. -/
namespace Numalloc

open Concurrent

def cpulistBuffer : Nat := 8192

/-- Bits of `cpu_set_t`. -/
def cpuSetSize : Nat := 1024

/-- What one `read` puts into a buffer of this length; `none` where there is no such file. -/
def readSysfs (file : Option (List UInt8)) (length : Nat) : Option (List UInt8) :=
  file.map (·.take length)

/-- `std::str::from_utf8` -/
def fromUtf8 (bytes : List UInt8) : Option (List Char) :=
  (ByteArray.mk bytes.toArray).utf8Decode?.map Array.toList

/-- `char::is_whitespace`: the characters with the property White_Space. -/
def isWhitespace (c : Char) : Bool :=
  let n := c.toNat
  (9 ≤ n && n ≤ 13) || n == 0x20 || n == 0x85 || n == 0xA0 || n == 0x1680 ||
    (0x2000 ≤ n && n ≤ 0x200A) || n == 0x2028 || n == 0x2029 || n == 0x202F || n == 0x205F ||
    n == 0x3000

/-- `str::trim` -/
def trim (text : List Char) : List Char :=
  ((text.dropWhile isWhitespace).reverse.dropWhile isWhitespace).reverse

/-- `str::split_once` -/
def splitOnce (sep : Char) : List Char → Option (List Char × List Char)
  | [] => none
  | c :: text =>
    if c = sep then some ([],text)
    else (splitOnce sep text).map fun (front,back) => (c :: front,back)

def toDigit (c : Char) : Option Nat := if c.isDigit then some (c.toNat - 48) else none

def pushDigit (value : Nat) (c : Char) : Option Nat := do
  let digit ← toDigit c
  let value ← checkedMul value 10
  checkedAdd value digit

/-- `str::parse::<usize>`: decimal digits, at least one, behind an optional plus sign. -/
def parseUsize : List Char → Option Nat
  | [] => none
  | ['+'] => none
  | '+' :: digits => digits.foldlM pushDigit 0
  | digits => digits.foldlM pushDigit 0

/-- Set the bits `start ..= end`, as far as the mask goes. -/
def setRange (start stop : Nat) (acc : Nat × Bool) : Nat × Bool :=
  (List.range' start (min stop (cpuSetSize - 1) + 1 - start)).foldl
    (fun (cpuset,_) cpu => (cpuset ||| 1 <<< cpu,true)) acc

def addRange (acc : Nat × Bool) (range : List Char) : Option (Nat × Bool) := do
  let (start,stop) := (splitOnce '-' range).getD (range,range)
  let start ← parseUsize start
  let stop ← parseUsize stop
  if stop < start then none else some (setRange start stop acc)

/-- The mask passed to `sched_setaffinity`, if it is called. -/
def bindThreadToNode (files : Nat → Option (List UInt8)) (node : Nat) : Option Nat :=
  if maxNodes ≤ node then none
  else do
    let bytes ← readSysfs (files node) cpulistBuffer
    if bytes.length = cpulistBuffer then none
    else do
      let cpulist ← fromUtf8 bytes
      let (cpuset,any) ← ((trim cpulist).splitOn ',').foldlM addRange (0,false)
      if any then some cpuset else none

/-! How the kernel writes a set of CPUs. -/

/-- A run of CPU numbers. -/
structure CpuRange where
  first : Nat
  last : Nat
  order : first ≤ last
  word : last ≤ usizeMax

def CpuRange.text (r : CpuRange) : List Char :=
  if r.first = r.last then Nat.toDigits 10 r.first
  else Nat.toDigits 10 r.first ++ '-' :: Nat.toDigits 10 r.last

/-- Items with commas between them and a newline at the end. -/
def cpulistText (ranges : List CpuRange) : List Char :=
  [','].intercalate (ranges.map CpuRange.text) ++ ['\n']

def Listed (ranges : List CpuRange) (cpu : Nat) : Prop :=
  ∃ r ∈ ranges, r.first ≤ cpu ∧ cpu ≤ r.last

/-- An item `N`, or `N-M` in ascending order. -/
def ItemOk (item : List Char) : Prop :=
  (∃ n, parseUsize item = some n) ∨
  ∃ a b n m, item = a ++ '-' :: b ∧ parseUsize a = some n ∧ parseUsize b = some m ∧ n ≤ m

variable {acc : Nat × Bool} {text item : List Char} {n m start stop cpu : Nat} {c : Char}

/-! Numbers. -/

theorem foldlM_none {α β : Type} {f : β → α → Option β} {l : List α} {a : α} {b : β} (mem : a ∈ l)
    (fails : ∀ b, f b a = none) : l.foldlM f b = none := by
  induction l generalizing b with
  | nil => cases mem
  | cons a' l ih =>
    rw [List.foldlM_cons]
    rcases List.mem_cons.mp mem with rfl | later
    · simp [fails]
    · cases step : f b a' with
      | none => rfl
      | some b' => exact ih later

theorem foldlM_pushDigit {value : Nat} (digits : ∀ c ∈ text, c.isDigit = true)
    (word : Nat.ofDigitChars 10 text value ≤ usizeMax) :
    text.foldlM pushDigit value = some (Nat.ofDigitChars 10 text value) := by
  induction text generalizing value with
  | nil => simp
  | cons c text ih =>
    have first := digits c List.mem_cons_self
    rw [Nat.ofDigitChars_cons] at word ⊢
    have grows : ∀ (l : List Char) (v : Nat), v ≤ Nat.ofDigitChars 10 l v := by
      intro l v
      rw [Nat.ofDigitChars_eq_ofDigitChars_zero]
      exact Nat.le_trans (Nat.le_mul_of_pos_left v (Nat.pow_pos (by decide))) (Nat.le_add_right _ _)
    have bound := Nat.le_trans (grows text _) word
    have zero : '0'.toNat = 48 := rfl
    rw [zero] at bound word ⊢
    have step : pushDigit value c = some (10 * value + (c.toNat - 48)) := by
      simp only [pushDigit,toDigit,first,if_true,Option.bind_eq_bind,Option.bind_some,checkedMul,
        checkedAdd]
      rw [if_pos (by omega),Option.bind_some,if_pos (by omega),Nat.mul_comm]
    rw [List.foldlM_cons,step]
    exact ih (fun c mem => digits c (List.mem_cons_of_mem _ mem)) word

theorem digit_toDigits (mem : c ∈ Nat.toDigits 10 n) : c.isDigit = true :=
  Nat.isDigit_of_mem_toDigits (by decide) (by decide) mem

theorem parseUsize_digits (some_ : text ≠ []) (digits : ∀ c ∈ text, c.isDigit = true) :
    parseUsize text = text.foldlM pushDigit 0 := by
  have plus : '+' ∉ text := fun mem => absurd (digits _ mem) (by decide)
  unfold parseUsize
  split
  · exact absurd rfl some_
  · exact absurd List.mem_cons_self plus
  · exact absurd List.mem_cons_self plus
  · rfl

/-- What is written is read back. -/
theorem parseUsize_toDigits (word : n ≤ usizeMax) : parseUsize (Nat.toDigits 10 n) = some n := by
  have value : Nat.ofDigitChars 10 (Nat.toDigits 10 n) 0 = n := Nat.ofDigitChars_ten_toDigits
  rw [parseUsize_digits Nat.toDigits_ne_nil fun _ => digit_toDigits,
    foldlM_pushDigit (fun _ => digit_toDigits) (by rwa [value]),value]

/-! Items. -/

theorem splitOnce_none {sep : Char} (out : sep ∉ text) : splitOnce sep text = none := by
  induction text with
  | nil => rfl
  | cons c text ih =>
    have ne : c ≠ sep := fun same => out (same ▸ List.mem_cons_self)
    simp [splitOnce,ne,ih fun mem => out (List.mem_cons_of_mem _ mem)]

theorem splitOnce_append {sep : Char} {back : List Char} (out : sep ∉ text) :
    splitOnce sep (text ++ sep :: back) = some (text,back) := by
  induction text with
  | nil => simp [splitOnce]
  | cons c text ih =>
    have ne : c ≠ sep := fun same => out (same ▸ List.mem_cons_self)
    simp [splitOnce,ne,ih fun mem => out (List.mem_cons_of_mem _ mem)]

theorem splitOnce_spec {sep : Char} {front back : List Char}
    (split : splitOnce sep text = some (front,back)) : text = front ++ sep :: back := by
  induction text generalizing front with
  | nil => cases split
  | cons c text ih =>
    by_cases same : c = sep
    · simp only [splitOnce,if_pos same,Option.some.injEq,Prod.mk.injEq] at split
      obtain ⟨rfl,rfl⟩ := split
      rw [same]
      rfl
    · simp only [splitOnce,if_neg same,Option.map_eq_some_iff,Prod.exists,Prod.mk.injEq] at split
      obtain ⟨front',_,found,rfl,rfl⟩ := split
      rw [ih found]
      rfl

/-- Exactly these bits are set, and the flag tells whether there are any. -/
def Masks (acc : Nat × Bool) (cpus : Nat → Prop) : Prop :=
  (acc.2 = true ↔ ∃ cpu, cpus cpu) ∧ ∀ cpu, acc.1.testBit cpu = true ↔ cpus cpu

theorem foldl_masks {cpus : Nat → Prop} (masks : Masks acc cpus) (l : List Nat) :
    Masks (l.foldl (fun (cpuset,_) cpu => (cpuset ||| 1 <<< cpu,true)) acc)
      fun cpu => cpus cpu ∨ cpu ∈ l := by
  induction l generalizing acc cpus with
  | nil => simpa [Masks] using masks
  | cons c l ih =>
    have next : Masks (acc.1 ||| 1 <<< c,true) fun cpu => cpus cpu ∨ cpu = c := by
      refine ⟨⟨fun _ => ⟨c,Or.inr rfl⟩,fun _ => rfl⟩,fun cpu => ?_⟩
      rw [Nat.testBit_or,Bool.or_eq_true,masks.2,Nat.one_shiftLeft,Nat.testBit_two_pow,
        decide_eq_true_eq,eq_comm]
    have rest := ih next
    simp only [or_assoc] at rest
    simpa only [List.foldl_cons,List.mem_cons] using rest

/-- The loop over one range sets its bits below the size of the mask. -/
theorem setRange_masks {cpus : Nat → Prop} (masks : Masks acc cpus) (start stop : Nat) :
    Masks (setRange start stop acc)
      fun cpu => cpus cpu ∨ cpu < cpuSetSize ∧ start ≤ cpu ∧ cpu ≤ stop := by
  have size : cpuSetSize = 1024 := rfl
  have set_ := foldl_masks masks (List.range' start (min stop (cpuSetSize - 1) + 1 - start))
  have inside : ∀ cpu, cpu ∈ List.range' start (min stop (cpuSetSize - 1) + 1 - start) ↔
      cpu < cpuSetSize ∧ start ≤ cpu ∧ cpu ≤ stop := by
    intro cpu
    rw [List.mem_range'_1,size]
    omega
  simp only [inside] at set_
  exact set_

/-- A range that is accepted is well formed. -/
theorem addRange_ok {acc' : Nat × Bool} (added : addRange acc item = some acc') : ItemOk item := by
  simp only [addRange,Option.bind_eq_bind,Option.bind_eq_some_iff,Option.ite_none_left_eq_some] at added
  cases split : splitOnce '-' item with
  | none =>
    rw [split] at added
    obtain ⟨n,parsed,_⟩ := added
    exact Or.inl ⟨n,parsed⟩
  | some ends =>
    obtain ⟨a,b⟩ := ends
    rw [split] at added
    obtain ⟨n,first,m,last,order,_⟩ := added
    exact Or.inr ⟨a,b,n,m,splitOnce_spec split,first,last,Nat.not_lt.mp order⟩

/-- What the kernel writes for a run of CPUs adds the run. -/
theorem addRange_text (r : CpuRange) : addRange acc r.text = some (setRange r.first r.last acc) := by
  have dash : ∀ n, '-' ∉ Nat.toDigits 10 n :=
    fun n mem => absurd (digit_toDigits mem) (by decide)
  have last := parseUsize_toDigits r.word
  have first := parseUsize_toDigits (Nat.le_trans r.order r.word)
  have order := Nat.not_lt.mpr r.order
  unfold CpuRange.text
  split
  case isTrue single =>
    simp only [addRange,splitOnce_none (dash r.first),Option.getD_none,first,Option.bind_eq_bind,
      Option.bind_some,if_neg (Nat.lt_irrefl _)]
    rw [← single]
  case isFalse =>
    simp only [addRange,splitOnce_append (dash r.first),Option.getD_some,first,last,
      Option.bind_eq_bind,Option.bind_some,if_neg order]

theorem listed_cons {r : CpuRange} {ranges : List CpuRange} : Listed (r :: ranges) cpu ↔
    r.first ≤ cpu ∧ cpu ≤ r.last ∨ Listed ranges cpu := by
  simp [Listed]

/-- Over all runs of a list. -/
theorem foldlM_addRange {cpus : Nat → Prop} (masks : Masks acc cpus) (ranges : List CpuRange) :
    ∃ acc', (ranges.map CpuRange.text).foldlM addRange acc = some acc' ∧
      Masks acc' fun cpu => cpus cpu ∨ cpu < cpuSetSize ∧ Listed ranges cpu := by
  induction ranges generalizing acc cpus with
  | nil => exact ⟨acc,rfl,by simpa [Masks,Listed] using masks⟩
  | cons r ranges ih =>
    obtain ⟨acc',loop,last⟩ := ih (setRange_masks masks r.first r.last)
    refine ⟨acc',by simp [List.foldlM_cons,addRange_text,loop],?_⟩
    have same : ∀ cpu, ((cpus cpu ∨ cpu < cpuSetSize ∧ r.first ≤ cpu ∧ cpu ≤ r.last) ∨
        cpu < cpuSetSize ∧ Listed ranges cpu) ↔
        cpus cpu ∨ cpu < cpuSetSize ∧ Listed (r :: ranges) cpu := by
      intro cpu
      rw [listed_cons]
      tauto
    simpa only [same] using last

/-! The text as a whole. -/

/-- Nothing but the newline is trimmed off. -/
theorem trim_newline (clean : ∀ c ∈ text, isWhitespace c = false) : trim (text ++ ['\n']) = text := by
  have kept : ∀ l : List Char, (∀ c ∈ l, isWhitespace c = false) → l.dropWhile isWhitespace = l := by
    intro l clean
    cases l with
    | nil => rfl
    | cons c l => simp [List.dropWhile_cons,clean c List.mem_cons_self]
  unfold trim
  cases text with
  | nil => decide
  | cons c text =>
    have first := clean c List.mem_cons_self
    rw [List.cons_append,List.dropWhile_cons,first,if_neg Bool.false_ne_true,← List.cons_append,
      List.reverse_append]
    have newline : isWhitespace '\n' = true := by decide
    rw [List.reverse_singleton,List.singleton_append,List.dropWhile_cons,newline,if_pos rfl,
      kept _ fun d mem => clean d (List.mem_reverse.mp mem),List.reverse_reverse]

/-- The bytes of a text. -/
def utf8 (text : List Char) : List UInt8 := (String.ofList text).toUTF8.data.toList

theorem fromUtf8_utf8 (text : List Char) : fromUtf8 (utf8 text) = some text := by
  have bytes : ByteArray.mk (utf8 text).toArray = text.utf8Encode := by
    unfold utf8
    rw [Array.toArray_toList]
    rfl
  rw [fromUtf8,bytes,List.utf8Decode?_utf8Encode]
  rfl

/-- No character of an item is a comma or white space. -/
theorem text_clean (r : CpuRange) (mem : c ∈ r.text) : c ≠ ',' ∧ isWhitespace c = false := by
  have digit : ∀ {n}, c ∈ Nat.toDigits 10 n → c ≠ ',' ∧ isWhitespace c = false := by
    intro n mem
    have digit := digit_toDigits mem
    have range := Char.isDigit_iff_toNat.mp digit
    have zero : '0'.toNat = 48 := rfl
    have nine : '9'.toNat = 57 := rfl
    refine ⟨?_,?_⟩
    · rintro rfl
      exact absurd digit (by decide)
    · simp only [isWhitespace,Bool.or_eq_false_iff,Bool.and_eq_false_iff,decide_eq_false_iff_not,
        beq_eq_false_iff_ne,ne_eq]
      omega
  unfold CpuRange.text at mem
  split at mem
  · exact digit mem
  · rcases List.mem_append.mp mem with first | second
    · exact digit first
    · rcases List.mem_cons.mp second with rfl | last
      · decide
      · exact digit last

theorem mem_intercalate {sep : Char} {items : List (List Char)} (mem : c ∈ [sep].intercalate items) :
    c = sep ∨ ∃ item ∈ items, c ∈ item := by
  induction items with
  | nil => cases mem
  | cons item items ih =>
    by_cases last : items = []
    · subst last
      rw [List.intercalate_singleton] at mem
      exact Or.inr ⟨item,List.mem_cons_self,mem⟩
    rw [List.intercalate_cons_of_ne_nil last,List.append_assoc] at mem
    rcases List.mem_append.mp mem with here | mem
    · exact Or.inr ⟨item,List.mem_cons_self,here⟩
    rcases List.mem_cons.mp mem with rfl | later
    · exact Or.inl rfl
    rcases ih later with same | ⟨item',inside,at_⟩
    · exact Or.inl same
    · exact Or.inr ⟨item',List.mem_cons_of_mem _ inside,at_⟩

/-- The items of a list are read back as they were written. -/
theorem split_text (ranges : List CpuRange) : (trim (cpulistText ranges)).splitOn ',' =
    if ranges = [] then [[]] else ranges.map CpuRange.text := by
  have clean : ∀ c ∈ [','].intercalate (ranges.map CpuRange.text), isWhitespace c = false := by
    intro c mem
    rcases mem_intercalate mem with rfl | ⟨_,inside,at_⟩
    · decide
    · obtain ⟨r,_,rfl⟩ := List.mem_map.mp inside
      exact (text_clean r at_).2
  rw [cpulistText,trim_newline clean]
  split
  case isTrue empty =>
    subst empty
    rfl
  case isFalse some_ =>
    refine List.splitOn_intercalate ',' ?_ (by simpa using some_)
    intro item inside comma
    obtain ⟨r,_,rfl⟩ := List.mem_map.mp inside
    exact (text_clean r comma).1 rfl

theorem bindThreadToNode_eq {files : Nat → Option (List UInt8)} {node : Nat} {file : List UInt8}
    {cpulist : List Char} (low : node < maxNodes) (read : files node = some file)
    (short : file.length < cpulistBuffer) (decoded : fromUtf8 file = some cpulist) :
    bindThreadToNode files node =
      (((trim cpulist).splitOn ',').foldlM addRange (0,false)).bind fun (cpuset,any) =>
        if any then some cpuset else none := by
  have whole : file.take cpulistBuffer = file := List.take_of_length_le short.le
  simp only [bindThreadToNode,if_neg (Nat.not_le.mpr low),readSysfs,read,Option.map_some,whole,
    Option.bind_eq_bind,Option.bind_some,if_neg (Nat.ne_of_lt short),decoded]

/-- For every set of CPUs as the kernel writes it, the mask is exactly the set, as far as the
mask goes, and without a CPU the affinity is left alone. It is left alone as well whenever
the file is too long, no UTF-8, or has an ill-formed item. -/
theorem bindThreadToNode_exact (files : Nat → Option (List UInt8)) {node : Nat}
    (low : node < maxNodes) :
    (∀ ranges : List CpuRange, ranges.Pairwise (fun r r' => r.last < r'.first) →
      files node = some (utf8 (cpulistText ranges)) →
      (utf8 (cpulistText ranges)).length < cpulistBuffer →
      (bindThreadToNode files node = none ↔ ¬∃ cpu < cpuSetSize, Listed ranges cpu) ∧
      ∀ cpuset, bindThreadToNode files node = some cpuset →
        ∀ cpu, cpuset.testBit cpu = true ↔ cpu < cpuSetSize ∧ Listed ranges cpu) ∧
    ∀ file, files node = some file →
      (cpulistBuffer ≤ file.length ∨ fromUtf8 file = none ∨
        ∃ cpulist, fromUtf8 file = some cpulist ∧
          ∃ item ∈ (trim cpulist).splitOn ',', ¬ItemOk item) →
      bindThreadToNode files node = none := by
  constructor
  · intro ranges _ read short
    have empty : Masks (0,false) fun _ => False := by simp [Masks]
    obtain ⟨⟨mask,flag⟩,loop,any,bits⟩ := foldlM_addRange empty ranges
    simp only [false_or] at any bits
    rw [bindThreadToNode_eq low read short (fromUtf8_utf8 _),split_text]
    by_cases none_ : ranges = []
    · subst none_
      have fails : ([[]] : List (List Char)).foldlM addRange (0,false) = none := rfl
      rw [if_pos rfl,fails]
      exact ⟨by simp [Listed],fun _ h => (nomatch h)⟩
    · rw [if_neg none_,loop,Option.bind_some]
      by_cases set_ : flag = true
      · simp only [if_pos set_]
        refine ⟨⟨fun h => (nomatch h),fun out => absurd (any.mp set_) out⟩,?_⟩
        rintro cpuset same cpu
        rw [← Option.some.inj same]
        exact bits cpu
      · simp only [if_neg set_]
        exact ⟨⟨fun _ some_ => set_ (any.mpr some_),fun _ => trivial⟩,fun _ h => (nomatch h)⟩
  · intro file read bad
    by_cases short : file.length < cpulistBuffer
    case neg =>
      have full : (file.take cpulistBuffer).length = cpulistBuffer :=
        List.length_take_of_le (Nat.not_lt.mp short)
      simp only [bindThreadToNode,if_neg (Nat.not_le.mpr low),readSysfs,read,Option.map_some,
        Option.bind_eq_bind,Option.bind_some,if_pos full]
    rcases bad with long | undecoded | ⟨cpulist,decoded,item,mem,bad⟩
    · exact absurd short (Nat.not_lt.mpr long)
    · have whole : file.take cpulistBuffer = file := List.take_of_length_le short.le
      simp only [bindThreadToNode,if_neg (Nat.not_le.mpr low),readSysfs,read,Option.map_some,whole,
        Option.bind_eq_bind,Option.bind_some,if_neg (Nat.ne_of_lt short),undecoded,Option.bind_none]
    · have fails : ∀ acc, addRange acc item = none := by
        intro acc
        cases added : addRange acc item with
        | none => rfl
        | some acc' => exact absurd (addRange_ok added) bad
      rw [bindThreadToNode_eq low read short decoded,foldlM_none mem fails]
      rfl

namespace Sample

/-- A run that goes far past the mask comes last. -/
def cpus : List CpuRange :=
  [⟨0,1,by decide,by decide⟩,⟨7,7,le_rfl,by decide⟩,⟨1000,99999,by decide,by decide⟩]

theorem cpus_text : utf8 (cpulistText cpus) = utf8 "0-1,7,1000-99999\n".toList :=
  congrArg utf8 (by decide +kernel)

end Sample

theorem sample_bindThreadToNode_exact : ∃ cpuset,
    bindThreadToNode (fun _ => some (utf8 "0-1,7,1000-99999\n".toList)) 0 = some cpuset ∧
    ∀ cpu, cpuset.testBit cpu = true ↔ cpu < cpuSetSize ∧ Listed Sample.cpus cpu := by
  obtain ⟨none_,bits⟩ := (bindThreadToNode_exact
    (fun _ => some (utf8 "0-1,7,1000-99999\n".toList)) (by decide : 0 < maxNodes)).1 Sample.cpus
    (by simp [Sample.cpus]) (congrArg some Sample.cpus_text.symm)
    (by rw [Sample.cpus_text]; decide +kernel)
  have some_ : ∃ cpu < cpuSetSize, Listed Sample.cpus cpu :=
    ⟨7,by decide,_,List.mem_cons_of_mem _ List.mem_cons_self,le_rfl,le_rfl⟩
  obtain ⟨cpuset,called⟩ := Option.ne_none_iff_exists'.mp fun empty => none_.mp empty some_
  exact ⟨cpuset,called,bits cpuset called⟩

end Numalloc
