-- Byte strings, little-endian words, arrays seen at an address, and tables
-- that several writers fill one after the other.
import Mathlib.Data.List.TakeWhile
import Mathlib.Data.Nat.Digits.Lemmas
import Mathlib.Logic.Function.Basic
import MantleOS.Checked

open checked

namespace bytes

abbrev Bytes := List UInt8

/-- The bytes of a text of plain characters. -/
def ascii (s : String) : Bytes := s.toList.map fun c => UInt8.ofNat c.toNat

/-- The C string that a buffer holds: the bytes before the first NUL. -/
def cstring (b : Bytes) : Bytes := b.takeWhile (· ≠ 0)

theorem cstring_of_notMem {b : Bytes} (h : 0 ∉ b) : cstring b = b := by
  rw [cstring, List.takeWhile_eq_self_iff]
  intro x hx
  simpa using fun h0 : x = 0 => h (h0 ▸ hx)

theorem notMem_cstring (b : Bytes) : 0 ∉ cstring b := by
  intro h
  simpa using List.mem_takeWhile_imp h

theorem cstring_length_lt {b : Bytes} (h : 0 ∈ b) : (cstring b).length < b.length := by
  induction b with
  | nil => cases h
  | cons c rest ih =>
    by_cases hc : c = 0
    · simp [cstring, hc]
    · have := ih (List.mem_of_ne_of_mem (Ne.symm hc) h)
      simpa [cstring, hc] using this

/-- After a string comes its NUL. -/
theorem take_cstring {b : Bytes} (h : 0 ∈ b) : b.take ((cstring b).length + 1) = cstring b ++ [0] := by
  induction b with
  | nil => cases h
  | cons c rest ih =>
    by_cases hc : c = 0
    · simp [cstring, hc]
    · have := ih (List.mem_of_ne_of_mem (Ne.symm hc) h)
      simpa [cstring, hc] using this

theorem cstring_append_nul {b : Bytes} (h : 0 ∉ b) : cstring (b ++ [0]) = b := by
  rw [cstring, List.takeWhile_append_of_pos]
  · simp
  · intro x hx
    simpa using fun h0 : x = 0 => h (h0 ▸ hx)

/-- Bytes whose number fits a `uint32_t`, as a pointer with its `size` gives them. -/
structure Blob where
  content : Bytes
  size_lt : content.length < 2 ^ 32

/-! ## Checked reads -/

/-- `b[i]`, with a read past the end as a fault. -/
def byteAt (b : Bytes) (i : Nat) : Checked UInt8 :=
  match b[i]? with
  | some x => .ok x
  | none => .error (.bounds i b.length)

theorem byteAt_eq {b : Bytes} {i : Nat} (h : i < b.length) : byteAt b i = .ok b[i] := by
  simp [byteAt, h]

/-- `b[i] = x`, with a write past the end as a fault. -/
def setAt (b : Bytes) (i : Nat) (x : UInt8) : Checked Bytes :=
  if i < b.length then .ok (b.set i x) else .error (.bounds i b.length)

theorem setAt_eq {b : Bytes} {i : Nat} (x : UInt8) (h : i < b.length) :
    setAt b i x = .ok (b.set i x) := if_pos h

/-- The bytes `i, .., i + n - 1` of the string. -/
def slice (b : Bytes) (i n : Nat) : Bytes := (b.drop i).take n

theorem slice_length {b : Bytes} {i n : Nat} (h : i + n ≤ b.length) : (slice b i n).length = n := by
  simp only [slice, List.length_take, List.length_drop]
  omega

theorem slice_zero (b : Bytes) (i : Nat) : slice b i 0 = [] := by simp [slice]

theorem slice_succ {b : Bytes} {i n : Nat} (h : i < b.length) :
    slice b i (n + 1) = b[i] :: slice b (i + 1) n := by
  unfold slice
  rw [List.drop_eq_getElem_cons h, List.take_succ_cons]

theorem slice_add (b : Bytes) (i n m : Nat) : slice b i (n + m) = slice b i n ++ slice b (i + n) m := by
  rw [slice, slice, slice, ← List.drop_drop, List.take_add]

/-- The first bytes of a string decide its slices there. -/
theorem slice_take {b : Bytes} {i n m : Nat} (h : i + n ≤ m) : slice (b.take m) i n = slice b i n := by
  rw [slice, slice, List.drop_take, List.take_take, Nat.min_eq_left (by omega)]

theorem take_slice (b : Bytes) (i : Nat) {n m : Nat} (h : m ≤ n) :
    (slice b i n).take m = slice b i m := by
  rw [slice, slice, List.take_take, Nat.min_eq_left h]

theorem drop_slice (b : Bytes) (i n m : Nat) : (slice b i n).drop m = slice b (i + m) (n - m) := by
  rw [slice, slice, List.drop_take, List.drop_drop]

theorem takeWhile_slice_length_le (b : Bytes) (i n : Nat) (p : UInt8 → Bool) :
    ((slice b i n).takeWhile p).length ≤ n := by
  apply (List.takeWhile_prefix p).length_le.trans
  rw [slice, List.length_take]
  exact Nat.min_le_left _ _

/-- The start of a slice with a property is a slice itself. -/
theorem slice_takeWhile (b : Bytes) (i n : Nat) (p : UInt8 → Bool) :
    slice b i ((slice b i n).takeWhile p).length = (slice b i n).takeWhile p := by
  rw [← take_slice b i (takeWhile_slice_length_le b i n p)]
  exact (List.prefix_iff_eq_take.mp (List.takeWhile_prefix p)).symm

/-- The bytes `i, .., i + n - 1`, with a read past the end as a fault. -/
def sliceAt (b : Bytes) (i n : Nat) : Checked Bytes :=
  if i + n ≤ b.length then .ok (slice b i n) else .error (.bounds (i + n) b.length)

theorem sliceAt_eq {b : Bytes} {i n : Nat} (h : i + n ≤ b.length) :
    sliceAt b i n = .ok (slice b i n) := if_pos h

/-- The little-endian value of a string. -/
def leValue (b : Bytes) : Nat := Nat.ofDigits 256 (b.map UInt8.toNat)

/-- The little-endian word of `n` bytes at `i`. -/
def wordOf (b : Bytes) (i n : Nat) : Nat := leValue (slice b i n)

/-- The word of `n` bytes at `i`, with a read past the end as a fault. -/
def wordAt (b : Bytes) (i n : Nat) : Checked Nat :=
  if i + n ≤ b.length then .ok (wordOf b i n) else .error (.bounds (i + n) b.length)

theorem wordAt_eq {b : Bytes} {i n : Nat} (h : i + n ≤ b.length) :
    wordAt b i n = .ok (wordOf b i n) := if_pos h

theorem leValue_lt (b : Bytes) : leValue b < 256 ^ b.length := by
  have h := Nat.ofDigits_lt_base_pow_length (b := 256) (l := b.map UInt8.toNat) (by omega)
    (fun x hx => by
      obtain ⟨u, _, rfl⟩ := List.mem_map.mp hx
      exact u.toNat_lt)
  simpa [leValue] using h

theorem wordOf_lt (b : Bytes) (i n : Nat) : wordOf b i n < 256 ^ n := by
  have hlen : (slice b i n).length ≤ n := by
    simp only [slice, List.length_take]
    omega
  exact Nat.lt_of_lt_of_le (leValue_lt _) (Nat.pow_le_pow_right (by omega) hlen)

/-! ## Little-endian words written -/

/-- The `n` little-endian bytes of a value. -/
def wordBytes : Nat → Nat → Bytes
  | 0, _ => []
  | n + 1, v => UInt8.ofNat v :: wordBytes n (v / 256)

@[simp] theorem wordBytes_length (n v : Nat) : (wordBytes n v).length = n := by
  induction n generalizing v with
  | zero => rfl
  | succ n ih => simp [wordBytes, ih]

theorem leValue_wordBytes (n v : Nat) (h : v < 256 ^ n) : leValue (wordBytes n v) = v := by
  induction n generalizing v with
  | zero =>
    have : v = 0 := by simpa using h
    simp [wordBytes, leValue, this]
  | succ n ih =>
    have hdiv : v / 256 < 256 ^ n := by
      apply Nat.div_lt_of_lt_mul
      rwa [Nat.pow_succ, Nat.mul_comm] at h
    have hrec := ih (v / 256) hdiv
    simp only [leValue, wordBytes, List.map_cons, Nat.ofDigits_cons] at hrec ⊢
    rw [hrec]
    simp only [UInt8.toNat_ofNat', Nat.reducePow]
    omega

theorem slice_append {a b c : Bytes} {i n : Nat} (hi : i = a.length) (hn : n = b.length) :
    slice (a ++ (b ++ c)) i n = b := by
  subst hi hn
  simp [slice]

/-- A word that an encoder wrote after `a` is read back there. -/
theorem wordOf_append {a c : Bytes} {i n v : Nat} (hi : i = a.length) (hv : v < 256 ^ n) :
    wordOf (a ++ (wordBytes n v ++ c)) i n = v := by
  unfold wordOf
  rw [slice_append hi (wordBytes_length n v).symm, leValue_wordBytes n v hv]

/-! ## Bytes written into a buffer -/

/-- The buffer with `bs` in the place of the bytes from `i` on. -/
def splice (b : Bytes) (i : Nat) (bs : Bytes) : Bytes := b.take i ++ bs ++ b.drop (i + bs.length)

theorem splice_length {b bs : Bytes} {i : Nat} (h : i + bs.length ≤ b.length) :
    (splice b i bs).length = b.length := by
  simp only [splice, List.length_append, List.length_take, List.length_drop]
  omega

theorem slice_splice_self {b bs : Bytes} {i : Nat} (h : i ≤ b.length) :
    slice (splice b i bs) i bs.length = bs := by
  unfold splice
  rw [List.append_assoc]
  exact slice_append (by simp [h]) rfl

/-- What follows a write does not depend on what comes before it. -/
theorem drop_splice {b bs : Bytes} {i : Nat} (h : i ≤ b.length) :
    (splice b i bs).drop i = bs ++ b.drop (i + bs.length) := by
  rw [splice, List.append_assoc, List.drop_left' (by simp [h])]

/-- A write does not reach the bytes before it. -/
theorem take_splice_before {b bs : Bytes} {i : Nat} (h : i ≤ b.length) :
    (splice b i bs).take i = b.take i := by
  rw [splice, List.append_assoc, List.take_left' (by simp [h])]

theorem take_splice {b bs : Bytes} {i n : Nat} (h : i + bs.length ≤ n) (hn : n ≤ b.length) :
    (splice b i bs).take n = splice (b.take n) i bs := by
  have hlen : (b.take i ++ bs).length = i + bs.length := by
    rw [List.length_append, List.length_take]
    omega
  rw [splice, List.take_append, hlen, List.take_of_length_le (by omega), splice, List.take_take,
    Nat.min_eq_left (by omega), List.drop_take]

theorem getElem?_splice {b bs : Bytes} {i j : Nat} (h : i + bs.length ≤ b.length)
    (hj : j < i ∨ i + bs.length ≤ j) : (splice b i bs)[j]? = b[j]? := by
  unfold splice
  rcases hj with hj | hj
  · rw [List.append_assoc, List.getElem?_append_left (by simp; omega), List.getElem?_take_of_lt hj]
  · rw [List.getElem?_append_right (by simp; omega), List.getElem?_drop]
    congr 1
    simp only [List.length_append, List.length_take]
    omega

/-- A write leaves the bytes before it and after it. -/
theorem slice_splice_other {b bs : Bytes} {i j n : Nat} (h : i + bs.length ≤ b.length)
    (hj : j + n ≤ i ∨ i + bs.length ≤ j) : slice (splice b i bs) j n = slice b j n := by
  apply List.ext_getElem?
  intro m
  simp only [slice, List.getElem?_take, List.getElem?_drop]
  split
  · exact getElem?_splice h (by omega)
  · rfl

theorem splice_nil (b : Bytes) (i : Nat) : splice b i [] = b := by simp [splice]

theorem set_eq_splice {b : Bytes} {i : Nat} (x : UInt8) (h : i < b.length) :
    b.set i x = splice b i [x] := by
  rw [List.set_eq_take_append_cons_drop, if_pos h]
  simp [splice]

/-- A write that starts where another one ends. -/
theorem splice_splice {b as bs : Bytes} {i : Nat} (h : i ≤ b.length) :
    splice (splice b i as) (i + as.length) bs = splice b i (as ++ bs) := by
  have htake : (splice b i as).take (i + as.length) = b.take i ++ as := by
    rw [splice, List.take_left' (by simp [h])]
  have hdrop : (splice b i as).drop (i + as.length + bs.length) =
      b.drop (i + (as ++ bs).length) := by
    rw [Nat.add_assoc, ← List.drop_drop, drop_splice h, ← List.drop_drop, List.drop_left,
      List.drop_drop, List.length_append, Nat.add_assoc]
  rw [splice, htake, hdrop, splice, List.append_assoc (b.take i)]

/-- A string that is copied to the start of a buffer, and its NUL. -/
theorem cstring_splice {b text : Bytes} (h0 : 0 ∉ text) : cstring (splice b 0 (text ++ [0])) = text := by
  rw [splice, List.take_zero, List.nil_append, List.append_assoc, List.singleton_append, cstring,
    List.takeWhile_append_of_pos]
  · simp
  · intro x hx
    simpa using fun hx0 : x = 0 => h0 (hx0 ▸ hx)

/-- `memcpy(b + i, bs, ..)`, with a write past the end as a fault. -/
def spliceAt (b : Bytes) (i : Nat) (bs : Bytes) : Checked Bytes :=
  if i + bs.length ≤ b.length then .ok (splice b i bs) else .error (.bounds (i + bs.length) b.length)

theorem spliceAt_eq {b bs : Bytes} {i : Nat} (h : i + bs.length ≤ b.length) :
    spliceAt b i bs = .ok (splice b i bs) := if_pos h

/-- One more byte, right behind what was written. -/
theorem setAt_splice {b text : Bytes} {i : Nat} (x : UInt8) (h : i + text.length < b.length) :
    setAt (splice b i text) (i + text.length) x = .ok (splice b i (text ++ [x])) := by
  have hplace : i + text.length < (splice b i text).length := by rwa [splice_length (Nat.le_of_lt h)]
  rw [setAt_eq x hplace, set_eq_splice x hplace, splice_splice (by omega)]

/-- A string that is copied to the start of a buffer, and then closed with its NUL. -/
theorem copy_string {b text : Bytes} (h : text.length < b.length) :
    ∃ copied, spliceAt b 0 text = .ok copied ∧
      setAt copied text.length 0 = .ok (splice b 0 (text ++ [0])) := by
  have hclose := @setAt_splice b text 0 0 (by omega)
  rw [Nat.zero_add] at hclose
  exact ⟨splice b 0 text, spliceAt_eq (by omega), hclose⟩

/-- What is copied of a text to the place `n` of a buffer of `cap` bytes that ends in a NUL. -/
theorem cut_length {v : Bytes} {cap n : Nat} (hn : n < cap) :
    (if cap ≤ n + v.length then cap - n - 1 else v.length) = (v.take (cap - 1 - n)).length := by
  rw [List.length_take]
  split <;> omega

/-- A byte that is put into a buffer, and what is put there after it. -/
theorem setAt_then {b : Bytes} {n : Nat} (c : UInt8) (hn : n < b.length) :
    setAt b n c = .ok (splice b n [c]) ∧ (splice b n [c]).length = b.length ∧
      ∀ text, splice (splice b n [c]) (n + 1) text = splice b n (c :: text) := by
  refine ⟨?_, splice_length (by rw [List.length_singleton]; omega), fun text => ?_⟩
  · rw [setAt_eq c hn, set_eq_splice c hn]
  · exact @splice_splice b [c] text n (Nat.le_of_lt hn)

/-- The buffer after writes at given places, one after the other. -/
def written (b : Bytes) (writes : List (Nat × Bytes)) : Bytes :=
  writes.foldl (fun b w => splice b w.1 w.2) b

/-- Every write stays in a buffer of this length. -/
def WritesFit (writes : List (Nat × Bytes)) (length : Nat) : Prop :=
  ∀ w ∈ writes, w.1 + w.2.length ≤ length

theorem written_length {b : Bytes} {writes : List (Nat × Bytes)} (h : WritesFit writes b.length) :
    (written b writes).length = b.length := by
  induction writes generalizing b with
  | nil => rfl
  | cons w writes ih =>
    have hlen := splice_length (h w (by simp))
    have hrest : WritesFit writes (splice b w.1 w.2).length := by
      intro v hv
      rw [hlen]
      exact h v (by simp [hv])
    exact (ih hrest).trans hlen

theorem written_append (b : Bytes) (l1 l2 : List (Nat × Bytes)) :
    written b (l1 ++ l2) = written (written b l1) l2 := List.foldl_append

/-- The first bytes after writes that stay in them. -/
theorem take_written {b : Bytes} {writes : List (Nat × Bytes)} {n : Nat} (h : WritesFit writes n)
    (hn : n ≤ b.length) : (written b writes).take n = written (b.take n) writes := by
  induction writes generalizing b with
  | nil => rfl
  | cons w writes ih =>
    have hw := h w (by simp)
    have hlen := @splice_length b w.2 w.1 (by omega)
    have hrest := @ih (splice b w.1 w.2) (fun v hv => h v (by simp [hv])) (by omega)
    rw [take_splice hw hn] at hrest
    exact hrest

/-- Writes that all miss a range leave it. -/
theorem slice_written {b : Bytes} {writes : List (Nat × Bytes)} {i n : Nat}
    (h : WritesFit writes b.length) (hi : ∀ w ∈ writes, i + n ≤ w.1 ∨ w.1 + w.2.length ≤ i) :
    slice (written b writes) i n = slice b i n := by
  induction writes generalizing b with
  | nil => rfl
  | cons w writes ih =>
    have hrest : WritesFit writes (splice b w.1 w.2).length := by
      intro v hv
      rw [splice_length (h w (by simp))]
      exact h v (by simp [hv])
    have hlast := ih hrest (fun v hv => hi v (by simp [hv]))
    exact hlast.trans (slice_splice_other (h w (by simp)) (hi w (by simp)))

/-- What a write put in its place is there when the writes after it miss the place. -/
theorem slice_written_self {b bs : Bytes} {before after : List (Nat × Bytes)} {i : Nat}
    (h : WritesFit (before ++ (i, bs) :: after) b.length)
    (hafter : ∀ w ∈ after, i + bs.length ≤ w.1 ∨ w.1 + w.2.length ≤ i) :
    slice (written b (before ++ (i, bs) :: after)) i bs.length = bs := by
  have hbefore : (written b before).length = b.length := written_length fun w hw => h w (by simp [hw])
  have hfits : i + bs.length ≤ b.length := h (i, bs) (by simp)
  have hsplit : written b (before ++ (i, bs) :: after) =
      written (splice (written b before) i bs) after := by
    rw [written_append]
    rfl
  rw [hsplit, slice_written _ hafter]
  · exact slice_splice_self (by omega)
  · intro w hw
    rw [splice_length (by omega), hbefore]
    exact h w (by simp [hw])

theorem wordOf_written {b : Bytes} {before after : List (Nat × Bytes)} {i n v : Nat}
    (h : WritesFit (before ++ (i, wordBytes n v) :: after) b.length) (hv : v < 256 ^ n)
    (hafter : ∀ w ∈ after, i + n ≤ w.1 ∨ w.1 + w.2.length ≤ i) :
    wordOf (written b (before ++ (i, wordBytes n v) :: after)) i n = v := by
  have hslice := slice_written_self h (by simpa using hafter)
  rw [wordBytes_length] at hslice
  rw [wordOf, hslice, leValue_wordBytes n v hv]

/-! ## An array seen at an address -/

/-- An array of `size` bytes that the code sees at the addresses from `base`. -/
@[ext] structure Window (base size : Nat) where
  cells : Nat → UInt8

namespace Window

variable {base size : Nat}

/-- The address is one of the array. -/
def Holds (base size address : Nat) : Prop := base ≤ address ∧ address < base + size

instance (address : Nat) : Decidable (Holds base size address) :=
  inferInstanceAs (Decidable (_ ∧ _))

/-- The `count` addresses from `start` are in the array. -/
def HoldsAll (base size start count : Nat) : Prop := ∀ k < count, Holds base size (start + k)

theorem HoldsAll.part {start count : Nat} (h : HoldsAll base size start count) (i n : Nat)
    (hn : i + n ≤ count) : HoldsAll base size (start + i) n := by
  intro k hk
  rw [Nat.add_assoc]
  exact h (i + k) (by omega)

/-- The byte of an address of the window. -/
def byte (w : Window base size) (address : Nat) : UInt8 := w.cells (address - base)

/-- The array with one byte changed. -/
def put (w : Window base size) (i : Nat) (x : UInt8) : Window base size :=
  ⟨Function.update w.cells i x⟩

/-- A write by index: `array[i] = x`. -/
def storeAt (w : Window base size) (i : Nat) (x : UInt8) : Checked (Window base size) :=
  if i < size then .ok (w.put i x) else .error (.bounds i size)

/-- A read through a pointer. -/
def load (w : Window base size) (address : Nat) : Checked UInt8 :=
  if Holds base size address then .ok (w.byte address) else .error (.bounds address (base + size))

/-- A write through a pointer. -/
def store (w : Window base size) (address : Nat) (x : UInt8) : Checked (Window base size) :=
  if Holds base size address then .ok (w.put (address - base) x)
  else .error (.bounds address (base + size))

theorem load_eq {w : Window base size} {address : Nat} (h : Holds base size address) :
    w.load address = .ok (w.byte address) := if_pos h

theorem store_eq {w : Window base size} {address : Nat} (x : UInt8) (h : Holds base size address) :
    w.store address x = .ok (w.put (address - base) x) := if_pos h

theorem storeAt_eq {w : Window base size} {i : Nat} (x : UInt8) (h : i < size) :
    w.storeAt i x = .ok (w.put i x) := if_pos h

/-- The bytes of the `count` addresses from `address` on, read one by one. -/
def loads (w : Window base size) : Nat → Nat → Checked Bytes
  | _, 0 => .ok []
  | address, count + 1 => do
    let b ← w.load address
    let bs ← w.loads (address + 1) count
    return b :: bs

/-- The bytes that stand at the `count` addresses from `address` on. -/
def bytesAt (w : Window base size) (address count : Nat) : Bytes :=
  (List.range count).map (fun i => w.byte (address + i))

theorem bytesAt_succ (w : Window base size) (address count : Nat) :
    w.bytesAt address (count + 1) = w.byte address :: w.bytesAt (address + 1) count := by
  simp only [bytesAt, List.range_succ_eq_map, List.map_cons, List.map_map, Nat.add_zero]
  congr 1
  apply List.map_congr_left
  intro i _
  simp only [Function.comp_apply]
  congr 1
  omega

theorem bytesAt_concat (w : Window base size) (address count : Nat) :
    w.bytesAt address (count + 1) = w.bytesAt address count ++ [w.byte (address + count)] := by
  simp [bytesAt, List.range_succ]

@[simp] theorem bytesAt_length (w : Window base size) (address count : Nat) :
    (w.bytesAt address count).length = count := by
  simp [bytesAt]

theorem bytesAt_take (w : Window base size) (address : Nat) {n count : Nat} (h : n ≤ count) :
    (w.bytesAt address count).take n = w.bytesAt address n := by
  simp [bytesAt, ← List.map_take, List.take_range, Nat.min_eq_left h]

theorem bytesAt_add (w : Window base size) (address m n : Nat) :
    w.bytesAt address (m + n) = w.bytesAt address m ++ w.bytesAt (address + m) n := by
  simp [bytesAt, List.range_add, Function.comp_def, Nat.add_assoc]

theorem bytesAt_drop (w : Window base size) (address : Nat) {n count : Nat} (h : n ≤ count) :
    (w.bytesAt address count).drop n = w.bytesAt (address + n) (count - n) := by
  rw [show count = n + (count - n) by omega, bytesAt_add, List.drop_left' (by simp),
    Nat.add_sub_cancel_left]

theorem loads_eq {w : Window base size} {address count : Nat}
    (h : HoldsAll base size address count) : w.loads address count = .ok (w.bytesAt address count) := by
  induction count generalizing address with
  | zero => rfl
  | succ count ih =>
    have h0 : Holds base size address := h 0 (by omega)
    rw [loads, load_eq h0, ok_bind, ih (h.part 1 count (by omega)), ok_bind, bytesAt_succ]
    rfl

@[simp] theorem put_cells (w : Window base size) (i j : Nat) (x : UInt8) :
    (w.put i x).cells j = if j = i then x else w.cells j := by
  simp [put, Function.update_apply]

theorem put_byte (w : Window base size) {a c : Nat} (x : UInt8) (ha : base ≤ a) (hc : base ≤ c) :
    (w.put (a - base) x).byte c = if c = a then x else w.byte c := by
  have : c - base = a - base ↔ c = a := by omega
  simp [byte, this]

/-- Every byte of the array outside the `count` addresses from `start` is as it was. -/
def SameOutside (w v : Window base size) (start count : Nat) : Prop :=
  ∀ a, base ≤ a → ¬ (start ≤ a ∧ a < start + count) → v.byte a = w.byte a

theorem SameOutside.refl (w : Window base size) (start count : Nat) :
    SameOutside w w start count := fun _ _ _ => rfl

theorem SameOutside.trans {u v w : Window base size} {start count : Nat}
    (h1 : SameOutside u v start count) (h2 : SameOutside v w start count) :
    SameOutside u w start count := fun a ha hn => (h2 a ha hn).trans (h1 a ha hn)

theorem SameOutside.put (w : Window base size) {start count a : Nat} (x : UInt8) (ha : base ≤ a)
    (h : start ≤ a ∧ a < start + count) : SameOutside w (w.put (a - base) x) start count := by
  intro c hc hn
  rw [put_byte w x ha hc, if_neg]
  rintro rfl
  exact hn h

/-- The array with the bytes of a string from an address on, one after the other. -/
def putAll (w : Window base size) : Nat → Bytes → Window base size
  | _, [] => w
  | address, b :: bs => (w.put (address - base) b).putAll (address + 1) bs

theorem putAll_outside (w : Window base size) {address c : Nat} {bs : Bytes} (ha : base ≤ address)
    (hc : base ≤ c) (h : c < address ∨ address + bs.length ≤ c) :
    (w.putAll address bs).byte c = w.byte c := by
  induction bs generalizing w address with
  | nil => rfl
  | cons b bs ih =>
    rw [List.length_cons] at h
    rw [putAll, ih _ (by omega) (by omega), put_byte w b ha hc, if_neg (by omega)]

/-- The bytes are read back where they were put. -/
theorem bytesAt_putAll (w : Window base size) {address : Nat} (bs : Bytes) (ha : base ≤ address) :
    (w.putAll address bs).bytesAt address bs.length = bs := by
  induction bs generalizing w address with
  | nil => rfl
  | cons b bs ih =>
    rw [List.length_cons, bytesAt_succ, putAll, ih _ (by omega),
      putAll_outside _ (by omega) ha (by omega), put_byte w b ha ha, if_pos rfl]

theorem putAll_concat (w : Window base size) (address : Nat) (bs : Bytes) (b : UInt8) :
    (w.putAll address bs).put (address + bs.length - base) b = w.putAll address (bs ++ [b]) := by
  induction bs generalizing w address with
  | nil => rfl
  | cons c bs ih =>
    rw [List.cons_append, putAll, putAll, ← ih, List.length_cons]
    congr 2
    omega

/-- Bytes put right after others leave those where they stand. -/
theorem bytesAt_putAll_after (w : Window base size) {address count : Nat} (bs : Bytes)
    (ha : base ≤ address) :
    (w.putAll (address + count) bs).bytesAt address (count + bs.length) =
      w.bytesAt address count ++ bs := by
  have hbefore : (w.putAll (address + count) bs).bytesAt address count = w.bytesAt address count := by
    apply List.map_congr_left
    intro i hi
    rw [List.mem_range] at hi
    exact putAll_outside w (by omega) (by omega) (by omega)
  rw [bytesAt_add, hbefore, bytesAt_putAll w bs (by omega)]

theorem SameOutside.putAll (w : Window base size) {start count address : Nat} (bs : Bytes)
    (ha : base ≤ address) (h : start ≤ address ∧ address + bs.length ≤ start + count) :
    SameOutside w (w.putAll address bs) start count := by
  intro c hc hn
  exact putAll_outside w ha hc (by omega)

/-- A byte of the array is one that was put there, or it is as before. -/
theorem byte_putAll (w : Window base size) {address c : Nat} (bs : Bytes) (ha : base ≤ address)
    (hc : base ≤ c) : (w.putAll address bs).byte c ∈ bs ∨ (w.putAll address bs).byte c = w.byte c := by
  by_cases h : address ≤ c ∧ c < address + bs.length
  · have hin : (w.putAll address bs).byte c ∈ (w.putAll address bs).bytesAt address bs.length := by
      refine List.mem_map.mpr ⟨c - address, List.mem_range.mpr (by omega), ?_⟩
      rw [Nat.add_sub_cancel' h.1]
    rw [bytesAt_putAll w bs ha] at hin
    exact .inl hin
  · exact .inr (putAll_outside w ha hc (by omega))

end Window

/-! ## Loops over an array -/

variable {base size : Nat}

/-- The array after `array[start + i] = f i` for each `i` below `count`. -/
def Window.filled (w : Window base size) (start count : Nat) (f : Nat → UInt8) :
    Window base size :=
  ⟨fun j => if start ≤ j ∧ j < start + count then f (j - start) else w.cells j⟩

theorem Window.filled_zero (w : Window base size) (start : Nat) (f : Nat → UInt8) :
    w.filled start 0 f = w := by
  ext j
  simp only [filled]
  rw [if_neg (by omega)]

theorem Window.filled_succ (w : Window base size) (start count : Nat) (f : Nat → UInt8) :
    (w.filled start count f).put (start + count) (f count) = w.filled start (count + 1) f := by
  ext j
  simp only [put_cells, filled]
  by_cases hj : j = start + count
  · subst hj
    rw [if_pos rfl, if_pos (by omega), Nat.add_sub_cancel_left]
  · rw [if_neg hj]
    by_cases hin : start ≤ j ∧ j < start + count
    · rw [if_pos hin, if_pos (by omega)]
    · rw [if_neg hin, if_neg (by omega)]

/-- A counted loop whose turn `i` writes `f i` at `start + i` fills the array. -/
theorem forRange_fill (body : Nat → Window base size → Checked (Window base size))
    (start count : Nat) (f : Nat → UInt8) (w : Window base size)
    (hbody : ∀ i v, i < count → body i v = .ok (v.put (start + i) (f i))) :
    forRange body 0 count w = .ok (w.filled start count f) := by
  have h := forRange.spec body (fun i v => v = w.filled start i f) 0 count w
    (w.filled_zero start f).symm (by
      intro i v _ hi hv
      rw [hbody i v (by omega), yields_ok, hv]
      exact w.filled_succ start i f)
  obtain ⟨r, hr, he⟩ := h
  rw [hr, he, Nat.zero_add]

/-! ## Several writers of one table -/

/-- The table after each writer in turn: a writer that says nothing of a
place leaves it. -/
def overlay {ι β γ : Type} (w : β → ι → Option γ) (f : ι → γ) (bs : List β) : ι → γ :=
  bs.foldl (fun g b i => (w b i).getD (g i)) f

/-- The last writer of a place decides it. -/
theorem overlay_apply {ι β γ : Type} (w : β → ι → Option γ) (f : ι → γ) (bs : List β) (i : ι) :
    overlay w f bs i = (bs.reverse.findSome? (fun b => w b i)).getD (f i) := by
  unfold overlay
  induction bs generalizing f with
  | nil => rfl
  | cons b bs ih =>
    rw [List.foldl_cons, ih, List.reverse_cons, List.findSome?_append]
    cases h : bs.reverse.findSome? (fun b => w b i) with
    | some x => simp
    | none => cases hb : w b i <;> simp [hb]

/-- A search for the first answer, where only the members with `p` answer. -/
theorem findSome_ite {β γ : Type} (p : β → Prop) [DecidablePred p] (g : β → γ) (bs : List β) :
    bs.findSome? (fun b => if p b then some (g b) else none) =
      (bs.find? (fun b => p b)).map g := by
  induction bs with
  | nil => rfl
  | cons b bs ih =>
    rw [List.findSome?_cons, List.find?_cons]
    by_cases hb : p b
    · simp [hb]
    · simp [hb, ih]

end bytes
