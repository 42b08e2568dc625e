-- The walk over the entry table of a mounted image. Each function of the C
-- code gives the value of a pure function here, and never leaves the image
-- or the caller's buffer.
import MantleOS.Rootfs

open checked bytes
open Window (HoldsAll)

namespace mantle.rootfs

/-! ## The pure model -/

/-- An entry of the table with the bytes of its path. -/
structure Entry where
  path : Bytes
  file : mantle_rootfs_file
  deriving DecidableEq

/-- The cursor after the entry at `cursor`. -/
def nextCursor (image : Bytes) (cursor : Nat) : Nat :=
  cursor + entrySize + (entryOf image cursor).path_length

def viewOf (image : Bytes) (cursor : Nat) : Entry :=
  let entry := entryOf image cursor
  { path := slice image (cursor + entrySize) entry.path_length
    file := { data := entry.offset, size := entry.size, mode := entry.mode } }

/-- The entries of the table from `cursor` on. -/
def walk (image : Bytes) : Nat → Nat → List Entry
  | 0, _ => []
  | left + 1, cursor => viewOf image cursor :: walk image left (nextCursor image cursor)

/-- What mount asks of the entry at `cursor`: the entry, its path and its file are in the
image. -/
structure Sound (image : Bytes) (cursor : Nat) : Prop where
  path_pos : 0 < (entryOf image cursor).path_length
  path_le : (entryOf image cursor).path_length ≤ 255
  path_in : nextCursor image cursor ≤ image.length
  file_in : (entryOf image cursor).offset + (entryOf image cursor).size ≤ image.length

/-- Every entry of the table from `cursor` on is sound. -/
def Walkable (image : Bytes) : Nat → Nat → Prop
  | 0, _ => True
  | left + 1, cursor =>
    Sound image cursor ∧ Walkable image left (nextCursor image cursor)

instance (image : Bytes) (cursor : Nat) : Decidable (Sound image cursor) :=
  decidable_of_iff (0 < (entryOf image cursor).path_length ∧
      (entryOf image cursor).path_length ≤ 255 ∧ nextCursor image cursor ≤ image.length ∧
      (entryOf image cursor).offset + (entryOf image cursor).size ≤ image.length)
    ⟨fun h => ⟨h.1, h.2.1, h.2.2.1, h.2.2.2⟩, fun h => ⟨h.1, h.2, h.3, h.4⟩⟩

def Walkable.decide (image : Bytes) : (left cursor : Nat) → Decidable (Walkable image left cursor)
  | 0, _ => isTrue trivial
  | left + 1, cursor =>
    have := Walkable.decide image left (nextCursor image cursor)
    inferInstanceAs (Decidable (_ ∧ _))

instance (image : Bytes) (left cursor : Nat) : Decidable (Walkable image left cursor) :=
  Walkable.decide image left cursor

theorem Sound.entry_in {image : Bytes} {cursor : Nat} (h : Sound image cursor) :
    cursor + entrySize ≤ image.length := by
  have := h.path_in
  unfold nextCursor at this
  omega

/-! ## The specs -/

theorem entryAt_eq {image : Bytes} {cursor : Nat} (h : cursor + entrySize ≤ image.length) :
    entryAt image cursor = .ok (entryOf image cursor) := by
  unfold entrySize at h
  unfold entryAt
  rw [wordAt_eq (by omega), wordAt_eq (by omega), wordAt_eq (by omega), wordAt_eq (by omega)]
  rfl

theorem range_valid_iff {offset length size : Nat} :
    range_valid offset length size = true ↔ offset + length ≤ size := by
  simp only [range_valid, Bool.and_eq_true, decide_eq_true_eq]
  omega

/-- The loop of mount never leaves the image, and accepts exactly the walkable tables. -/
theorem mount_loop.spec (image : Bytes) (left cursor : Nat) (hsize : image.length < 2 ^ 32) :
    Yields (mount_loop image image.length left cursor) (· = true ↔ Walkable image left cursor) := by
  induction left generalizing cursor with
  | zero => simp [mount_loop, Walkable]
  | succ left ih =>
    unfold mount_loop
    by_cases hin : cursor + entrySize ≤ image.length
    · have hv := range_valid_iff.mpr hin
      simp only [hv, Bool.not_true, Bool.false_eq_true, if_false]
      rw [entryAt_eq hin, ok_bind, add32_eq (by omega), ok_bind]
      split
      · rename_i hbad
        simp only [pure_eq_ok, yields_ok, Bool.false_eq_true, false_iff]
        rintro ⟨hs, _⟩
        have h3 := range_valid_iff.mpr hs.path_in
        have h4 := range_valid_iff.mpr hs.file_in
        have := hs.path_pos
        have := hs.path_le
        simp only [h3, h4, Bool.not_true, Bool.false_eq_true, or_false] at hbad
        omega
      · rename_i hgood
        simp only [not_or, Bool.not_eq_true', Bool.not_eq_false] at hgood
        obtain ⟨h1, h2, h3, h4⟩ := hgood
        have h3 := range_valid_iff.mp h3
        have h4 := range_valid_iff.mp h4
        have hs : Sound image cursor := ⟨by omega, by omega, h3, h4⟩
        rw [add32_eq (by omega), ok_bind]
        apply (ih (nextCursor image cursor)).mono
        intro b hb
        simp [hb, Walkable, hs]
    · have hv : range_valid cursor entrySize image.length = false := by
        rw [Bool.eq_false_iff]
        exact fun h => hin (range_valid_iff.mp h)
      simp only [hv, Bool.not_false, if_true, yields_ok, Bool.false_eq_true, false_iff]
      rintro ⟨hs, _⟩
      exact hin hs.entry_in

theorem path_equal_loop.spec (image : Bytes) (left left_length : Nat) (right : Bytes) (index : Nat)
    (hnul : 0 ∈ right) (hleft : left + left_length ≤ image.length) (hi : index ≤ left_length) :
    Yields (path_equal_loop image left left_length right index)
      (· = true ↔ slice image (left + index) (left_length - index) = cstring right) := by
  induction right generalizing index with
  | nil => cases hnul
  | cons c rest ih =>
    unfold path_equal_loop
    by_cases hc : c = 0
    · have hlen := slice_length (b := image) (i := left + index) (n := left_length - index)
        (by omega)
      simp only [hc, if_true, yields_ok, beq_iff_eq, cstring, List.takeWhile_cons, ne_eq,
        not_true_eq_false, decide_false, Bool.false_eq_true, if_false]
      rw [← List.length_eq_zero_iff, hlen]
      omega
    · have hcs : cstring (c :: rest) = c :: cstring rest := by simp [cstring, hc]
      simp only [hc, if_false, hcs]
      split
      · rename_i hle
        rw [show left_length - index = 0 by omega, slice_zero]
        simp
      · have hlt : left + index < image.length := by omega
        rw [byteAt_eq hlt, ok_bind, show left_length - index = left_length - (index + 1) + 1 by omega,
          slice_succ hlt]
        split
        · rename_i hne
          simp [hne]
        · rename_i heq
          simp only [ne_eq, not_not] at heq
          apply (ih (index + 1) (List.mem_of_ne_of_mem (Ne.symm hc) hnul) (by omega)).mono
          intro b hb
          simp [hb, heq, Nat.add_assoc]

/-- `path_equal` never leaves the image, and compares the whole strings. -/
theorem path_equal.spec (image : Bytes) (left left_length : Nat) (right : Bytes)
    (hnul : 0 ∈ right) (hleft : left + left_length ≤ image.length) :
    Yields (path_equal image left left_length right)
      (· = true ↔ slice image left left_length = cstring right) := by
  simpa [path_equal] using path_equal_loop.spec image left left_length right 0 hnul hleft (by omega)

/-- The first entry of the list with the path. -/
def lookup (entries : List Entry) (path : Bytes) : Option mantle_rootfs_file :=
  (entries.find? (fun e => e.path = path)).map (·.file)

theorem open_loop.spec (image path : Bytes) (left cursor : Nat) (hsize : image.length < 2 ^ 32)
    (hnul : 0 ∈ path) (h : Walkable image left cursor) :
    open_loop image path left cursor = .ok (lookup (walk image left cursor) (cstring path)) := by
  induction left generalizing cursor with
  | zero => rfl
  | succ left ih =>
    obtain ⟨hs, hrest⟩ := h
    have hpath := hs.path_in
    have hin := hs.entry_in
    unfold open_loop
    rw [entryAt_eq hin, ok_bind, add32_eq (by omega), ok_bind]
    obtain ⟨b, hb, hiff⟩ := path_equal.spec image (cursor + entrySize)
      (entryOf image cursor).path_length path hnul hpath
    rw [hb, ok_bind]
    by_cases hpe : (viewOf image cursor).path = cstring path
    · have hfound : lookup (walk image (left + 1) cursor) (cstring path) =
          some (viewOf image cursor).file := by
        simp [walk, lookup, hpe]
      rw [if_pos (hiff.mpr hpe), hfound]
      rfl
    · rw [if_neg (fun h => hpe (hiff.mp h)), add32_eq (by unfold nextCursor at hpath; omega), ok_bind]
      have hskip : lookup (walk image (left + 1) cursor) (cstring path) =
          lookup (walk image left (nextCursor image cursor)) (cstring path) := by
        simp [walk, lookup, hpe]
      rw [hskip]
      exact ih _ hrest

/-! ## The listing -/

section List

variable {base size : Nat}

/-- What ends a word for `name_seen`: a space or a newline. -/
def isBreak (b : UInt8) : Bool := b = 32 ∨ b = 10

/-- `word_end` stops at the first break. -/
theorem word_end_eq (memory : Window base size) (output left cursor : Nat)
    (h : HoldsAll base size (output + cursor) left) :
    word_end memory output left cursor =
      .ok (cursor + ((memory.bytesAt (output + cursor) left).takeWhile (!isBreak ·)).length) := by
  induction left generalizing cursor with
  | zero => rfl
  | succ left ih =>
    unfold word_end
    rw [Window.load_eq (by simpa using h 0 (by omega)), ok_bind, Window.bytesAt_succ]
    split
    · rename_i hbreak
      rw [List.takeWhile_cons_of_neg (by simpa [isBreak] using hbreak.resolve_left)]
      rfl
    · rename_i hletter
      rw [List.takeWhile_cons_of_pos (by simpa [isBreak] using hletter),
        ih (cursor + 1) (h.part 1 left (by omega)), List.length_cons]
      congr 1
      rw [← Nat.add_assoc output]
      omega

theorem same_name_eq (image : Bytes) (memory : Window base size) (output name left index : Nat)
    (h : HoldsAll base size (output + index) left) (hname : name + index + left ≤ image.length) :
    same_name image memory output name left index =
      .ok (memory.bytesAt (output + index) left = slice image (name + index) left) := by
  induction left generalizing index with
  | zero => simp [same_name, slice_zero, Window.bytesAt]
  | succ left ih =>
    have hlt : name + index < image.length := by omega
    unfold same_name
    rw [Window.load_eq (by simpa using h 0 (by omega)), ok_bind, byteAt_eq hlt, ok_bind,
      Window.bytesAt_succ, slice_succ hlt]
    split
    · rename_i hne
      simp [hne]
    · rename_i heq
      rw [ih (index + 1) (h.part 1 left (by omega)) (by omega)]
      simp only [ne_eq, not_not] at heq
      simp [heq, Nat.add_assoc]

theorem name_seen_loop.spec (image : Bytes) (memory : Window base size)
    (output length name name_length turns start : Nat) (h : HoldsAll base size output length)
    (hname : name + name_length ≤ image.length) :
    Yields (name_seen_loop image memory output length name name_length turns start)
      (fun _ => True) := by
  induction turns generalizing start with
  | zero => simp [name_seen_loop]
  | succ turns ih =>
    unfold name_seen_loop
    split
    · rename_i hstart
      have hword := (List.takeWhile_prefix (!isBreak ·)
        (l := memory.bytesAt (output + start) (length - start))).length_le
      rw [Window.bytesAt_length] at hword
      rw [word_end_eq memory output (length - start) start (h.part start _ (by omega)), ok_bind]
      split
      · rw [same_name_eq image memory (output + start) name name_length 0
          (h.part start _ (by omega)) (by omega), ok_bind]
        split
        · simp
        · exact ih _
      · exact ih _
    · simp

theorem component_loop_eq (image : Bytes) (name left name_length : Nat)
    (h : name + name_length + left ≤ image.length) :
    component_loop image name left name_length =
      .ok (name_length + ((slice image (name + name_length) left).takeWhile
        (fun b => b ≠ 47 ∧ b ≠ 0)).length) := by
  induction left generalizing name_length with
  | zero => simp [component_loop, slice_zero]
  | succ left ih =>
    have hlt : name + name_length < image.length := by omega
    unfold component_loop
    rw [byteAt_eq hlt, ok_bind, slice_succ hlt]
    split
    · rename_i hend
      rw [List.takeWhile_cons_of_neg (by simpa using hend.resolve_left)]
      rfl
    · rename_i hmore
      rw [List.takeWhile_cons_of_pos (by simpa using hmore), ih (name_length + 1) (by omega),
        List.length_cons]
      congr 1
      rw [← Nat.add_assoc name]
      omega

/-- The copy of one component puts its bytes one after the other. -/
theorem copy_component_eq (image : Bytes) (memory : Window base size)
    (output output_size written name name_length : Nat)
    (hbuf : HoldsAll base size output output_size) (hfit : written + name_length ≤ output_size)
    (hname : name + name_length ≤ image.length) :
    forRange (fun part memory => do
      let c ← byteAt image (name + part)
      memory.store (output + written + part) c) 0 name_length memory =
      .ok (memory.putAll (output + written) (slice image name name_length)) := by
  have h := forRange.spec (fun part memory => do
      let c ← byteAt image (name + part)
      memory.store (output + written + part) c)
    (fun part m => m = memory.putAll (output + written) (slice image name part)) 0 name_length memory
    (by rw [slice_zero]; rfl) (by
      intro part m _ hpart hm
      have hlt : name + part < image.length := by omega
      have hheld := hbuf (written + part) (by omega)
      rw [← Nat.add_assoc] at hheld
      have hput := memory.putAll_concat (output + written) (slice image name part) image[name + part]
      rw [slice_length (by omega)] at hput
      rw [byteAt_eq hlt, ok_bind, Window.store_eq _ hheld, yields_ok, hm, hput, slice_add,
        slice_succ hlt, slice_zero])
  obtain ⟨m, hm, he⟩ := h
  rw [hm, he, Nat.zero_add]

/-- The loop of the listing never leaves the image or the buffer, and changes the buffer
only. -/
theorem list_loop.spec (image : Bytes) (output output_size left cursor written : Nat)
    (memory : Window base size) (hsize : image.length < 2 ^ 32)
    (hbuf : HoldsAll base size output output_size) (h : Walkable image left cursor)
    (hw : written ≤ output_size) (hroom : written + 256 * left < 2 ^ 32) :
    Yields (list_loop image output output_size left cursor written memory) (fun r =>
      memory.SameOutside r.1 output output_size ∧
      ∀ w, r.2 = some w → w ≤ output_size ∧ w ≤ written + 256 * left) := by
  induction left generalizing cursor written memory with
  | zero =>
    simp only [list_loop, yields_ok]
    exact ⟨Window.SameOutside.refl _ _ _, fun w hw' => by cases hw'; omega⟩
  | succ left ih =>
    obtain ⟨hs, hrest⟩ := h
    have hpath := hs.path_in
    have hle := hs.path_le
    have hin := hs.entry_in
    unfold nextCursor at hpath
    unfold list_loop
    rw [entryAt_eq hin, ok_bind, add32_eq (by omega), ok_bind, add32_eq (by omega), ok_bind]
    -- An entry that adds nothing leaves the memory and the count to the rest.
    have hskip := (ih (nextCursor image cursor) written memory hrest hw (by omega)).mono
      (Q := fun r => memory.SameOutside r.1 output output_size ∧
        ∀ w, r.2 = some w → w ≤ output_size ∧ w ≤ written + 256 * (left + 1))
      (fun r hr => ⟨hr.1, fun w hw' => by have := hr.2 w hw'; omega⟩)
    split
    · exact hskip
    · have hn := takeWhile_slice_length_le image (cursor + entrySize + 1 + 0)
        ((entryOf image cursor).path_length - 1) (fun b => b ≠ 47 ∧ b ≠ 0)
      simp only []
      rw [component_loop_eq image _ _ 0 (by omega), ok_bind, Nat.zero_add]
      generalize ((slice image _ _).takeWhile _).length = name_length at hn ⊢
      apply (name_seen_loop.spec image memory output written _ name_length written 0
        (fun k hk => hbuf k (by omega)) (by omega)).bind
      intro seen _
      split
      · exact hskip
      · rw [add32_eq (by omega), ok_bind]
        split
        · simp only [pure_eq_ok, yields_ok]
          exact ⟨Window.SameOutside.refl _ _ _, fun w hw' => by cases hw'⟩
        · have hbase : base ≤ output := (hbuf 0 (by omega)).1
          have hh := hbuf (written + name_length) (by omega)
          rw [← Nat.add_assoc] at hh
          have hcopied := @Window.SameOutside.putAll _ _ memory output output_size (output + written)
            (slice image (cursor + entrySize + 1) name_length) (by omega)
            (by rw [slice_length (by omega)]; omega)
          rw [copy_component_eq image memory output output_size written _ name_length hbuf (by omega)
            (by omega), ok_bind, Window.store_eq _ hh, ok_bind]
          apply (ih (nextCursor image cursor) _ _ hrest (by omega) (by omega)).mono
          intro r hr
          refine ⟨(hcopied.trans (Window.SameOutside.put _ _ hh.1 (by omega))).trans hr.1, ?_⟩
          intro w hw'
          have := hr.2 w hw'
          omega

end List

theorem walk_file_in (image : Bytes) (left cursor : Nat) (h : Walkable image left cursor) :
    ∀ e ∈ walk image left cursor, e.file.data + e.file.size ≤ image.length := by
  induction left generalizing cursor with
  | zero => simp [walk]
  | succ left ih =>
    intro e he
    rcases List.mem_cons.mp he with rfl | he
    · exact h.1.file_in
    · exact ih _ h.2 e he

end mantle.rootfs
