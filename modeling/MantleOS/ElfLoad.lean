-- What the loader does to the user memory and the page table, as a pure
-- function of the image: each byte and each page belongs to the last segment
-- that reaches it, up to the first segment that the loader refuses.
import Mathlib.Data.List.GetD
import Mathlib.Data.List.TakeWhile
import MantleOS.Elf

open checked bytes

namespace mantle.elf

/-! ## The pure model -/

def headerOf (image : Bytes) : elf_header :=
  { ident := slice image 0 16
    type := wordOf image 16 2
    machine := wordOf image 18 2
    version := wordOf image 20 4
    entry := wordOf image 24 8
    phoff := wordOf image 32 8
    ehsize := wordOf image 52 2
    phentsize := wordOf image 54 2
    phnum := wordOf image 56 2 }

def programOf (image : Bytes) (start : Nat) : elf_program_header :=
  { type := wordOf image start 4
    flags := wordOf image (start + 4) 4
    offset := wordOf image (start + 8) 8
    vaddr := wordOf image (start + 16) 8
    filesz := wordOf image (start + 32) 8
    memsz := wordOf image (start + 40) 8
    align := wordOf image (start + 48) 8 }

/-- The program headers of the table from `index` on. -/
def programsFrom (image : Bytes) : Nat → Nat → List elf_program_header
  | 0, _ => []
  | left + 1, index =>
    programOf image ((headerOf image).phoff + index * (headerOf image).phentsize) ::
      programsFrom image left (index + 1)

/-- The `PT_LOAD` headers of the image, in table order. -/
def segments (image : Bytes) : List elf_program_header :=
  (programsFrom image (headerOf image).phnum 0).filter (fun p => p.type = PT_LOAD)

/-- The segments before the first one that the loader refuses. -/
def placed (image : Bytes) : List elf_program_header :=
  (segments image).takeWhile (fun p => segment_valid p image.length)

/-- The image passes every check that comes before the clear. -/
def HeaderAccepted (image : Bytes) : Prop :=
  headerSize ≤ image.length ∧ header_valid (headerOf image) image.length = true ∧
    user_range (headerOf image).entry 1 = true

instance (image : Bytes) : Decidable (HeaderAccepted image) :=
  inferInstanceAs (Decidable (_ ∧ _ ∧ _))

/-- The loader places every segment, there is one, and one holds the entry. -/
def SegmentsAccepted (image : Bytes) : Prop :=
  (∀ p ∈ segments image, segment_valid p image.length = true) ∧ segments image ≠ [] ∧
    ∃ p ∈ segments image, holds_entry (headerOf image).entry p = true

instance (image : Bytes) : Decidable (SegmentsAccepted image) :=
  inferInstanceAs (Decidable (_ ∧ _ ∧ _))

/-- The index of the first byte of a segment in `mantle_user_memory`. -/
def firstByte (program : elf_program_header) : Nat := program.vaddr - USER_BASE

/-- What a segment says of byte `i`: a byte of the file, or 0 after the end of the file
part. -/
def segmentByte (image : Bytes) (program : elf_program_header) (i : Nat) : Option UInt8 :=
  if firstByte program ≤ i ∧ i < firstByte program + program.memsz then
    some (if i < firstByte program + program.filesz then
      image.getD (program.offset + (i - firstByte program)) 0 else 0)
  else none

/-- The segment has a byte in page `page`. -/
def Meets (program : elf_program_header) (page : Nat) : Prop :=
  firstByte program < (page + 1) * 4096 ∧ page * 4096 < firstByte program + program.memsz

instance (program : elf_program_header) (page : Nat) : Decidable (Meets program page) :=
  inferInstanceAs (Decidable (_ ∧ _))

/-- What a segment says of page `page`. -/
def segmentPage (layout : Layout) (program : elf_program_header) (page : Nat) : Option Nat :=
  if Meets program page then some (page_entry layout page (permissions program)) else none

/-- The entries before the first segment: read-only, and writable in the stack area. -/
def freshPage (layout : Layout) (pages : Nat → Nat) (page : Nat) : Nat :=
  if page < 512 then entryWith layout page (decide (496 ≤ page)) true else pages page

/-- The user space with the placed segments. -/
def placedUser (layout : Layout) (user : UserSpace) (image : Bytes) : UserSpace :=
  { memory := ⟨overlay (segmentByte image)
      (user.memory.filled 0 0x200000 (fun _ => 0)).cells (placed image)⟩
    pages := overlay (segmentPage layout) (freshPage layout user.pages) (placed image) }

/-- What `mantle_elf_load` gives. -/
def loadM (layout : Layout) (user : UserSpace) (image : Bytes) :
    UserSpace × Option mantle_user_image :=
  if HeaderAccepted image then
    (placedUser layout user image,
      if SegmentsAccepted image then
        some { entry := (headerOf image).entry, stack := USER_STACK_TOP }
      else none)
  else (user, none)

/-! ## The specs -/

theorem headerAt_eq {image : Bytes} (h : headerSize ≤ image.length) :
    headerAt image = .ok (headerOf image) := by
  unfold headerSize at h
  unfold headerAt
  rw [sliceAt_eq (by omega), ok_bind, wordAt_eq (by omega), ok_bind, wordAt_eq (by omega), ok_bind,
    wordAt_eq (by omega), ok_bind, wordAt_eq (by omega), ok_bind, wordAt_eq (by omega), ok_bind,
    wordAt_eq (by omega), ok_bind, wordAt_eq (by omega), ok_bind, wordAt_eq (by omega), ok_bind]
  rfl

theorem programAt_eq {image : Bytes} {start : Nat} (h : start + programSize ≤ image.length) :
    programAt image start = .ok (programOf image start) := by
  unfold programSize at h
  unfold programAt
  rw [wordAt_eq (by omega), ok_bind, wordAt_eq (by omega), ok_bind, wordAt_eq (by omega), ok_bind,
    wordAt_eq (by omega), ok_bind, wordAt_eq (by omega), ok_bind, wordAt_eq (by omega), ok_bind,
    wordAt_eq (by omega), ok_bind]
  rfl

theorem range64_iff {offset length size : Nat} :
    range64 offset length size = true ↔ offset + length ≤ size := by
  simp only [range64, Bool.and_eq_true, decide_eq_true_eq]
  omega

theorem user_range_iff {address size : Nat} :
    user_range address size = true ↔ 0x400000 ≤ address ∧ address + size ≤ 0x600000 := by
  simp only [user_range, Bool.and_eq_true, decide_eq_true_eq]
  unfold USER_BASE USER_LIMIT
  omega

/-- What the checks of a segment say, with the sums over the integers. -/
structure Fits (program : elf_program_header) (size : Nat) : Prop where
  filesz_le : program.filesz ≤ program.memsz
  memsz_pos : 0 < program.memsz
  file_in : program.offset + program.filesz ≤ size
  base_le : 0x400000 ≤ program.vaddr
  end_le : program.vaddr + program.memsz ≤ 0x600000
  not_wx : program.flags &&& (PF_W ||| PF_X) ≠ PF_W ||| PF_X

theorem fits_of_valid {program : elf_program_header} {size : Nat}
    (h : segment_valid program size = true) : Fits program size := by
  simp only [segment_valid, Bool.and_eq_true, decide_eq_true_eq, range64_iff,
    user_range_iff] at h
  obtain ⟨⟨⟨⟨⟨⟨⟨h1, h2⟩, h3⟩, h4⟩, h5⟩, _⟩, _⟩, _⟩ := h
  exact ⟨h1, by omega, h3, h4.1, h4.2, h5⟩

theorem copy_bytes.spec (memory : Window USER_BASE userSize) (destination : Nat) (image : Bytes)
    (source size : Nat) (hd : destination + size ≤ 0x200000) (hs : source + size ≤ image.length) :
    copy_bytes memory destination image source size =
      .ok (memory.filled destination size (fun i => image.getD (source + i) 0)) := by
  apply forRange_fill
  intro i m hi
  rw [byteAt_eq (by omega), ok_bind, Window.storeAt_eq _ (by unfold userSize; omega)]
  rw [List.getD_eq_getElem _ _ (by omega)]

theorem clear_bytes.spec (memory : Window USER_BASE userSize) (destination size : Nat)
    (hd : destination + size ≤ 0x200000) :
    clear_bytes memory destination size = .ok (memory.filled destination size (fun _ => 0)) := by
  apply forRange_fill
  intro i m hi
  exact Window.storeAt_eq _ (by unfold userSize; omega)

/-- A segment that passes the checks is placed, and nothing else changes. -/
theorem place_segment.spec (layout : Layout) (image : Bytes) (program : elf_program_header)
    (user : UserSpace) (h : Fits program image.length) :
    place_segment layout image program user = .ok
      { memory := ⟨fun i => (segmentByte image program i).getD (user.memory.cells i)⟩
        pages := fun p => (segmentPage layout program p).getD (user.pages p) } := by
  obtain ⟨h1, h2, h3, h4, h5, _⟩ := h
  -- No cast to 32 bits loses a bit.
  have hd : (program.vaddr - USER_BASE) % 2 ^ 32 = firstByte program := by
    unfold firstByte USER_BASE
    omega
  have hfirst : firstByte program + program.memsz ≤ 0x200000 := by
    unfold firstByte USER_BASE
    omega
  have hf : program.filesz % 2 ^ 32 = program.filesz := by omega
  have hm : program.memsz % 2 ^ 32 = program.memsz := by omega
  have hmf : (program.memsz - program.filesz) % 2 ^ 32 = program.memsz - program.filesz := by omega
  unfold place_segment
  simp only [hd, hf, hm, hmf]
  rw [copy_bytes.spec _ _ _ _ _ (by omega) h3, ok_bind, clear_bytes.spec _ _ _ (by omega), ok_bind,
    map_pages.spec _ _ _ _ _ (by omega), ok_bind, pure_eq_ok]
  rw [Except.ok.injEq, UserSpace.mk.injEq]
  constructor
  · ext i
    simp only [Window.filled, segmentByte]
    by_cases hin : firstByte program ≤ i ∧ i < firstByte program + program.memsz
    · rw [if_pos hin]
      by_cases hfile : i < firstByte program + program.filesz
      · rw [if_neg (by omega), if_pos (by omega), if_pos hfile]
        rfl
      · rw [if_pos (by omega), if_neg hfile]
        rfl
    · rw [if_neg hin, if_neg (by omega), if_neg (by omega)]
      rfl
  · funext p
    have hiff : (firstByte program / 4096 ≤ p ∧
        p < (firstByte program + program.memsz + 4095) % 2 ^ 32 / 4096) ↔ Meets program p := by
      unfold Meets
      omega
    simp only [hiff, segmentPage]
    split <;> rfl

theorem clear_user.spec (layout : Layout) (user : UserSpace) :
    clear_user layout user = .ok
      { memory := user.memory.filled 0 0x200000 (fun _ => 0)
        pages := freshPage layout user.pages } := by
  unfold clear_user
  rw [clear_bytes.spec _ _ _ (by omega), ok_bind, map_pages.spec _ _ _ _ _ (by omega), ok_bind,
    map_pages.spec _ _ _ _ _ (by omega), ok_bind, pure_eq_ok]
  rw [Except.ok.injEq, UserSpace.mk.injEq]
  refine ⟨rfl, ?_⟩
  funext p
  unfold freshPage
  by_cases h512 : p < 512
  · by_cases h496 : 496 ≤ p
    · rw [if_pos ⟨h496, h512⟩, if_pos h512, decide_eq_true h496]
      rfl
    · rw [if_neg (by omega), if_pos ⟨Nat.zero_le p, h512⟩, if_pos h512, decide_eq_false h496]
      rfl
  · rw [if_neg (by omega), if_neg (by omega), if_neg h512]

/-- What one turn adds for a segment that is placed. -/
def Progress.add (layout : Layout) (image : Bytes) (progress : Progress)
    (program : elf_program_header) : Progress :=
  { user :=
      { memory := ⟨fun i => (segmentByte image program i).getD (progress.user.memory.cells i)⟩
        pages := fun p => (segmentPage layout program p).getD (progress.user.pages p) }
    load_count := progress.load_count + 1
    entry_valid := progress.entry_valid || holds_entry (headerOf image).entry program }

/-- The loop adds the segments before the first refused one, and says whether there was
one. -/
theorem load_loop.spec (layout : Layout) (image : Bytes) (left index : Nat) (progress : Progress)
    (hent : (headerOf image).phentsize = programSize)
    (htab : (headerOf image).phoff + (index + left) * programSize ≤ image.length) :
    let segs := (programsFrom image left index).filter (fun p => p.type = PT_LOAD)
    load_loop layout image (headerOf image) left index progress = .ok
      ((segs.takeWhile (fun p => segment_valid p image.length)).foldl (Progress.add layout image)
        progress, segs.all (fun p => segment_valid p image.length)) := by
  induction left generalizing index progress with
  | zero => rfl
  | succ left ih =>
    have hin : (headerOf image).phoff + index * (headerOf image).phentsize + programSize ≤
        image.length := by
      rw [hent]
      unfold programSize at htab ⊢
      omega
    have hrest := fun progress => ih (index + 1) progress (by unfold programSize at htab ⊢; omega)
    simp only at hrest ⊢
    unfold load_loop
    rw [programAt_eq hin, ok_bind, programsFrom]
    set program := programOf image ((headerOf image).phoff + index * (headerOf image).phentsize)
    by_cases htype : program.type = PT_LOAD
    · rw [if_neg (not_not.mpr htype)]
      by_cases hvalid : segment_valid program image.length = true
      · rw [if_neg (by simp [hvalid]), place_segment.spec layout image program _ (fits_of_valid hvalid),
          ok_bind, hrest]
        simp [htype, hvalid, Progress.add]
      · simp [htype, hvalid]
    · rw [if_pos htype, hrest]
      simp [htype]

/-- What the turns add up to: each table is overlaid by the segments in turn. -/
theorem foldl_add (layout : Layout) (image : Bytes) (ps : List elf_program_header)
    (progress : Progress) :
    ps.foldl (Progress.add layout image) progress =
      { user :=
          { memory := ⟨overlay (segmentByte image) progress.user.memory.cells ps⟩
            pages := overlay (segmentPage layout) progress.user.pages ps }
        load_count := progress.load_count + ps.length
        entry_valid := progress.entry_valid || ps.any (holds_entry (headerOf image).entry) } := by
  induction ps generalizing progress with
  | nil => simp [overlay]
  | cons p ps ih =>
    rw [List.foldl_cons, ih, List.length_cons, List.any_cons]
    simp only [overlay, List.foldl_cons, Progress.add, Bool.or_assoc, Progress.mk.injEq, true_and,
      and_true]
    omega

theorem placed_eq_segments {image : Bytes}
    (h : ∀ p ∈ segments image, segment_valid p image.length = true) :
    placed image = segments image := by
  unfold placed
  rw [List.takeWhile_eq_self_iff]
  exact h

/-- `mantle_elf_load` never leaves the image, the memory or the table, and gives `loadM`. -/
theorem mantle_elf_load.spec (layout : Layout) (user : UserSpace) (image : Bytes) :
    mantle_elf_load layout user (some image) = .ok (loadM layout user image) := by
  unfold mantle_elf_load loadM
  simp only
  by_cases hsize : image.length < headerSize
  · have hno : ¬ HeaderAccepted image := fun h => by have := h.1; omega
    rw [if_pos hsize, if_neg hno]
  rw [if_neg hsize, headerAt_eq (by omega), ok_bind]
  by_cases hvalid : header_valid (headerOf image) image.length = true
  swap
  · have hno : ¬ HeaderAccepted image := fun h => hvalid h.2.1
    rw [if_pos (by simpa using hvalid), if_neg hno]
    rfl
  rw [if_neg (by simpa using hvalid)]
  by_cases hentry : user_range (headerOf image).entry 1 = true
  swap
  · have hno : ¬ HeaderAccepted image := fun h => hentry h.2.2
    rw [if_pos (by simpa using hentry), if_neg hno]
    rfl
  rw [if_neg (by simpa using hentry), if_pos ⟨by omega, hvalid, hentry⟩, clear_user.spec, ok_bind]
  have hfields := hvalid
  simp only [header_valid, Bool.and_eq_true, decide_eq_true_eq, range64_iff] at hfields
  obtain ⟨⟨⟨⟨_, hent⟩, _⟩, _⟩, htab⟩ := hfields
  rw [hent] at htab
  have hloop := load_loop.spec layout image (headerOf image).phnum 0
    { user :=
        { memory := user.memory.filled 0 0x200000 (fun _ => 0)
          pages := freshPage layout user.pages }
      load_count := 0
      entry_valid := false } hent (by simpa using htab)
  simp only at hloop
  rw [← segments, ← placed] at hloop
  rw [hloop, ok_bind]
  simp only [foldl_add, Nat.zero_add, Bool.false_or]
  rw [← placedUser]
  by_cases hgood : SegmentsAccepted image
  · obtain ⟨hall, hne, p, hpm, hpe⟩ := hgood
    have hallb : (segments image).all (fun p => segment_valid p image.length) = true := by
      simpa using hall
    have hany : (segments image).any (holds_entry (headerOf image).entry) = true :=
      List.any_eq_true.mpr ⟨p, hpm, hpe⟩
    rw [if_neg (by simp [placed_eq_segments hall, hallb, hne, hany]),
      if_pos ⟨hall, hne, p, hpm, hpe⟩, pure_eq_ok]
  · rw [if_neg hgood, if_pos, pure_eq_ok]
    by_contra hno
    simp only [Bool.or_eq_true, Bool.not_eq_true', decide_eq_true_eq, not_or, Bool.not_eq_false,
      List.length_eq_zero_iff] at hno
    obtain ⟨⟨hallb, hne⟩, hany⟩ := hno
    have hall : ∀ p ∈ segments image, segment_valid p image.length = true := by
      simpa using hallb
    rw [placed_eq_segments hall] at hne hany
    obtain ⟨p, hpm, hpe⟩ := List.any_eq_true.mp hany
    exact hgood ⟨hall, hne, p, hpm, hpe⟩

end mantle.elf
