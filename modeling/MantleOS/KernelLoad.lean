-- How `load_kernel` of `boot/efi/loader.c` puts the kernel into memory: its
-- checks of the program headers, the pages that it asks for, and the clear and
-- the copy into them. The checks are sums of 64 bits that may wrap.
import MantleOS.Bytes

open checked bytes

namespace mantle.loader

/-! ## The code -/

/-- The file of the kernel. Its size is a `UINTN`. -/
structure KernelImage where
  bytes : Bytes
  size_lt : bytes.length < 2 ^ 64

/-- The fields of a program header that the loader reads. -/
structure elf64_program where
  type : Nat
  offset : Nat
  paddr : Nat
  filesz : Nat
  memsz : Nat
  deriving DecidableEq

/-- `sizeof(elf64_header)`. -/
def headerSize : Nat := 64

/-- `sizeof(elf64_program)`. -/
def programSize : Nat := 56

/-- The program header that stands at `place`. -/
def programOf (image : Bytes) (place : Nat) : elf64_program :=
  { type := wordOf image place 4
    offset := wordOf image (place + 8) 8
    paddr := wordOf image (place + 24) 8
    filesz := wordOf image (place + 32) 8
    memsz := wordOf image (place + 40) 8 }

/-- A read through an `elf64_program` pointer. -/
def programAt (image : Bytes) (place : Nat) : Checked elf64_program :=
  if place + programSize ≤ image.length then .ok (programOf image place)
  else .error (.bounds (place + programSize) image.length)

/-- The memory of the machine, and the pages that the loader has: their address and number. -/
structure Machine where
  allocated : List (Nat × Nat)
  memory : Nat → UInt8

/-- The address is in pages that the loader has. -/
def Machine.Owns (m : Machine) (address : Nat) : Prop :=
  ∃ r ∈ m.allocated, r.1 ≤ address ∧ address < r.1 + r.2 * 0x1000

instance (m : Machine) (address : Nat) : Decidable (m.Owns address) :=
  inferInstanceAs (Decidable (∃ r ∈ m.allocated, _))

/-- A write through a pointer, with one outside the pages of the loader as a fault. -/
def Machine.store (m : Machine) (address : Nat) (x : UInt8) : Checked Machine :=
  if m.Owns address then .ok { m with memory := Function.update m.memory address x }
  else .error (.bounds address 0)

/-- `AllocatePages(AllocateAddress, ..)` of the firmware, given the pages that were handed out
before: the address, or `none` for an error. Pages are inside the address space. -/
structure Firmware where
  AllocatePages : (allocated : List (Nat × Nat)) → (pages address : Nat) → Option Nat
  inside : ∀ allocated pages address a, AllocatePages allocated pages address = some a →
    a + pages * 0x1000 ≤ 2 ^ 64

def clear_bytes (m : Machine) (destination size : Nat) : Checked Machine :=
  forRange (fun index m => m.store ((destination + index) % 2 ^ 64) 0) 0 size m

/-- The copy from the image at `source`. -/
def copy_bytes (m : Machine) (destination : Nat) (image : Bytes) (source size : Nat) :
    Checked Machine :=
  forRange (fun index m => do
    let c ← byteAt image (source + index)
    m.store ((destination + index) % 2 ^ 64) c) 0 size m

/-- The checks of a program header to load. -/
def segment_ok (image_size : Nat) (program : elf64_program) : Bool :=
  !(program.memsz < program.filesz || image_size < program.offset ||
    image_size < (program.offset + program.filesz) % 2 ^ 64 ||
    (program.paddr + program.memsz) % 2 ^ 64 < program.paddr)

/-- The pages that are asked for. -/
def segment_pages (program : elf64_program) : Nat := (program.memsz + 0xfff) % 2 ^ 64 / 0x1000

/-- What follows the checks: the allocation, the clear and the copy. `none` is EFI_LOAD_ERROR. -/
def load_segment (firmware : Firmware) (image : KernelImage) (program : elf64_program)
    (m : Machine) : Checked (Option Machine) :=
  match firmware.AllocatePages m.allocated (segment_pages program) program.paddr with
  | none => .ok none
  | some address =>
    if address ≠ program.paddr then .ok none
    else do
      let m := { m with allocated := (program.paddr, segment_pages program) :: m.allocated }
      let m ← clear_bytes m program.paddr (segment_pages program * 0x1000 % 2 ^ 64)
      let m ← copy_bytes m program.paddr image.bytes program.offset program.filesz
      return some m

/-- `header->phoff` and `header->phnum`. -/
def phoff (image : KernelImage) : Nat := wordOf image.bytes 32 8
def phnum (image : KernelImage) : Nat := wordOf image.bytes 56 2

/-- The checks of the header. -/
def header_ok (image : KernelImage) : Bool :=
  headerSize ≤ image.bytes.length && image.bytes.take 6 = [0x7f, 69, 76, 70, 2, 1] &&
    wordOf image.bytes 18 2 = 62 && wordOf image.bytes 54 2 = programSize &&
    phoff image ≤ image.bytes.length && phnum image ≤ 32 &&
    (phoff image + phnum image * programSize) % 2 ^ 64 ≤ image.bytes.length

/-- One turn of the loop. -/
def load_program (firmware : Firmware) (image : KernelImage) (index : Nat) (m : Machine) :
    Checked (Option Machine) := do
  let program ← programAt image.bytes (phoff image + index * programSize)
  if program.type ≠ 1 then return some m
  else if !segment_ok image.bytes.length program then return none
  else load_segment firmware image program m

/-- The first turns of the loop. -/
def load_programs (firmware : Firmware) (image : KernelImage) (m : Machine) :
    Nat → Checked (Option Machine)
  | 0 => .ok (some m)
  | index + 1 => do
    match ← load_programs firmware image m index with
    | none => return none
    | some m => load_program firmware image index m

/-- The machine and `*entry`, or `none` for EFI_LOAD_ERROR. -/
def load_kernel (firmware : Firmware) (image : KernelImage) (m : Machine) :
    Checked (Option (Machine × Nat)) := do
  if !header_ok image then return none
  else
    match ← load_programs firmware image m (phnum image) with
    | none => return none
    | some m => return some (m, wordOf image.bytes 24 8)

/-! ## The clear and the copy -/

theorem Machine.store_eq {m : Machine} {address : Nat} (x : UInt8) (h : m.Owns address) :
    m.store address x = .ok { m with memory := Function.update m.memory address x } := if_pos h

/-- The pages that a machine has decide what it owns. -/
theorem Machine.Owns.congr {m m' : Machine} {address : Nat} (h : m.Owns address)
    (hsame : m'.allocated = m.allocated) : m'.Owns address := by
  unfold Owns
  rw [hsame]
  exact h

theorem clear_bytes.spec {m : Machine} {destination size : Nat}
    (hown : ∀ i < size, m.Owns ((destination + i) % 2 ^ 64)) :
    Yields (clear_bytes m destination size) (fun m' => m'.allocated = m.allocated) := by
  apply forRange.spec _ (fun _ m' => m'.allocated = m.allocated) 0 size m rfl
  intro i m' _ hi hsame
  have hheld := (hown i (by omega)).congr hsame
  rw [Machine.store_eq 0 hheld, yields_ok]
  exact hsame

theorem copy_bytes.spec {m : Machine} {destination source size : Nat} {image : Bytes}
    (hown : ∀ i < size, m.Owns ((destination + i) % 2 ^ 64)) (hread : source + size ≤ image.length) :
    Yields (copy_bytes m destination image source size) (fun m' => m'.allocated = m.allocated) := by
  apply forRange.spec _ (fun _ m' => m'.allocated = m.allocated) 0 size m rfl
  intro i m' _ hi hsame
  have hheld := (hown i (by omega)).congr hsame
  rw [byteAt_eq (by omega), ok_bind, Machine.store_eq _ hheld, yields_ok]
  exact hsame

/-! ## A segment -/

/-- What the checks of a segment are for, over the numbers without a bound: the bytes of the file
are in the image, they fit the segment, the segment ends below 2^64, and the pages hold it. -/
structure SegmentFits (image_size : Nat) (program : elf64_program) : Prop where
  read : program.offset + program.filesz ≤ image_size
  filled : program.filesz ≤ program.memsz
  placed : program.paddr + program.memsz < 2 ^ 64
  paged : program.memsz ≤ segment_pages program * 0x1000

theorem segment_ok_iff {image_size : Nat} {program : elf64_program} :
    segment_ok image_size program = true ↔
      program.filesz ≤ program.memsz ∧ program.offset ≤ image_size ∧
        (program.offset + program.filesz) % 2 ^ 64 ≤ image_size ∧
        program.paddr ≤ (program.paddr + program.memsz) % 2 ^ 64 := by
  unfold segment_ok
  simp only [Bool.not_eq_true', Bool.or_eq_false_iff, decide_eq_false_iff_not, Nat.not_lt, and_assoc]

/-- The sizes of the fields. -/
structure elf64_program.Words (program : elf64_program) : Prop where
  offset : program.offset < 2 ^ 64
  paddr : program.paddr < 2 ^ 64
  filesz : program.filesz < 2 ^ 64
  memsz : program.memsz < 2 ^ 64

theorem of_programAt {image : Bytes} {place : Nat} {program : elf64_program}
    (h : programAt image place = .ok program) : program.Words := by
  unfold programAt at h
  split at h
  · cases h
    exact ⟨wordOf_lt image (place + 8) 8, wordOf_lt image (place + 24) 8,
      wordOf_lt image (place + 32) 8, wordOf_lt image (place + 40) 8⟩
  · cases h

/-- Neither of the two sums that the checks leave open wraps. -/
def NoWrap (program : elf64_program) : Prop :=
  program.offset + program.filesz < 2 ^ 64 ∧ program.memsz + 0xfff < 2 ^ 64

instance (program : elf64_program) : Decidable (NoWrap program) :=
  inferInstanceAs (Decidable (_ ∧ _))

theorem segmentFits_iff {image_size : Nat} {program : elf64_program} (hwords : program.Words)
    (hsize : image_size < 2 ^ 64) (h : segment_ok image_size program = true) :
    SegmentFits image_size program ↔ NoWrap program := by
  obtain ⟨hfilled, -, hread, hplaced⟩ := segment_ok_iff.mp h
  have hmemsz := hwords.memsz
  have hpaddr := hwords.paddr
  unfold NoWrap
  constructor
  · intro hfits
    have hfile := hfits.read
    have hpaged := hfits.paged
    unfold segment_pages at hpaged
    refine ⟨by omega, ?_⟩
    by_contra hwrap
    -- the sum wraps to less than a page, and no page is asked for
    have hnone : (program.memsz + 0xfff) % 2 ^ 64 / 0x1000 = 0 := by omega
    rw [hnone] at hpaged
    omega
  · rintro ⟨hfile, hround⟩
    rw [Nat.mod_eq_of_lt hfile] at hread
    refine ⟨hread, hfilled, by omega, ?_⟩
    unfold segment_pages
    omega

/-- A segment that fits is loaded: the clear and the copy write the new pages only, and the copy
reads the image only. -/
theorem load_segment_yields (firmware : Firmware) (image : KernelImage) {program : elf64_program}
    (m : Machine) (h : SegmentFits image.bytes.length program) :
    Yields (load_segment firmware image program m) (fun _ => True) := by
  unfold load_segment
  split
  · exact ⟨_, rfl, trivial⟩
  · rename_i address halloc
    have hinside := firmware.inside _ _ _ _ halloc
    split
    · exact ⟨_, rfl, trivial⟩
    · rename_i haddress
      rw [not_not] at haddress
      subst haddress
      have hown : ∀ i < segment_pages program * 0x1000,
          Machine.Owns { m with allocated := (program.paddr, segment_pages program) :: m.allocated }
            ((program.paddr + i) % 2 ^ 64) := by
        intro i hi
        refine ⟨_, List.mem_cons_self, ?_⟩
        rw [Nat.mod_eq_of_lt (by omega)]
        exact ⟨by omega, by omega⟩
      have hfilled := h.filled
      have hpaged := h.paged
      apply (clear_bytes.spec fun i hi => hown i (Nat.lt_of_lt_of_le hi (Nat.mod_le _ _))).bind
      intro cleared hcleared
      refine (copy_bytes.spec (fun i hi => ?_) h.read).bind fun copied _ => ⟨_, rfl, trivial⟩
      exact (hown i (by omega)).congr hcleared

/-! ## The law -/

/-- The loop comes to a program header to load, and the header passes the checks. -/
structure ReachesAllocation (firmware : Firmware) (image : KernelImage) (start m : Machine)
    (program : elf64_program) : Prop where
  header : header_ok image = true
  reached : ∃ index < phnum image, load_programs firmware image start index = .ok (some m) ∧
    programAt image.bytes (phoff image + index * programSize) = .ok program
  load : program.type = 1
  checks : segment_ok image.bytes.length program = true

/-- The segment fits, and its clear and its copy stay where they should. -/
def LoadedInside (firmware : Firmware) (image : KernelImage) (m : Machine)
    (program : elf64_program) : Prop :=
  SegmentFits image.bytes.length program ∧
    Yields (load_segment firmware image program m) (fun _ => True)

/-- Whatever the image: a program header for which pages are asked for is loaded inside them and
from the image exactly when neither of its two open sums wraps. -/
theorem a_segment_is_loaded_inside_iff (firmware : Firmware) (image : KernelImage)
    (start m : Machine) (program : elf64_program)
    (h : ReachesAllocation firmware image start m program) :
    LoadedInside firmware image m program ↔ NoWrap program := by
  obtain ⟨index, -, -, hprogram⟩ := h.reached
  have hiff := segmentFits_iff (of_programAt hprogram) image.size_lt h.checks
  constructor
  · rintro ⟨hfits, -⟩
    exact hiff.mp hfits
  · intro hno
    have hfits := hiff.mpr hno
    exact ⟨hfits, load_segment_yields firmware image m hfits⟩

/-- The bytes of a kernel with one program header. -/
def kernelBytes (offset paddr filesz memsz : Nat) : Bytes :=
  [0x7f, 69, 76, 70, 2, 1] ++ List.replicate 10 0 ++ wordBytes 2 2 ++ wordBytes 2 62 ++
    wordBytes 4 1 ++ wordBytes 8 0x100000 ++ wordBytes 8 64 ++ wordBytes 8 0 ++ wordBytes 4 0 ++
    wordBytes 2 64 ++ wordBytes 2 56 ++ wordBytes 2 1 ++ wordBytes 2 0 ++ wordBytes 2 0 ++
    wordBytes 2 0 ++ wordBytes 4 1 ++ wordBytes 4 5 ++ wordBytes 8 offset ++ wordBytes 8 0 ++
    wordBytes 8 paddr ++ wordBytes 8 filesz ++ wordBytes 8 memsz ++ wordBytes 8 0x1000

theorem kernelBytes_length (offset paddr filesz memsz : Nat) :
    (kernelBytes offset paddr filesz memsz).length = 120 := by
  unfold kernelBytes
  simp only [List.length_append, wordBytes_length, List.length_replicate, List.length_cons,
    List.length_nil]

theorem kernelBytes_lt (offset paddr filesz memsz : Nat) :
    (kernelBytes offset paddr filesz memsz).length < 2 ^ 64 := by
  rw [kernelBytes_length]
  omega

def kernelImage (offset paddr filesz memsz : Nat) : KernelImage :=
  { bytes := kernelBytes offset paddr filesz memsz
    size_lt := kernelBytes_lt offset paddr filesz memsz }

theorem lower_inside (_ : List (Nat × Nat)) (pages address a : Nat)
    (h : (if address + pages * 0x1000 ≤ 2 ^ 32 then some address else none) = some a) :
    a + pages * 0x1000 ≤ 2 ^ 64 := by
  split at h
  · cases h
    omega
  · cases h

/-- A firmware that has the memory below 4 GiB. -/
def lowFirmware : Firmware :=
  { AllocatePages := fun _ pages address =>
      if address + pages * 0x1000 ≤ 2 ^ 32 then some address else none
    inside := lower_inside }

def emptyMachine : Machine := { allocated := [], memory := fun _ => 0 }

/-- A kernel with a segment of two pages. -/
def usualKernel : KernelImage := kernelImage 64 0x100000 56 0x2000

theorem usualKernel_reaches :
    ReachesAllocation lowFirmware usualKernel emptyMachine emptyMachine
      ⟨1, 64, 0x100000, 56, 0x2000⟩ :=
  ⟨by decide +kernel, ⟨0, by decide, rfl, by decide⟩, rfl, by decide⟩

theorem a_usual_segment_is_loaded_inside :
    LoadedInside lowFirmware usualKernel emptyMachine ⟨1, 64, 0x100000, 56, 0x2000⟩ :=
  (a_segment_is_loaded_inside_iff lowFirmware usualKernel emptyMachine emptyMachine
    ⟨1, 64, 0x100000, 56, 0x2000⟩ usualKernel_reaches).mpr (by decide)

/-- A kernel with a segment of 2^64 - 1 bytes. -/
def wrappedKernel : KernelImage := kernelImage 1 0 (2 ^ 64 - 1) (2 ^ 64 - 1)

/-- The segment passes the checks: the end of its bytes in the image wraps to 0, and so does the
number of its pages. -/
theorem a_wrapped_segment_reaches_the_allocation :
    ReachesAllocation lowFirmware wrappedKernel emptyMachine emptyMachine
        ⟨1, 1, 0, 2 ^ 64 - 1, 2 ^ 64 - 1⟩ ∧
      segment_pages ⟨1, 1, 0, 2 ^ 64 - 1, 2 ^ 64 - 1⟩ = 0 ∧
      wrappedKernel.bytes.length = 120 ∧
      ¬ LoadedInside lowFirmware wrappedKernel emptyMachine ⟨1, 1, 0, 2 ^ 64 - 1, 2 ^ 64 - 1⟩ := by
  have hlength : wrappedKernel.bytes.length = 120 := kernelBytes_length _ _ _ _
  refine ⟨⟨by decide +kernel, ⟨0, by decide, rfl, by decide⟩, rfl,
    by decide⟩, by decide, hlength, ?_⟩
  rintro ⟨hfits, -⟩
  have hread := hfits.read
  dsimp only at hread
  omega

/-! ## The whole kernel -/

/-- A kernel whose program headers are in its file and do not wrap is loaded, or refused, without
a read outside of the image and without a write outside of the pages. -/
theorem load_kernel_stays_inside (firmware : Firmware) (image : KernelImage) (m : Machine)
    (hheaders : phoff image + phnum image * programSize ≤ image.bytes.length)
    (hno : ∀ index < phnum image,
      NoWrap (programOf image.bytes (phoff image + index * programSize))) :
    Yields (load_kernel firmware image m) (fun _ => True) := by
  have hprograms : ∀ n ≤ phnum image, Yields (load_programs firmware image m n) (fun _ => True) := by
    intro n hn
    induction n with
    | zero => exact ⟨_, rfl, trivial⟩
    | succ n ih =>
      have hat : programAt image.bytes (phoff image + n * programSize) =
          .ok (programOf image.bytes (phoff image + n * programSize)) := by
        unfold programSize at hheaders ⊢
        exact if_pos (by unfold programSize; omega)
      unfold load_programs
      apply (ih (by omega)).bind
      intro r _
      cases r with
      | none => exact ⟨_, rfl, trivial⟩
      | some m =>
        dsimp only
        rw [load_program, hat, ok_bind]
        split
        · exact ⟨_, rfl, trivial⟩
        · split
          · exact ⟨_, rfl, trivial⟩
          · rename_i hok
            have hfits := (segmentFits_iff (of_programAt hat) image.size_lt (by simpa using hok)).mpr
              (hno n (by omega))
            exact load_segment_yields firmware image m hfits
  unfold load_kernel
  split
  · exact ⟨_, rfl, trivial⟩
  · apply (hprograms _ (Nat.le_refl _)).bind
    intro r _
    cases r with
    | none => exact ⟨_, rfl, trivial⟩
    | some m => exact ⟨_, rfl, trivial⟩

end mantle.loader
