-- What `load_kernel` of `boot/efi/loader.c` leaves in memory: each segment
-- stands as its program header says, also after the later ones, and nothing
-- outside of the new pages has changed.
import MantleOS.KernelLoad
import MantleOS.Regions

open checked bytes regions

namespace mantle.loader

/-! ## The pages -/

/-- The region of a number of pages. -/
def pagesOf (p : Nat × Nat) : Region := ⟨p.1, p.2 * 0x1000⟩

theorem Machine.owns_iff {m : Machine} {a : Nat} :
    m.Owns a ↔ ∃ p ∈ m.allocated, (pagesOf p).Holds a := Iff.rfl

/-- Pages are never handed out in a region in use or in pages handed out before. -/
def Firmware.KeepsApart (firmware : Firmware) (inUse : List Region) : Prop :=
  ∀ allocated pages address a, firmware.AllocatePages allocated pages address = some a →
    ∀ r ∈ inUse ++ allocated.map pagesOf, r.Apart (pagesOf (a, pages))

/-- The pages that a program header asks for. -/
def elf64_program.pages (program : elf64_program) : Nat × Nat :=
  (program.paddr, segment_pages program)

/-! ## One segment -/

/-- One more byte of a region that is filled in order. -/
theorem Machine.store_fill {m : Machine} {r : Region} {f : Nat → UInt8} {i : Nat}
    (hend : r.start + r.size ≤ 2 ^ 64) (hown : ∀ a, r.Holds a → m.Owns a) (hi : i < r.size) :
    Yields (Machine.store { m with memory := fill m.memory ⟨r.start, i⟩ f }
        ((r.start + i) % 2 ^ 64) (f i))
      (fun m' => m' = { m with memory := fill m.memory ⟨r.start, i + 1⟩ f }) := by
  have hheld : Machine.Owns { m with memory := fill m.memory ⟨r.start, i⟩ f } (r.start + i) :=
    hown _ ⟨by omega, by omega⟩
  rw [Nat.mod_eq_of_lt (by omega), Machine.store_eq (f i) hheld, yields_ok, ← fill_succ]

theorem clear_bytes.fills {m : Machine} {r : Region} (hend : r.start + r.size ≤ 2 ^ 64)
    (hown : ∀ a, r.Holds a → m.Owns a) :
    clear_bytes m r.start r.size = .ok { m with memory := fill m.memory r fun _ => 0 } := by
  have hloop := forRange.spec
    (fun index m => m.store ((r.start + index) % 2 ^ 64) 0)
    (fun i m' => m' = { m with memory := fill m.memory ⟨r.start, i⟩ fun _ => 0 }) 0 r.size m
    (by rw [fill_zero]) (by
      rintro i _ _ hi rfl
      exact Machine.store_fill hend hown (by omega))
  obtain ⟨m', hm, rfl⟩ := hloop
  unfold clear_bytes
  rw [hm, Nat.zero_add]

theorem copy_bytes.fills {m : Machine} {r : Region} {image : Bytes} {source : Nat}
    (hend : r.start + r.size ≤ 2 ^ 64) (hown : ∀ a, r.Holds a → m.Owns a)
    (hread : source + r.size ≤ image.length) :
    copy_bytes m r.start image source r.size =
      .ok { m with memory := fill m.memory r fun i => image.getD (source + i) 0 } := by
  have hloop := forRange.spec
    (fun index m => do
      let c ← byteAt image (source + index)
      m.store ((r.start + index) % 2 ^ 64) c)
    (fun i m' => m' =
      { m with memory := fill m.memory ⟨r.start, i⟩ fun i => image.getD (source + i) 0 })
    0 r.size m (by rw [fill_zero]) (by
      rintro i _ _ hi rfl
      rw [byteAt_eq (by omega), ok_bind, ← List.getD_eq_getElem image 0]
      exact Machine.store_fill hend hown (by omega))
  obtain ⟨m', hm, rfl⟩ := hloop
  unfold copy_bytes
  rw [hm, Nat.zero_add]

/-- The memory with a segment in it: its pages are cleared and then get the bytes of the file. -/
def withSegment (image : Bytes) (program : elf64_program) (memory : Nat → UInt8) : Nat → UInt8 :=
  fill (fill memory (pagesOf program.pages) fun _ => 0) ⟨program.paddr, program.filesz⟩
    fun i => image.getD (program.offset + i) 0

/-- A segment that fits is loaded when the firmware gives its pages. -/
theorem load_segment.loads {firmware : Firmware} {image : KernelImage} {program : elf64_program}
    {m : Machine} (hfits : SegmentFits image.bytes.length program)
    (halloc : firmware.AllocatePages m.allocated (segment_pages program) program.paddr =
      some program.paddr) :
    load_segment firmware image program m =
      .ok (some { allocated := program.pages :: m.allocated
                  memory := withSegment image.bytes program m.memory }) := by
  have hinside := firmware.inside _ _ _ _ halloc
  have hfilled := hfits.filled
  have hpaged := hfits.paged
  have hpages : segment_pages program * 0x1000 < 2 ^ 64 := by
    unfold segment_pages
    omega
  have hown : ∀ a, (pagesOf program.pages).Holds a →
      Machine.Owns { m with allocated := program.pages :: m.allocated } a :=
    fun a ha => ⟨program.pages, List.mem_cons_self, ha⟩
  have hclear : clear_bytes { m with allocated := program.pages :: m.allocated } program.paddr
      (segment_pages program * 0x1000) = .ok _ :=
    clear_bytes.fills (r := pagesOf program.pages) hinside hown
  have hcopy : copy_bytes { allocated := program.pages :: m.allocated
                            memory := fill m.memory (pagesOf program.pages) fun _ => 0 }
      program.paddr image.bytes program.offset program.filesz = .ok _ :=
    copy_bytes.fills (r := ⟨program.paddr, program.filesz⟩) (by dsimp only; omega)
      (fun a ha => hown a (by
        unfold Region.Holds pagesOf elf64_program.pages at *
        dsimp only at *
        omega)) hfits.read
  unfold elf64_program.pages at hclear hcopy
  unfold load_segment
  rw [halloc, Nat.mod_eq_of_lt hpages]
  dsimp only
  rw [if_neg (by simp), hclear, ok_bind]
  dsimp only
  rw [hcopy]
  rfl

/-- What is loaded is loaded into new pages at its own address. -/
theorem load_segment.places {firmware : Firmware} {image : KernelImage} {program : elf64_program}
    {m m' : Machine} (hfits : SegmentFits image.bytes.length program)
    (h : load_segment firmware image program m = .ok (some m')) :
    firmware.AllocatePages m.allocated (segment_pages program) program.paddr =
        some program.paddr ∧
      m' = { allocated := program.pages :: m.allocated
             memory := withSegment image.bytes program m.memory } := by
  have halloc : firmware.AllocatePages m.allocated (segment_pages program) program.paddr =
      some program.paddr := by
    unfold load_segment at h
    split at h
    · cases h
    rename_i address halloc
    split at h
    · cases h
    rename_i haddress
    rw [not_not] at haddress
    rwa [haddress] at halloc
  rw [load_segment.loads hfits halloc] at h
  cases h
  exact ⟨halloc, rfl⟩

/-- What a program header says of the memory: its pages start with the bytes of the file, and the
rest of them is 0. -/
structure Placed (image : Bytes) (program : elf64_program) (m : Machine) : Prop where
  fits : SegmentFits image.length program
  owned : program.pages ∈ m.allocated
  copied : ∀ i < program.filesz, m.memory (program.paddr + i) = image.getD (program.offset + i) 0
  cleared : ∀ i, program.filesz ≤ i → i < segment_pages program * 0x1000 →
    m.memory (program.paddr + i) = 0

theorem withSegment_placed {image : Bytes} {program : elf64_program} (m : Machine)
    (hfits : SegmentFits image.length program) :
    Placed image program { allocated := program.pages :: m.allocated
                           memory := withSegment image program m.memory } := by
  constructor
  · exact hfits
  · exact List.mem_cons_self
  · intro i hi
    change withSegment image program m.memory (program.paddr + i) = _
    unfold withSegment
    have hin : i < (Region.mk program.paddr program.filesz).size := hi
    exact fill_in hin
  · intro i hle hlt
    have hout : ¬ Region.Holds ⟨program.paddr, program.filesz⟩ (program.paddr + i) := by
      unfold Region.Holds
      dsimp only
      omega
    have hin : i < (pagesOf program.pages).size := hlt
    change withSegment image program m.memory (program.paddr + i) = 0
    unfold withSegment
    exact (fill_out hout).trans (fill_in hin)

theorem withSegment_outside {image : Bytes} {program : elf64_program} {memory : Nat → UInt8}
    (hfits : SegmentFits image.length program) {a : Nat} (ha : ¬ (pagesOf program.pages).Holds a) :
    withSegment image program memory a = memory a := by
  have hfilled := hfits.filled
  have hpaged := hfits.paged
  have hout : ¬ Region.Holds ⟨program.paddr, program.filesz⟩ a := by
    unfold Region.Holds pagesOf elf64_program.pages at *
    dsimp only at *
    omega
  exact (fill_out hout).trans (fill_out ha)

/-! ## All segments -/

/-- The program header of an index. -/
def header (image : KernelImage) (index : Nat) : elf64_program :=
  programOf image.bytes (phoff image + index * programSize)

theorem programAt_header {image : KernelImage} {index : Nat} {program : elf64_program}
    (h : programAt image.bytes (phoff image + index * programSize) = .ok program) :
    program = header image index := by
  unfold programAt at h
  split at h
  · cases h
    rfl
  · cases h

/-- What a turn of the loop does that does not end it. -/
theorem load_program.turn {firmware : Firmware} {image : KernelImage} {index : Nat}
    {m m' : Machine} (hno : (header image index).type = 1 → NoWrap (header image index))
    (h : load_program firmware image index m = .ok (some m')) :
    ((header image index).type ≠ 1 ∧ m' = m) ∨
      (SegmentFits image.bytes.length (header image index) ∧
        firmware.AllocatePages m.allocated (segment_pages (header image index))
          (header image index).paddr = some (header image index).paddr ∧
        m' = { allocated := (header image index).pages :: m.allocated
               memory := withSegment image.bytes (header image index) m.memory }) := by
  unfold load_program at h
  obtain ⟨program, hprogram, h⟩ := bind_eq_ok.mp h
  have hheader := programAt_header hprogram
  subst hheader
  split at h
  · rename_i htype
    cases h
    exact .inl ⟨htype, rfl⟩
  rename_i htype
  rw [not_not] at htype
  split at h
  · cases h
  rename_i hchecks
  rw [Bool.not_eq_true', Bool.not_eq_false] at hchecks
  have hfits := (segmentFits_iff (of_programAt hprogram) image.size_lt hchecks).mpr (hno htype)
  exact .inr ⟨hfits, load_segment.places hfits h⟩

/-- The addresses in the new pages. -/
def InNew (new : List (Nat × Nat)) (a : Nat) : Prop := ∃ p ∈ new, (pagesOf p).Holds a

/-- What the first turns leave of a machine: the pages that are new, and what stands in them. -/
structure Loaded (inUse : List Region) (image : KernelImage) (start m : Machine) (n : Nat)
    (new : List (Nat × Nat)) : Prop where
  allocated : m.allocated = new ++ start.allocated
  apart : ∀ p ∈ new, ∀ r ∈ inUse ++ start.allocated.map pagesOf, r.Apart (pagesOf p)
  among : (new.map pagesOf).Pairwise Region.Apart
  outside : ∀ a, ¬ InNew new a → m.memory a = start.memory a
  placed : ∀ index < n, (header image index).type = 1 →
    (header image index).pages ∈ new ∧ Placed image.bytes (header image index) m

/-- A segment stays as long as its pages keep what stands in them. -/
theorem Placed.of_same {image : Bytes} {program : elf64_program} {m m' : Machine}
    (h : Placed image program m) (howned : program.pages ∈ m'.allocated)
    (hsame : ∀ a, (pagesOf program.pages).Holds a → m'.memory a = m.memory a) :
    Placed image program m' := by
  have hin : ∀ i < segment_pages program * 0x1000,
      m'.memory (program.paddr + i) = m.memory (program.paddr + i) := by
    intro i hi
    apply hsame
    unfold Region.Holds pagesOf elf64_program.pages
    dsimp only
    omega
  have hfilled := h.fits.filled
  have hpaged := h.fits.paged
  constructor
  · exact h.fits
  · exact howned
  · intro i hi
    rw [hin i (by omega), h.copied i hi]
  · intro i hle hlt
    rw [hin i hlt, h.cleared i hle hlt]

theorem load_programs.loads {firmware : Firmware} {inUse : List Region} {image : KernelImage}
    {start m : Machine} {n : Nat} (hapart : firmware.KeepsApart inUse)
    (hno : ∀ index < n, (header image index).type = 1 → NoWrap (header image index))
    (h : load_programs firmware image start n = .ok (some m)) :
    ∃ new, Loaded inUse image start m n new := by
  induction n generalizing m with
  | zero =>
    cases h
    exact ⟨[], rfl, nofun, .nil, fun _ _ => rfl, nofun⟩
  | succ n ih =>
    unfold load_programs at h
    obtain ⟨r, hr, h⟩ := bind_eq_ok.mp h
    cases r with
    | none => cases h
    | some m0 =>
      obtain ⟨new, hloaded⟩ := ih (fun index hi => hno index (by omega)) hr
      rcases load_program.turn (hno n (by omega)) h with ⟨htype, rfl⟩ | ⟨hfits, halloc, rfl⟩
      · refine ⟨new, hloaded.allocated, hloaded.apart, hloaded.among, hloaded.outside, ?_⟩
        intro index hi hload
        rcases Nat.lt_succ_iff_lt_or_eq.mp hi with hlt | rfl
        · exact hloaded.placed index hlt hload
        · exact absurd hload htype
      · have hnew := hapart _ _ _ _ halloc
        rw [hloaded.allocated, List.map_append] at hnew
        have hamong : ∀ r ∈ new.map pagesOf, r.Apart (pagesOf (header image n).pages) :=
          fun r hr => hnew r (List.mem_append_right _ (List.mem_append_left _ hr))
        refine ⟨(header image n).pages :: new, ?_, ?_, ?_, ?_, ?_⟩
        · dsimp only
          rw [hloaded.allocated, List.cons_append]
        · intro p hp r hr
          rcases List.mem_cons.mp hp with rfl | hp
          · apply hnew
            rcases List.mem_append.mp hr with hr | hr
            · exact List.mem_append_left _ hr
            · exact List.mem_append_right _ (List.mem_append_right _ hr)
          · exact hloaded.apart p hp r hr
        · rw [List.map_cons, List.pairwise_cons]
          exact ⟨fun r hr => (hamong r hr).symm, hloaded.among⟩
        · intro a ha
          have hpages : ¬ (pagesOf (header image n).pages).Holds a :=
            fun hin => ha ⟨_, List.mem_cons_self, hin⟩
          exact (withSegment_outside hfits hpages).trans (hloaded.outside a fun hin => ha (by
            obtain ⟨p, hp, hin⟩ := hin
            exact ⟨p, List.mem_cons_of_mem _ hp, hin⟩))
        · intro index hi hload
          rcases Nat.lt_succ_iff_lt_or_eq.mp hi with hlt | rfl
          · obtain ⟨hmem, hplaced⟩ := hloaded.placed index hlt hload
            have hapart := hamong _ (List.mem_map_of_mem hmem)
            exact ⟨List.mem_cons_of_mem _ hmem,
              hplaced.of_same (List.mem_cons_of_mem _ hplaced.owned)
                fun a ha => withSegment_outside hfits (hapart.not_holds ha)⟩
          · exact ⟨List.mem_cons_self, withSegment_placed m0 hfits⟩

/-! ## The law -/

theorem load_kernel.loads {firmware : Firmware} {inUse : List Region} {image : KernelImage}
    {m m' : Machine} {entry : Nat} (hapart : firmware.KeepsApart inUse)
    (hno : ∀ index < phnum image, (header image index).type = 1 → NoWrap (header image index))
    (h : load_kernel firmware image m = .ok (some (m', entry))) :
    entry = wordOf image.bytes 24 8 ∧ ∃ new, Loaded inUse image m m' (phnum image) new := by
  unfold load_kernel at h
  split at h
  · cases h
  obtain ⟨r, hr, h⟩ := bind_eq_ok.mp h
  cases r with
  | none => cases h
  | some loaded =>
    cases h
    exact ⟨rfl, load_programs.loads hapart hno hr⟩

/-- When the loader has loaded a kernel, every segment of it stands in its own pages as its program
header says, whatever the order of the headers. Regions in use keep their contents, and no byte has
changed that is not in a page of a segment. -/
theorem the_kernel_stands_as_its_headers_say (firmware : Firmware) (inUse : List Region)
    (image : KernelImage) (m m' : Machine) (entry : Nat) (hapart : firmware.KeepsApart inUse)
    (hno : ∀ index < phnum image, (header image index).type = 1 → NoWrap (header image index))
    (h : load_kernel firmware image m = .ok (some (m', entry))) :
    entry = wordOf image.bytes 24 8 ∧
      (∀ index < phnum image, (header image index).type = 1 →
        Placed image.bytes (header image index) m') ∧
      (∀ r ∈ inUse ++ m.allocated.map pagesOf, contents m'.memory r = contents m.memory r) ∧
      ∀ a, m'.memory a ≠ m.memory a → m'.Owns a ∧ ¬ m.Owns a := by
  obtain ⟨hentry, new, hloaded⟩ := load_kernel.loads hapart hno h
  refine ⟨hentry, fun index hi hload => (hloaded.placed index hi hload).2, ?_, ?_⟩
  · intro r hr
    apply contents_congr
    intro a ha
    apply hloaded.outside
    rintro ⟨p, hp, hin⟩
    exact (hloaded.apart p hp r hr).not_holds ha hin
  · intro a hne
    have hin : InNew new a := by
      by_contra hout
      exact hne (hloaded.outside a hout)
    obtain ⟨p, hp, hin⟩ := hin
    constructor
    · refine ⟨p, ?_, hin⟩
      rw [hloaded.allocated]
      exact List.mem_append_left _ hp
    · rintro ⟨q, hq, hheld⟩
      have hq' : pagesOf q ∈ inUse ++ m.allocated.map pagesOf :=
        List.mem_append_right _ (List.mem_map_of_mem hq)
      exact (hloaded.apart p hp _ hq').not_holds hheld hin

/-- A firmware that has the memory below 4 GiB and looks at what is in use. -/
def carefulFirmware (inUse : List Region) : Firmware :=
  { AllocatePages := fun allocated pages address =>
      if ∀ r ∈ inUse ++ allocated.map pagesOf, r.Apart (pagesOf (address, pages)) then
        lowFirmware.AllocatePages allocated pages address
      else none
    inside := by
      intro allocated pages address a h
      split at h
      · exact lowFirmware.inside allocated pages address a h
      · cases h }

theorem carefulFirmware_keepsApart (inUse : List Region) :
    (carefulFirmware inUse).KeepsApart inUse := by
  intro allocated pages address a h
  unfold carefulFirmware lowFirmware at h
  dsimp only at h
  split at h
  · split at h
    · cases h
      assumption
    · cases h
  · cases h

/-- The program header of the kernel with two pages. -/
def usualSegment : elf64_program := ⟨1, 64, 0x100000, 56, 0x2000⟩

theorem usualKernel_header {index : Nat} (h : index < phnum usualKernel) :
    header usualKernel index = usualSegment := by
  have hone : phnum usualKernel = 1 := by decide +kernel
  rw [show index = 0 by omega]
  decide +kernel

theorem usualKernel_loads {firmware : Firmware} {m : Machine}
    (halloc : firmware.AllocatePages m.allocated 2 0x100000 = some 0x100000) :
    load_kernel firmware usualKernel m = .ok (some
      ({ allocated := (0x100000, 2) :: m.allocated
         memory := withSegment usualKernel.bytes usualSegment m.memory }, 0x100000)) := by
  have hat : programAt usualKernel.bytes (phoff usualKernel + 0 * programSize) =
      .ok usualSegment := by decide +kernel
  have hfits : SegmentFits usualKernel.bytes.length usualSegment := by
    constructor <;> decide +kernel
  have hsegment := load_segment.loads hfits halloc
  unfold load_kernel
  rw [if_neg (by decide +kernel), show phnum usualKernel = 1 by decide +kernel]
  unfold load_programs load_programs
  rw [ok_bind]
  dsimp only
  unfold load_program
  rw [hat, ok_bind, if_neg (by decide), if_neg (by decide +kernel), hsegment]
  rfl

theorem a_usual_kernel_stands_as_its_header_says :
    ∃ m', (0x100000 : Nat) = wordOf usualKernel.bytes 24 8 ∧
      (∀ index < phnum usualKernel, (header usualKernel index).type = 1 →
        Placed usualKernel.bytes (header usualKernel index) m') ∧
      (∀ r ∈ [Region.mk 0x400000 16] ++ emptyMachine.allocated.map pagesOf,
        contents m'.memory r = contents emptyMachine.memory r) ∧
      ∀ a, m'.memory a ≠ emptyMachine.memory a → m'.Owns a ∧ ¬ emptyMachine.Owns a :=
  ⟨_, the_kernel_stands_as_its_headers_say (carefulFirmware [⟨0x400000, 16⟩]) [⟨0x400000, 16⟩]
    usualKernel emptyMachine _ 0x100000 (carefulFirmware_keepsApart _)
    (fun index hi _ => by
      rw [usualKernel_header hi]
      decide)
    (usualKernel_loads (by decide))⟩

end mantle.loader
