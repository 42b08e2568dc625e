-- The loader once more with every sum and every cast checked, and what an
-- image that it accepts leaves in the user memory and in the page table,
-- in terms of its program headers alone.
import MantleOS.ExecLaws

open checked bytes

namespace mantle.elf

/-! ## Sums and casts that may not lose a bit -/

/-- `a + b` on `uint64_t`, with the wrap as a fault. -/
def add64 (a b : Nat) : Checked Nat :=
  if a + b < 2 ^ 64 then .ok (a + b) else .error (.wrap (a + b))

/-- `a - b` on `uint64_t`, with the wrap as a fault. -/
def sub64 (a b : Nat) : Checked Nat := if b ≤ a then .ok (a - b) else .error (.wrap b)

/-- `(uint32_t)a`, with a lost bit as a fault. -/
def cast32 (a : Nat) : Checked Nat := if a < 2 ^ 32 then .ok a else .error (.wrap a)

theorem add64_eq {a b : Nat} (h : a + b < 2 ^ 64) : add64 a b = .ok (a + b) := if_pos h

theorem sub64_eq {a b : Nat} (h : b ≤ a) : sub64 a b = .ok (a - b) := if_pos h

theorem cast32_eq {a : Nat} (h : a < 2 ^ 32) : cast32 a = .ok a := if_pos h

/-- The checks of a `PT_LOAD` header before the sum `end`. -/
def range_valid (program : elf_program_header) (size : Nat) : Bool :=
  program.filesz ≤ program.memsz && program.memsz ≠ 0 &&
  range64 program.offset program.filesz size &&
  user_range program.vaddr program.memsz &&
  program.flags &&& (PF_W ||| PF_X) ≠ PF_W ||| PF_X

/-- The checks after it. -/
def align_valid (program : elf_program_header) (last : Nat) : Bool :=
  program.vaddr ≤ last &&
  (program.align = 0 || program.align &&& (program.align - 1) = 0) &&
  (program.align ≤ 1 ||
    program.vaddr &&& (program.align - 1) = program.offset &&& (program.align - 1))

theorem segment_valid_eq (program : elf_program_header) (size : Nat) :
    segment_valid program size = (range_valid program size &&
      align_valid program ((program.vaddr + program.memsz) % 2 ^ 64)) := by
  simp only [segment_valid, range_valid, align_valid, Bool.and_assoc]

/-- `place_segment` with checked sums and casts. The sum of `offset` and `filesz` is the end of
the copy. -/
def place_segment_checked (layout : Layout) (image : Bytes) (program : elf_program_header)
    (user : UserSpace) : Checked UserSpace := do
  let destination ← sub64 program.vaddr USER_BASE
  let destination ← cast32 destination
  let filesz ← cast32 program.filesz
  let _ ← add64 program.offset program.filesz
  let memory ← copy_bytes user.memory destination image program.offset filesz
  let rest ← sub64 program.memsz program.filesz
  let rest ← cast32 rest
  let memory ← clear_bytes memory (destination + filesz) rest
  let first_page := destination / 4096
  let memsz ← cast32 program.memsz
  let last ← add32 destination memsz
  let last ← add32 last 4095
  let pages ← map_pages layout (permissions program) first_page (last / 4096) user.pages
  return { memory, pages }

/-- `load_loop` with checked sums and casts. -/
def load_loop_checked (layout : Layout) (image : Bytes) (header : elf_header) :
    Nat → Nat → Progress → Checked (Progress × Bool)
  | 0, _, progress => .ok (progress, true)
  | left + 1, index, progress => do
    let start ← add64 header.phoff (index * header.phentsize)
    let program ← programAt image start
    if program.type ≠ PT_LOAD then load_loop_checked layout image header left (index + 1) progress
    else if !range_valid program image.length then return (progress, false)
    else
      let last ← add64 program.vaddr program.memsz
      if !align_valid program last then return (progress, false)
      else
        let user ← place_segment_checked layout image program progress.user
        load_loop_checked layout image header left (index + 1)
          { user
            load_count := progress.load_count + 1
            entry_valid := progress.entry_valid || (program.flags &&& PF_X ≠ 0 &&
              program.vaddr ≤ header.entry && header.entry < last) }

/-- `mantle_elf_load` with checked sums and casts. -/
def mantle_elf_load_checked (layout : Layout) (user : UserSpace) (image : Option Bytes) :
    Checked (UserSpace × Option mantle_user_image) :=
  match image with
  | none => .ok (user, none)
  | some image =>
    if image.length < headerSize then .ok (user, none)
    else do
      let header ← headerAt image
      if !header_valid header image.length then return (user, none)
      else if !user_range header.entry 1 then return (user, none)
      else
        let user ← clear_user layout user
        let (progress, kept) ← load_loop_checked layout image header header.phnum 0
          { user, load_count := 0, entry_valid := false }
        if !kept || progress.load_count = 0 || !progress.entry_valid then
          return (progress.user, none)
        else return (progress.user, some { entry := header.entry, stack := USER_STACK_TOP })

/-- What the first checks say of the two sums. -/
theorem sums_of_range_valid {program : elf_program_header} {size : Nat}
    (h : range_valid program size = true) :
    program.filesz ≤ program.memsz ∧ program.offset + program.filesz ≤ size ∧
      0x400000 ≤ program.vaddr ∧ program.vaddr + program.memsz ≤ 0x600000 := by
  simp only [range_valid, Bool.and_eq_true, decide_eq_true_eq, range64_iff, user_range_iff] at h
  obtain ⟨⟨⟨⟨h1, -⟩, h3⟩, h4⟩, -⟩ := h
  exact ⟨h1, h3, h4.1, h4.2⟩

/-- On a segment that passes the checks no sum wraps and no cast loses a bit. -/
theorem place_segment_checked_eq (layout : Layout) (image : Blob) (program : elf_program_header)
    (user : UserSpace) (h : range_valid program image.content.length = true) :
    place_segment_checked layout image.content program user =
      place_segment layout image.content program user := by
  obtain ⟨hfile, hcopy, hbase, hend⟩ := sums_of_range_valid h
  have hsize := image.size_lt
  have hdest : program.vaddr - USER_BASE + program.memsz ≤ 0x200000 := by
    unfold USER_BASE
    omega
  unfold place_segment_checked place_segment
  rw [sub64_eq (by unfold USER_BASE; omega), ok_bind, sub64_eq hfile]
  generalize program.vaddr - USER_BASE = destination at hdest
  have hd : destination < 2 ^ 32 := by omega
  have hf : program.filesz < 2 ^ 32 := by omega
  have hm : program.memsz < 2 ^ 32 := by omega
  have hr : program.memsz - program.filesz < 2 ^ 32 := by omega
  have hs : destination + program.memsz < 2 ^ 32 := by omega
  have hl : destination + program.memsz + 4095 < 2 ^ 32 := by omega
  rw [cast32_eq hd, ok_bind, cast32_eq hf, ok_bind, add64_eq (by omega), ok_bind,
    Nat.mod_eq_of_lt hd, Nat.mod_eq_of_lt hf]
  refine bind_congr fun memory => ?_
  rw [ok_bind, cast32_eq hr, ok_bind, Nat.mod_eq_of_lt hr]
  refine bind_congr fun memory => ?_
  rw [cast32_eq hm, ok_bind, add32_eq hs, ok_bind, add32_eq hl, ok_bind, Nat.mod_eq_of_lt hm,
    Nat.mod_eq_of_lt hl]

theorem load_loop_checked_eq (layout : Layout) (image : Blob) (left index : Nat) (progress : Progress)
    (hent : (headerOf image.content).phentsize = programSize)
    (htab : (headerOf image.content).phoff + (index + left) * programSize ≤ image.content.length) :
    load_loop_checked layout image.content (headerOf image.content) left index progress =
      load_loop layout image.content (headerOf image.content) left index progress := by
  induction left generalizing index progress with
  | zero => rfl
  | succ left ih =>
    have hsize := image.size_lt
    have hin : (headerOf image.content).phoff + index * (headerOf image.content).phentsize +
        programSize ≤ image.content.length := by
      rw [hent]
      unfold programSize at htab ⊢
      omega
    have hrest := fun progress => ih (index + 1) progress (by unfold programSize at htab ⊢; omega)
    unfold load_loop_checked load_loop
    rw [add64_eq (by omega), ok_bind, programAt_eq hin, ok_bind, ok_bind, segment_valid_eq]
    set program := programOf image.content
      ((headerOf image.content).phoff + index * (headerOf image.content).phentsize)
    split
    · exact hrest progress
    by_cases hrange : range_valid program image.content.length = true
    · obtain ⟨-, -, -, hend⟩ := sums_of_range_valid hrange
      have hsum : (program.vaddr + program.memsz) % 2 ^ 64 = program.vaddr + program.memsz :=
        Nat.mod_eq_of_lt (by omega)
      simp only [hrange, Bool.not_true, Bool.false_eq_true, if_false, Bool.true_and,
        add64_eq (by omega : program.vaddr + program.memsz < 2 ^ 64), ok_bind, hsum]
      split
      · rfl
      · rw [place_segment_checked_eq layout image program progress.user hrange]
        simp only [hrest, holds_entry, hsum]
    · rw [Bool.not_eq_true] at hrange
      simp [hrange]

/-- For every image, its size being one of 32 bits: the loader with checks comes to the same
result as the loader, and neither of them faults. It reads the image below its size only,
writes in the user memory and in the page table only, no sum of 64 bits wraps, and no cast to
32 bits loses a bit. -/
theorem the_loader_never_faults (layout : Layout) (user : UserSpace) (image : Blob) :
    mantle_elf_load_checked layout user (some image.content) =
        mantle_elf_load layout user (some image.content) ∧
      ∃ r, mantle_elf_load layout user (some image.content) = .ok r := by
  refine ⟨?_, _, mantle_elf_load.spec layout user image.content⟩
  unfold mantle_elf_load_checked mantle_elf_load
  simp only
  by_cases hsize : image.content.length < headerSize
  · rw [if_pos hsize, if_pos hsize]
  rw [if_neg hsize, if_neg hsize, headerAt_eq (by omega), ok_bind, ok_bind]
  by_cases hvalid : header_valid (headerOf image.content) image.content.length = true
  swap
  · rw [if_pos (by simpa using hvalid), if_pos (by simpa using hvalid)]
  have hfields := hvalid
  simp only [header_valid, Bool.and_eq_true, decide_eq_true_eq, range64_iff] at hfields
  obtain ⟨⟨⟨⟨_, hent⟩, _⟩, _⟩, htab⟩ := hfields
  rw [hent] at htab
  simp only [load_loop_checked_eq layout image _ 0 _ hent (by simpa using htab)]

/-! ## What an accepted image leaves -/

/-- The last segment of the list, in table order, whose addresses hold `a`. -/
def lastHolding (ps : List elf_program_header) (a : Nat) : Option elf_program_header :=
  ps.reverse.find? (fun p => Window.Holds p.vaddr p.memsz a)

/-- The byte that the headers of an image give to address `a`: from the file while `a` is in the
file part of the last segment that holds it, and 0 otherwise. -/
def loadedByte (image : Bytes) (a : Nat) : Option UInt8 :=
  match lastHolding (segments image) a with
  | some p => if a < p.vaddr + p.filesz then image[p.offset + (a - p.vaddr)]? else some 0
  | none => some 0

/-- The entry that the headers of an image give to a page. -/
def loadedPage (layout : Layout) (image : Bytes) (page : Nat) : Nat :=
  match lastMeeting (segments image) page with
  | some p => entryWith layout page (writes p) (!executes p)
  | none => entryWith layout page (decide (496 ≤ page)) true

/-- A segment that passed the checks says of an address what its header says. -/
theorem segmentByte_eq {image : Bytes} {p : elf_program_header} (hp : Fits p image.length) {a : Nat}
    (ha : InWindow a) :
    segmentByte image p (a - USER_BASE) =
      if Window.Holds p.vaddr p.memsz a then
        some (if a < p.vaddr + p.filesz then image.getD (p.offset + (a - p.vaddr)) 0 else 0)
      else none := by
  have hbase := hp.base_le
  obtain ⟨hfirst, -⟩ := ha
  unfold USER_BASE at hfirst
  have hheld : (firstByte p ≤ a - USER_BASE ∧ a - USER_BASE < firstByte p + p.memsz) ↔
      Window.Holds p.vaddr p.memsz a := by
    unfold firstByte Window.Holds USER_BASE
    omega
  have hfile : a - USER_BASE < firstByte p + p.filesz ↔ a < p.vaddr + p.filesz := by
    unfold firstByte USER_BASE
    omega
  have hplace : a - USER_BASE - firstByte p = a - p.vaddr := by
    unfold firstByte USER_BASE
    omega
  simp only [segmentByte, hheld, hfile, hplace]

/-- When every segment passes the checks, the placed image has the byte of `loadedByte`. -/
theorem loadedByte_placed (layout : Layout) (user : UserSpace) {image : Bytes}
    (h : ∀ p ∈ segments image, segment_valid p image.length = true) {a : Nat} (ha : InWindow a) :
    loadedByte image a = some ((placedUser layout user image).memory.byte a) := by
  have hin : a - USER_BASE < userSize := by
    obtain ⟨h1, h2⟩ := ha
    unfold USER_BASE USER_LIMIT at *
    unfold userSize
    omega
  have hsame : (segments image).reverse.findSome? (fun p => segmentByte image p (a - USER_BASE)) =
      (lastHolding (segments image) a).map (fun p =>
        if a < p.vaddr + p.filesz then image.getD (p.offset + (a - p.vaddr)) 0 else 0) := by
    rw [lastHolding, ← findSome_ite, ← List.head?_filterMap, ← List.head?_filterMap]
    refine congrArg List.head? (List.filterMap_congr fun p hp => ?_)
    exact segmentByte_eq (fits_of_valid (h p (List.mem_reverse.mp hp))) ha
  rw [Window.byte, syscall.placedUser_cells layout user image hin, syscall.lastByte,
    placed_eq_segments h, hsame, loadedByte]
  cases hl : lastHolding (segments image) a with
  | none => rfl
  | some p =>
    have hmem : p ∈ segments image := List.mem_reverse.mp (List.mem_of_find?_eq_some hl)
    have hfits := fits_of_valid (h p hmem)
    have hheld : Window.Holds p.vaddr p.memsz a := by simpa using List.find?_some hl
    have hfile := hfits.file_in
    simp only [Option.map_some, Option.getD_some]
    split
    · have hread : p.offset + (a - p.vaddr) < image.length := by
        unfold Window.Holds at hheld
        omega
      rw [List.getElem?_eq_getElem hread, List.getD_eq_getElem _ _ hread]
    · rfl

theorem loadedPage_placed (layout : Layout) (user : UserSpace) {image : Bytes}
    (h : ∀ p ∈ segments image, segment_valid p image.length = true) {page : Nat} (hp : page < 512) :
    (placedUser layout user image).pages page = loadedPage layout image page := by
  rw [placedUser_pages layout user image page hp, placed_eq_segments h]
  rfl

/-- An image is accepted when its header and its segments are. -/
theorem loadM_accepted {layout : Layout} {user user' : UserSpace} {image : Bytes}
    {result : mantle_user_image} (h : loadM layout user image = (user', some result)) :
    (HeaderAccepted image ∧ SegmentsAccepted image) ∧ user' = placedUser layout user image := by
  unfold loadM at h
  split at h
  · split at h
    · cases h
      exact ⟨⟨‹_›, ‹_›⟩, rfl⟩
    · cases h
  · cases h

/-- After a load that accepts its image, whatever the user memory and the page table held
before: each byte is the one that the last segment holding its address gives it, 0 after the
file part and outside of all segments; each entry has the rights of the last segment that meets
its page, and without one is not executable, and writable from page 496 on. A load from any
other contents gives the same result, the same memory and the same entries. -/
theorem a_load_leaves_what_the_headers_say (layout : Layout) (user user' : UserSpace) (image : Bytes)
    (result : mantle_user_image)
    (h : mantle_elf_load layout user (some image) = .ok (user', some result)) :
    (∀ a, InWindow a → loadedByte image a = some (user'.memory.byte a)) ∧
      (∀ page < 512, user'.pages page = loadedPage layout image page) ∧
      ∀ other : UserSpace, ∃ other' : UserSpace,
        mantle_elf_load layout other (some image) = .ok (other', some result) ∧
        (∀ a, InWindow a → other'.memory.byte a = user'.memory.byte a) ∧
        ∀ page < 512, other'.pages page = user'.pages page := by
  rw [mantle_elf_load.spec, Except.ok.injEq] at h
  obtain ⟨⟨hhead, hseg⟩, rfl⟩ := loadM_accepted h
  have hbytes := fun (before : UserSpace) a (ha : InWindow a) =>
    loadedByte_placed layout before hseg.1 ha
  have hpages := fun (before : UserSpace) page (hp : page < 512) =>
    loadedPage_placed layout before hseg.1 hp
  refine ⟨hbytes user, hpages user, fun other => ⟨placedUser layout other image, ?_, ?_, ?_⟩⟩
  · rw [mantle_elf_load.spec]
    unfold loadM at h ⊢
    rw [if_pos hhead] at h ⊢
    rw [(Prod.mk.inj h).2]
  · intro a ha
    exact Option.some.inj ((hbytes other a ha).symm.trans (hbytes user a ha))
  · intro page hp
    rw [hpages other page hp, hpages user page hp]

/-- A user space that another program has filled. -/
def usedSpace : UserSpace := { memory := ⟨fun _ => 0xff⟩, pages := fun _ => 0 }

theorem hello_is_accepted :
    HeaderAccepted syscall.helloFile ∧ SegmentsAccepted syscall.helloFile ∧
      (headerOf syscall.helloFile).entry = 0x400000 := by
  decide +kernel

/-- `/bin/hello` leaves its first instruction, and a zero where the other program had a byte. -/
theorem hello_leaves_its_first_byte :
    ∃ user' : UserSpace,
      mantle_elf_load someLayout usedSpace (some syscall.helloFile) =
        .ok (user', some { entry := 0x400000, stack := USER_STACK_TOP }) ∧
      loadedByte syscall.helloFile 0x400000 = some (user'.memory.byte 0x400000) ∧
      loadedByte syscall.helloFile 0x400000 = some 0xeb ∧
      loadedByte syscall.helloFile 0x500000 = some (user'.memory.byte 0x500000) ∧
      loadedByte syscall.helloFile 0x500000 = some 0 := by
  obtain ⟨hhead, hseg, hentry⟩ := hello_is_accepted
  have hload : mantle_elf_load someLayout usedSpace (some syscall.helloFile) =
      .ok (placedUser someLayout usedSpace syscall.helloFile,
        some { entry := 0x400000, stack := USER_STACK_TOP }) := by
    rw [mantle_elf_load.spec, loadM, if_pos hhead, if_pos hseg, hentry]
  have hleft := (a_load_leaves_what_the_headers_say _ _ _ _ _ hload).1
  exact ⟨_, hload, hleft 0x400000 (by decide), by decide +kernel, hleft 0x500000 (by decide),
    by decide +kernel⟩

end mantle.elf
