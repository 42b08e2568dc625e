-- The program loader of `kernel/process/elf.c`. It checks the header, clears
-- the user memory and the page table, and then checks and places one program
-- header after the other. Casts to 32 bits are explicit.
import MantleOS.UserSpace

open checked bytes

namespace mantle.elf

def USER_STACK_TOP : Nat := USER_LIMIT
def ELFCLASS64 : UInt8 := 2
def ELFDATA2LSB : UInt8 := 1
def ET_EXEC : Nat := 2
def EM_X86_64 : Nat := 62
def PT_LOAD : Nat := 1
def PF_X : Nat := 1
def PF_W : Nat := 2

/-- `sizeof(struct elf_header)`. -/
def headerSize : Nat := 64

/-- `sizeof(struct elf_program_header)`. -/
def programSize : Nat := 56

/-- The fields of `struct elf_header` that the loader reads. -/
structure elf_header where
  ident : Bytes
  type : Nat
  machine : Nat
  version : Nat
  entry : Nat
  phoff : Nat
  ehsize : Nat
  phentsize : Nat
  phnum : Nat

/-- The fields of `struct elf_program_header` that the loader reads. -/
structure elf_program_header where
  type : Nat
  flags : Nat
  offset : Nat
  vaddr : Nat
  filesz : Nat
  memsz : Nat
  align : Nat
  deriving DecidableEq

structure mantle_user_image where
  entry : Nat
  stack : Nat
  deriving DecidableEq

/-- A read through a `struct elf_header` pointer. -/
def headerAt (image : Bytes) : Checked elf_header := do
  let ident ← sliceAt image 0 16
  let type ← wordAt image 16 2
  let machine ← wordAt image 18 2
  let version ← wordAt image 20 4
  let entry ← wordAt image 24 8
  let phoff ← wordAt image 32 8
  let ehsize ← wordAt image 52 2
  let phentsize ← wordAt image 54 2
  let phnum ← wordAt image 56 2
  return { ident, type, machine, version, entry, phoff, ehsize, phentsize, phnum }

/-- A read through a `struct elf_program_header` pointer. -/
def programAt (image : Bytes) (start : Nat) : Checked elf_program_header := do
  let type ← wordAt image start 4
  let flags ← wordAt image (start + 4) 4
  let offset ← wordAt image (start + 8) 8
  let vaddr ← wordAt image (start + 16) 8
  let filesz ← wordAt image (start + 32) 8
  let memsz ← wordAt image (start + 40) 8
  let align ← wordAt image (start + 48) 8
  return { type, flags, offset, vaddr, filesz, memsz, align }

def range64 (offset length size : Nat) : Bool := offset ≤ size && length ≤ size - offset

def user_range (address size : Nat) : Bool :=
  USER_BASE ≤ address && address ≤ USER_LIMIT && size ≤ USER_LIMIT - address

/-- The checks of the header, before the loader changes anything. -/
def header_valid (header : elf_header) (size : Nat) : Bool :=
  header.ident.take 6 = [0x7f, 69, 76, 70, ELFCLASS64, ELFDATA2LSB] &&
  header.type = ET_EXEC && header.machine = EM_X86_64 && header.version = 1 &&
  header.ehsize = headerSize && header.phentsize = programSize &&
  header.phnum ≠ 0 && header.phnum ≤ 64 &&
  range64 header.phoff (header.phnum * header.phentsize) size

/-- The checks of one `PT_LOAD` header. -/
def segment_valid (program : elf_program_header) (size : Nat) : Bool :=
  let last := (program.vaddr + program.memsz) % 2 ^ 64
  program.filesz ≤ program.memsz && program.memsz ≠ 0 &&
  range64 program.offset program.filesz size &&
  user_range program.vaddr program.memsz &&
  program.flags &&& (PF_W ||| PF_X) ≠ PF_W ||| PF_X &&
  program.vaddr ≤ last &&
  (program.align = 0 || program.align &&& (program.align - 1) = 0) &&
  (program.align ≤ 1 ||
    program.vaddr &&& (program.align - 1) = program.offset &&& (program.align - 1))

/-- The segment is executable and holds the entry. -/
def holds_entry (entry : Nat) (program : elf_program_header) : Bool :=
  program.flags &&& PF_X ≠ 0 && program.vaddr ≤ entry &&
    entry < (program.vaddr + program.memsz) % 2 ^ 64

def copy_bytes (memory : Window USER_BASE userSize) (destination : Nat) (image : Bytes)
    (source size : Nat) : Checked (Window USER_BASE userSize) :=
  forRange (fun index memory => do
    let b ← byteAt image (source + index)
    memory.storeAt (destination + index) b) 0 size memory

def clear_bytes (memory : Window USER_BASE userSize) (destination size : Nat) :
    Checked (Window USER_BASE userSize) :=
  forRange (fun index memory => memory.storeAt (destination + index) 0) 0 size memory

/-- The permission bits of a segment. -/
def permissions (program : elf_program_header) : Nat :=
  PAGE_PRESENT ||| PAGE_USER ||| (if program.flags &&& PF_W ≠ 0 then PAGE_WRITE else 0) |||
    (if program.flags &&& PF_X = 0 then PAGE_NX else 0)

/-- The copy, the clear and the mapping of one segment. -/
def place_segment (layout : Layout) (image : Bytes) (program : elf_program_header)
    (user : UserSpace) : Checked UserSpace := do
  let destination := (program.vaddr - USER_BASE) % 2 ^ 32
  let memory ← copy_bytes user.memory destination image program.offset (program.filesz % 2 ^ 32)
  let memory ← clear_bytes memory (destination + program.filesz % 2 ^ 32)
    ((program.memsz - program.filesz) % 2 ^ 32)
  let first_page := destination / 4096
  let last_page := (destination + program.memsz % 2 ^ 32 + 4095) % 2 ^ 32 / 4096
  let pages ← map_pages layout (permissions program) first_page last_page user.pages
  return { memory, pages }

/-- What the loop over the program headers carries. -/
structure Progress where
  user : UserSpace
  load_count : Nat
  entry_valid : Bool

/-- The loop over the program headers, with the headers that are left. The flag is false
for the return of -1 inside the loop. -/
def load_loop (layout : Layout) (image : Bytes) (header : elf_header) :
    Nat → Nat → Progress → Checked (Progress × Bool)
  | 0, _, progress => .ok (progress, true)
  | left + 1, index, progress => do
    let program ← programAt image (header.phoff + index * header.phentsize)
    if program.type ≠ PT_LOAD then load_loop layout image header left (index + 1) progress
    else if !segment_valid program image.length then return (progress, false)
    else
      let user ← place_segment layout image program progress.user
      load_loop layout image header left (index + 1)
        { user
          load_count := progress.load_count + 1
          entry_valid := progress.entry_valid || holds_entry header.entry program }

/-- The cleared memory, and the table with the stack area writable. -/
def clear_user (layout : Layout) (user : UserSpace) : Checked UserSpace := do
  let memory ← clear_bytes user.memory 0 0x200000
  let pages ← map_pages layout (PAGE_PRESENT ||| PAGE_USER ||| PAGE_NX) 0 512 user.pages
  let pages ← map_pages layout (PAGE_PRESENT ||| PAGE_WRITE ||| PAGE_USER ||| PAGE_NX) 496 512 pages
  return { memory, pages }

/-- The user space after the call, and `none` for the return of -1 or `*result`. The image
is `none` for the null pointer. -/
def mantle_elf_load (layout : Layout) (user : UserSpace) (image : Option Bytes) :
    Checked (UserSpace × Option mantle_user_image) :=
  match image with
  | none => .ok (user, none)
  | some image =>
    if image.length < headerSize then .ok (user, none)
    else do
      let header ← headerAt image
      if !header_valid header image.length then return (user, none)
      else if !user_range header.entry 1 then return (user, none)
      else
        let user ← clear_user layout user
        let (progress, kept) ← load_loop layout image header header.phnum 0
          { user, load_count := 0, entry_valid := false }
        if !kept || progress.load_count = 0 || !progress.entry_valid then
          return (progress.user, none)
        else return (progress.user, some { entry := header.entry, stack := USER_STACK_TOP })

end mantle.elf
