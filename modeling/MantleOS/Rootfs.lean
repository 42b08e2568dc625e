-- The root filesystem of `kernel/fs/rootfs.c`: mount, open and list over an
-- image, as the C code walks it. Reads of the image and of the caller's
-- memory are checked, and a 32-bit cursor that wraps is a fault.
import MantleOS.Bytes

open checked bytes

namespace mantle.rootfs

def MANTLE_ROOTFS_MAGIC : Nat := 0x31534652
def MANTLE_ROOTFS_MAX_ENTRIES : Nat := 128

/-- `sizeof(struct rootfs_header)`: `magic` and `entries`. -/
def headerSize : Nat := 8

/-- `sizeof(struct rootfs_entry)`: `path_length`, `mode`, `offset` and `size`. -/
def entrySize : Nat := 12

structure rootfs_entry where
  path_length : Nat
  mode : Nat
  offset : Nat
  size : Nat
  deriving DecidableEq, Repr

/-- The entry that stands at `cursor`. -/
def entryOf (image : Bytes) (cursor : Nat) : rootfs_entry :=
  { path_length := wordOf image cursor 2
    mode := wordOf image (cursor + 2) 2
    offset := wordOf image (cursor + 4) 4
    size := wordOf image (cursor + 8) 4 }

/-- A read through a `struct rootfs_entry` pointer. -/
def entryAt (image : Bytes) (cursor : Nat) : Checked rootfs_entry := do
  let path_length ← wordAt image cursor 2
  let mode ← wordAt image (cursor + 2) 2
  let offset ← wordAt image (cursor + 4) 4
  let size ← wordAt image (cursor + 8) 4
  return { path_length, mode, offset, size }

/-- `image` is `none` for the null pointer. -/
structure rootfs_state where
  image : Option Blob
  size : Nat
  entries : Nat

/-- The static `state` before the first mount. -/
def rootfs_state.zero : rootfs_state := { image := none, size := 0, entries := 0 }

/-- `data` is the offset of the file from `state.image`. -/
structure mantle_rootfs_file where
  data : Nat
  size : Nat
  mode : Nat
  deriving DecidableEq, Repr

def mantle_rootfs_ready (state : rootfs_state) : Bool := state.image.isSome

def range_valid (offset length size : Nat) : Bool := offset ≤ size && length ≤ size - offset

/-! ## Mount -/

/-- The loop of `mantle_rootfs_mount`, with the entries that are left. -/
def mount_loop (image : Bytes) (size : Nat) : Nat → Nat → Checked Bool
  | 0, _ => .ok true
  | left + 1, cursor =>
    if !range_valid cursor entrySize size then .ok false
    else do
      let entry ← entryAt image cursor
      let cursor ← add32 cursor entrySize
      if entry.path_length = 0 ∨ 255 < entry.path_length ∨
          !range_valid cursor entry.path_length size ∨ !range_valid entry.offset entry.size size then
        return false
      let cursor ← add32 cursor entry.path_length
      mount_loop image size left cursor

/-- The state after the mount, and the status: 0 or -1. -/
def mantle_rootfs_mount (image : Option Blob) : Checked (rootfs_state × Int) :=
  match image with
  | none => .ok (.zero, -1)
  | some blob => do
    let size := blob.content.length
    if size < headerSize then return (.zero, -1)
    let magic ← wordAt blob.content 0 4
    let entries ← wordAt blob.content 4 4
    if magic ≠ MANTLE_ROOTFS_MAGIC ∨ entries = 0 ∨ MANTLE_ROOTFS_MAX_ENTRIES < entries then
      return (.zero, -1)
    if ← mount_loop blob.content size entries headerSize then
      return ({ image := some blob, size, entries }, 0)
    return (.zero, -1)

/-! ## Open -/

/-- The loop of `path_equal`. The third argument is the part of `right` from `index` on. -/
def path_equal_loop (image : Bytes) (left left_length : Nat) : Bytes → Nat → Checked Bool
  | [], index => .error (.bounds index index)
  | c :: rest, index =>
    if c = 0 then .ok (index == left_length)
    else if left_length ≤ index then .ok false
    else do
      let b ← byteAt image (left + index)
      if b ≠ c then return false
      path_equal_loop image left left_length rest (index + 1)

/-- Compares the path at `left` in the image with the C string in the buffer `right`. -/
def path_equal (image : Bytes) (left left_length : Nat) (right : Bytes) : Checked Bool :=
  path_equal_loop image left left_length right 0

def open_loop (image path : Bytes) : Nat → Nat → Checked (Option mantle_rootfs_file)
  | 0, _ => .ok none
  | left + 1, cursor => do
    let entry ← entryAt image cursor
    let name ← add32 cursor entrySize
    if ← path_equal image name entry.path_length path then
      return some { data := entry.offset, size := entry.size, mode := entry.mode }
    let cursor ← add32 name entry.path_length
    open_loop image path left cursor

/-- The status, and what `*file` holds after the call. `path` is `none` for the null
pointer, and else a buffer with a C string. -/
def mantle_rootfs_open (state : rootfs_state) (path : Option Bytes) (file : mantle_rootfs_file) :
    Checked (Int × mantle_rootfs_file) :=
  match state.image, path with
  | some blob, some path => do
    match ← open_loop blob.content path state.entries headerSize with
    | some found => return (0, found)
    | none => return (-1, file)
  | _, _ => .ok (-1, file)

/-! ## List -/

section List

variable {base size : Nat}

/-- `while (cursor < length && output[cursor] != ' ' && output[cursor] != '\n') ++cursor`,
with the bytes that are left before `length`. -/
def word_end (memory : Window base size) (output : Nat) : Nat → Nat → Checked Nat
  | 0, cursor => .ok cursor
  | left + 1, cursor => do
    let c ← memory.load (output + cursor)
    if c = 32 ∨ c = 10 then return cursor
    word_end memory output left (cursor + 1)

/-- `while (index < name_length && output[start + index] == name[index]) ++index`, and then
`index == name_length`. -/
def same_name (image : Bytes) (memory : Window base size) (output name : Nat) :
    Nat → Nat → Checked Bool
  | 0, _ => .ok true
  | left + 1, index => do
    let c ← memory.load (output + index)
    let d ← byteAt image (name + index)
    if c ≠ d then return false
    same_name image memory output name left (index + 1)

/-- The outer loop of `name_seen`. Each turn moves the cursor by one at least, so `length`
turns are enough. -/
def name_seen_loop (image : Bytes) (memory : Window base size)
    (output length name name_length : Nat) : Nat → Nat → Checked Bool
  | 0, _ => .ok false
  | turns + 1, start =>
    if start < length then do
      let cursor ← word_end memory output (length - start) start
      if cursor - start = name_length then
        if ← same_name image memory (output + start) name name_length 0 then
          return true
      name_seen_loop image memory output length name name_length turns (cursor + 1)
    else .ok false

def name_seen (image : Bytes) (memory : Window base size)
    (output length name name_length : Nat) : Checked Bool :=
  name_seen_loop image memory output length name name_length length 0

/-- The loop that measures the first component of a path, with the bytes that are left. -/
def component_loop (image : Bytes) (name : Nat) : Nat → Nat → Checked Nat
  | 0, name_length => .ok name_length
  | left + 1, name_length => do
    let c ← byteAt image (name + name_length)
    if c = 47 ∨ c = 0 then return name_length
    component_loop image name left (name_length + 1)

/-- The loop of `mantle_rootfs_list`. It gives the memory, and `none` for the return of -1
inside the loop or the number of bytes written. -/
def list_loop (image : Bytes) (output output_size : Nat) :
    Nat → Nat → Nat → Window base size → Checked (Window base size × Option Nat)
  | 0, _, written, memory => .ok (memory, some written)
  | left + 1, cursor, written, memory => do
    let entry ← entryAt image cursor
    let path ← add32 cursor entrySize
    let cursor ← add32 path entry.path_length
    if entry.path_length ≤ 1 then list_loop image output output_size left cursor written memory
    else
      let name := path + 1
      let name_length ← component_loop image name (entry.path_length - 1) 0
      if ← name_seen image memory output written name name_length then
        list_loop image output output_size left cursor written memory
      else
        let needed ← add32 written (name_length + 1)
        if output_size ≤ needed then return (memory, none)
        let memory ← forRange (fun part memory => do
          let c ← byteAt image (name + part)
          memory.store (output + written + part) c) 0 name_length memory
        let memory ← memory.store (output + written + name_length) 32
        list_loop image output output_size left cursor needed memory

/-- The memory after the call, and the result. `path` and `output` are addresses in the
memory, and 0 is the null pointer. -/
def mantle_rootfs_list (state : rootfs_state) (memory : Window base size)
    (path output output_size : Nat) : Checked (Window base size × Int) :=
  match state.image with
  | none => .ok (memory, -1)
  | some blob => do
    if path = 0 ∨ output = 0 ∨ output_size = 0 then return (memory, -1)
    if (← memory.load path) ≠ 47 then return (memory, -1)
    if (← memory.load (path + 1)) ≠ 0 then return (memory, -1)
    let (memory, written) ←
      list_loop blob.content output output_size state.entries headerSize 0 memory
    match written with
    | none => return (memory, -1)
    | some written =>
      let ending ← add32 written 1
      if written = 0 ∨ output_size ≤ ending then return (memory, -1)
      let memory ← memory.store (output + written - 1) 10
      let memory ← memory.store (output + written) 0
      return (memory, written)

end List

end mantle.rootfs
