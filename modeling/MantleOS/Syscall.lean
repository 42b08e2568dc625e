-- The system calls of `kernel/syscall.c`: the kernel state, each service, the
-- dispatcher, and the states that a run of the machine can reach. Every
-- access through a pointer of the caller goes through the user window.
import MantleOS.RootfsLaws
import MantleOS.Ring3

open checked bytes

namespace mantle.syscall

open rootfs elf

def MAX_PATH : Nat := 128
def MAX_FDS : Nat := 8

structure file_descriptor where
  used : Bool
  file : mantle_rootfs_file
  offset : Nat
  deriving DecidableEq

inductive mantle_process_state
  | ready
  | running
  | exited
  deriving DecidableEq

structure mantle_process where
  pid : Nat
  ppid : Nat
  uid : Nat
  gid : Nat
  state : mantle_process_state
  exit_code : Int
  cwd : Bytes
  deriving DecidableEq

@[ext] structure mantle_syscall_frame where
  rax : UInt64
  rip : UInt64
  rflags : UInt64
  rsp : UInt64
  rdi : UInt64
  rsi : UInt64
  rdx : UInt64
  r10 : UInt64
  r8 : UInt64
  r9 : UInt64
  deriving DecidableEq

/-- The static data of the kernel, what it has written to the console, and the scan codes
that the keyboard will still give. -/
structure Kernel where
  rootfs : rootfs_state
  user : UserSpace
  descriptors : Nat → file_descriptor
  process : mantle_process
  user_marker_seen : Bool
  hello_finished : Bool
  syscall_origin_user : Nat
  console : Bytes
  keyboard : List UInt8

/-- How a call ends: it returns to the program, it waits for a key that never comes, or it
halts the machine. -/
inductive Outcome
  | returned (kernel : Kernel) (frame : mantle_syscall_frame)
  | waiting (kernel : Kernel)
  | halted (kernel : Kernel)

def Outcome.kernel : Outcome → Kernel
  | .returned kernel _ => kernel
  | .waiting kernel => kernel
  | .halted kernel => kernel

/-! ## The tables -/

/-- `descriptors[index]`. -/
def descriptor (k : Kernel) (index : Nat) : Checked file_descriptor :=
  if index < MAX_FDS then .ok (k.descriptors index) else .error (.bounds index MAX_FDS)

/-- `descriptors[index] = value`. -/
def set_descriptor (k : Kernel) (index : Nat) (value : file_descriptor) : Checked Kernel :=
  if index < MAX_FDS then .ok { k with descriptors := Function.update k.descriptors index value }
  else .error (.bounds index MAX_FDS)

def mantle_process_init (process : mantle_process) : Checked mantle_process := do
  let cwd ← setAt process.cwd 0 47
  let cwd ← setAt cwd 1 0
  return { process with pid := 1, ppid := 0, uid := 0, gid := 0, state := .ready, exit_code := 0, cwd }

def mantle_console_write (k : Kernel) (text : Bytes) : Kernel :=
  { k with console := k.console ++ cstring text }

/-- A cast to `int32_t`. -/
def int32 (value : Nat) : Int := (BitVec.ofNat 32 value).toInt

/-- `mantle_rootfs_open(path, &file) != 0 || mantle_elf_load(file.data, file.size, &image) != 0`,
with `none` for the failure. A file that left the mounted image would be a fault. -/
def open_and_load (layout : Layout) (k : Kernel) (path : Bytes) :
    Checked (Kernel × Option mantle_user_image) := do
  let (status, file) ← mantle_rootfs_open k.rootfs (some path) ⟨0, 0, 0⟩
  match k.rootfs.image with
  | none => return (k, none)
  | some blob =>
    if status ≠ 0 then return (k, none)
    else
      let data ← sliceAt blob.content file.data file.size
      let (user, image) ← mantle_elf_load layout k.user (some data)
      return ({ k with user }, image)

def load_next_user (layout : Layout) (k : Kernel) (frame : mantle_syscall_frame) (path : Bytes) :
    Checked (Kernel × mantle_syscall_frame × Int) := do
  let (k, image) ← open_and_load layout k path
  match image with
  | none => return (k, frame, -1)
  | some image =>
    return (k, { frame with rip := .ofNat image.entry, rsp := .ofNat image.stack, rax := 0 }, 0)

/-! ## Strings of the caller -/

/-- The loop of `string_length_user`, with the turns that are left before MAX_PATH. -/
def string_length_loop (memory : Window USER_BASE userSize) (address : Nat) :
    Nat → Nat → Checked Nat
  | 0, length => .ok length
  | left + 1, length =>
    if !user_range ((address + length) % 2 ^ 64) 1 then .ok length
    else do
      let c ← memory.load (address + length)
      if c = 0 then return length else string_length_loop memory address left (length + 1)

def string_length_user (memory : Window USER_BASE userSize) (address : Nat) : Checked Nat :=
  if !user_range address 1 then .ok 0xffffffff
  else do
    let length ← string_length_loop memory address MAX_PATH 0
    if length = MAX_PATH ∨ !user_range ((address + length) % 2 ^ 64) 1 then return 0xffffffff
    else return length

/-- The copy of a string with its NUL into `char path[MAX_PATH]`. -/
def copy_path (memory : Window USER_BASE userSize) (address length : Nat) : Checked Bytes :=
  forRange (fun index path => do
    let c ← memory.load (address + index)
    if index < MAX_PATH then return path ++ [c] else .error (.bounds index MAX_PATH)) 0 (length + 1) []

/-! ## The keyboard -/

def keymap : Bytes := ascii "??1234567890-=??qwertyuiop[]??asdfghjkl;'`?\\zxcvbnm,./"

/-- The next character and the scan codes after it. There is none when the codes run out,
and the C code then waits for ever. -/
def keyboard_read : List UInt8 → Checked (Option UInt8 × List UInt8)
  | [] => .ok (none, [])
  | scan :: rest =>
    if scan &&& 0x80 ≠ 0 ∨ keymap.length ≤ scan.toNat then keyboard_read rest
    else if scan = 0x1c then .ok (some 10, rest)
    else if scan = 0x39 then .ok (some 32, rest)
    else do
      let c ← byteAt keymap scan.toNat
      if c = 63 then keyboard_read rest else return (some c, rest)

/-! ## The services -/

def syscall_write (k : Kernel) (fd address length : Nat) : Checked (Kernel × Int) :=
  if (fd ≠ 1 ∧ fd ≠ 2) ∨ !user_range address length then .ok (k, -1)
  else do
    let k ← forRange (fun index k => do
      let c ← k.user.memory.load (address + index)
      return mantle_console_write k [c, 0]) 0 (length % 2 ^ 32) k
    return (k, int32 length)

/-- The loop of `syscall_read`, with the characters that are left. It gives no result when it
waits for ever. -/
def read_loop (address : Nat) : Nat → Nat → Kernel → Checked (Kernel × Option Int)
  | 0, index, k => .ok (k, some (int32 index))
  | left + 1, index, k => do
    let (value, keyboard) ← keyboard_read k.keyboard
    let k := { k with keyboard }
    match value with
    | none => return (k, none)
    | some value =>
      let memory ← k.user.memory.store (address + index) value
      let k := { k with user := { k.user with memory } }
      if value = 10 then return (k, some (int32 (index + 1)))
      else read_loop address left (index + 1) k

def syscall_read (k : Kernel) (fd address length : Nat) : Checked (Kernel × Option Int) :=
  if fd ≠ 0 ∨ length = 0 ∨ !user_range address length then .ok (k, some (-1))
  else read_loop address (length % 2 ^ 32) 0 k

/-- The loop of `syscall_open` over the descriptors, with those that are left. -/
def descriptor_loop (path : Bytes) : Nat → Nat → Kernel → Checked (Kernel × Int)
  | 0, _, k => .ok (k, -1)
  | left + 1, index, k => do
    let d ← descriptor k index
    if d.used then descriptor_loop path left (index + 1) k
    else
      let (status, file) ← mantle_rootfs_open k.rootfs (some path) d.file
      if status = 0 then
        let k ← set_descriptor k index { used := true, file, offset := 0 }
        return (k, int32 index)
      else
        let k ← set_descriptor k index { d with file }
        descriptor_loop path left (index + 1) k

def syscall_open (k : Kernel) (address : Nat) : Checked (Kernel × Int) := do
  let length ← string_length_user k.user.memory address
  if length = 0xffffffff ∨ MAX_PATH ≤ length then return (k, -1)
  else
    let path ← copy_path k.user.memory address length
    descriptor_loop path (MAX_FDS - 3) 3 k

def sys_close (k : Kernel) (fd : Nat) : Checked (Kernel × Int) :=
  if fd < MAX_FDS then do
    let d ← descriptor k fd
    if d.used then
      let k ← set_descriptor k fd { d with used := false }
      return (k, 0)
    else return (k, -1)
  else .ok (k, -1)

def syscall_exec (layout : Layout) (k : Kernel) (frame : mantle_syscall_frame) (address : Nat) :
    Checked (Kernel × mantle_syscall_frame × Int) := do
  let length ← string_length_user k.user.memory address
  if length = 0xffffffff ∨ MAX_PATH ≤ length then return (k, frame, -1)
  else
    let path ← copy_path k.user.memory address length
    let (k, image) ← open_and_load layout k path
    match image with
    | none => return (k, frame, -1)
    | some image =>
      return (k, { frame with rip := .ofNat image.entry, rsp := .ofNat image.stack }, 0)

def sys_chdir (k : Kernel) (address : Nat) : Checked (Kernel × Int) := do
  let length ← string_length_user k.user.memory address
  if length ≠ 1 then return (k, -1)
  else
    let first ← k.user.memory.load address
    if first ≠ 47 then return (k, -1)
    else
      let second ← k.user.memory.load (address + 1)
      if second ≠ 0 then return (k, -1)
      else
        let length ← string_length_user k.user.memory address
        if length < 64 then
          let cwd ← forRange (fun index cwd => do
            let c ← k.user.memory.load (address + index)
            setAt cwd index c) 0 (length + 1) k.process.cwd
          return ({ k with process := { k.process with cwd } }, 0)
        else return (k, -1)

/-- `while (process->cwd[length] != '\0') ++length`, over the part of `cwd` from `length` on. -/
def cwd_length : Bytes → Nat → Checked Nat
  | [], length => .error (.bounds length length)
  | c :: rest, length => if c = 0 then .ok length else cwd_length rest (length + 1)

/-- A loop that writes the first `count` bytes of an array of the kernel into the window. -/
def copy_out (memory : Window USER_BASE userSize) (address : Nat) (source : Bytes) (count : Nat) :
    Checked (Window USER_BASE userSize) :=
  forRange (fun index memory => do
    let c ← byteAt source index
    memory.store (address + index) c) 0 count memory

def sys_getcwd (k : Kernel) (address size : Nat) : Checked (Kernel × Int) :=
  if !user_range address size then .ok (k, -1)
  else do
    let length ← cwd_length k.process.cwd 0
    if length < size then
      let memory ← copy_out k.user.memory address k.process.cwd (length + 1)
      return ({ k with user := { k.user with memory } }, int32 length)
    else return (k, -1)

def sys_readdir (k : Kernel) (path output size : Nat) : Checked (Kernel × Int) := do
  let length ← string_length_user k.user.memory path
  if length ≠ 1 ∨ !user_range output size then return (k, -1)
  else
    let (memory, result) ← mantle_rootfs_list k.rootfs k.user.memory path output (size % 2 ^ 32)
    return ({ k with user := { k.user with memory } }, result)

/-- The array `name`: the literal, the NUL it spells out and the one that ends it. -/
def uname_text : Bytes := ascii "MantleOS x86_64" ++ [0, 0]

def sys_uname (k : Kernel) (address size : Nat) : Checked (Kernel × Int) :=
  if user_range address size ∧ 18 ≤ size then do
    let memory ← copy_out k.user.memory address uname_text uname_text.length
    return ({ k with user := { k.user with memory } }, int32 (uname_text.length - 1))
  else .ok (k, -1)

/-! ## The dispatcher -/

inductive Service
  | sys_read
  | sys_write
  | sys_open
  | sys_close
  | sys_exec
  | sys_getpid
  | sys_chdir
  | sys_getcwd
  | sys_exit
  | sys_reboot
  | sys_readdir
  | sys_uname
  | none
  deriving DecidableEq

/-- The numbers of `syscall.c`. SYS_STAT, SYS_LSEEK and SYS_WAIT have no case of the switch. -/
def serviceOf (number : Nat) : Service :=
  match number with
  | 0 => .sys_read
  | 1 => .sys_write
  | 2 => .sys_open
  | 3 => .sys_close
  | 6 => .sys_exec
  | 8 => .sys_getpid
  | 9 => .sys_chdir
  | 10 => .sys_getcwd
  | 11 => .sys_exit
  | 12 => .sys_reboot
  | 13 => .sys_readdir
  | 14 => .sys_uname
  | _ => .none

def mantle_syscall_frame.service (frame : mantle_syscall_frame) : Service :=
  serviceOf (frame.rax.toNat % 2 ^ 32)

/-- `frame->rax = result < 0 ? (~(uint64_t)(-result) + 1u) : (uint64_t)result`. -/
def mantle_syscall_frame.answer (frame : mantle_syscall_frame) (result : Int) :
    mantle_syscall_frame :=
  { frame with
    rax := if result < 0 then ~~~(UInt64.ofNat (-result).toNat) + 1 else .ofNat result.toNat }

/-- The marker that the first call from user space writes. -/
def note_user (k : Kernel) : Kernel :=
  if !k.user_marker_seen && k.syscall_origin_user ≠ 0 then
    mantle_console_write { k with user_marker_seen := true, syscall_origin_user := 0 }
      (ascii "MANTLE_USERSPACE_OK\n" ++ [0])
  else k

/-- The end of a case of the switch. -/
def answered (frame : mantle_syscall_frame) (r : Kernel × Int) : Outcome :=
  .returned r.1 (frame.answer r.2)

/-- The case of SYS_EXIT. After a hand-over it leaves the switch with `result` still -1. -/
def sys_exit (layout : Layout) (k : Kernel) (frame : mantle_syscall_frame) : Checked Outcome := do
  let (k, frame, loaded) ←
    if !k.hello_finished then load_next_user layout k frame (ascii "/sbin/init" ++ [0])
    else .ok (k, frame, -1)
  if loaded = 0 then
    let process := { k.process with state := .ready, exit_code := int32 frame.rdi.toNat }
    return .returned { k with hello_finished := true, process } (frame.answer (-1))
  else
    let process := { k.process with state := .exited, exit_code := int32 frame.rdi.toNat }
    return .halted (mantle_console_write { k with process } (ascii "MANTLE_USERSPACE_EXIT\n" ++ [0]))

def mantle_syscall_dispatch (layout : Layout) (k : Kernel) (frame : mantle_syscall_frame) :
    Checked Outcome :=
  let k := note_user k
  let rdi := frame.rdi.toNat
  let rsi := frame.rsi.toNat
  let rdx := frame.rdx.toNat
  match frame.service with
  | .sys_read => do
    let (k, result) ← syscall_read k rdi rsi rdx
    match result with
    | some result => return answered frame (k, result)
    | none => return .waiting k
  | .sys_write => answered frame <$> syscall_write k rdi rsi rdx
  | .sys_open => answered frame <$> syscall_open k rdi
  | .sys_close => answered frame <$> sys_close k rdi
  | .sys_exec => do
    let (k, frame, result) ← syscall_exec layout k frame rdi
    return answered frame (k, result)
  | .sys_getpid => .ok (answered frame (k, int32 k.process.pid))
  | .sys_chdir => answered frame <$> sys_chdir k rdi
  | .sys_getcwd => answered frame <$> sys_getcwd k rdi rsi
  | .sys_exit => sys_exit layout k frame
  | .sys_reboot => .ok (.halted k)
  | .sys_readdir => answered frame <$> sys_readdir k rdi rsi rdx
  | .sys_uname => answered frame <$> sys_uname k rdi rsi
  | .none => .ok (answered frame (k, -1))

/-! ## Whole runs -/

/-- The static data before `mantle_kernel_main`. -/
def Kernel.start (console : Bytes) (keyboard : List UInt8) : Kernel :=
  { rootfs := .zero
    user := zeroUser
    descriptors := fun _ => { used := false, file := ⟨0, 0, 0⟩, offset := 0 }
    process := { pid := 0, ppid := 0, uid := 0, gid := 0, state := .ready, exit_code := 0
                 cwd := List.replicate 64 0 }
    user_marker_seen := false
    hello_finished := false
    syscall_origin_user := 0
    console
    keyboard }

/-- `mantle_kernel_main` from the mount on, with `none` where it stops. What it prints is part
of `console`. -/
def start_user (layout : Layout) (image : Blob) (tss_loaded : Bool) (k : Kernel) :
    Checked (Option (Kernel × mantle_user_image)) := do
  let (rootfs, status) ← mantle_rootfs_mount (some image)
  if status ≠ 0 then return none
  else
    let user ← mantle_arch_user_memory_init layout k.user
    let process ← mantle_process_init k.process
    let (k, loaded) ← open_and_load layout { k with rootfs, user, process }
      (ascii "/bin/hello" ++ [0])
    match loaded with
    | none => return none
    | some init_image =>
      let (user, entered) ← ring3_diagnostics layout tss_loaded k.user init_image.entry init_image.stack
      if entered then return some ({ k with user }, init_image) else return none

/-- The states of the kernel between the instructions of user programs. A program may store
to the pages that are writable, the keyboard may give codes at any time, and
`mantle_syscall_entry` notes the origin of a call before the dispatcher runs. -/
inductive Reachable (layout : Layout) : Kernel → Prop
  | boot {image : Blob} {tss_loaded : Bool} {console : Bytes} {keyboard : List UInt8}
      {k : Kernel} {init_image : mantle_user_image} :
      start_user layout image tss_loaded (.start console keyboard) = .ok (some (k, init_image)) →
      Reachable layout k
  | store {k : Kernel} {a : Nat} (x : UInt8) : Reachable layout k → InWindow a →
      paging.writable (k.user.pages (pageOf a)) = true →
      Reachable layout { k with user := { k.user with memory := k.user.memory.put (a - USER_BASE) x } }
  | key {k : Kernel} (scan : UInt8) : Reachable layout k →
      Reachable layout { k with keyboard := k.keyboard ++ [scan] }
  | entry {k : Kernel} : Reachable layout k → Reachable layout { k with syscall_origin_user := 1 }
  | call {k k' : Kernel} {frame frame' : mantle_syscall_frame} : Reachable layout k →
      mantle_syscall_dispatch layout k frame = .ok (.returned k' frame') → Reachable layout k'

end mantle.syscall
