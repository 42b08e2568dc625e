-- User programs on the kernel: the stubs of `libc/syscalls.S`, the string
-- functions of the library, and what each of them comes to in a memory that
-- the program and the kernel share.
import MantleOS.CallResults
import MantleOS.Terminal

open checked bytes

namespace mantle.user

open rootfs elf syscall

/-- What a program runs on, and the calls that it has made, the newest last. -/
structure Task where
  kernel : Kernel
  calls : List Service

/-- How a piece of a program comes out: it goes on with a value, the processor goes on in the program
of another frame, or the machine waits for a key that never comes, or has halted. -/
inductive Comes (α : Type)
  | next (value : α) (task : Task)
  | entered (task : Task) (frame : mantle_syscall_frame)
  | waiting (task : Task)
  | halted (task : Task)

def Comes.task {α : Type} : Comes α → Task
  | .next _ task => task
  | .entered task _ => task
  | .waiting task => task
  | .halted task => task

/-- A piece of a user program. -/
def User (α : Type) : Type := Task → Checked (Comes α)

variable {α β : Type}

/-- What comes after a piece, when the program goes on. -/
def Comes.andThen (c : Comes α) (f : α → User β) : Checked (Comes β) :=
  match c with
  | .next value task => f value task
  | .entered task frame => .ok (.entered task frame)
  | .waiting task => .ok (.waiting task)
  | .halted task => .ok (.halted task)

instance : Monad User where
  pure value := fun t => .ok (.next value t)
  bind x f := fun t => do
    let c ← x t
    c.andThen f

/-- A piece that only reads memory. -/
def inspect (f : Window USER_BASE userSize → Checked α) : User α := fun t => do
  let value ← f t.kernel.user.memory
  return .next value t

/-- A store of the program. The processor refuses one to a page that is not writable. -/
def store (address : Nat) (x : UInt8) : User Unit := fun t =>
  if paging.writable (t.kernel.user.pages (pageOf address)) then do
    let memory ← t.kernel.user.memory.store address x
    return .next () { t with kernel := t.kernel.withMemory memory }
  else .error (.bounds address (pageOf address * 4096))

/-- A piece and what follows it, where that may need fuel. -/
def followedBy (x : User α) (rest : α → Task → Option (Checked (Comes β))) (t : Task) :
    Option (Checked (Comes β)) :=
  match x t with
  | .ok (.next a t) => rest a t
  | .ok (.entered t frame) => some (.ok (.entered t frame))
  | .ok (.waiting t) => some (.ok (.waiting t))
  | .ok (.halted t) => some (.ok (.halted t))
  | .error fault => some (.error fault)

/-- `for (;;)`, with a body that may return a value from the function. -/
def forever (body : User (Option α)) : Nat → Task → Option (Checked (Comes α))
  | 0, _ => none
  | fuel + 1, t => followedBy body (fun r t =>
    match r with
    | some value => some (.ok (.next value t))
    | none => forever body fuel t) t

/-! ## The stubs -/

/-- Where the compiler and the linker put what a program passes to the kernel, and the registers
that a stub does not set. -/
structure Placement where
  literal : Bytes → Nat
  regs : mantle_syscall_frame

/-- The instruction after `syscall` is the next one of the program, except after SYS_EXIT and after
a SYS_EXEC that has loaded a program: then the frame has the entry of another one. -/
def comesBack (service : Service) (result : Int) : Bool :=
  match service with
  | .sys_exit => false
  | .sys_exec => result < 0
  | _ => true

/-- `syscall`, with the registers of the frame. The value is `rax` as an `int64_t`. -/
def stub (layout : Layout) (frame : mantle_syscall_frame) : User Int := fun t => do
  let calls := t.calls ++ [frame.service]
  let outcome ← mantle_syscall_dispatch layout { t.kernel with syscall_origin_user := 1 } frame
  match outcome with
  | .returned kernel frame' =>
    let result := frame'.rax.toBitVec.toInt
    if comesBack frame.service result then return .next result { kernel, calls }
    else return .entered { kernel, calls } frame'
  | .waiting kernel => return .waiting { kernel, calls }
  | .halted kernel => return .halted { kernel, calls }

section Stubs

variable (layout : Layout) (p : Placement)

def mantle_read (fd buffer length : Nat) : User Int :=
  stub layout { p.regs with rax := 0, rdi := .ofNat fd, rsi := .ofNat buffer, rdx := .ofNat length }

def mantle_write (fd buffer length : Nat) : User Int :=
  stub layout { p.regs with rax := 1, rdi := .ofNat fd, rsi := .ofNat buffer, rdx := .ofNat length }

def mantle_exec (path : Nat) : User Int := stub layout { p.regs with rax := 6, rdi := .ofNat path }

def mantle_chdir (path : Nat) : User Int := stub layout { p.regs with rax := 9, rdi := .ofNat path }

def mantle_getcwd (buffer length : Nat) : User Int :=
  stub layout { p.regs with rax := 10, rdi := .ofNat buffer, rsi := .ofNat length }

def mantle_exit (status : Nat) : User Int :=
  stub layout { p.regs with rax := 11, rdi := .ofNat status }

def mantle_readdir (path buffer length : Nat) : User Int :=
  stub layout { p.regs with rax := 13, rdi := .ofNat path, rsi := .ofNat buffer, rdx := .ofNat length }

def mantle_uname (buffer length : Nat) : User Int :=
  stub layout { p.regs with rax := 14, rdi := .ofNat buffer, rsi := .ofNat length }

end Stubs

/-! ## The string functions -/

/-- The loop of `mantle_strlen`. The window ends after `left` bytes, and a read there is a fault. -/
def strlen_loop (memory : Window USER_BASE userSize) (text : Nat) : Nat → Nat → Checked Nat
  | 0, length => .error (.bounds (text + length) USER_LIMIT)
  | left + 1, length => do
    let c ← memory.load (text + length)
    if c = 0 then return length else strlen_loop memory text left (length + 1)

def mantle_strlen (text : Nat) (memory : Window USER_BASE userSize) : Checked Nat :=
  strlen_loop memory text (USER_LIMIT - text) 0

/-- The loop of `mantle_streq`, with the comparison after it. -/
def streq_loop (memory : Window USER_BASE userSize) (left right : Nat) : Nat → Nat → Checked Bool
  | 0, index => .error (.bounds (left + index) USER_LIMIT)
  | turns + 1, index => do
    let l ← memory.load (left + index)
    let r ← memory.load (right + index)
    if l ≠ 0 ∧ l = r then streq_loop memory left right turns (index + 1) else return l = r

def mantle_streq (left right : Nat) (memory : Window USER_BASE userSize) : Checked Bool :=
  streq_loop memory left right (USER_LIMIT - left) 0

/-! ## What stands in memory -/

/-- The string and its NUL stand at the address. -/
structure Text (memory : Window USER_BASE userSize) (address : Nat) (s : Bytes) : Prop where
  held : Window.HoldsAll USER_BASE userSize address (s.length + 1)
  bytes : memory.bytesAt address (s.length + 1) = s ++ [0]
  noNul : 0 ∉ s

variable {memory : Window USER_BASE userSize} {address left right : Nat} {s text : Bytes} {c : UInt8}

theorem text_of_isString (h : IsString memory address s) : Text memory address s :=
  ⟨h.held, h.bytes, h.noNul⟩

theorem Text.load_nil (h : Text memory address []) : memory.load address = .ok 0 := by
  have hheld : Window.Holds USER_BASE userSize address := h.held 0 (by simp)
  have hbytes := h.bytes
  rw [List.length_nil, Window.bytesAt_succ, List.nil_append, List.cons.injEq] at hbytes
  rw [Window.load_eq hheld, hbytes.1]

theorem Text.load_cons (h : Text memory address (c :: s)) :
    memory.load address = .ok c ∧ c ≠ 0 ∧ Text memory (address + 1) s := by
  have hheld : Window.Holds USER_BASE userSize address := h.held 0 (by simp)
  have hbytes := h.bytes
  have hnul := h.noNul
  rw [List.length_cons, Window.bytesAt_succ, List.cons_append, List.cons.injEq] at hbytes
  rw [List.mem_cons, not_or] at hnul
  refine ⟨by rw [Window.load_eq hheld, hbytes.1], Ne.symm hnul.1, ?_, hbytes.2, hnul.2⟩
  exact h.held.part 1 (s.length + 1) (by rw [List.length_cons]; omega)

/-- The loop that has come to the rest `s` of a string. -/
theorem strlen_loop.spec {length turns : Nat} (h : Text memory (address + length) s)
    (hturns : s.length < turns) :
    strlen_loop memory address turns length = .ok (length + s.length) := by
  induction s generalizing length turns with
  | nil =>
    obtain ⟨turns, rfl⟩ := Nat.exists_eq_add_of_lt hturns
    rw [strlen_loop, h.load_nil, ok_bind, if_pos rfl]
    rfl
  | cons c s ih =>
    obtain ⟨turns, rfl⟩ := Nat.exists_eq_add_of_lt hturns
    obtain ⟨hload, hc, hrest⟩ := h.load_cons
    rw [strlen_loop, hload, ok_bind, if_neg hc, ih hrest (by rw [List.length_cons]; omega),
      List.length_cons, Nat.add_assoc, Nat.add_comm 1]

theorem mantle_strlen.spec (h : IsString memory address s) :
    mantle_strlen address memory = .ok s.length := by
  have hfits := h.fits
  have hloop := @strlen_loop.spec memory address s 0 (USER_LIMIT - address) (text_of_isString h)
    (by omega)
  rwa [Nat.zero_add] at hloop

theorem streq_loop.spec {index turns : Nat} (h : Text memory (left + index) s)
    (h' : Text memory (right + index) text) (hturns : s.length < turns) :
    streq_loop memory left right turns index = .ok (decide (s = text)) := by
  induction s generalizing text index turns with
  | nil =>
    obtain ⟨turns, rfl⟩ := Nat.exists_eq_add_of_lt hturns
    rw [streq_loop, h.load_nil, ok_bind]
    cases text with
    | nil =>
      rw [h'.load_nil, ok_bind, if_neg (by simp)]
      rfl
    | cons d text =>
      obtain ⟨hload', hd, -⟩ := h'.load_cons
      rw [hload', ok_bind, if_neg (by simp)]
      simp [Ne.symm hd]
  | cons c s ih =>
    obtain ⟨turns, rfl⟩ := Nat.exists_eq_add_of_lt hturns
    obtain ⟨hload, hc, hrest⟩ := h.load_cons
    rw [streq_loop, hload, ok_bind]
    cases text with
    | nil =>
      rw [h'.load_nil, ok_bind, if_neg (fun heq => hc heq.2)]
      simp [hc]
    | cons d text =>
      obtain ⟨hload', hd, hrest'⟩ := h'.load_cons
      rw [hload', ok_bind]
      by_cases heq : c = d
      · subst heq
        rw [if_pos ⟨hc, rfl⟩, ih hrest hrest' (by rw [List.length_cons]; omega)]
        simp
      · rw [if_neg (fun h => heq h.2)]
        simp [heq]

theorem mantle_streq.spec (h : IsString memory left s) (h' : IsString memory right text) :
    mantle_streq left right memory = .ok (decide (s = text)) := by
  have hfits := h.fits
  exact @streq_loop.spec memory left right s text 0 (USER_LIMIT - left) (text_of_isString h)
    (text_of_isString h') (by omega)

end mantle.user
