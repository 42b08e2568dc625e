-- The shell of user space, `userspace/mantle-shell.c`: its commands and its
-- loop over the system calls, and the session that the keys make of them.
import Mathlib.Data.List.DropRight
import MantleOS.UserRuns

open checked bytes regions

namespace mantle.user

open rootfs elf syscall

/-! ## The program -/

/-- The literals of the shell, and the arrays on its stack. -/
structure ShellPlacement extends Placement where
  line : Nat
  cwd : Nat
  entries : Nat
  name : Nat

def ShellPlacement.buffers (p : ShellPlacement) : List Region :=
  [⟨p.line, 128⟩, ⟨p.cwd, 64⟩, ⟨p.entries, 128⟩, ⟨p.name, 32⟩]

def marker : Bytes := ascii "MANTLE_SHELL_CONSOLE_OK\n"
def prompt : Bytes := ascii "mantle@mantleos:~$ "
def unavailable : Bytes := ascii "mantle-shell: directory unavailable"
def execFailed : Bytes := ascii "mantle-shell: exec failed"
def notFound : Bytes := ascii "mantle-shell: command not found"

/-- The string literals of the program. -/
def shellLiterals : List Bytes :=
  [marker, prompt, ascii "\n", [], ascii "exit", ascii "pwd", ascii "echo MantleOS", ascii "MantleOS",
    ascii "ls", ascii "/", unavailable, ascii "uname", ascii "mantle --version", ascii "/bin/mantle",
    execFailed, ascii "/bin/hello", notFound]

section Program

variable (layout : Layout) (p : ShellPlacement)

def output (text : Nat) : User Unit := do
  let length ← inspect (mantle_strlen text)
  let _ ← mantle_write layout p.toPlacement 1 text length
  return ()

def output_line (text : Nat) : User Unit := do
  output layout p text
  output layout p (p.literal (ascii "\n"))

/-- The loop that takes newlines and returns off the end of `line`. -/
def strip_loop : Nat → User Unit
  | 0 => return ()
  | length + 1 => do
    let c ← inspect (fun memory => memory.load (p.line + length))
    if c = 10 ∨ c = 13 then do
      store (p.line + length) 0
      strip_loop length
    else return ()

/-- `mantle_streq(line, ..)`. -/
def line_is (text : Bytes) : User Bool := inspect (mantle_streq p.line (p.literal text))

/-- `line[0] == 'c' && line[1] == 'd' && line[2] == ' '`. -/
def is_cd (line : Nat) (memory : Window USER_BASE userSize) : Checked Bool := do
  let c ← memory.load line
  if c ≠ 99 then return false
  else
    let c ← memory.load (line + 1)
    if c ≠ 100 then return false
    else
      let c ← memory.load (line + 2)
      return c = 32

/-- `execute_line` after `exit`. -/
def other_commands : User Unit := do
  if ← line_is p (ascii "pwd") then
    let length ← mantle_getcwd layout p.toPlacement p.cwd 64
    if 0 ≤ length then output_line layout p p.cwd else return ()
  else if ← line_is p (ascii "echo MantleOS") then
    output_line layout p (p.literal (ascii "MantleOS"))
  else if ← line_is p (ascii "ls") then
    let length ← mantle_readdir layout p.toPlacement (p.literal (ascii "/")) p.entries 128
    if 0 ≤ length then output layout p p.entries
    else output_line layout p (p.literal unavailable)
  else if ← line_is p (ascii "uname") then
    let length ← mantle_uname layout p.toPlacement p.name 32
    if 0 ≤ length then output_line layout p p.name else return ()
  else if ← line_is p (ascii "mantle --version") then
    let result ← mantle_exec layout p.toPlacement (p.literal (ascii "/bin/mantle"))
    if result < 0 then output_line layout p (p.literal execFailed) else return ()
  else if ← line_is p (ascii "/bin/hello") then
    let result ← mantle_exec layout p.toPlacement (p.literal (ascii "/bin/hello"))
    if result < 0 then output_line layout p (p.literal execFailed) else return ()
  else if ← inspect (is_cd p.line) then
    let result ← mantle_chdir layout p.toPlacement (p.line + 3)
    if result < 0 then output_line layout p (p.literal unavailable) else return ()
  else output_line layout p (p.literal notFound)

def execute_line : User Unit := do
  let length ← inspect (mantle_strlen p.line)
  strip_loop p length
  if ← line_is p [] then return ()
  else if ← line_is p (ascii "exit") then
    let _ ← mantle_exit layout p.toPlacement 0
    other_commands layout p
  else other_commands layout p

/-- One turn of the loop of `main`. -/
def shell_turn : User (Option Nat) := do
  output layout p (p.literal prompt)
  let length ← mantle_read layout p.toPlacement 0 p.line 127
  if length < 0 then return some 1
  else
    store (p.line + if length < 128 then length.toNat else 127) 0
    execute_line layout p
    return none

def shell_main (fuel : Nat) : Task → Option (Checked (Comes Nat)) :=
  followedBy (mantle_write layout p.toPlacement 1 (p.literal marker) marker.length)
    (fun _ => forever (shell_turn layout p) fuel)

end Program

/-! ## The session -/

/-- How a session ends. -/
inductive Ending
  | exit
  | hello
  deriving DecidableEq

/-- What the shell does about a line. -/
inductive Reply
  | prints (text : Bytes)
  | ends (ending : Ending)
  deriving DecidableEq

/-- What `ls` prints: the names of the root directory, when they fit the array `entries`. -/
def listing (names : List Bytes) : Bytes :=
  match listingText names 128 with
  | some text => cstring text
  | none => unavailable ++ [10]

/-- The commands that a line without a blank can give. -/
def reply (names : List Bytes) (line : Bytes) : Reply :=
  if line = [] then .prints []
  else if line = ascii "exit" then .ends .exit
  else if line = ascii "pwd" then .prints (ascii "/\n")
  else if line = ascii "ls" then .prints (listing names)
  else if line = ascii "uname" then .prints (ascii "MantleOS x86_64\n")
  else if line = ascii "/bin/hello" then .ends .hello
  else .prints (notFound ++ [10])

/-- The line that is typed, all that is printed, and how it has ended. -/
structure Session where
  line : Bytes
  text : Bytes
  ending : Option Ending
  deriving DecidableEq

/-- The shell behind its first prompt. -/
def Session.start : Session := { line := [], text := prompt, ending := none }

def Session.execute (names : List Bytes) (s : Session) (line : Bytes) : Session :=
  match reply names line with
  | .prints text => { line := [], text := s.text ++ (text ++ prompt), ending := none }
  | .ends ending => { line := [], text := s.text, ending := some ending }

/-- The line without newlines and returns at its end. -/
def stripped (line : Bytes) : Bytes := line.rdropWhile (fun c => c = 10 || c = 13)

/-- One code of the keyboard. A line ends with its newline, or with its character 127. -/
def Session.feed (names : List Bytes) (s : Session) (scan : UInt8) : Session :=
  if s.ending.isSome then s
  else match decoded scan with
    | none => s
    | some c =>
      if c = 10 ∨ s.line.length + 1 = 127 then s.execute names (stripped (s.line ++ [c]))
      else { s with line := s.line ++ [c] }

/-- What the codes make of a session. -/
def Session.after (names : List Bytes) (s : Session) (codes : List UInt8) : Session :=
  codes.foldl (Session.feed names) s

end mantle.user
