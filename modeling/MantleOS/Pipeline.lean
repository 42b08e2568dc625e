-- The descriptors behind a line of the shell: what `run_line` and the children
-- of `execute` open, duplicate and close, on the tables of open files that the
-- kernel keeps for them.
import MantleOS.Pipes
import MantleOS.ShellRuns

open checked bytes filetable pipes

namespace mantle.shell

/-! ## The children of `execute` -/

/-- The flags of an `open`. -/
inductive open_mode
  | O_RDONLY
  | O_TRUNC
  | O_APPEND
  deriving DecidableEq

/-- A file that is no pipe of the shell: one from before, or one that a redirection has opened. -/
inductive plain_file
  | given (n : Nat)
  | opened (path : Bytes) (mode : open_mode)
  deriving DecidableEq

abbrev Files := Table (pipes.File plain_file)

/-- `dup2(old,new);close(old)`, with no look at what the calls return. -/
def move (t : Files) (old new : Nat) : Files := ((t.dup2 old new).getD t).close old

/-- The file of a redirection, which ends the child with 126 when it does not open. -/
def redirect (opens : Bytes → open_mode → Bool) (t : Files) (path : Bytes) (mode : open_mode)
    (fd : Nat) : Except Int Files :=
  if opens path mode then
    match t.install (.other (.opened path mode)) with
    | none => .error 126
    | some (f, t) => .ok (move t f fd)
  else .error 126

def append_mode (append : Bool) : open_mode := if append then .O_APPEND else .O_TRUNC

/-- The files with which the child of `execute` gets to its `execvp`, or the status with which it
ends before. -/
def child_files (opens : Bytes → open_mode → Bool) (t : Files) (c : command) (in_fd out_fd : Nat) :
    Except Int Files := do
  let t := if in_fd ≠ 0 then move t in_fd 0 else t
  let t := if out_fd ≠ 1 then move t out_fd 1 else t
  let t ← match c.input with
    | some path => redirect opens t path .O_RDONLY 0
    | none => .ok t
  match c.output with
  | some path => redirect opens t path (append_mode c.append) 1
  | none => .ok t

/-- A forked child: the place of its command on the line, the command and its files. -/
structure Child where
  index : Nat
  c : command
  files : Except Int Files

/-- The child of an event, which has a copy of the files of the shell. -/
def child_of (opens : Bytes → open_mode → Bool) (t : Files) : Event → Option Child
  | .forked index c in_fd out_fd => some { index, c, files := child_files opens t c in_fd out_fd }
  | _ => none

/-! ## The loop of `run_line` -/

/-- The descriptors that the loop of `run_line` gives to the command of an index, and the files
after its `pipe`. The machine may also be out of pipes. The pipes are counted from the first one
that the shell has made. -/
def open_pipe (m : Machine) (first count index in_fd : Nat) (t : Files) :
    Option (Nat × Nat × Files) :=
  if index + 1 < count then
    if (m.pipe index).isSome then
      t.pipe (.read_end (first + index)) (.write_end (first + index))
    else none
  else some (in_fd, 1, t)

/-- The files of the shell after a command: it closes what it gave to the child. -/
def close_ends (count index in_fd write_fd : Nat) (t : Files) : Files :=
  let t := if in_fd ≠ 0 then t.close in_fd else t
  if index + 1 < count then t.close write_fd else t

/-- A turn of the loop: the descriptors of its pipe, the child, and the files of the shell after
it. -/
structure Turned where
  read_fd : Nat
  write_fd : Nat
  child : Option Child
  files : Files

/-- What the loop of `run_line` leaves: its turns, the files of the shell, and what `run_loop` says
of the same line. -/
structure Plumbed where
  turns : List Turned
  files : Files
  run : Shell × List Event × Except outcome (List Int)

def plumb_loop (m : Machine) (opens : Bytes → open_mode → Bool) (first count : Nat) :
    Nat → Nat → Shell → Files → List command → Plumbed
  | _, _, sh, t, [] => { turns := [], files := t, run := (sh, [], .ok []) }
  | index, in_fd, sh, t, c :: rest =>
    match open_pipe m first count index in_fd t with
    | none => { turns := [], files := t, run := (sh, [], .error (.returned 1)) }
    | some (read_fd, write_fd, opened) =>
      let turn := execute m index sh c in_fd write_fd (1 < count)
      let files := close_ends count index in_fd write_fd opened
      let turned : Turned :=
        { read_fd, write_fd, child := turn.events.findSome? (child_of opens opened), files }
      match turn.result with
      | .error status =>
        { turns := [turned], files, run := (turn.sh, turn.events, .error (.exited status)) }
      | .ok child =>
        let after := plumb_loop m opens first count (index + 1) read_fd turn.sh files rest
        { turns := turned :: after.turns
          files := after.files
          run := (after.run.1, turn.events ++ after.run.2.1, (child :: ·) <$> after.run.2.2) }

/-- The line with its descriptors. -/
def plumb (m : Machine) (opens : Bytes → open_mode → Bool) (first : Nat) (sh : Shell) (t : Files)
    (cmds : List command) : Plumbed :=
  plumb_loop m opens first cmds.length 0 0 sh t cmds

/-! ## The loop without its files -/

/-- The machine whose pipes have these descriptors. -/
def Machine.with_pipes (m : Machine) (turns : List Turned) : Machine :=
  { m with pipe := fun index => turns[index]?.map (fun t => (t.read_fd, t.write_fd)) }

theorem plumb_loop_run {m : Machine} {opens : Bytes → open_mode → Bool} {first count index in_fd : Nat}
    {sh : Shell} {t : Files} {cmds : List command} {pipe : Nat → Option (Nat × Nat)}
    (hpipe : ∀ k, pipe (index + k) =
      (plumb_loop m opens first count index in_fd sh t cmds).turns[k]?.map
        (fun t => (t.read_fd, t.write_fd))) :
    run_loop { m with pipe } count index in_fd sh cmds =
      (plumb_loop m opens first count index in_fd sh t cmds).run := by
  induction cmds generalizing index in_fd sh t with
  | nil => rfl
  | cons c rest ih =>
    unfold plumb_loop at hpipe ⊢
    unfold run_loop
    cases hopen : open_pipe m first count index in_fd t with
    | none =>
      rw [hopen] at hpipe
      have hcond : index + 1 < count := by
        by_contra hlast
        rw [open_pipe, if_neg hlast] at hopen
        cases hopen
      have h0 := hpipe 0
      rw [if_pos hcond]
      dsimp only at h0 ⊢
      rw [Nat.add_zero] at h0
      rw [h0]
      rfl
    | some ends =>
      obtain ⟨read_fd, write_fd, opened⟩ := ends
      rw [hopen] at hpipe
      have hends : (if index + 1 < count then pipe index else some (in_fd, 1)) =
          some (read_fd, write_fd) := by
        split
        · have h0 := hpipe 0
          rw [Nat.add_zero] at h0
          rw [h0]
          dsimp only
          split <;> rfl
        · rename_i hlast
          rw [open_pipe, if_neg hlast] at hopen
          cases hopen
          rfl
      dsimp only at hpipe ⊢
      rw [hends]
      dsimp only
      have hexecute : execute { m with pipe } index sh c in_fd write_fd (1 < count) =
          execute m index sh c in_fd write_fd (1 < count) := rfl
      rw [hexecute]
      cases hresult : (execute m index sh c in_fd write_fd (1 < count)).result with
      | error status => rfl
      | ok child =>
        rw [hresult] at hpipe
        dsimp only at hpipe ⊢
        rw [ih fun k => by
          have hk := hpipe (k + 1)
          rw [List.getElem?_cons_succ] at hk
          rw [← hk]
          congr 1
          omega]

/-- A line does with its files what it does without them, on the machine whose pipes have the
descriptors that the files give. -/
theorem plumb_run (m : Machine) (opens : Bytes → open_mode → Bool) (first : Nat) (sh : Shell)
    (t : Files) (cmds : List command) :
    run_loop (m.with_pipes (plumb m opens first sh t cmds).turns) cmds.length 0 0 sh cmds =
      (plumb m opens first sh t cmds).run := by
  apply plumb_loop_run
  intro k
  rw [Nat.zero_add]
  rfl

end mantle.shell
