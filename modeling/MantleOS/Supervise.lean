-- The supervisor of `services/mantle-supervise.c`, which is the process 1, on a
-- machine whose other processes come and go as they like. Each step is one call
-- of the supervisor, or something that happens elsewhere.
import MantleOS.Runs

open runs

namespace mantle.supervise

/-! ## The machine -/

inductive service
  | log
  | network
  deriving DecidableEq

/-- What the supervisor has forked a process for. -/
inductive role
  | service (name : service)
  | session
  | check
  | other
  deriving DecidableEq

/-- A process that its parent has not yet waited for, ended or not. The orphans are children of
the supervisor too. -/
structure process where
  role : role
  alive : Bool
  child : Bool
  deriving DecidableEq

/-- The lines for the serial port. -/
inductive marker
  | MANTLE_SERVICES_OK
  | MANTLE_SHELL_OK
  | MANTLE_MT_OK
  | MANTLE_MTC_OK
  deriving DecidableEq

/-- Where `ensure_service` is called: before the loop, in it, or while a session runs. -/
inductive site
  | boot
  | head
  | session (child : Nat)
  deriving DecidableEq

/-- Where the supervisor is. -/
inductive point
  | splash (i : Nat)
  | ensure (at_site : site) (name : service)
  | forking (at_site : site) (name : service)
  | writing (at_site : site) (name : service) (p : Nat)
  | ready_log (i : Nat)
  | ready_network (i : Nat)
  | ready_file (i : Nat)
  | printing (m : marker)
  | check (k : Nat)
  | check_wait (k p : Nat)
  | head
  | stop_test
  | session_fork
  | session_write (child : Nat)
  | session_wait (child : Nat)
  | session_end
  | finish
  | exited
  deriving DecidableEq

/-- The processes by their numbers, the files of `/run` and the state of the supervisor. A file
that is not there reads as 0. -/
structure State where
  procs : Nat → Option process
  pid_file : service → Nat
  session_pid : Nat
  stop_file : Bool
  ready_file : Bool
  stopping : Bool
  pc : point

/-- Something that happens elsewhere. -/
inductive elsewhere
  | spawn (p : Nat)
  | exit (p : Nat)
  | orphan (p : Nat)
  | collect (p : Nat)
  | stop
  | start
  | ready (there : Bool)
  | sigterm
  deriving DecidableEq

/-- What a step shows. -/
inductive event
  | started (name : service) (p : Nat)
  | session (p : Nat)
  | reaped (p : Nat)
  | serial (m : marker)
  | silent
  | elsewhere (e : elsewhere)
  deriving DecidableEq

def State.set (s : State) (p : Nat) (proc : Option process) : State :=
  { s with procs := fun k => if k = p then proc else s.procs k }

/-- `kill(p,0)==0`: it also succeeds for a process that has ended but is not waited for. -/
def State.Exists (s : State) (p : Nat) : Prop := 0 < p ∧ s.procs p ≠ none

/-- A process that `waitpid(-1,…,WNOHANG)` may return. -/
def State.Ended (s : State) (p : Nat) : Prop :=
  ∃ proc, s.procs p = some proc ∧ proc.alive = false ∧ proc.child = true

/-! ## The calls of the supervisor -/

/-- Where `ensure_service` returns to. -/
def after_ensure : site → service → point
  | at_site, .log => .ensure at_site .network
  | .boot, .network => .ready_log 0
  | .head, .network => .stop_test
  | .session child, .network => .session_wait child

/-- What follows the run of a program of `run_boot_checks`. -/
def after_check : Nat → Bool → point
  | 0, true => .check 1
  | 0, false => .check 2
  | 1, true => .printing .MANTLE_SHELL_OK
  | 1, false => .check 2
  | 2, true => .printing .MANTLE_MT_OK
  | 2, false => .check 3
  | _, true => .printing .MANTLE_MTC_OK
  | _, false => .head

def after_marker : marker → point
  | .MANTLE_SERVICES_OK => .check 0
  | .MANTLE_SHELL_OK => .check 2
  | .MANTLE_MT_OK => .check 3
  | .MANTLE_MTC_OK => .head

/-- A number that a fork may give. -/
def State.Free (s : State) (p : Nat) : Prop := 2 ≤ p ∧ s.procs p = none

def forked (r : role) : process := { role := r, alive := true, child := true }

/-- The steps of the supervisor that do no more than go on to another point. `fails` says whether it
may fail to write the file of a service. -/
inductive Move (fails : Bool) (s : State) : event → point → Prop
  -- `main` up to its loop
  | splash_wait {i : Nat} : s.pc = .splash i → i < 60 → s.stopping = false →
      Move fails s .silent (.splash (i + 1))
  | splash_over {i : Nat} : s.pc = .splash i → Move fails s .silent (.ensure .boot .log)
  | ready_log {i : Nat} : s.pc = .ready_log i → i < 100 → s.stopping = false →
      s.Exists (s.pid_file .log) → Move fails s .silent (.ready_network i)
  | ready_network {i : Nat} : s.pc = .ready_network i → s.Exists (s.pid_file .network) →
      Move fails s .silent (.ready_file i)
  | ready_file {i : Nat} : s.pc = .ready_file i → s.ready_file = true →
      Move fails s .silent (.printing .MANTLE_SERVICES_OK)
  | no_log {i : Nat} : s.pc = .ready_log i → i < 100 → s.stopping = false →
      ¬ s.Exists (s.pid_file .log) → Move fails s .silent (.ready_log (i + 1))
  | no_network {i : Nat} : s.pc = .ready_network i → ¬ s.Exists (s.pid_file .network) →
      Move fails s .silent (.ready_log (i + 1))
  | no_file {i : Nat} : s.pc = .ready_file i → s.ready_file = false →
      Move fails s .silent (.ready_log (i + 1))
  | ready_over {i : Nat} : s.pc = .ready_log i → (100 ≤ i ∨ s.stopping = true) →
      Move fails s .silent .head
  -- `serial_line`, which prints nothing where there is no port
  | print {m : marker} : s.pc = .printing m → Move fails s (.serial m) (after_marker m)
  | no_port {m : marker} : s.pc = .printing m → Move fails s .silent (after_marker m)
  | check_fails {k : Nat} : s.pc = .check k → Move fails s .silent (after_check k false)
  -- `ensure_service`
  | keep {x : site} {name : service} : s.pc = .ensure x name → s.Exists (s.pid_file name) →
      Move fails s .silent (after_ensure x name)
  | miss {x : site} {name : service} : s.pc = .ensure x name → ¬ s.Exists (s.pid_file name) →
      Move fails s .silent (.forking x name)
  | fork_fails {x : site} {name : service} : s.pc = .forking x name →
      Move fails s .silent (after_ensure x name)
  | write_fails {x : site} {name : service} {p : Nat} : fails = true →
      s.pc = .writing x name p → Move fails s .silent (after_ensure x name)
  -- the loop of `main`
  | again : s.pc = .head → s.stopping = false → Move fails s .silent (.ensure .head .log)
  | loop_over : s.pc = .head → s.stopping = true → Move fails s .silent .finish
  | stopped : s.pc = .stop_test → s.stop_file = true → Move fails s .silent .head
  | wanted : s.pc = .stop_test → s.stop_file = false → Move fails s .silent .session_fork
  | session_fails : s.pc = .session_fork → Move fails s .silent .head
  | no_session_file {c : Nat} : s.pc = .session_write c → Move fails s .silent (.session_wait c)
  -- `waitpid(-1,&status,WNOHANG)` when it returns no process
  | nobody_ended {c : Nat} : s.pc = .session_wait c → (∀ p, ¬ s.Ended p) →
      (∃ p proc, s.procs p = some proc ∧ proc.child = true) →
      Move fails s .silent (.ensure (.session c) .log)
  | interrupted {c : Nat} : s.pc = .session_wait c →
      Move fails s .silent (.ensure (.session c) .log)
  | no_child {c : Nat} : s.pc = .session_wait c →
      (∀ p proc, s.procs p = some proc → proc.child = false) → Move fails s .silent .session_end

/-- The other processes come and go, and files are put there and taken away. -/
inductive Elsewhere : State → elsewhere → State → Prop
  | spawn {s : State} {p : Nat} {child : Bool} : s.Free p →
      Elsewhere s (.spawn p) (s.set p (some { role := .other, alive := true, child }))
  | exit {s : State} {p : Nat} {proc : process} : s.procs p = some proc → proc.alive = true →
      Elsewhere s (.exit p) (s.set p (some { proc with alive := false }))
  | orphan {s : State} {p : Nat} {proc : process} : s.procs p = some proc →
      Elsewhere s (.orphan p) (s.set p (some { proc with child := true }))
  | collect {s : State} {p : Nat} {proc : process} : s.procs p = some proc →
      proc.role = .other → proc.alive = false → proc.child = false →
      Elsewhere s (.collect p) (s.set p none)
  | stop {s : State} : Elsewhere s .stop { s with stop_file := true }
  | start {s : State} : Elsewhere s .start { s with stop_file := false }
  | ready {s : State} {there : Bool} : Elsewhere s (.ready there) { s with ready_file := there }
  | sigterm {s : State} : Elsewhere s .sigterm { s with stopping := true }

/-- One step. -/
inductive Step (fails : Bool) : State → event → State → Prop
  | move {s : State} {e : event} {pc : point} : Move fails s e pc → Step fails s e { s with pc }
  -- `runv`
  | check {s : State} {k p : Nat} : s.pc = .check k → s.Free p →
      Step fails s .silent { s.set p (some (forked .check)) with pc := .check_wait k p }
  | check_done {s : State} {k p : Nat} {ok : Bool} : s.pc = .check_wait k p → s.Ended p →
      Step fails s (.reaped p) { s.set p none with pc := after_check k ok }
  -- `ensure_service`
  | fork {s : State} {x : site} {name : service} {p : Nat} : s.pc = .forking x name → s.Free p →
      Step fails s (.started name p)
        { s.set p (some (forked (.service name))) with pc := .writing x name p }
  | write {s : State} {x : site} {name : service} {p : Nat} : s.pc = .writing x name p →
      Step fails s .silent
        { s with
          pid_file := fun n => if n = name then p else s.pid_file n
          pc := after_ensure x name }
  -- the session
  | session {s : State} {p : Nat} : s.pc = .session_fork → s.Free p →
      Step fails s (.session p) { s.set p (some (forked .session)) with pc := .session_write p }
  | session_file {s : State} {c : Nat} : s.pc = .session_write c →
      Step fails s .silent { s with session_pid := c, pc := .session_wait c }
  | reap {s : State} {c p : Nat} : s.pc = .session_wait c → s.Ended p →
      Step fails s (.reaped p)
        { s.set p none with pc := if p = c then .session_end else .ensure (.session c) .log }
  | session_over {s : State} : s.pc = .session_end →
      Step fails s .silent { s with session_pid := 0, pc := .head }
  | quit {s : State} : s.pc = .finish →
      Step fails s .silent { s with session_pid := 0, pc := .exited }
  | elsewhere {s t : State} {a : elsewhere} : Elsewhere s a t → Step fails s (.elsewhere a) t

/-- The machine when the supervisor starts: none of its processes and none of its files is there. -/
structure Fresh (s : State) : Prop where
  procs : ∀ p proc, s.procs p = some proc → proc.role = .other
  pid_file : ∀ name, s.pid_file name = 0
  session_pid : s.session_pid = 0
  pc : s.pc = .splash 0

/-- A state of some run of the supervisor. -/
def Reachable (fails : Bool) (s : State) : Prop :=
  ∃ first es, Fresh first ∧ Run (Step fails) first es s

end mantle.supervise
