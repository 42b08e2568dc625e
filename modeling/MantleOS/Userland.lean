-- The programs of user space one after another: `/bin/hello` exits to
-- `/sbin/init`, which starts the shell, and what they come to together.
import MantleOS.UserSession

open checked bytes regions

namespace mantle.user

open rootfs elf syscall

/-! ## The programs -/

inductive program
  | hello
  | init
  | shell
  deriving DecidableEq

def program.path : program → Bytes
  | .hello => ascii "/bin/hello"
  | .init => ascii "/sbin/init"
  | .shell => ascii "/bin/mantle-shell"

def message : Bytes := ascii "MantleOS userspace\n"
def started : Bytes := ascii "MANTLE_INIT_USER_OK\n"
def failed : Bytes := ascii "MANTLE_INIT_SHELL_ERROR\n"

/-- The string literals of `init.c`. -/
def initLiterals : List Bytes := [started, failed, program.shell.path]

/-- The files of the programs, and where their literals and arrays are. -/
structure Userland where
  file : program → Bytes
  hello : Placement
  init : Placement
  shell : ShellPlacement

def Userland.placement (u : Userland) : program → Placement
  | .hello => u.hello
  | .init => u.init
  | .shell => u.shell.toPlacement

section Programs

variable (layout : Layout)

def hello_main (p : Placement) : User Nat := do
  let _ ← mantle_write layout p 1 (p.literal message) message.length
  return 0

def init_main (p : Placement) : User Nat := do
  let _ ← mantle_write layout p 1 (p.literal started) started.length
  let result ← mantle_exec layout p (p.literal program.shell.path)
  if result < 0 then
    let _ ← mantle_write layout p 1 (p.literal failed) failed.length
    return 1
  else return 1

def Userland.main (u : Userland) (fuel : Nat) (t : Task) : program → Option (Checked (Comes Nat))
  | .hello => some (hello_main layout u.hello t)
  | .init => some (init_main layout u.init t)
  | .shell => shell_main layout u.shell fuel t

/-- `_start`: the `main` of a program, and an exit with what it returns. -/
def Userland.start (u : Userland) (name : program) (fuel : Nat) (t : Task) :
    Option (Checked (Comes Int)) :=
  (u.main layout fuel t name).map (fun c => do
    let c ← c
    c.andThen (mantle_exit layout (u.placement name)))

/-- The processor is at the entry of a file, in the memory that the loader has made of it. -/
structure Entered (data : Bytes) (t : Task) (frame : mantle_syscall_frame) : Prop where
  rip : frame.rip = .ofNat (headerOf data).entry
  rsp : frame.rsp = .ofNat USER_STACK_TOP
  space : ∃ user, t.kernel.user = placedUser layout user data

/-- The programs that run one after another, until the machine waits or has halted. -/
inductive Chain (u : Userland) : program → Task → List program → Comes Int → Prop
  | stops {name : program} {t : Task} {c : Comes Int} :
      Settles (fun fuel => u.start layout name fuel t) (.ok c) →
      (∀ t' frame, c ≠ .entered t' frame) → Chain u name t [name] c
  | enters {name next : program} {t t' : Task} {frame : mantle_syscall_frame}
      {programs : List program} {c : Comes Int} :
      Settles (fun fuel => u.start layout name fuel t) (.ok (.entered t' frame)) →
      Entered layout (u.file next) t' frame → Chain u next t' programs c →
      Chain u name t (name :: programs) c

/-- The image has the programs, with their literals where the code looks for them. -/
structure Installed (u : Userland) (rootfs : rootfs_state) : Prop where
  loads : ∀ name : program, Loads rootfs name.path (u.file name)
  hello : Carries (u.file .hello) (u.hello.literal message) message
  init : ∀ s ∈ initLiterals, Carries (u.file .init) (u.init.literal s) s
  shell : ShellLinked layout u.shell (u.file .shell)

end Programs

/-! ## One program -/

section Specs

variable {layout : Layout} {u : Userland} {t t' : Task} {frame : mantle_syscall_frame} {data : Bytes}

theorem start_of_main {name : program} {c : Comes Nat} {c' : Comes Int}
    (hmain : Settles (fun fuel => u.main layout fuel t name) (.ok c))
    (hexit : c.andThen (mantle_exit layout (u.placement name)) = .ok c') :
    Settles (fun fuel => u.start layout name fuel t) (.ok c') := by
  obtain ⟨turns, hturns⟩ := hmain
  refine ⟨turns, fun fuel hfuel => ?_⟩
  have hsome : u.main layout fuel t name = some (.ok c) := hturns fuel hfuel
  change (u.main layout fuel t name).map _ = _
  rw [hsome]
  exact congrArg some hexit

theorem HandsTo.entered {service : Service} (h : HandsTo layout t t' frame data service) :
    Entered layout data t' frame := ⟨h.rip, h.rsp, _, h.space⟩

theorem Rooted.went {text : Bytes} {calls : List Service} {taken : List UInt8} {buffers : List Region}
    (h : Rooted t.kernel) (hwent : Went buffers t t' text calls taken) : Rooted t'.kernel := by
  constructor
  · rw [hwent.rootfs]
    exact h.root
  · rw [hwent.process]
    exact h.cwd

theorem Rooted.handed {service : Service} (h : Rooted t.kernel)
    (hhands : HandsTo layout t t' frame data service) : Rooted t'.kernel := by
  constructor
  · rw [hhands.rootfs]
    exact h.root
  · rw [hhands.cwd]
    exact h.cwd

theorem hello_main.spec (h : IsString t.kernel.user.memory (u.hello.literal message) message) :
    ∃ t1, Settles (fun fuel => u.main layout fuel t .hello) (.ok (.next 0 t1)) ∧
      t1.kernel.user_marker_seen = true ∧
      Went [] t t1 (greeting t.kernel ++ message) [.sys_write] [] := by
  obtain ⟨t1, hwrite, hseen, hwent⟩ := @mantle_write.spec layout u.hello [] t _ message h
  refine ⟨t1, ⟨0, fun _ _ => ?_⟩, hseen, hwent⟩
  change some (hello_main layout u.hello t) = _
  unfold hello_main
  rw [bind_next hwrite]
  rfl

/-- The first exit of `/bin/hello` goes on in `/sbin/init`. -/
theorem hello_hands (hrooted : Rooted t.kernel) (hfirst : t.kernel.hello_finished = false)
    (h : IsString t.kernel.user.memory (u.hello.literal message) message)
    (hloads : Loads t.kernel.rootfs program.init.path data) :
    ∃ t1 t2 frame, Settles (fun fuel => u.start layout .hello fuel t) (.ok (.entered t2 frame)) ∧
      Went [] t t1 (greeting t.kernel ++ message) [.sys_write] [] ∧
      t1.kernel.user_marker_seen = true ∧ HandsTo layout t1 t2 frame data .sys_exit ∧
      t2.kernel.hello_finished = true := by
  obtain ⟨t1, hmain, hseen, hwent⟩ := @hello_main.spec layout u t h
  have hgood := (hrooted.went hwent).good
  obtain ⟨t2, frame, hexit, hhands, hfinished⟩ := @mantle_exit.hands layout u.hello t1 0 data hgood
    (hwent.finished.trans hfirst) (by
      rw [hwent.rootfs]
      exact hloads)
  exact ⟨t1, t2, frame, start_of_main hmain hexit, hwent, hseen, hhands, hfinished⟩

/-- Another exit halts the machine. -/
theorem hello_halts (hrooted : Rooted t.kernel) (hfinished : t.kernel.hello_finished = true)
    (h : IsString t.kernel.user.memory (u.hello.literal message) message) :
    ∃ t2, Settles (fun fuel => u.start layout .hello fuel t) (.ok (.halted t2)) ∧
      t2.kernel.console = t.kernel.console ++
        (greeting t.kernel ++ (message ++ ascii "MANTLE_USERSPACE_EXIT\n")) := by
  obtain ⟨t1, hmain, hseen, hwent⟩ := @hello_main.spec layout u t h
  have hgood := (hrooted.went hwent).good
  obtain ⟨t2, hexit, hconsole, -, -⟩ := @mantle_exit.halts layout u.hello t1 0 hgood
    (hwent.finished.trans hfinished)
  refine ⟨t2, start_of_main hmain hexit, ?_⟩
  rw [hconsole, greeting_of_seen hseen, hwent.console]
  simp only [List.append_assoc, List.nil_append]

/-- `/sbin/init` goes on in the shell. -/
theorem init_hands (hrooted : Rooted t.kernel)
    (h : ∀ s ∈ initLiterals, IsString t.kernel.user.memory (u.init.literal s) s)
    (hloads : Loads t.kernel.rootfs program.shell.path data) :
    ∃ t1 t2 frame, Settles (fun fuel => u.start layout .init fuel t) (.ok (.entered t2 frame)) ∧
      Went [] t t1 (greeting t.kernel ++ started) [.sys_write] [] ∧
      t1.kernel.user_marker_seen = true ∧ HandsTo layout t1 t2 frame data .sys_exec ∧
      t2.kernel.hello_finished = t.kernel.hello_finished := by
  obtain ⟨t1, hwrite, hseen, hwent⟩ := @mantle_write.spec layout u.init [] t _ started
    (h started (by decide))
  have hpath : IsString t1.kernel.user.memory (u.init.literal program.shell.path)
      program.shell.path := hwent.memory.isString (h _ (by decide)) nofun
  obtain ⟨t2, frame, hexec, hhands, hfinished⟩ := @mantle_exec.spec layout u.init t1 _ _ data
    (hrooted.went hwent).good hpath (by
      rw [hwent.rootfs]
      exact hloads)
  have hmain : Settles (fun fuel => u.main layout fuel t .init) (.ok (.entered t2 frame)) := by
    refine ⟨0, fun _ _ => ?_⟩
    change some (init_main layout u.init t) = _
    unfold init_main
    rw [bind_next hwrite, bind_entered hexec]
  exact ⟨t1, t2, frame, start_of_main hmain rfl, hwent, hseen, hhands,
    hfinished.trans hwent.finished⟩

end Specs

/-! ## The programs one after another -/

/-- What is printed behind the text of the session. -/
def aftermath : Option Ending → Bytes
  | none => []
  | some .exit => ascii "MANTLE_USERSPACE_EXIT\n"
  | some .hello => message ++ ascii "MANTLE_USERSPACE_EXIT\n"

/-- The programs from the shell on. -/
def programsFrom : Option Ending → List program
  | some .hello => [.shell, .hello]
  | _ => [.shell]

/-- The machine waits for a key when the session goes on, and it has halted otherwise. -/
def StopsAs : Option Ending → Comes Int → Prop
  | none, .waiting _ => True
  | some _, .halted _ => True
  | _, _ => False

variable {layout : Layout} {u : Userland} {t : Task} {k : Kernel}

/-- From the entry of the shell to the end. -/
theorem shell_goes (hrooted : Rooted t.kernel) (hfinished : t.kernel.hello_finished = true)
    (hseen : t.kernel.user_marker_seen = true) (hu : Installed layout u t.kernel.rootfs)
    (hspace : ∃ user, t.kernel.user = placedUser layout user (u.file .shell)) :
    ∃ c, Chain layout u .shell t (programsFrom (session t.kernel).ending) c ∧
      c.task.kernel.console = t.kernel.console ++
        (marker ++ ((session t.kernel).text ++ aftermath (session t.kernel).ending)) ∧
      StopsAs (session t.kernel).ending c := by
  obtain ⟨user, hspace⟩ := hspace
  have hlaid : Laid u.shell t.kernel.user := by
    rw [hspace]
    exact hu.shell.laid user
  obtain ⟨c, hmain, hconsole, -, hcwd, hends⟩ := @shell_main.spec layout u.shell t _ hrooted hfinished
    hlaid (hu.loads .hello)
  rw [greeting_of_seen hseen, List.nil_append] at hconsole hends
  unfold Session.behind Session.farewell at *
  generalize session t.kernel = s at *
  obtain ⟨line, text, ending⟩ := s
  dsimp only at *
  cases ending with
  | none =>
    obtain ⟨t1, rfl⟩ := EndsAs.waits hends
    refine ⟨.waiting t1, .stops (start_of_main hmain rfl) (fun _ _ => nofun), ?_, trivial⟩
    rw [if_neg (by decide), List.append_assoc] at hconsole
    exact hconsole
  | some ending =>
    cases ending with
    | exit =>
      obtain ⟨t1, rfl⟩ := EndsAs.halts hends
      refine ⟨.halted t1, .stops (start_of_main hmain rfl) (fun _ _ => nofun), ?_, trivial⟩
      rw [if_pos rfl, List.append_assoc] at hconsole
      exact hconsole
    | hello =>
      obtain ⟨t1, frame, t0, rfl, hhands, hroot, hfinished1⟩ := EndsAs.enters hends
      have hrooted1 : Rooted t1.kernel := by
        constructor
        · rw [hhands.rootfs, hroot]
          exact hrooted.root
        · exact hcwd.trans hrooted.cwd
      have hmessage : IsString t1.kernel.user.memory (u.hello.literal message) message := by
        rw [hhands.space]
        exact hu.hello.isString layout _
      obtain ⟨t2, hstart, hconsole2⟩ := @hello_halts layout u t1 hrooted1 hfinished1 hmessage
      refine ⟨.halted t2, .enters (start_of_main hmain rfl) hhands.entered
        (.stops hstart (fun _ _ => nofun)), ?_, trivial⟩
      change t1.kernel.console = _ at hconsole
      change t2.kernel.console = _
      rw [hconsole2, greeting_of_seen hhands.seen, hconsole, if_neg (by decide)]
      simp only [List.append_assoc, List.nil_append]
      rfl

/-- From the first program on, whatever has been typed: the programs run in their order, the console
shows a text that the keys give, and in the end the machine waits for a key or has halted. -/
theorem userland_follows_the_keys (h : Reachable layout k) (hfirst : k.hello_finished = false)
    (hmessage : IsString k.user.memory (u.hello.literal message) message)
    (hu : Installed layout u k.rootfs) :
    ∃ c, Chain layout u .hello (begun k)
        (.hello :: .init :: programsFrom (session k).ending) c ∧
      c.task.kernel.console = k.console ++ (greeting k ++ (message ++ (started ++
        (marker ++ ((session k).text ++ aftermath (session k).ending))))) ∧
      StopsAs (session k).ending c := by
  have hrooted := reachable_rooted h
  obtain ⟨t1, t2, frame2, hstart, hwent, hseen1, hhands, hfinished2⟩ := @hello_hands layout u (begun k)
    _ hrooted hfirst hmessage (hu.loads .init)
  have hrooted2 : Rooted t2.kernel := (Rooted.went hrooted hwent).handed hhands
  have hrootfs2 : t2.kernel.rootfs = k.rootfs := hhands.rootfs.trans hwent.rootfs
  have hstrings : ∀ s ∈ initLiterals, IsString t2.kernel.user.memory (u.init.literal s) s := by
    rw [hhands.space]
    exact fun s hs => (hu.init s hs).isString layout _
  obtain ⟨t3, t4, frame4, hstart2, hwent2, hseen3, hhands2, hfinished4⟩ := @init_hands layout u t2 _
    hrooted2 hstrings (by
      rw [hrootfs2]
      exact hu.loads .shell)
  have hrootfs4 : t4.kernel.rootfs = k.rootfs :=
    (hhands2.rootfs.trans hwent2.rootfs).trans hrootfs2
  have hsession : session t4.kernel = session k := by
    have hkeys1 : k.keyboard = t1.kernel.keyboard := hwent.keys
    have hkeys3 : t2.kernel.keyboard = t3.kernel.keyboard := hwent2.keys
    unfold session
    rw [hrootfs4, hhands2.keys, ← hkeys3, hhands.keys, ← hkeys1]
  obtain ⟨c, hchain, hconsole, hstops⟩ := @shell_goes layout u t4
    ((hrooted2.went hwent2).handed hhands2) (hfinished4.trans hfinished2) hhands2.seen (by
      rw [hrootfs4]
      exact hu) ⟨_, hhands2.space⟩
  rw [hsession] at hchain hconsole hstops
  refine ⟨c, .enters hstart hhands.entered (.enters hstart2 hhands2.entered hchain), ?_, hstops⟩
  rw [hconsole, hhands2.console, greeting_of_seen hseen3, hwent2.console, greeting_of_seen hhands.seen,
    hhands.console, greeting_of_seen hseen1, hwent.console]
  simp only [List.append_assoc, List.nil_append]
  rfl

/-- Three files, and what is known of them. -/
def userland : Userland where
  file
    | .hello => programFile [message]
    | .init => programFile initLiterals
    | .shell => shellFile
  hello := (placementOf [message]).toPlacement
  init := (placementOf initLiterals).toPlacement
  shell := shellPlacement

def userlandImage : Blob :=
  { content := (build_rootfs ([.hello, .init, .shell].map
      (fun name => ⟨program.path name, userland.file name⟩))).toOption.getD []
    size_lt := by decide +kernel }

/-- The keys of `/bin/hello`, Enter. -/
def helloKeys : List UInt8 := [0x35, 0x30, 0x17, 0x31, 0x35, 0x23, 0x12, 0x26, 0x26, 0x18, 0x1c]

def userlandKernel : Kernel :=
  bootedKernel someLayout userlandImage (userland.file .hello) [] helloKeys

theorem userlandKernel_reachable : Reachable someLayout userlandKernel :=
  booted_reachable helloKeys (by decide +kernel) (by decide +kernel) (by decide +kernel)
    (by decide +kernel) ⟨⟨PT_LOAD, 5, 176, 0x400000, 2, 2, 0⟩, by decide +kernel, by decide +kernel⟩
    (by decide +kernel)

theorem userland_installed : Installed someLayout userland userlandKernel.rootfs where
  loads name := by
    cases name with
    | hello => exact ⟨by decide +kernel, by decide +kernel, by decide +kernel⟩
    | init => exact ⟨by decide +kernel, by decide +kernel, by decide +kernel⟩
    | shell => exact ⟨by decide +kernel, by decide +kernel, by decide +kernel⟩
  hello := by decide +kernel
  init := by decide +kernel
  shell := shellFile_linked

theorem hello_runs_first_and_last :
    programsFrom (session userlandKernel).ending = [.shell, .hello] ∧
      ∃ c, Chain someLayout userland .hello (begun userlandKernel)
          (.hello :: .init :: programsFrom (session userlandKernel).ending) c ∧
        c.task.kernel.console = userlandKernel.console ++ (greeting userlandKernel ++
          (message ++ (started ++ (marker ++ ((session userlandKernel).text ++
            aftermath (session userlandKernel).ending))))) ∧
        StopsAs (session userlandKernel).ending c :=
  ⟨by decide +kernel, userland_follows_the_keys userlandKernel_reachable rfl
    (isString_of_userString (by decide +kernel)) userland_installed⟩

end mantle.user
