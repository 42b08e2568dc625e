-- The shell on a machine that has come to it: what its console shows, how it
-- ends and which calls it makes, whatever has been typed. Then such a machine.
import MantleOS.ExecLaws
import MantleOS.UserShellLaws

open checked bytes regions

namespace mantle.user

open rootfs elf syscall

/-! ## The runs of the shell -/

section Runs

variable {layout : Layout} {p : ShellPlacement} {k : Kernel}

/-- The session of the keys that the keyboard holds. -/
def session (k : Kernel) : Session := Session.start.after (listed k.rootfs) k.keyboard

/-- A program that begins. -/
def begun (k : Kernel) : Task := { kernel := k, calls := [] }

/-- What each kernel that runs programs has: a mounted image, and the root as its directory. -/
structure Rooted (k : Kernel) : Prop where
  root : ∃ blob, Accepts blob.content ∧ k.rootfs = mountedState blob
  cwd : k.process.cwd = rootDirectory

theorem reachable_rooted (h : Reachable layout k) : Rooted k := by
  obtain ⟨blob, data, ha, hroot, -⟩ := reachable_mounted h
  exact ⟨⟨blob, ha, hroot⟩, reachable_cwd h⟩

theorem Rooted.good (h : Rooted k) : Good k.rootfs := by
  obtain ⟨blob, ha, hroot⟩ := h.root
  exact Or.inr ⟨blob, ha, hroot⟩

theorem shell_main.spec {t : Task} {data : Bytes} (hrooted : Rooted t.kernel)
    (hfinished : t.kernel.hello_finished = true) (hlaid : Laid p t.kernel.user)
    (hloads : Loads t.kernel.rootfs (ascii "/bin/hello") data) :
    ∃ c, Settles (fun fuel => shell_main layout p fuel t) (.ok c) ∧
      Answers layout data t ((session t.kernel).behind (greeting t.kernel ++ marker)) c := by
  obtain ⟨t1, hwrite, hseen, hwent⟩ := @mantle_write.spec layout p.toPlacement p.buffers t _ marker
    (hlaid.standing marker (by decide))
  have hready : Ready p t1 := by
    constructor
    · exact hlaid.kept hwent.memory hwent.pages
    · rw [hwent.rootfs]
      exact hrooted.root
    · rw [hwent.process]
      exact hrooted.cwd
    · exact hwent.finished.trans hfinished
    · exact hseen
  obtain ⟨c, hloop, hanswers⟩ := @shell_loop layout p data t1 hready (by
    rw [hwent.rootfs]
    exact hloads)
  have hkeys : t1.kernel.keyboard = t.kernel.keyboard := hwent.keys.symm
  rw [hkeys, hwent.rootfs] at hanswers
  refine ⟨c, ?_, hanswers.behind hwent (by decide)⟩
  obtain ⟨turns, hturns⟩ := hloop
  refine ⟨turns, fun fuel hfuel => ?_⟩
  unfold shell_main followedBy
  rw [hwrite]
  exact hturns fuel hfuel

/-- Whatever has been typed, the console shows the text of its session, and the machine waits, halts
or goes on in `/bin/hello` as the session says. -/
theorem the_console_follows_the_keys (h : Reachable layout k) (hfinished : k.hello_finished = true)
    (hlaid : Laid p k.user) :
    ∃ data c, fileAt k.rootfs (ascii "/bin/hello") = some data ∧
      Settles (fun fuel => shell_main layout p fuel (begun k)) (.ok c) ∧
      c.task.kernel.console = k.console ++
        (greeting k ++ (marker ++ ((session k).text ++ (session k).farewell))) ∧
      EndsAs layout data (begun k) (session k).ending c := by
  obtain ⟨-, data, -, -, hloads⟩ := reachable_mounted h
  obtain ⟨c, hruns, hanswers⟩ := @shell_main.spec layout p (begun k) data (reachable_rooted h)
    hfinished hlaid hloads
  refine ⟨data, c, hloads.file, hruns, ?_, hanswers.ends⟩
  have hconsole := hanswers.console
  unfold Session.behind at hconsole
  rw [hconsole]
  simp only [List.append_assoc]
  rfl

/-- Nothing that can be typed takes the shell out of its seven calls, or out of the root directory. -/
theorem the_shell_stays_where_it_is (h : Reachable layout k) (hfinished : k.hello_finished = true)
    (hlaid : Laid p k.user) :
    ∃ c, Settles (fun fuel => shell_main layout p fuel (begun k)) (.ok c) ∧
      (∀ service ∈ c.task.calls, service ∈ shellCalls) ∧
      c.task.kernel.process.cwd = rootDirectory := by
  obtain ⟨-, data, -, -, hloads⟩ := reachable_mounted h
  obtain ⟨c, hruns, hanswers⟩ := @shell_main.spec layout p (begun k) data (reachable_rooted h)
    hfinished hlaid hloads
  obtain ⟨calls, hcalls, hin⟩ := hanswers.calls
  refine ⟨c, hruns, ?_, ?_⟩
  · intro service hservice
    rw [hcalls] at hservice
    exact hin service hservice
  · rw [hanswers.cwd]
    exact reachable_cwd h

end Runs

/-! ## What the linker makes of a program -/

/-- The string and its NUL stand at the address in the memory that the loader makes of the file. -/
def Carries (data : Bytes) (address : Nat) (s : Bytes) : Prop :=
  USER_BASE ≤ address ∧ address + s.length < USER_LIMIT ∧ s.length < MAX_PATH ∧ 0 ∉ s ∧
    (List.range (s.length + 1)).map (fun i => lastByte data (address - USER_BASE + i)) = s ++ [0]

instance (data : Bytes) (address : Nat) (s : Bytes) : Decidable (Carries data address s) :=
  inferInstanceAs (Decidable (_ ∧ _))

theorem Carries.isString {data s : Bytes} {address : Nat} (h : Carries data address s)
    (layout : Layout) (user : UserSpace) :
    IsString (placedUser layout user data).memory address s := by
  obtain ⟨hbase, hlimit, hshort, hnul, hbytes⟩ := h
  refine ⟨hshort, ⟨hbase, by omega⟩, hlimit, ?_, hnul⟩
  rw [← hbytes]
  apply List.map_congr_left
  intro i hi
  rw [List.mem_range] at hi
  have hindex : address + i - USER_BASE = address - USER_BASE + i := by omega
  unfold Window.byte
  rw [hindex, placedUser_cells]
  unfold USER_BASE USER_LIMIT userSize at *
  omega

/-- A file of the shell: its literals, and arrays apart from them on pages that it may write. -/
structure ShellLinked (layout : Layout) (p : ShellPlacement) (data : Bytes) : Prop where
  literals : ∀ s ∈ shellLiterals, Carries data (p.literal s) s
  apart : ∀ s ∈ shellLiterals, ∀ b ∈ p.buffers, Region.Apart ⟨p.literal s, s.length + 1⟩ b
  inWindow : ∀ b ∈ p.buffers, user_range b.start b.size = true
  writable : ∀ i < 128, paging.writable (lastPage layout data (pageOf (p.line + i))) = true

theorem ShellLinked.laid {layout : Layout} {p : ShellPlacement} {data : Bytes}
    (h : ShellLinked layout p data) (user : UserSpace) : Laid p (placedUser layout user data) := by
  refine ⟨fun s hs => (h.literals s hs).isString layout user, h.apart, h.inWindow, ?_⟩
  intro i hi
  obtain ⟨hbase, hend⟩ := user_range_iff.mp (h.inWindow ⟨p.line, 128⟩ List.mem_cons_self)
  dsimp only at hbase hend
  have hin : InWindow (p.line + i) := by
    unfold InWindow USER_BASE USER_LIMIT
    omega
  rw [placedUser_pages layout user data _ (pageOf_lt hin)]
  exact h.writable i hi

/-! ## A machine that has come to the shell -/

/-- Strings one after another, each with its NUL. -/
def literalBytes (literals : List Bytes) : Bytes := literals.flatMap (· ++ [0])

/-- Code, and the literals in the page after it. -/
def programFile (literals : List Bytes) : Bytes :=
  elfFile 0x400000
    [⟨PT_LOAD, 5, 176, 0x400000, 2, 2, 0⟩,
      ⟨PT_LOAD, 4, 178, 0x401000, (literalBytes literals).length, (literalBytes literals).length, 0⟩]
    ([0xeb, 0xfe] ++ literalBytes literals)

def placementOf (literals : List Bytes) : ShellPlacement where
  literal s := 0x401000 + (literalBytes (literals.takeWhile (· ≠ s))).length
  regs := frameOf 0 0 0 0
  line := 0x5ff000
  cwd := 0x5ff080
  entries := 0x5ff0c0
  name := 0x5ff140

/-- A program that leaves the page of its stack alone is started. -/
theorem booted_reachable {image : Blob} {data : Bytes} (keys : List UInt8)
    (ha : Accepts image.content)
    (hfile : fileAt (mountedState image) (ascii "/bin/hello") = some data)
    (hheader : HeaderAccepted data) (hsegments : SegmentsAccepted data)
    (hentry : EntryPageExecutable data) (hstack : lastMeeting (segments data) 511 = none) :
    Reachable someLayout (bootedKernel someLayout image data [] keys) := by
  have hwritable : StackPageWritable data := by
    intro program hprogram
    rw [hstack] at hprogram
    cases hprogram
  exact .boot (start_user.starts someLayout image [] keys ha hfile hheader hsegments hentry hwritable)

def shellFile : Bytes := programFile shellLiterals
def shellPlacement : ShellPlacement := placementOf shellLiterals

theorem shellFile_linked : ShellLinked someLayout shellPlacement shellFile :=
  ⟨by decide +kernel, by decide +kernel, by decide, by decide +kernel⟩

def shellImage : Blob :=
  { content := (build_rootfs [⟨ascii "/bin/hello", shellFile⟩,
      ⟨ascii "/sbin/init", shellFile⟩]).toOption.getD []
    size_lt := by decide +kernel }

/-- The keys of `ls`, Enter, `exit`, Enter. -/
def lsExitKeys : List UInt8 := [0x26, 0x1f, 0x1c, 0x12, 0x2d, 0x17, 0x14, 0x1c]

/-- The machine before the exit of `/bin/hello`, when the keys have been pressed. -/
def exitingKernel : Kernel := bootedKernel someLayout shellImage shellFile [] lsExitKeys

theorem exitingKernel_reachable : Reachable someLayout exitingKernel :=
  booted_reachable lsExitKeys (by decide +kernel) (by decide +kernel) (by decide +kernel)
    (by decide +kernel) ⟨⟨PT_LOAD, 5, 176, 0x400000, 2, 2, 0⟩, by decide +kernel, by decide +kernel⟩
    (by decide +kernel)

/-- The machine when `/bin/hello` has exited. -/
def shellKernel : Kernel :=
  { note_user exitingKernel with
    user := placedUser someLayout exitingKernel.user shellFile
    hello_finished := true
    process := { (note_user exitingKernel).process with
      state := .ready, exit_code := syscall.int32 0 } }

theorem shellKernel_reachable : Reachable someLayout shellKernel := by
  have hloads : Loads exitingKernel.rootfs (ascii "/sbin/init") shellFile :=
    ⟨by decide +kernel, by decide +kernel, by decide +kernel⟩
  have hfile : initFile exitingKernel = some shellFile := by decide +kernel
  have hs : (frameOf 11 0 0 0).service = .sys_exit := by decide
  have hcall : mantle_syscall_dispatch someLayout exitingKernel (frameOf 11 0 0 0) =
      .ok (exitM someLayout (note_user exitingKernel) (frameOf 11 0 0 0)) := by
    unfold mantle_syscall_dispatch
    simp only [hs]
    exact sys_exit.eq someLayout _ _ (note_user_sound exitingKernel_reachable.sound).rootfs
  rw [← note_user_initFile] at hfile
  rw [exitM_hands hfile (hloads.loadM_eq _)] at hcall
  exact exitingKernel_reachable.call hcall

theorem ls_and_exit_are_carried_out :
    session shellKernel =
        { line := [], text := prompt ++ (ascii "bin sbin\n" ++ prompt), ending := some .exit } ∧
      ∃ data c, fileAt shellKernel.rootfs (ascii "/bin/hello") = some data ∧
        Settles (fun fuel => shell_main someLayout shellPlacement fuel (begun shellKernel)) (.ok c) ∧
        c.task.kernel.console = shellKernel.console ++ (greeting shellKernel ++
          (marker ++ ((session shellKernel).text ++ (session shellKernel).farewell))) ∧
        EndsAs someLayout data (begun shellKernel) (session shellKernel).ending c :=
  ⟨by decide +kernel, the_console_follows_the_keys shellKernel_reachable rfl (shellFile_linked.laid _)⟩

theorem ls_and_exit_stay_in_the_root :
    ∃ c, Settles (fun fuel => shell_main someLayout shellPlacement fuel (begun shellKernel)) (.ok c) ∧
      (∀ service ∈ c.task.calls, service ∈ shellCalls) ∧
      c.task.kernel.process.cwd = rootDirectory :=
  the_shell_stays_where_it_is shellKernel_reachable rfl (shellFile_linked.laid _)

end mantle.user
