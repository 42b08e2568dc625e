-- The laws of the dispatcher over whole runs: what holds between any two
-- calls, that no call leaves its bounds, and which bytes of user memory a
-- call may change.
import MantleOS.RootfsBuild
import MantleOS.SyscallSpecs

open checked bytes

namespace mantle.syscall

open rootfs elf

/-! ## The invariant -/

/-- What holds between any two calls. -/
structure Sound (layout : Layout) (k : Kernel) : Prop where
  rootfs : Good k.rootfs
  pages : PagesMapped layout k.user.pages
  cwd : CwdSound k.process

/-- The buffer that the registers name: its address and its size. -/
def mantle_syscall_frame.buffer (frame : mantle_syscall_frame) : Nat × Nat :=
  match frame.service with
  | .sys_read | .sys_readdir => (frame.rsi.toNat, frame.rdx.toNat)
  | .sys_getcwd | .sys_uname => (frame.rdi.toNat, frame.rsi.toNat)
  | _ => (0, 0)

/-- The call goes to the loader. -/
def LoadsImage (k : Kernel) (frame : mantle_syscall_frame) : Prop :=
  frame.service = .sys_exec ∨ frame.service = .sys_exit ∧ k.hello_finished = false

instance (k : Kernel) (frame : mantle_syscall_frame) : Decidable (LoadsImage k frame) :=
  inferInstanceAs (Decidable (_ ∨ _))

/-- Every byte of user memory outside the caller's buffer and every entry of the page table
is as it was. -/
structure KeepsUser (k k' : Kernel) (frame : mantle_syscall_frame) : Prop where
  memory : k.user.memory.SameOutside k'.user.memory frame.buffer.1 frame.buffer.2
  pages : k'.user.pages = k.user.pages

theorem KeepsUser.of_eq {k k' : Kernel} (frame : mantle_syscall_frame) (h : k'.user = k.user) :
    KeepsUser k k' frame := by
  constructor
  · rw [h]
    exact Window.SameOutside.refl _ _ _
  · rw [h]

/-- What the dispatcher keeps. -/
structure Keeps (layout : Layout) (k : Kernel) (frame : mantle_syscall_frame) (k' : Kernel) :
    Prop where
  sound : Sound layout k'
  user : ¬ LoadsImage k frame → KeepsUser k k' frame

variable {layout : Layout} {k : Kernel} {frame : mantle_syscall_frame}

theorem Keeps.refl (h : Sound layout k) : Keeps layout k frame k :=
  ⟨h, fun _ => .of_eq frame rfl⟩

/-- A change of the console keeps everything. -/
theorem Keeps.console (h : Sound layout k) (console : Bytes) :
    Keeps layout k frame { k with console } :=
  ⟨⟨h.rootfs, h.pages, h.cwd⟩, fun _ => .of_eq frame rfl⟩

/-- A change of the descriptors keeps everything. -/
theorem Keeps.descriptors (h : Sound layout k) (descriptors : Nat → file_descriptor) :
    Keeps layout k frame { k with descriptors } :=
  ⟨⟨h.rootfs, h.pages, h.cwd⟩, fun _ => .of_eq frame rfl⟩

/-- A change of the caller's buffer and of the keyboard keeps everything. -/
theorem Keeps.buffer (h : Sound layout k) (memory : Window USER_BASE userSize)
    (keyboard : List UInt8)
    (hm : k.user.memory.SameOutside memory frame.buffer.1 frame.buffer.2) :
    Keeps layout k frame { k.withMemory memory with keyboard } :=
  ⟨⟨h.rootfs, h.pages, h.cwd⟩, fun _ => ⟨hm, rfl⟩⟩

/-- A load, whether it fails or not, leaves the kernel sound. -/
theorem Sound.load (h : Sound layout k) (data : Bytes) :
    Sound layout { k with user := (loadM layout k.user data).1 } := by
  refine ⟨h.rootfs, ?_, h.cwd⟩
  have := (mantle_elf_load.mapped layout k.user (some data) h.pages).of_eq_ok
    (mantle_elf_load.spec layout k.user data)
  exact this

theorem Sound.exec (h : Sound layout k) (address : Nat) :
    Sound layout (execM layout k frame address).1 := by
  unfold execM
  cases (userString k.user.memory address).bind (fileAt k.rootfs) with
  | none => exact h
  | some data =>
    have hload := h.load data
    simp only
    rcases hl : loadM layout k.user data with ⟨user, _ | image⟩ <;> rw [hl] at hload <;>
      exact hload

/-- The parts of the kernel that a marker changes. -/
theorem note_user_eq (k : Kernel) : ∃ user_marker_seen syscall_origin_user console,
    note_user k = { k with user_marker_seen, syscall_origin_user, console } := by
  unfold note_user
  split
  · exact ⟨_, _, _, rfl⟩
  · exact ⟨k.user_marker_seen, k.syscall_origin_user, k.console, rfl⟩

theorem note_user_sound (h : Sound layout k) : Sound layout (note_user k) := by
  obtain ⟨seen, origin, console, hk⟩ := note_user_eq k
  rw [hk]
  exact ⟨h.rootfs, h.pages, h.cwd⟩

/-- The end of a process changes nothing that the invariant is about. -/
theorem Sound.ended (h : Sound layout k) (state : mantle_process_state) (exit_code : Int)
    (hello_finished : Bool) (console : Bytes) :
    Sound layout { k with process := { k.process with state, exit_code }, hello_finished, console } :=
  ⟨h.rootfs, h.pages, ⟨h.cwd.length, h.cwd.nul⟩⟩

/-! ## The services that neither load a program nor halt -/

/-- The result of a service as the switch has it before its end: `none` waits for a key that
never comes. The cases of SYS_EXEC, SYS_EXIT and SYS_REBOOT are not here. -/
def serviceResult (k : Kernel) (frame : mantle_syscall_frame) : Checked (Kernel × Option Int) :=
  let rdi := frame.rdi.toNat
  let rsi := frame.rsi.toNat
  let rdx := frame.rdx.toNat
  let gives := fun (r : Kernel × Int) => (r.1, some r.2)
  match frame.service with
  | .sys_read => syscall_read k rdi rsi rdx
  | .sys_write => gives <$> syscall_write k rdi rsi rdx
  | .sys_open => gives <$> syscall_open k rdi
  | .sys_close => gives <$> sys_close k rdi
  | .sys_getpid => .ok (k, some (int32 k.process.pid))
  | .sys_chdir => gives <$> sys_chdir k rdi
  | .sys_getcwd => gives <$> sys_getcwd k rdi rsi
  | .sys_readdir => gives <$> sys_readdir k rdi rsi rdx
  | .sys_uname => gives <$> sys_uname k rdi rsi
  | _ => .ok (k, some (-1))

/-- The service is one of `serviceResult`. -/
def Plain (s : Service) : Prop := s ≠ .sys_exec ∧ s ≠ .sys_exit ∧ s ≠ .sys_reboot

instance (s : Service) : Decidable (Plain s) := inferInstanceAs (Decidable (_ ∧ _ ∧ _))

theorem answer_neg_one (frame : mantle_syscall_frame) : (frame.answer (-1)).rax = -1 := rfl

/-- The end of the switch. -/
def ended (frame : mantle_syscall_frame) (r : Kernel × Option Int) : Outcome :=
  match r.2 with
  | some result => answered frame (r.1, result)
  | none => .waiting r.1

theorem ended_kernel (frame : mantle_syscall_frame) (r : Kernel × Option Int) :
    (ended frame r).kernel = r.1 := by
  obtain ⟨k, _ | result⟩ := r <;> rfl

theorem map_map_ended (frame : mantle_syscall_frame) (x : Checked (Kernel × Int)) :
    answered frame <$> x = ended frame <$> ((fun r => (r.1, some r.2)) <$> x) := by
  cases x <;> rfl

/-- A plain service ends as its result says. -/
theorem dispatch_of_plain (layout : Layout) (k : Kernel) {frame : mantle_syscall_frame}
    (h : Plain frame.service) :
    mantle_syscall_dispatch layout k frame = ended frame <$> serviceResult (note_user k) frame := by
  unfold mantle_syscall_dispatch serviceResult
  cases hs : frame.service with
  | sys_read =>
    simp only
    cases syscall_read (note_user k) frame.rdi.toNat frame.rsi.toNat frame.rdx.toNat with
    | error e => rfl
    | ok r => obtain ⟨k', _ | result⟩ := r <;> rfl
  | sys_exec => exact absurd hs h.1
  | sys_exit => exact absurd hs h.2.1
  | sys_reboot => exact absurd hs h.2.2
  | sys_write => exact map_map_ended frame _
  | sys_open => exact map_map_ended frame _
  | sys_close => exact map_map_ended frame _
  | sys_getpid => rfl
  | sys_chdir => exact map_map_ended frame _
  | sys_getcwd => exact map_map_ended frame _
  | sys_readdir => exact map_map_ended frame _
  | sys_uname => exact map_map_ended frame _
  | none => rfl

/-- What a call leaves besides what `Keeps` says: the pid, the mounted image, and the
descriptor table unless the call is an open or a close. -/
structure KeepsRest (k : Kernel) (frame : mantle_syscall_frame) (k' : Kernel) : Prop where
  pid : k'.process.pid = k.process.pid
  rootfs : k'.rootfs = k.rootfs
  descriptors : frame.service ≠ .sys_open → frame.service ≠ .sys_close →
    k'.descriptors = k.descriptors

theorem KeepsRest.refl (k : Kernel) (frame : mantle_syscall_frame) : KeepsRest k frame k :=
  ⟨rfl, rfl, fun _ _ => rfl⟩

/-- What a plain service leaves. The listing of a directory may fail after its first writes. -/
structure Leaves (layout : Layout) (k : Kernel) (frame : mantle_syscall_frame)
    (r : Kernel × Option Int) : Prop where
  keeps : Keeps layout k frame r.1
  rest : KeepsRest k frame r.1
  result : frame.service ≠ .sys_readdir → k.process.pid < 2 ^ 31 →
    ∀ result, r.2 = some result → RefusesOrGives k r.1 result

/-- What a service without a wait leaves. -/
theorem Leaves.gives {x : Checked (Kernel × Int)} (h : Yields x (fun r =>
      Keeps layout k frame r.1 ∧ KeepsRest k frame r.1 ∧
        (frame.service ≠ .sys_readdir → RefusesOrGives k r.1 r.2))) :
    Yields ((fun r => (r.1, some r.2)) <$> x) (Leaves layout k frame) := by
  obtain ⟨r, rfl, hk, hrest, hr⟩ := h
  refine ⟨_, rfl, hk, hrest, fun hs _ => ?_⟩
  rintro result ⟨⟩
  exact hr hs

/-- The plain services, on a kernel that holds the invariant, never fault. -/
theorem serviceResult.leaves (h : Sound layout k) (frame : mantle_syscall_frame) :
    Yields (serviceResult k frame) (Leaves layout k frame) := by
  have hidle : Leaves layout k frame (k, some (-1)) := by
    refine ⟨Keeps.refl h, .refl k frame, fun _ _ => ?_⟩
    rintro result ⟨⟩
    exact .refuses k
  unfold serviceResult
  cases hs : frame.service with
  | sys_read =>
    apply (syscall_read.spec k _ _ _).mono
    rintro ⟨k', result⟩ ⟨⟨memory, keyboard, hk, hm⟩, hresult⟩
    refine ⟨?_, ?_, fun _ _ => hresult⟩
    · rw [show k' = _ from hk]
      apply Keeps.buffer h memory keyboard
      simpa only [mantle_syscall_frame.buffer, hs] using hm
    · rw [show k' = _ from hk]
      exact ⟨rfl, rfl, fun _ _ => rfl⟩
  | sys_write =>
    apply Leaves.gives
    apply (syscall_write.spec k _ _ _).mono
    rintro r ⟨⟨console, hr⟩, hresult⟩
    refine ⟨?_, ?_, fun _ => hresult⟩
    · rw [hr]
      exact Keeps.console h console
    · rw [hr]
      exact ⟨rfl, rfl, fun _ _ => rfl⟩
  | sys_open =>
    apply Leaves.gives
    rw [syscall_open.spec k _ h.rootfs, yields_ok, openM]
    obtain ⟨⟨descriptors, hr⟩, hresult⟩ :=
      bindFile_cases k (namedFile k frame.rdi.toNat) 3 5 (by decide)
    refine ⟨?_, ?_, fun _ => hresult⟩
    · rw [hr]
      exact Keeps.descriptors h descriptors
    · rw [hr]
      exact ⟨rfl, rfl, fun hno => absurd hs hno⟩
  | sys_close =>
    apply Leaves.gives
    rw [sys_close.spec k _, yields_ok]
    obtain ⟨⟨descriptors, hr⟩, hresult⟩ := closeM_cases k frame.rdi.toNat
    refine ⟨?_, ?_, fun _ => hresult⟩
    · rw [hr]
      exact Keeps.descriptors h descriptors
    · rw [hr]
      exact ⟨rfl, rfl, fun _ hno => absurd hs hno⟩
  | sys_getpid =>
    refine ⟨_, rfl, Keeps.refl h, .refl k frame, fun _ hpid => ?_⟩
    rintro result ⟨⟩
    exact .gives k k hpid
  | sys_chdir =>
    apply Leaves.gives
    apply (sys_chdir.spec k _ h.cwd).mono
    rintro r ⟨⟨cwd, hr, hlen, hnul⟩, hresult⟩
    refine ⟨?_, ?_, fun _ => hresult⟩
    · rw [hr]
      exact ⟨⟨h.rootfs, h.pages, ⟨hlen, hnul⟩⟩, fun _ => .of_eq frame rfl⟩
    · rw [hr]
      exact ⟨rfl, rfl, fun _ _ => rfl⟩
  | sys_getcwd =>
    apply Leaves.gives
    apply (sys_getcwd.spec k _ _ h.cwd).mono
    rintro r ⟨⟨memory, hr, hm⟩, hresult⟩
    refine ⟨?_, ?_, fun _ => hresult⟩
    · rw [hr]
      apply Keeps.buffer h memory k.keyboard
      simpa only [mantle_syscall_frame.buffer, hs] using hm
    · rw [hr]
      exact ⟨rfl, rfl, fun _ _ => rfl⟩
  | sys_readdir =>
    apply Leaves.gives
    apply (sys_readdir.spec k _ _ _ h.rootfs).mono
    rintro r ⟨memory, hr, hm⟩
    refine ⟨?_, ?_, fun hno => absurd hs hno⟩
    · rw [hr]
      apply Keeps.buffer h memory k.keyboard
      simpa only [mantle_syscall_frame.buffer, hs] using hm
    · rw [hr]
      exact ⟨rfl, rfl, fun _ _ => rfl⟩
  | sys_uname =>
    apply Leaves.gives
    apply (sys_uname.spec k _ _).mono
    rintro r ⟨⟨memory, hr, hm⟩, hresult⟩
    refine ⟨?_, ?_, fun _ => hresult⟩
    · rw [hr]
      apply Keeps.buffer h memory k.keyboard
      simpa only [mantle_syscall_frame.buffer, hs] using hm
    · rw [hr]
      exact ⟨rfl, rfl, fun _ _ => rfl⟩
  | sys_exec => exact ⟨_, rfl, hidle⟩
  | sys_exit => exact ⟨_, rfl, hidle⟩
  | sys_reboot => exact ⟨_, rfl, hidle⟩
  | none => exact ⟨_, rfl, hidle⟩

/-! ## The switch -/

theorem execM_rest (layout : Layout) (k : Kernel) (frame : mantle_syscall_frame) (address : Nat) :
    KeepsRest k frame (execM layout k frame address).1 := by
  unfold execM
  cases (userString k.user.memory address).bind (fileAt k.rootfs) with
  | none => exact .refl k frame
  | some data =>
    simp only
    rcases loadM layout k.user data with ⟨user, _ | image⟩ <;> exact ⟨rfl, rfl, fun _ _ => rfl⟩

/-- The exit keeps the kernel sound, and touches user memory only through the loader. -/
theorem sys_exit.spec (h : Sound layout k) (hs : frame.service = .sys_exit) :
    Keeps layout k frame (exitM layout k frame).kernel ∧
      KeepsRest k frame (exitM layout k frame).kernel := by
  unfold exitM
  cases hi : initFile k with
  | none => exact ⟨⟨h.ended .exited _ _ _, fun _ => .of_eq frame rfl⟩, rfl, rfl, fun _ _ => rfl⟩
  | some data =>
    have hf : k.hello_finished = false := by
      unfold initFile at hi
      cases hk : k.hello_finished with
      | true => simp [hk] at hi
      | false => rfl
    have hloads : LoadsImage k frame := Or.inr ⟨hs, hf⟩
    have hload := h.load data
    simp only
    rcases hl : loadM layout k.user data with ⟨user, _ | image⟩
    · rw [hl] at hload
      exact ⟨⟨hload.ended .exited _ _ _, fun hn => absurd hloads hn⟩, rfl, rfl, fun _ _ => rfl⟩
    · rw [hl] at hload
      exact ⟨⟨hload.ended .ready _ true k.console, fun hn => absurd hloads hn⟩, rfl, rfl,
        fun _ _ => rfl⟩

/-- The switch, on a kernel that holds the invariant: it never faults, and keeps what `Keeps`
and `KeepsRest` say. -/
theorem mantle_syscall_dispatch.keeps_all (h : Sound layout k) (frame : mantle_syscall_frame) :
    Yields (mantle_syscall_dispatch layout k frame) (fun o =>
      Keeps layout (note_user k) frame o.kernel ∧ KeepsRest (note_user k) frame o.kernel) := by
  have hn := note_user_sound h
  by_cases hplain : Plain frame.service
  · obtain ⟨r, hr, hleaves⟩ := serviceResult.leaves hn frame
    rw [dispatch_of_plain layout k hplain, hr]
    refine ⟨_, rfl, ?_⟩
    simp only [ended_kernel]
    exact ⟨hleaves.keeps, hleaves.rest⟩
  unfold mantle_syscall_dispatch
  generalize note_user k = k at hn
  simp only
  cases hs : frame.service with
  | sys_exec =>
    rw [syscall_exec.spec layout k frame _ hn.rootfs, ok_bind]
    exact ⟨_, rfl, ⟨hn.exec _, fun hl => absurd (Or.inl hs) hl⟩, execM_rest layout k frame _⟩
  | sys_exit => exact ⟨_, sys_exit.eq layout k frame hn.rootfs, sys_exit.spec hn hs⟩
  | sys_reboot => exact ⟨_, rfl, Keeps.refl hn, .refl k frame⟩
  | _ => exact absurd (by rw [hs]; decide) hplain

theorem mantle_syscall_dispatch.keeps (h : Sound layout k) (frame : mantle_syscall_frame) :
    Yields (mantle_syscall_dispatch layout k frame) (fun o =>
      Keeps layout (note_user k) frame o.kernel) :=
  (mantle_syscall_dispatch.keeps_all h frame).mono fun _ h => h.1

/-! ## The first state -/

theorem process_init_eq (console : Bytes) (keyboard : List UInt8) :
    mantle_process_init (Kernel.start console keyboard).process = .ok
      { pid := 1, ppid := 0, uid := 0, gid := 0, state := .ready, exit_code := 0
        cwd := 47 :: List.replicate 63 0 } := rfl

/-- The kernel in which `start_user` looks for the first program. -/
def mountedKernel (layout : Layout) (image : Blob) (console : Bytes) (keyboard : List UInt8) :
    Kernel :=
  { Kernel.start console keyboard with
    rootfs := mountedState image
    user := { zeroUser with pages := initPages layout zeroUser.pages }
    process := { pid := 1, ppid := 0, uid := 0, gid := 0, state := .ready, exit_code := 0
                 cwd := 47 :: List.replicate 63 0 } }

theorem mountedKernel_sound (layout : Layout) (image : Blob) (console : Bytes)
    (keyboard : List UInt8) (h : Accepts image.content) :
    Sound layout (mountedKernel layout image console keyboard) := by
  have hpages := (mantle_arch_user_memory_init.spec layout zeroUser).of_eq_ok
    (mantle_arch_user_memory_init.eq layout zeroUser)
  exact ⟨Or.inr ⟨image, h, rfl⟩, hpages.2, ⟨rfl, by simp [mountedKernel]⟩⟩

/-- `start_user` goes on only with an image that mount accepts, and then it looks for
`/bin/hello` in the mounted kernel. -/
theorem start_user_eq (layout : Layout) (image : Blob) (tss_loaded : Bool) (console : Bytes)
    (keyboard : List UInt8) :
    (¬ Accepts image.content ∧
      start_user layout image tss_loaded (.start console keyboard) = .ok none) ∨
    (Accepts image.content ∧
      start_user layout image tss_loaded (.start console keyboard) = (do
        let (k, loaded) ← open_and_load layout (mountedKernel layout image console keyboard)
          (ascii "/bin/hello" ++ [0])
        match loaded with
        | none => return none
        | some init_image =>
          let (user, entered) ←
            ring3_diagnostics layout tss_loaded k.user init_image.entry init_image.stack
          if entered then return some ({ k with user }, init_image) else return none)) := by
  obtain ⟨r, hr, hcases⟩ := mantle_rootfs_mount.spec image
  unfold start_user
  rw [hr, ok_bind]
  rcases hcases with ⟨ha, rfl⟩ | ⟨hna, rfl⟩
  · refine Or.inr ⟨ha, ?_⟩
    simp only
    rw [if_neg (by decide), mantle_arch_user_memory_init.eq, ok_bind, process_init_eq, ok_bind]
    rfl
  · refine Or.inl ⟨hna, ?_⟩
    simp only
    rw [if_pos (by decide)]
    rfl

/-- The first state that user programs see: the mounted kernel with another user space, whose
pages are those of the load of `/bin/hello`. -/
theorem start_user.starts_with {layout : Layout} {image : Blob} {tss_loaded : Bool}
    {console : Bytes} {keyboard : List UInt8} {k : Kernel} {init_image : mantle_user_image}
    (h : start_user layout image tss_loaded (.start console keyboard) = .ok (some (k, init_image))) :
    Accepts image.content ∧ ∃ data user,
      k = { mountedKernel layout image console keyboard with user } ∧
      user.pages = (loadM layout (mountedKernel layout image console keyboard).user data).1.pages := by
  rcases start_user_eq layout image tss_loaded console keyboard with ⟨_, he⟩ | ⟨ha, he⟩
  · rw [he] at h
    cases h
  rw [he] at h
  have hm := mountedKernel_sound layout image console keyboard ha
  obtain ⟨⟨k1, loaded⟩, hload, h⟩ := bind_eq_ok.mp h
  rw [open_and_load.spec layout _ _ hm.rootfs (by decide)] at hload
  cases hf : fileAt (mountedKernel layout image console keyboard).rootfs
      (cstring (ascii "/bin/hello" ++ [0])) with
  | none =>
    rw [hf] at hload
    cases hload
    cases h
  | some data =>
    rw [hf] at hload
    obtain ⟨hk1, _⟩ := Prod.mk.inj (Except.ok.inj hload)
    cases loaded with
    | none => cases h
    | some image' =>
      obtain ⟨⟨user, entered⟩, hring, h⟩ := bind_eq_ok.mp h
      have hpages := ring3_diagnostics.pages hring
      cases entered with
      | false => cases h
      | true =>
        cases h
        subst hk1
        exact ⟨ha, data, user, rfl, hpages⟩

/-- The first state that user programs see is sound. -/
theorem start_user.sound {layout : Layout} {image : Blob} {tss_loaded : Bool} {console : Bytes}
    {keyboard : List UInt8} {k : Kernel} {init_image : mantle_user_image}
    (h : start_user layout image tss_loaded (.start console keyboard) = .ok (some (k, init_image))) :
    Sound layout k := by
  obtain ⟨ha, data, user, rfl, hpages⟩ := start_user.starts_with h
  have hload := (mountedKernel_sound layout image console keyboard ha).load data
  exact ⟨hload.rootfs, by rw [hpages]; exact hload.pages, hload.cwd⟩

/-- Every state of a run holds the invariant. -/
theorem Reachable.sound {layout : Layout} {k : Kernel} (h : Reachable layout k) :
    Sound layout k := by
  induction h with
  | boot h => exact start_user.sound h
  | store x _ _ _ ih => exact ⟨ih.rootfs, ih.pages, ih.cwd⟩
  | key scan _ ih => exact ⟨ih.rootfs, ih.pages, ih.cwd⟩
  | entry _ ih => exact ⟨ih.rootfs, ih.pages, ih.cwd⟩
  | call _ hcall ih => exact ((mantle_syscall_dispatch.keeps ih _).of_eq_ok hcall).sound

/-- The parts of the kernel that the marker leaves. -/
theorem note_user_rest (k : Kernel) :
    (note_user k).process = k.process ∧ (note_user k).descriptors = k.descriptors ∧
      (note_user k).rootfs = k.rootfs ∧ (note_user k).user = k.user := by
  obtain ⟨seen, origin, console, hk⟩ := note_user_eq k
  rw [hk]
  exact ⟨rfl, rfl, rfl, rfl⟩

/-- The one process keeps its pid. -/
theorem Reachable.pid {layout : Layout} {k : Kernel} (h : Reachable layout k) :
    k.process.pid = 1 := by
  induction h with
  | boot h =>
    obtain ⟨_, data, user, rfl, _⟩ := start_user.starts_with h
    rfl
  | store x _ _ _ ih => exact ih
  | key scan _ ih => exact ih
  | entry _ ih => exact ih
  | @call k k' frame frame' hk hcall ih =>
    have hrest := ((mantle_syscall_dispatch.keeps_all hk.sound frame).of_eq_ok hcall).2
    exact hrest.pid.trans ((congrArg _ (note_user_rest k).1).trans ih)

/-- The kernel that runs `/bin/hello` with these bytes. -/
def bootedKernel (layout : Layout) (image : Blob) (data console : Bytes) (keyboard : List UInt8) :
    Kernel :=
  let k := mountedKernel layout image console keyboard
  let user := placedUser layout k.user data
  { k with user := { user with memory := withSentinel user.memory } }

/-- A rootfs whose `/bin/hello` the loader and the diagnostics accept is started. -/
theorem start_user.starts (layout : Layout) (image : Blob) {data : Bytes} (console : Bytes)
    (keyboard : List UInt8) (ha : Accepts image.content)
    (hf : fileAt (mountedState image) (ascii "/bin/hello") = some data)
    (hh : HeaderAccepted data) (hs : SegmentsAccepted data) (hentry : EntryPageExecutable data)
    (hstack : StackPageWritable data) :
    start_user layout image true (.start console keyboard) =
      .ok (some (bootedKernel layout image data console keyboard,
        { entry := (headerOf data).entry, stack := USER_STACK_TOP })) := by
  rcases start_user_eq layout image true console keyboard with ⟨hna, _⟩ | ⟨_, he⟩
  · exact absurd ha hna
  have hcstr : cstring (ascii "/bin/hello" ++ [0]) = ascii "/bin/hello" := by decide
  have hload : loadM layout (mountedKernel layout image console keyboard).user data =
      (placedUser layout (mountedKernel layout image console keyboard).user data,
        some { entry := (headerOf data).entry, stack := USER_STACK_TOP }) := by
    rw [loadM, if_pos hh, if_pos hs]
  have hpaging := (paging_ok_after_load layout (mountedKernel layout image console keyboard).user
    data hh hs).mpr ⟨hentry, hstack⟩
  rw [he, open_and_load.spec layout _ _ (mountedKernel_sound layout image console keyboard ha).rootfs
    (by decide), ok_bind, hcstr]
  rw [show fileAt (mountedKernel layout image console keyboard).rootfs (ascii "/bin/hello") =
    some data from hf]
  simp only [hload]
  rw [ring3_diagnostics.decides layout _ _ (entry_inWindow hh), ok_bind, hpaging]
  rfl

/-! ## The laws -/

/-- From every reachable state, with any bytes in user memory and any registers, a call comes
to an end without a fault: every access through a pointer of the caller is in
0x400000..0x600000, every descriptor index is below 8, and every index into the working
directory is below 64. -/
theorem dispatch_never_leaves_its_bounds (layout : Layout) (k : Kernel) (h : Reachable layout k)
    (memory : Window USER_BASE userSize) (frame : mantle_syscall_frame) :
    k.process.cwd.length = 64 ∧
      ∃ outcome, mantle_syscall_dispatch layout (k.withMemory memory) frame = .ok outcome := by
  have hsound := h.sound
  have hs : Sound layout (k.withMemory memory) := ⟨hsound.rootfs, hsound.pages, hsound.cwd⟩
  obtain ⟨outcome, ho, _⟩ := mantle_syscall_dispatch.keeps hs frame
  exact ⟨hsound.cwd.length, outcome, ho⟩

/-- A program of one executable page, with the string `/bad` in the page after it. -/
def helloFile : Bytes :=
  elfFile 0x400000 [⟨PT_LOAD, 5, 176, 0x400000, 2, 2, 0⟩, ⟨PT_LOAD, 4, 178, 0x401000, 5, 5, 0⟩]
    ([0xeb, 0xfe] ++ ascii "/bad" ++ [0])

/-- A program whose one segment asks for write and execution. -/
def badFile : Bytes :=
  elfFile 0x400000 [⟨PT_LOAD, 7, 120, 0x400000, 2, 2, 0⟩] [0xeb, 0xfe]

/-- The image that the builder makes of the two programs. -/
def helloImage : Blob :=
  { content := (build_rootfs [⟨ascii "/bin/hello", helloFile⟩, ⟨ascii "/bad", badFile⟩]).toOption.getD []
    size_lt := by decide +kernel }

/-- The kernel that runs the program. -/
def helloKernel : Kernel := bootedKernel someLayout helloImage helloFile [] []

theorem helloKernel_starts :
    start_user someLayout helloImage true (.start [] []) =
      .ok (some (helloKernel, { entry := (headerOf helloFile).entry, stack := USER_STACK_TOP })) :=
  start_user.starts someLayout helloImage [] [] (by decide +kernel) (by decide +kernel)
    (by decide +kernel) (by decide +kernel)
    ⟨⟨PT_LOAD, 5, 176, 0x400000, 2, 2, 0⟩, by decide +kernel, by decide +kernel⟩
    (fun p hp => by
      rw [show lastMeeting (segments helloFile) 511 = none by decide +kernel] at hp
      cases hp)

theorem helloKernel_reachable : Reachable someLayout helloKernel := .boot helloKernel_starts

/-- A frame with a number and the first three arguments. -/
def frameOf (rax rdi rsi rdx : UInt64) : mantle_syscall_frame :=
  { rax, rip := 0x400000, rflags := 2, rsp := 0x600000, rdi, rsi, rdx, r10 := 0, r8 := 0, r9 := 0 }

/-- An open of a string without a NUL that runs past the end of the window. -/
theorem dispatch_stays_in_bounds_at_the_end_of_the_window :
    Reachable someLayout helloKernel ∧ helloKernel.process.cwd.length = 64 ∧
      ∃ outcome, mantle_syscall_dispatch someLayout (helloKernel.withMemory ⟨fun _ => 97⟩)
        (frameOf 2 0x5ffffe 0 0) = .ok outcome :=
  ⟨helloKernel_reachable, dispatch_never_leaves_its_bounds someLayout helloKernel
    helloKernel_reachable ⟨fun _ => 97⟩ (frameOf 2 0x5ffffe 0 0)⟩

/-- The page of the address is writable for the program. -/
def PageWritable (k : Kernel) (a : Nat) : Prop := paging.writable (k.user.pages (pageOf a)) = true

/-- A call that does not go to the loader changes user memory in the caller's buffer only. So
a byte that it changes is in a writable page whenever the pages of the buffer all are. -/
theorem calls_write_only_the_buffer_of_the_caller (layout : Layout) (k : Kernel)
    (h : Reachable layout k) (frame : mantle_syscall_frame) (hl : ¬ LoadsImage k frame)
    (outcome : Outcome) (ho : mantle_syscall_dispatch layout k frame = .ok outcome) (a : Nat)
    (ha : InWindow a) (hchanged : outcome.kernel.user.memory.byte a ≠ k.user.memory.byte a) :
    (frame.buffer.1 ≤ a ∧ a < frame.buffer.1 + frame.buffer.2) ∧
    ((∀ b, frame.buffer.1 ≤ b → b < frame.buffer.1 + frame.buffer.2 → PageWritable k b) →
      PageWritable k a) := by
  have hkeeps := (mantle_syscall_dispatch.keeps h.sound frame).of_eq_ok ho
  obtain ⟨seen, origin, console, hk⟩ := note_user_eq k
  rw [hk] at hkeeps
  have hmemory := (hkeeps.user hl).memory
  have hin : frame.buffer.1 ≤ a ∧ a < frame.buffer.1 + frame.buffer.2 := by
    by_contra hout
    exact hchanged (hmemory a ha.1 hout)
  exact ⟨hin, fun hpages => hpages a hin.1 hin.2⟩

/-- A byte of user memory after a call that is run to its end. -/
theorem byte_after_call {layout : Layout} {k : Kernel} {frame : mantle_syscall_frame} {a : Nat}
    {x : UInt8}
    (h : (mantle_syscall_dispatch layout k frame).toOption.map
      (fun o => o.kernel.user.memory.byte a) = some x) :
    ∃ outcome, mantle_syscall_dispatch layout k frame = .ok outcome ∧
      outcome.kernel.user.memory.byte a = x := by
  cases hd : mantle_syscall_dispatch layout k frame with
  | error e =>
    rw [hd] at h
    cases h
  | ok outcome =>
    rw [hd] at h
    exact ⟨outcome, rfl, Option.some.inj h⟩

/-- The name of the kernel, asked for at the top of the stack. -/
theorem uname_writes_only_its_buffer :
    ∃ outcome, mantle_syscall_dispatch someLayout helloKernel (frameOf 14 0x5fff00 18 0) =
        .ok outcome ∧ outcome.kernel.user.memory.byte 0x5fff00 ≠
          helloKernel.user.memory.byte 0x5fff00 ∧
      (0x5fff00 ≤ 0x5fff00 ∧ 0x5fff00 < 0x5fff00 + 18) ∧
      ((∀ b, 0x5fff00 ≤ b → b < 0x5fff00 + 18 → PageWritable helloKernel b) →
        PageWritable helloKernel 0x5fff00) := by
  obtain ⟨outcome, ho, hbyte⟩ : ∃ outcome, mantle_syscall_dispatch someLayout helloKernel
      (frameOf 14 0x5fff00 18 0) = .ok outcome ∧ outcome.kernel.user.memory.byte 0x5fff00 = 77 :=
    byte_after_call (by decide +kernel)
  have hchanged : outcome.kernel.user.memory.byte 0x5fff00 ≠
      helloKernel.user.memory.byte 0x5fff00 := by
    rw [hbyte]
    decide +kernel
  exact ⟨outcome, ho, hchanged, calls_write_only_the_buffer_of_the_caller someLayout helloKernel
    helloKernel_reachable (frameOf 14 0x5fff00 18 0) (by decide) outcome ho 0x5fff00
    (by decide) hchanged⟩

/-- The same call with the program's own code as the buffer: the kernel writes a page that is
executable and not writable. -/
theorem uname_writes_an_executable_page :
    Reachable someLayout helloKernel ∧ ¬ LoadsImage helloKernel (frameOf 14 0x400000 18 0) ∧
    (∃ outcome, mantle_syscall_dispatch someLayout helloKernel (frameOf 14 0x400000 18 0) =
        .ok outcome ∧ outcome.kernel.user.memory.byte 0x400000 ≠
          helloKernel.user.memory.byte 0x400000) ∧
    ¬ PageWritable helloKernel 0x400000 ∧
    paging.noExecute (helloKernel.user.pages (pageOf 0x400000)) = false := by
  obtain ⟨outcome, ho, hbyte⟩ : ∃ outcome, mantle_syscall_dispatch someLayout helloKernel
      (frameOf 14 0x400000 18 0) = .ok outcome ∧ outcome.kernel.user.memory.byte 0x400000 = 77 :=
    byte_after_call (by decide +kernel)
  refine ⟨helloKernel_reachable, by decide, ⟨outcome, ho, ?_⟩, ?_, by decide +kernel⟩
  · rw [hbyte]
    decide +kernel
  · unfold PageWritable
    decide +kernel

end mantle.syscall
