-- What the system calls of a user program come to: the text that goes to the
-- console, the keys that are taken, and the buffers of the program that may
-- have changed.
import MantleOS.RootfsList
import MantleOS.UserLibc

open checked bytes

namespace mantle.user

open rootfs elf syscall

/-! ## The services, byte by byte -/

variable {memory : Window USER_BASE userSize} {k : Kernel} {address length : Nat} {s : Bytes}

theorem byte_of_bytesAt {n i : Nat} (h : memory.bytesAt address n = s) (hi : i < s.length) :
    memory.byte (address + i) = s[i] := by
  subst h
  rw [Window.bytesAt_length] at hi
  simp [Window.bytesAt]

theorem byte_of_isString {i : Nat} (h : IsString memory address s) (hi : i < s.length) :
    memory.byte (address + i) = s[i] := by
  have hlt : i < (s ++ [0]).length := by
    rw [List.length_append]
    omega
  rw [byte_of_bytesAt h.bytes hlt, List.getElem_append_left]

theorem cstring_append_cons {rest : Bytes} (h : 0 ∉ s) : cstring (s ++ 0 :: rest) = s := by
  unfold cstring
  rw [List.takeWhile_append_of_pos]
  · simp
  · intro x hx
    simpa using fun hx0 : x = 0 => h (hx0 ▸ hx)

/-- A string of the window is what the kernel takes for the string at its address. -/
theorem userString_eq (h : IsString memory address s) : userString memory address = some s := by
  have hshort := h.short
  have hfits := h.fits
  have hle : s.length + 1 ≤ min MAX_PATH (USER_LIMIT - address) := by omega
  have hvisible : visible memory address =
      s ++ 0 :: (visible memory address).drop (s.length + 1) := by
    have htake : (visible memory address).take (s.length + 1) = s ++ [0] := by
      unfold visible
      rw [Window.bytesAt_take _ _ hle, h.bytes]
    calc visible memory address
        = (visible memory address).take (s.length + 1) ++
            (visible memory address).drop (s.length + 1) := (List.take_append_drop _ _).symm
      _ = _ := by rw [htake, List.append_assoc, List.singleton_append]
  unfold userString
  rw [hvisible, if_pos ⟨h.inWindow, by simp⟩, cstring_append_cons h.noNul]

/-- A write of a string without a NUL puts it on the console. -/
theorem syscall_write_text (h : IsString k.user.memory address s) :
    syscall_write k 1 address s.length =
      .ok ({ k with console := k.console ++ s }, (s.length : Int)) := by
  have hfits := h.fits
  have hbase := h.inWindow.1
  have hrange : user_range address s.length = true := by
    rw [user_range_iff]
    unfold USER_BASE USER_LIMIT at *
    omega
  have hlt := lt_of_user_range hrange
  unfold syscall_write
  rw [if_neg (by simp [hrange]), mod_of_user_range hrange]
  obtain ⟨r, hr, he⟩ := forRange.spec
    (fun index (k : Kernel) => do
      let c ← k.user.memory.load (address + index)
      return mantle_console_write k [c, 0])
    (fun i k' => k' = { k with console := k.console ++ s.take i }) 0 s.length k (by simp) (by
      intro i k' _ hi hk'
      rw [Nat.zero_add] at hi
      have hc : s[i] ≠ 0 := fun h0 => h.noNul (h0 ▸ List.getElem_mem hi)
      have hbyte := byte_of_isString h hi
      subst hk'
      dsimp only
      rw [Window.load_eq (h.held i (by omega)), ok_bind, hbyte, pure_eq_ok, yields_ok]
      unfold mantle_console_write
      rw [show [s[i], 0] = [s[i]] ++ [0] from rfl, cstring_append_nul (by simpa using hc.symm),
        List.take_succ_eq_append_getElem hi, List.append_assoc])
  rw [hr, ok_bind, he, Nat.zero_add, List.take_length, int32_eq hlt]
  rfl

/-- A copy out of the kernel puts the bytes into the window. -/
theorem copy_out_eq {source : Bytes} {count : Nat}
    (hheld : Window.HoldsAll USER_BASE userSize address count) (hcount : count ≤ source.length) :
    copy_out memory address source count = .ok (memory.putAll address (source.take count)) := by
  unfold copy_out
  obtain ⟨r, hr, he⟩ := forRange.spec
    (fun index (memory : Window USER_BASE userSize) => do
      let c ← byteAt source index
      memory.store (address + index) c)
    (fun i m => m = memory.putAll address (source.take i)) 0 count memory rfl (by
      intro i m _ hi hm
      rw [Nat.zero_add] at hi
      have hlen : (source.take i).length = i := by
        rw [List.length_take]
        omega
      rw [byteAt_eq (by omega : i < source.length), ok_bind, Window.store_eq _ (hheld i hi), yields_ok,
        hm, List.take_succ_eq_append_getElem (by omega), ← Window.putAll_concat, hlen])
  rw [hr, he, Nat.zero_add]

/-- The working directory at the start, and ever after. -/
def rootDirectory : Bytes := 47 :: List.replicate 63 0

theorem sys_getcwd_root (hcwd : k.process.cwd = rootDirectory) (hlength : 2 ≤ length)
    (hrange : user_range address length = true) :
    sys_getcwd k address length = .ok (k.withMemory (k.user.memory.putAll address [47, 0]), 1) := by
  have hheld : Window.HoldsAll USER_BASE userSize address 2 :=
    fun i hi => holdsAll_of_user_range hrange i (by omega)
  have hlen : cwd_length rootDirectory 0 = .ok 1 := rfl
  unfold sys_getcwd
  rw [if_neg (by simp [hrange]), hcwd, hlen, ok_bind, if_pos (by omega),
    copy_out_eq hheld (by decide), ok_bind]
  rfl

theorem sys_uname_text (hlength : 18 ≤ length) (hrange : user_range address length = true) :
    sys_uname k address length =
      .ok (k.withMemory (k.user.memory.putAll address (ascii "MantleOS x86_64" ++ [0, 0])), 16) := by
  have hheld : Window.HoldsAll USER_BASE userSize address uname_text.length :=
    fun i hi => holdsAll_of_user_range hrange i (hi.trans_le (le_trans (by decide) hlength))
  unfold sys_uname
  rw [if_pos ⟨hrange, hlength⟩, copy_out_eq hheld (Nat.le_refl _), ok_bind]
  rfl

/-- The text of `ls`, when it fits a buffer of `size` bytes. -/
def listingText (names : List Bytes) (size : Nat) : Option Bytes :=
  if 1 ≤ (lineOf names).length ∧ (lineOf names).length + 2 ≤ size then
    some ((lineOf names).dropLast ++ [10])
  else none

/-- What the call gives then. -/
def listingResult (names : List Bytes) (size : Nat) : Int :=
  match listingText names size with
  | some text => text.length
  | none => -1

theorem sys_readdir_root {blob : Blob} {path : Nat} (hroot : k.rootfs = mountedState blob)
    (ha : Accepts blob.content) (hpath : IsString k.user.memory path [47])
    (hrange : user_range address length = true) :
    Yields (sys_readdir k path address length) (fun r =>
      (∃ memory, r.1 = k.withMemory memory ∧ k.user.memory.SameOutside memory address length ∧
        ∀ text, listingText (listed k.rootfs) length = some text →
          memory.bytesAt address (text.length + 1) = text ++ [0]) ∧
      r.2 = listingResult (listed k.rootfs) length) := by
  have hbuf := holdsAll_of_user_range hrange
  have hmod := mod_of_user_range hrange
  have hbase := user_range_iff.mp hrange
  have hwindow := hpath.inWindow.1
  have hstring : RootPath k.user.memory path := by
    constructor
    · rintro rfl
      exact absurd hwindow (by decide)
    · exact hpath.held
    · exact byte_of_isString (i := 0) hpath (by simp)
    · exact hpath.nul
  have hgood : Good k.rootfs := Or.inr ⟨blob, ha, hroot⟩
  have hspec := sys_readdir.spec k path address length hgood
  obtain ⟨⟨memory, n⟩, hrun, hwrites⟩ := mantle_rootfs_list.writes blob k.user.memory path address length
    ha hstring (by omega) hbuf
  rw [← hroot] at hrun
  have hcall : sys_readdir k path address length = .ok (k.withMemory memory, n) := by
    unfold sys_readdir
    rw [string_length_user.spec, userString_eq hpath, ok_bind, if_neg (by simp [hrange]), hmod, hrun]
    rfl
  obtain ⟨memory', hk, hsame⟩ := hspec.of_eq_ok hcall
  have hmemory : memory' = memory := congrArg (fun k : Kernel => k.user.memory) hk.symm
  subst hmemory
  refine ⟨_, hcall, ?_⟩
  unfold listingResult listingText
  rw [hroot]
  dsimp only at hwrites
  split at hwrites
  · rename_i hfits
    rw [if_pos hfits]
    have hlen : ((lineOf (listed (mountedState blob))).dropLast ++ [10]).length =
        (lineOf (listed (mountedState blob))).length := by
      rw [List.length_append, List.length_dropLast, List.length_singleton]
      omega
    refine ⟨⟨_, rfl, hsame, ?_⟩, ?_⟩
    · rintro text ⟨⟩
      rw [hlen, hwrites.2, List.append_assoc]
      rfl
    · dsimp only
      rw [hwrites.1, hlen]
  · rename_i hfits
    rw [if_neg hfits]
    exact ⟨⟨_, rfl, hsame, nofun⟩, hwrites⟩

/-! ## What no call changes -/

/-- The one path that SYS_CHDIR takes is `/`, so it copies what is there. -/
theorem sys_chdir_root (hcwd : k.process.cwd = rootDirectory) :
    Yields (sys_chdir k address) (fun r => r.1 = k) := by
  unfold sys_chdir
  rw [string_length_user.spec, ok_bind]
  cases hs : userString k.user.memory address with
  | none => exact ⟨_, rfl, rfl⟩
  | some s =>
    dsimp only
    split
    · exact ⟨_, rfl, rfl⟩
    rename_i hone
    rw [ne_eq, Decidable.not_not] at hone
    have hstring := isString_of_userString hs
    have hnul := hstring.nul
    rw [hone] at hnul
    have h0 := Window.load_eq (w := k.user.memory) (hstring.held 0 (by omega))
    have h1 := Window.load_eq (w := k.user.memory) (hstring.held 1 (by omega))
    rw [Nat.add_zero] at h0
    rw [h0, ok_bind]
    split
    · exact ⟨_, rfl, rfl⟩
    rename_i hslash
    rw [ne_eq, Decidable.not_not] at hslash
    rw [h1, ok_bind, hnul, if_neg (by decide), ok_bind, if_pos (by omega), hone, hcwd]
    have hcopy : forRange (fun index cwd => do
        let c ← k.user.memory.load (address + index)
        setAt cwd index c) 0 (1 + 1) rootDirectory = .ok rootDirectory := by
      unfold forRange forRange forRange
      rw [Nat.add_zero, h0, Nat.zero_add, h1, hslash, hnul]
      rfl
    rw [hcopy, ok_bind, ← hcwd]
    exact ⟨_, rfl, rfl⟩

variable {layout : Layout} {frame frame' : mantle_syscall_frame} {o : Outcome}

/-- A plain service leaves the process as it is. -/
theorem serviceResult_process (h : Sound layout k) (hcwd : k.process.cwd = rootDirectory) :
    Yields (serviceResult k frame) (fun r => r.1.process = k.process) := by
  have hgives : ∀ {x : Checked (Kernel × Int)}, Yields x (fun r => r.1.process = k.process) →
      Yields ((fun r => (r.1, some r.2)) <$> x)
        (fun r : Kernel × Option Int => r.1.process = k.process) := by
    rintro x ⟨r, rfl, hr⟩
    exact ⟨_, rfl, hr⟩
  unfold serviceResult
  cases frame.service with
  | sys_read =>
    apply (syscall_read.spec k _ _ _).mono
    rintro r ⟨⟨memory, keyboard, hr, _⟩, _⟩
    rw [hr]
    rfl
  | sys_write =>
    apply hgives
    apply (syscall_write.spec k _ _ _).mono
    rintro r ⟨⟨console, hr⟩, _⟩
    rw [hr]
  | sys_open =>
    apply hgives
    rw [syscall_open.spec k _ h.rootfs, yields_ok]
    obtain ⟨⟨descriptors, hr⟩, _⟩ := bindFile_cases k (namedFile k frame.rdi.toNat) 3 5 (by decide)
    rw [openM, hr]
  | sys_close =>
    apply hgives
    rw [sys_close.spec k _, yields_ok]
    obtain ⟨⟨descriptors, hr⟩, _⟩ := closeM_cases k frame.rdi.toNat
    rw [hr]
  | sys_chdir =>
    apply hgives
    apply (sys_chdir_root hcwd).mono
    intro r hr
    rw [hr]
  | sys_getcwd =>
    apply hgives
    apply (sys_getcwd.spec k _ _ h.cwd).mono
    rintro r ⟨⟨memory, hr, _⟩, _⟩
    rw [hr]
    rfl
  | sys_readdir =>
    apply hgives
    apply (sys_readdir.spec k _ _ _ h.rootfs).mono
    rintro r ⟨memory, hr, _⟩
    rw [hr]
    rfl
  | sys_uname =>
    apply hgives
    apply (sys_uname.spec k _ _).mono
    rintro r ⟨⟨memory, hr, _⟩, _⟩
    rw [hr]
    rfl
  | sys_getpid => exact ⟨_, rfl, rfl⟩
  | sys_exec => exact ⟨_, rfl, rfl⟩
  | sys_exit => exact ⟨_, rfl, rfl⟩
  | sys_reboot => exact ⟨_, rfl, rfl⟩
  | none => exact ⟨_, rfl, rfl⟩

theorem execM_process (layout : Layout) (k : Kernel) (frame : mantle_syscall_frame) (address : Nat) :
    (execM layout k frame address).1.process = k.process := by
  unfold execM
  cases (userString k.user.memory address).bind (fileAt k.rootfs) with
  | none => rfl
  | some data =>
    dsimp only
    rcases loadM layout k.user data with ⟨user, _ | image⟩
    · rfl
    · rfl

theorem exitM_cwd (layout : Layout) (k : Kernel) (frame : mantle_syscall_frame) :
    (exitM layout k frame).kernel.process.cwd = k.process.cwd := by
  unfold exitM
  cases initFile k with
  | none => rfl
  | some data =>
    dsimp only
    rcases loadM layout k.user data with ⟨user, _ | image⟩
    · rfl
    · rfl

theorem dispatch_cwd (h : Sound layout k) (hcwd : k.process.cwd = rootDirectory)
    (ho : mantle_syscall_dispatch layout k frame = .ok o) :
    o.kernel.process.cwd = rootDirectory := by
  have hn := note_user_sound h
  have hprocess := (note_user_rest k).1
  rw [← hprocess] at hcwd
  by_cases hplain : Plain frame.service
  · obtain ⟨r, hr, hsame⟩ := @serviceResult_process _ layout frame hn hcwd
    rw [dispatch_of_plain layout k hplain, hr] at ho
    cases ho
    rw [ended_kernel, hsame, hcwd]
  unfold mantle_syscall_dispatch at ho
  generalize note_user k = k at hn hcwd ho
  dsimp only at ho
  cases hs : frame.service with
  | sys_exec =>
    rw [hs, syscall_exec.spec layout k frame _ hn.rootfs, ok_bind] at ho
    cases ho
    have hrest := execM_process layout k frame frame.rdi.toNat
    exact (congrArg _ hrest).trans hcwd
  | sys_exit =>
    rw [hs, sys_exit.eq layout k frame hn.rootfs] at ho
    cases ho
    rw [exitM_cwd, hcwd]
  | sys_reboot =>
    rw [hs] at ho
    cases ho
    exact hcwd
  | _ => exact absurd (by rw [hs]; decide) hplain

theorem reachable_cwd (h : Reachable layout k) : k.process.cwd = rootDirectory := by
  induction h with
  | boot h =>
    obtain ⟨_, data, user, rfl, _⟩ := start_user.starts_with h
    rfl
  | store x _ _ _ ih => exact ih
  | key scan _ ih => exact ih
  | entry _ ih => exact ih
  | call hk hcall ih => exact dispatch_cwd hk.sound ih hcall

/-- A file of the image that the loader of programs takes. -/
structure Loads (rootfs : rootfs_state) (path data : Bytes) : Prop where
  file : fileAt rootfs path = some data
  header : HeaderAccepted data
  segments : SegmentsAccepted data

theorem Loads.loadM_eq {rootfs : rootfs_state} {path data : Bytes} (h : Loads rootfs path data)
    (user : UserSpace) : loadM layout user data =
      (placedUser layout user data, some { entry := (headerOf data).entry, stack := USER_STACK_TOP }) := by
  unfold loadM
  rw [if_pos h.header, if_pos h.segments]

theorem of_loadM {user user' : UserSpace} {data : Bytes} {image : mantle_user_image}
    (h : loadM layout user data = (user', some image)) :
    HeaderAccepted data ∧ SegmentsAccepted data := by
  unfold loadM at h
  split at h
  · rename_i hheader
    split at h
    · exact ⟨hheader, by assumption⟩
    · cases h
  · cases h

/-- A machine that runs user programs has mounted an image with a `/bin/hello` that loads. -/
def Mounted (k : Kernel) : Prop :=
  ∃ blob data, Accepts blob.content ∧ k.rootfs = mountedState blob ∧
    Loads k.rootfs (ascii "/bin/hello") data

theorem start_user_mounted {image : Blob} {tss_loaded : Bool} {console : Bytes}
    {keyboard : List UInt8} {init_image : mantle_user_image}
    (h : start_user layout image tss_loaded (.start console keyboard) = .ok (some (k, init_image))) :
    Mounted k := by
  obtain ⟨ha, data, user, rfl, _⟩ := start_user.starts_with h
  have hm := mountedKernel_sound layout image console keyboard ha
  have hpath : cstring (ascii "/bin/hello" ++ [0]) = ascii "/bin/hello" := by decide
  rcases start_user_eq layout image tss_loaded console keyboard with ⟨_, he⟩ | ⟨_, he⟩
  · rw [he] at h
    cases h
  rw [he, open_and_load.spec layout _ _ hm.rootfs (by decide), hpath, ok_bind] at h
  cases hf : fileAt (mountedKernel layout image console keyboard).rootfs (ascii "/bin/hello") with
  | none =>
    rw [hf] at h
    cases h
  | some data =>
    rw [hf] at h
    dsimp only at h
    rcases hl : loadM layout (mountedKernel layout image console keyboard).user data with
      ⟨user', _ | loaded⟩
    · rw [hl] at h
      cases h
    · obtain ⟨hheader, hsegments⟩ := of_loadM hl
      exact ⟨image, data, ha, rfl, hf, hheader, hsegments⟩

theorem reachable_mounted (h : Reachable layout k) : Mounted k := by
  induction h with
  | boot h => exact start_user_mounted h
  | store x _ _ _ ih => exact ih
  | key scan _ ih => exact ih
  | entry _ ih => exact ih
  | @call k k' frame frame' hk hcall ih =>
    have hrest := ((mantle_syscall_dispatch.keeps_all hk.sound frame).of_eq_ok hcall).2
    have hrootfs : k'.rootfs = k.rootfs := hrest.rootfs.trans (note_user_rest k).2.2.1
    unfold Mounted at *
    rwa [hrootfs]

end mantle.user
