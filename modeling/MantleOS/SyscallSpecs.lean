-- What each service of the dispatcher does, said once: which part of the
-- kernel it may change, and that it never leaves the user window, the
-- descriptor table or the working directory.
import MantleOS.Syscall

open checked bytes
open Window (HoldsAll)

namespace mantle.syscall

open rootfs elf

/-! ## Strings of the caller -/

/-- The bytes that `string_length_user` may look at. -/
def visible (memory : Window USER_BASE userSize) (address : Nat) : Bytes :=
  memory.bytesAt address (min MAX_PATH (USER_LIMIT - address))

/-- The string at an address of the window, when its NUL is among the bytes that may be looked
at. -/
def userString (memory : Window USER_BASE userSize) (address : Nat) : Option Bytes :=
  if InWindow address ∧ 0 ∈ visible memory address then some (cstring (visible memory address))
  else none

theorem holdsAll_of_range {address count : Nat} (h1 : USER_BASE ≤ address)
    (h2 : address + count ≤ USER_LIMIT) : HoldsAll USER_BASE userSize address count := by
  intro k hk
  unfold USER_LIMIT at h2
  unfold Window.Holds userSize
  unfold USER_BASE at *
  omega

/-- A range that passes the check of the kernel is in the window. -/
theorem holdsAll_of_user_range {address size : Nat} (h : user_range address size = true) :
    HoldsAll USER_BASE userSize address size := by
  obtain ⟨h1, h2⟩ := user_range_iff.mp h
  exact holdsAll_of_range h1 h2

/-- A range that passes the check has fewer than 2 ^ 32 bytes. -/
theorem mod_of_user_range {address size : Nat} (h : user_range address size = true) :
    size % 2 ^ 32 = size := by
  have := user_range_iff.mp h
  omega

theorem user_range_one_iff {address : Nat} : user_range address 1 = true ↔ InWindow address := by
  rw [user_range_iff]
  unfold InWindow USER_BASE USER_LIMIT
  omega

theorem string_length_loop.spec (memory : Window USER_BASE userSize) (address left length : Nat)
    (h1 : USER_BASE ≤ address) (h2 : address + length ≤ USER_LIMIT) :
    string_length_loop memory address left length = .ok (length +
      (cstring (memory.bytesAt (address + length)
        (min left (USER_LIMIT - (address + length))))).length) := by
  induction left generalizing length with
  | zero => simp [string_length_loop, Window.bytesAt, cstring]
  | succ left ih =>
    have hmod : (address + length) % 2 ^ 64 = address + length := by
      unfold USER_LIMIT at h2
      omega
    unfold string_length_loop
    rw [hmod]
    by_cases hin : address + length < USER_LIMIT
    · have hr : user_range (address + length) 1 = true :=
        user_range_one_iff.mpr ⟨by omega, hin⟩
      have hheld : Window.Holds USER_BASE userSize (address + length) :=
        holdsAll_of_user_range hr 0 (by omega)
      have hmin : min (left + 1) (USER_LIMIT - (address + length)) =
          min left (USER_LIMIT - (address + (length + 1))) + 1 := by omega
      rw [if_neg (by simp [hr]), Window.load_eq hheld, ok_bind, hmin, Window.bytesAt_succ]
      by_cases hc : memory.byte (address + length) = 0
      · simp [hc, cstring]
      · rw [if_neg hc, ih (length + 1) (by omega)]
        simp only [cstring, List.takeWhile_cons, ne_eq, hc, not_false_eq_true, decide_true, if_true,
          List.length_cons, Except.ok.injEq]
        rw [Nat.add_assoc address length 1]
        omega
    · have hr : ¬ user_range (address + length) 1 = true := fun h =>
        hin (user_range_one_iff.mp h).2
      rw [if_pos (by simpa using hr), show USER_LIMIT - (address + length) = 0 by omega]
      simp [Window.bytesAt, cstring]

/-- `string_length_user` never leaves the window, and measures the string if there is one. -/
theorem string_length_user.spec (memory : Window USER_BASE userSize) (address : Nat) :
    string_length_user memory address = .ok
      (match userString memory address with
        | some s => s.length
        | none => 0xffffffff) := by
  unfold string_length_user userString
  by_cases hw : InWindow address
  · have hloop := string_length_loop.spec memory address MAX_PATH 0 hw.1 (by have := hw.2; omega)
    rw [Nat.add_zero, Nat.zero_add] at hloop
    rw [if_neg (by simp [user_range_one_iff.mpr hw]), hloop, ok_bind]
    simp only [hw, true_and]
    rw [← visible]
    have hlen : (visible memory address).length = min MAX_PATH (USER_LIMIT - address) := by
      simp [visible]
    by_cases hnul : 0 ∈ visible memory address
    · have hlt := cstring_length_lt hnul
      have hr : user_range ((address + (cstring (visible memory address)).length) % 2 ^ 64) 1
          = true := by
        rw [user_range_one_iff]
        have := hw.1
        unfold InWindow
        unfold USER_LIMIT USER_BASE MAX_PATH at *
        omega
      rw [if_neg (by rw [hr]; simp; omega), if_pos hnul]
      rfl
    · rw [if_neg hnul, cstring_of_notMem hnul, if_pos]
      · rfl
      · by_cases hmax : (visible memory address).length = MAX_PATH
        · exact Or.inl hmax
        · have hlimit : (address + (visible memory address).length) % 2 ^ 64 = USER_LIMIT := by
            have := hw.1
            have := hw.2
            unfold USER_LIMIT at *
            omega
          rw [hlimit]
          exact Or.inr (by decide)
  · have hr : ¬ user_range address 1 = true := fun h => hw (user_range_one_iff.mp h)
    rw [if_pos (by simpa using hr), if_neg (fun h => hw h.1)]

/-- What the kernel knows of a string of the caller. -/
structure IsString (memory : Window USER_BASE userSize) (address : Nat) (s : Bytes) : Prop where
  short : s.length < MAX_PATH
  inWindow : InWindow address
  fits : address + s.length < USER_LIMIT
  bytes : memory.bytesAt address (s.length + 1) = s ++ [0]
  noNul : 0 ∉ s

theorem isString_of_userString {memory : Window USER_BASE userSize} {address : Nat} {s : Bytes}
    (h : userString memory address = some s) : IsString memory address s := by
  unfold userString at h
  split at h
  · rename_i hs
    cases h
    have hlt := cstring_length_lt hs.2
    have hlen : (visible memory address).length = min MAX_PATH (USER_LIMIT - address) := by
      simp [visible]
    refine ⟨by omega, hs.1, by omega, ?_, notMem_cstring _⟩
    rw [← take_cstring hs.2, visible, Window.bytesAt_take _ _ (by rw [← visible]; omega)]
  · cases h

theorem IsString.held {memory : Window USER_BASE userSize} {address : Nat} {s : Bytes}
    (h : IsString memory address s) : HoldsAll USER_BASE userSize address (s.length + 1) :=
  holdsAll_of_range h.inWindow.1 h.fits

theorem IsString.nul {memory : Window USER_BASE userSize} {address : Nat} {s : Bytes}
    (h : IsString memory address s) : memory.byte (address + s.length) = 0 := by
  have hbytes := h.bytes
  rw [Window.bytesAt_concat] at hbytes
  exact List.singleton_inj.mp (List.append_inj' hbytes rfl).2

/-- The length of a string passes the check of `syscall_open` and `syscall_exec`. -/
theorem IsString.length_ok {memory : Window USER_BASE userSize} {address : Nat} {s : Bytes}
    (h : IsString memory address s) : ¬ (s.length = 0xffffffff ∨ MAX_PATH ≤ s.length) := by
  have := h.short
  unfold MAX_PATH at *
  omega

/-- The copy of a string of the caller has the string and its NUL. -/
theorem copy_path.spec {memory : Window USER_BASE userSize} {address : Nat} {s : Bytes}
    (h : userString memory address = some s) :
    copy_path memory address s.length = .ok (s ++ [0]) := by
  have hs := isString_of_userString h
  have hmax := hs.short
  obtain ⟨r, hr, he⟩ := forRange.spec
    (fun index (path : Bytes) => do
      let c ← memory.load (address + index)
      if index < MAX_PATH then return path ++ [c] else .error (.bounds index MAX_PATH))
    (fun i path => path = memory.bytesAt address i) 0 (s.length + 1) [] rfl (by
      intro i path _ hi hpath
      rw [Window.load_eq (hs.held i (by omega)), ok_bind, if_pos (by omega), pure_eq_ok, yields_ok,
        hpath, Window.bytesAt_concat])
  rw [copy_path, hr, he, Nat.zero_add, hs.bytes]

/-! ## Files -/

/-- The bytes of the file that the mounted image has under a path. -/
def fileAt (state : rootfs_state) (path : Bytes) : Option Bytes :=
  match state.image, lookup (entriesOf state) path with
  | some blob, some file => some (slice blob.content file.data file.size)
  | _, _ => none

/-- A path that names no file leaves everything. A path that names one leaves the load of the
file. -/
theorem open_and_load.spec (layout : Layout) (k : Kernel) (path : Bytes) (h : Good k.rootfs)
    (hnul : 0 ∈ path) :
    open_and_load layout k path = .ok
      (match fileAt k.rootfs (cstring path) with
        | none => (k, none)
        | some data =>
          ({ k with user := (loadM layout k.user data).1 }, (loadM layout k.user data).2)) := by
  unfold open_and_load fileAt
  rw [mantle_rootfs_open.spec _ _ _ h hnul, ok_bind]
  cases hl : lookup (entriesOf k.rootfs) (cstring path) with
  | none => cases k.rootfs.image <;> rfl
  | some file =>
    have hin := lookup_file_in h hl
    rcases h with hz | ⟨blob, _, hb⟩
    · rw [hz]
      rfl
    · rw [hb] at hin ⊢
      simp only [mountedState] at hin ⊢
      rw [if_neg (by simp), sliceAt_eq hin, ok_bind, mantle_elf_load.spec, ok_bind]
      rfl

/-- What `syscall_exec` gives, as a function of the string at the address and of the file
that it names. -/
def execM (layout : Layout) (k : Kernel) (frame : mantle_syscall_frame) (address : Nat) :
    Kernel × mantle_syscall_frame × Int :=
  match (userString k.user.memory address).bind (fileAt k.rootfs) with
  | none => (k, frame, -1)
  | some data =>
    match loadM layout k.user data with
    | (user, none) => ({ k with user }, frame, -1)
    | (user, some image) =>
      ({ k with user }, { frame with rip := .ofNat image.entry, rsp := .ofNat image.stack }, 0)

theorem syscall_exec.spec (layout : Layout) (k : Kernel) (frame : mantle_syscall_frame)
    (address : Nat) (h : Good k.rootfs) :
    syscall_exec layout k frame address = .ok (execM layout k frame address) := by
  unfold syscall_exec execM
  rw [string_length_user.spec, ok_bind]
  cases hs : userString k.user.memory address with
  | none =>
    rw [if_pos (Or.inl rfl)]
    rfl
  | some s =>
    have hstring := isString_of_userString hs
    rw [if_neg hstring.length_ok, copy_path.spec hs, ok_bind, open_and_load.spec layout k _ h (by simp), ok_bind,
      cstring_append_nul hstring.noNul, Option.bind_some]
    cases fileAt k.rootfs s with
    | none => rfl
    | some data =>
      simp only
      rcases loadM layout k.user data with ⟨user, _ | image⟩ <;> rfl

theorem load_next_user.spec (layout : Layout) (k : Kernel) (frame : mantle_syscall_frame)
    (path : Bytes) (h : Good k.rootfs) (hnul : 0 ∈ path) :
    load_next_user layout k frame path = .ok
      (match fileAt k.rootfs (cstring path) with
        | none => (k, frame, -1)
        | some data =>
          match loadM layout k.user data with
          | (user, none) => ({ k with user }, frame, -1)
          | (user, some image) =>
            ({ k with user }, { frame with rip := .ofNat image.entry, rsp := .ofNat image.stack,
                                           rax := 0 }, 0)) := by
  unfold load_next_user
  rw [open_and_load.spec layout k path h hnul, ok_bind]
  cases fileAt k.rootfs (cstring path) with
  | none => rfl
  | some data =>
    simp only
    rcases loadM layout k.user data with ⟨user, _ | image⟩ <;> rfl

/-- The file that SYS_EXIT hands over to. -/
def initFile (k : Kernel) : Option Bytes :=
  if k.hello_finished then none else fileAt k.rootfs (ascii "/sbin/init")

/-- The machine after the last exit. -/
def haltedKernel (k : Kernel) (frame : mantle_syscall_frame) : Kernel :=
  mantle_console_write
    { k with process := { k.process with state := .exited, exit_code := int32 frame.rdi.toNat } }
    (ascii "MANTLE_USERSPACE_EXIT\n" ++ [0])

/-- What SYS_EXIT comes to: a hand-over, or the end. -/
def exitM (layout : Layout) (k : Kernel) (frame : mantle_syscall_frame) : Outcome :=
  match initFile k with
  | none => .halted (haltedKernel k frame)
  | some data =>
    match loadM layout k.user data with
    | (user, none) => .halted (haltedKernel { k with user } frame)
    | (user, some image) =>
      .returned
        { k with user, hello_finished := true
                 process := { k.process with state := .ready, exit_code := int32 frame.rdi.toNat } }
        { frame with rip := .ofNat image.entry, rsp := .ofNat image.stack, rax := -1 }

theorem sys_exit.eq (layout : Layout) (k : Kernel) (frame : mantle_syscall_frame)
    (h : Good k.rootfs) : sys_exit layout k frame = .ok (exitM layout k frame) := by
  have hpath : cstring (ascii "/sbin/init" ++ [0]) = ascii "/sbin/init" := by decide
  unfold sys_exit exitM initFile
  by_cases hf : k.hello_finished = true
  · rw [if_neg (by simp [hf]), if_pos hf, ok_bind]
    rfl
  · rw [if_pos (by simpa using hf), if_neg hf, load_next_user.spec layout k frame _ h (by decide),
      ok_bind, hpath]
    cases fileAt k.rootfs (ascii "/sbin/init") with
    | none => rfl
    | some data =>
      simp only
      rcases loadM layout k.user data with ⟨user, _ | image⟩ <;> rfl

/-! ## The other services -/

/-- The kernel with other contents of user memory. -/
def Kernel.withMemory (k : Kernel) (memory : Window USER_BASE userSize) : Kernel :=
  { k with user := { k.user with memory } }

theorem keyboard_read.spec (keyboard : List UInt8) :
    Yields (keyboard_read keyboard) (fun _ => True) := by
  induction keyboard with
  | nil => simp [keyboard_read]
  | cons scan rest ih =>
    unfold keyboard_read
    split
    · exact ih
    · rename_i hscan
      split
      · simp
      · split
        · simp
        · rw [byteAt_eq (by omega), ok_bind]
          split
          · exact ih
          · simp

/-- The service refuses and changes nothing, or it gives a result that is not negative. -/
def RefusesOrGives (k k' : Kernel) (result : Int) : Prop :=
  (k' = k ∧ result = -1) ∨ (0 ≤ result ∧ result < 2 ^ 31)

theorem RefusesOrGives.refuses (k : Kernel) : RefusesOrGives k k (-1) := Or.inl ⟨rfl, rfl⟩

/-- A cast to `int32_t` that loses nothing. -/
theorem int32_eq {value : Nat} (h : value < 2 ^ 31) : int32 value = value := by
  rw [int32, BitVec.toInt_ofNat', Int.bmod_def]
  omega

theorem RefusesOrGives.gives (k k' : Kernel) {value : Nat} (h : value < 2 ^ 31) :
    RefusesOrGives k k' (int32 value) := by
  rw [int32_eq h]
  exact Or.inr ⟨by omega, by omega⟩

/-- A range that passes the check has fewer than 2 ^ 31 bytes. -/
theorem lt_of_user_range {address size : Nat} (h : user_range address size = true) :
    size < 2 ^ 31 := by
  have := user_range_iff.mp h
  omega

/-- A write changes the console only. -/
theorem syscall_write.spec (k : Kernel) (fd address length : Nat) :
    Yields (syscall_write k fd address length) (fun r =>
      (∃ console, r.1 = { k with console }) ∧ RefusesOrGives k r.1 r.2) := by
  unfold syscall_write
  split
  · exact ⟨_, rfl, ⟨k.console, rfl⟩, .refuses k⟩
  · rename_i hargs
    have hr : user_range address length = true := by
      by_contra hno
      exact hargs (Or.inr (by simpa using hno))
    rw [mod_of_user_range hr]
    apply Yields.bind (P := fun k' => ∃ console, k' = { k with console })
    · apply forRange.spec _ (fun _ k' => ∃ console, k' = { k with console }) 0 length k
      · exact ⟨k.console, rfl⟩
      · rintro i k' _ hi ⟨console, rfl⟩
        rw [Window.load_eq (holdsAll_of_user_range hr i (by omega)), ok_bind, pure_eq_ok, yields_ok]
        exact ⟨_, rfl⟩
    · rintro k' ⟨console, rfl⟩
      exact ⟨_, rfl, ⟨console, rfl⟩, .gives k _ (lt_of_user_range hr)⟩

/-- What a read leaves: it changes the buffer of the caller and takes scan codes. A read that
returns refuses or gives a result. -/
structure Reads (k : Kernel) (address length : Nat) (r : Kernel × Option Int) : Prop where
  kernel : ∃ memory keyboard, r.1 = { k.withMemory memory with keyboard } ∧
    k.user.memory.SameOutside memory address length
  result : ∀ result, r.2 = some result → RefusesOrGives k r.1 result

theorem read_loop.spec (address length : Nat) (h : HoldsAll USER_BASE userSize address length)
    (hlength : length < 2 ^ 31) (start : Kernel) (left index : Nat) (k : Kernel)
    (hleft : index + left ≤ length) (hk : ∃ memory keyboard, k = { start.withMemory memory with keyboard } ∧
      start.user.memory.SameOutside memory address length) :
    Yields (read_loop address left index k) (Reads start address length) := by
  induction left generalizing index k with
  | zero =>
    refine ⟨_, rfl, hk, ?_⟩
    rintro result ⟨⟩
    exact .gives start _ (by omega)
  | succ left ih =>
    obtain ⟨memory, keyboard, rfl, hsame⟩ := hk
    unfold read_loop
    apply (keyboard_read.spec keyboard).bind
    rintro ⟨value, keyboard'⟩ _
    cases value with
    | none => exact ⟨_, rfl, ⟨memory, keyboard', rfl, hsame⟩, nofun⟩
    | some value =>
      have hheld := h index (by omega)
      have hput : start.user.memory.SameOutside (memory.put (address + index - USER_BASE) value)
          address length := hsame.trans (Window.SameOutside.put memory value hheld.1 (by omega))
      simp only [Kernel.withMemory]
      rw [Window.store_eq _ hheld, ok_bind]
      split
      · refine ⟨_, rfl, ⟨_, keyboard', rfl, hput⟩, ?_⟩
        rintro result ⟨⟩
        exact .gives start _ (by omega)
      · exact ih (index + 1) _ (by omega) ⟨_, keyboard', rfl, hput⟩

theorem syscall_read.spec (k : Kernel) (fd address length : Nat) :
    Yields (syscall_read k fd address length) (Reads k address length) := by
  have hsame : ∃ memory keyboard, k = { k.withMemory memory with keyboard } ∧
      k.user.memory.SameOutside memory address length :=
    ⟨k.user.memory, k.keyboard, rfl, Window.SameOutside.refl _ _ _⟩
  unfold syscall_read
  split
  · refine ⟨_, rfl, hsame, ?_⟩
    rintro result ⟨⟩
    exact .refuses k
  · rename_i hargs
    have hr : user_range address length = true := by
      by_contra hno
      exact hargs (Or.inr (Or.inr (by simpa using hno)))
    rw [mod_of_user_range hr]
    exact read_loop.spec address length (holdsAll_of_user_range hr) (lt_of_user_range hr) k length 0
      k (by omega) hsame

/-- The kernel with another descriptor in one place. -/
def Kernel.withDescriptor (k : Kernel) (fd : Nat) (d : file_descriptor) : Kernel :=
  { k with descriptors := Function.update k.descriptors fd d }

/-- The first of the descriptors from `index` on that is not used, among `left` of them. -/
def firstFree (k : Kernel) (index left : Nat) : Option Nat :=
  (List.range' index left).find? (fun fd => !(k.descriptors fd).used)

/-- What `syscall_open` gives for a file and the first free descriptor. -/
def bindFile (k : Kernel) (file : Option mantle_rootfs_file) (fd : Option Nat) : Kernel × Int :=
  match file, fd with
  | some file, some fd => (k.withDescriptor fd { used := true, file, offset := 0 }, int32 fd)
  | _, _ => (k, -1)

/-- The loop asks for the file once for each free descriptor, and the first one decides. -/
theorem descriptor_loop.spec (path : Bytes) (hnul : 0 ∈ path) (left index : Nat) (k : Kernel)
    (h : Good k.rootfs) (hindex : index + left ≤ MAX_FDS) :
    descriptor_loop path left index k =
      .ok (bindFile k (lookup (entriesOf k.rootfs) (cstring path)) (firstFree k index left)) := by
  induction left generalizing index with
  | zero =>
    simp only [descriptor_loop, firstFree, List.range'_zero, List.find?_nil]
    cases lookup (entriesOf k.rootfs) (cstring path) <;> rfl
  | succ left ih =>
    have hlt : index < MAX_FDS := by omega
    unfold descriptor_loop
    simp only [descriptor, set_descriptor, if_pos hlt, ok_bind]
    cases hused : (k.descriptors index).used with
    | true =>
      have hskip : firstFree k index (left + 1) = firstFree k (index + 1) left := by
        simp [firstFree, List.range'_succ, hused]
      rw [if_pos rfl, hskip]
      exact ih (index + 1) (by omega)
    | false =>
      have hfree : firstFree k index (left + 1) = some index := by
        simp [firstFree, List.range'_succ, hused]
      rw [if_neg (by simp), mantle_rootfs_open.spec _ _ _ h hnul, ok_bind, hfree]
      cases hl : lookup (entriesOf k.rootfs) (cstring path) with
      | some file => rfl
      | none =>
        -- a failed lookup writes back what was there
        have hsame : k.withDescriptor index ⟨false, (k.descriptors index).file,
            (k.descriptors index).offset⟩ = k := by
          rw [← hused, Kernel.withDescriptor, Function.update_eq_self]
        simp only
        rw [if_neg (by decide), ← Kernel.withDescriptor, hsame, ih (index + 1) (by omega), hl]
        rfl

/-- The file of the mounted image that the string at an address of the caller names. -/
def namedFile (k : Kernel) (address : Nat) : Option mantle_rootfs_file :=
  (userString k.user.memory address).bind (lookup (entriesOf k.rootfs))

/-- What `syscall_open` gives. -/
def openM (k : Kernel) (address : Nat) : Kernel × Int :=
  bindFile k (namedFile k address) (firstFree k 3 5)

theorem syscall_open.spec (k : Kernel) (address : Nat) (h : Good k.rootfs) :
    syscall_open k address = .ok (openM k address) := by
  unfold syscall_open openM namedFile
  rw [string_length_user.spec, ok_bind]
  cases hs : userString k.user.memory address with
  | none => rfl
  | some s =>
    have hstring := isString_of_userString hs
    rw [if_neg hstring.length_ok, copy_path.spec hs, ok_bind, Option.bind_some,
      descriptor_loop.spec _ (by simp) _ _ k h (by decide), cstring_append_nul hstring.noNul]
    rfl

theorem bindFile_cases (k : Kernel) (file : Option mantle_rootfs_file) (index left : Nat)
    (h : index + left ≤ MAX_FDS) :
    (∃ descriptors, (bindFile k file (firstFree k index left)).1 = { k with descriptors }) ∧
      RefusesOrGives k (bindFile k file (firstFree k index left)).1
        (bindFile k file (firstFree k index left)).2 := by
  cases file with
  | none => exact ⟨⟨k.descriptors, rfl⟩, .refuses k⟩
  | some file =>
    cases hfd : firstFree k index left with
    | none => exact ⟨⟨k.descriptors, rfl⟩, .refuses k⟩
    | some fd =>
      have hmem := List.mem_of_find?_eq_some hfd
      rw [List.mem_range'_1] at hmem
      unfold MAX_FDS at h
      exact ⟨⟨_, rfl⟩, .gives k _ (by omega)⟩

/-- What `sys_close` gives. -/
def closeM (k : Kernel) (fd : Nat) : Kernel × Int :=
  if fd < MAX_FDS ∧ (k.descriptors fd).used = true then
    (k.withDescriptor fd { k.descriptors fd with used := false }, 0)
  else (k, -1)

theorem sys_close.spec (k : Kernel) (fd : Nat) : sys_close k fd = .ok (closeM k fd) := by
  unfold sys_close closeM
  by_cases hlt : fd < MAX_FDS
  · simp only [descriptor, set_descriptor, if_pos hlt, ok_bind]
    cases hused : (k.descriptors fd).used <;> simp [hlt, Kernel.withDescriptor]
  · rw [if_neg hlt, if_neg (fun h => hlt h.1)]

theorem closeM_cases (k : Kernel) (fd : Nat) :
    (∃ descriptors, (closeM k fd).1 = { k with descriptors }) ∧
      RefusesOrGives k (closeM k fd).1 (closeM k fd).2 := by
  unfold closeM
  split
  · exact ⟨⟨_, rfl⟩, Or.inr ⟨by simp, by simp⟩⟩
  · exact ⟨⟨k.descriptors, rfl⟩, .refuses k⟩

/-- The working directory is an array of 64 bytes with a NUL in it. -/
structure CwdSound (process : mantle_process) : Prop where
  length : process.cwd.length = 64
  nul : 0 ∈ process.cwd

/-- A copy of a string with its NUL into an array leaves the array as long as it was, and a
NUL in it. -/
theorem copy_string.spec {memory : Window USER_BASE userSize} {address : Nat} {s : Bytes}
    (h : userString memory address = some s) (target : Bytes) (hfits : s.length < target.length) :
    Yields (forRange (fun index cwd => do
      let c ← memory.load (address + index)
      setAt cwd index c) 0 (s.length + 1) target) (fun cwd =>
        cwd.length = target.length ∧ 0 ∈ cwd) := by
  have hs := isString_of_userString h
  apply (forRange.spec _ (fun i cwd => cwd.length = target.length ∧
    ∀ j < i, cwd[j]? = some (memory.byte (address + j))) 0 (s.length + 1) target ?_ ?_).mono
  · rintro cwd ⟨hlen, hcopied⟩
    refine ⟨hlen, List.mem_of_getElem? (i := s.length) ?_⟩
    rw [hcopied s.length (by omega), hs.nul]
  · exact ⟨rfl, fun j hj => absurd hj (by omega)⟩
  · rintro i cwd _ hi ⟨hlen, hcopied⟩
    rw [Window.load_eq (hs.held i (by omega)), ok_bind, setAt_eq _ (by omega), yields_ok]
    refine ⟨by rw [List.length_set, hlen], fun j hj => ?_⟩
    rw [List.getElem?_set]
    by_cases hji : i = j
    · subst hji
      rw [if_pos rfl, if_pos (by omega)]
    · rw [if_neg hji]
      exact hcopied j (by omega)

/-- A change of directory changes the working directory only, and keeps it sound. -/
theorem sys_chdir.spec (k : Kernel) (address : Nat) (h : CwdSound k.process) :
    Yields (sys_chdir k address) (fun r =>
      (∃ cwd, r.1 = { k with process := { k.process with cwd } } ∧ cwd.length = 64 ∧ 0 ∈ cwd) ∧
        RefusesOrGives k r.1 r.2) := by
  have hsame : (∃ cwd, k = { k with process := { k.process with cwd } } ∧ cwd.length = 64 ∧
      0 ∈ cwd) ∧ RefusesOrGives k k (-1) := ⟨⟨k.process.cwd, rfl, h.length, h.nul⟩, .refuses k⟩
  unfold sys_chdir
  rw [string_length_user.spec, ok_bind]
  cases hs : userString k.user.memory address with
  | none => exact ⟨_, rfl, hsame⟩
  | some s =>
    simp only
    split
    · exact ⟨_, rfl, hsame⟩
    rename_i hone
    rw [ne_eq, not_not] at hone
    have hheld := (isString_of_userString hs).held
    rw [hone] at hheld
    rw [Window.load_eq (by simpa using hheld 0 (by omega)), ok_bind]
    split
    · exact ⟨_, rfl, hsame⟩
    rw [Window.load_eq (hheld 1 (by omega)), ok_bind]
    split
    · exact ⟨_, rfl, hsame⟩
    rw [ok_bind]
    split
    · apply (copy_string.spec hs k.process.cwd (by rw [h.length]; omega)).bind
      rintro cwd ⟨hlen, hnul⟩
      exact ⟨_, rfl, ⟨cwd, rfl, hlen.trans h.length, hnul⟩, Or.inr ⟨by simp, by simp⟩⟩
    · exact ⟨_, rfl, hsame⟩

theorem cwd_length.spec (cwd : Bytes) (start : Nat) (h : 0 ∈ cwd) :
    cwd_length cwd start = .ok (start + (cstring cwd).length) := by
  induction cwd generalizing start with
  | nil => cases h
  | cons c rest ih =>
    unfold cwd_length
    by_cases hc : c = 0
    · simp [hc, cstring]
    · rw [if_neg hc, ih (start + 1) (List.mem_of_ne_of_mem (Ne.symm hc) h)]
      simp only [cstring, List.takeWhile_cons, ne_eq, hc, not_false_eq_true, decide_true, if_true,
        List.length_cons, Except.ok.injEq]
      omega

/-- A copy out of the kernel changes the buffer of the caller only. -/
theorem copy_out.spec (memory : Window USER_BASE userSize) (address size : Nat) (source : Bytes)
    (count : Nat) (hheld : HoldsAll USER_BASE userSize address size) (hcount : count ≤ size)
    (hsource : count ≤ source.length) :
    Yields (copy_out memory address source count) (fun m => memory.SameOutside m address size) := by
  apply forRange.spec _ (fun _ m => memory.SameOutside m address size) 0 count memory
  · exact Window.SameOutside.refl _ _ _
  · intro i m _ hi hm
    have hh := hheld i (by omega)
    rw [byteAt_eq (by omega), ok_bind, Window.store_eq _ hh, yields_ok]
    exact hm.trans (Window.SameOutside.put m _ hh.1 (by omega))

theorem sys_getcwd.spec (k : Kernel) (address size : Nat) (h : CwdSound k.process) :
    Yields (sys_getcwd k address size) (fun r =>
      (∃ memory, r.1 = k.withMemory memory ∧
        k.user.memory.SameOutside memory address size) ∧ RefusesOrGives k r.1 r.2) := by
  have hsame := Window.SameOutside.refl k.user.memory address size
  unfold sys_getcwd
  split
  · exact ⟨_, rfl, ⟨k.user.memory, rfl, hsame⟩, .refuses k⟩
  rename_i hr
  rw [Bool.not_eq_true', Bool.not_eq_false] at hr
  have hlt := cstring_length_lt h.nul
  rw [cwd_length.spec _ _ h.nul, ok_bind, Nat.zero_add]
  split
  · apply (copy_out.spec k.user.memory address size k.process.cwd _
      (holdsAll_of_user_range hr) (by omega) (by omega)).bind
    intro memory hm
    have hlength := lt_of_user_range hr
    exact ⟨_, rfl, ⟨memory, rfl, hm⟩, .gives k _ (by omega)⟩
  · exact ⟨_, rfl, ⟨k.user.memory, rfl, hsame⟩, .refuses k⟩

theorem sys_readdir.spec (k : Kernel) (path output size : Nat) (h : Good k.rootfs) :
    Yields (sys_readdir k path output size) (fun r =>
      ∃ memory, r.1 = k.withMemory memory ∧ k.user.memory.SameOutside memory output size) := by
  have hsame := Window.SameOutside.refl k.user.memory output size
  unfold sys_readdir
  rw [string_length_user.spec, ok_bind]
  cases hs : userString k.user.memory path with
  | none => exact ⟨_, rfl, k.user.memory, rfl, hsame⟩
  | some s =>
    have hstring := isString_of_userString hs
    simp only
    split
    · exact ⟨_, rfl, k.user.memory, rfl, hsame⟩
    rename_i hargs
    have hr : user_range output size = true := by
      by_contra hno
      exact hargs (Or.inr (by simpa using hno))
    rw [mod_of_user_range hr]
    apply (mantle_rootfs_list.spec k.rootfs k.user.memory path output size h
      (fun _ => ⟨s.length, hstring.held, hstring.nul⟩) (holdsAll_of_user_range hr)).bind
    rintro ⟨memory, result⟩ hm
    exact ⟨_, rfl, memory, rfl, hm⟩

theorem sys_uname.spec (k : Kernel) (address size : Nat) :
    Yields (sys_uname k address size) (fun r =>
      (∃ memory, r.1 = k.withMemory memory ∧
        k.user.memory.SameOutside memory address size) ∧ RefusesOrGives k r.1 r.2) := by
  unfold sys_uname
  split
  · rename_i hargs
    have hlen : uname_text.length = 17 := by decide
    apply (copy_out.spec k.user.memory address size uname_text _
      (holdsAll_of_user_range hargs.1) (by omega) (by omega)).bind
    intro memory hm
    have hresult : uname_text.length - 1 < 2 ^ 31 := by omega
    exact ⟨_, rfl, ⟨memory, rfl, hm⟩, .gives k _ hresult⟩
  · exact ⟨_, rfl, ⟨k.user.memory, rfl, Window.SameOutside.refl _ _ _⟩, .refuses k⟩

end mantle.syscall
