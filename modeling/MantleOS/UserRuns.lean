-- How far a piece of a user program takes the machine: the text on the
-- console, the calls, the keys that are taken, and the buffers that may have
-- changed. Then what each stub comes to in these terms.
import MantleOS.Regions
import MantleOS.UserCalls

open checked bytes regions

namespace mantle.user

open rootfs elf syscall

variable {α β : Type} {layout : Layout} {p : Placement} {buffers : List Region} {t t' t'' : Task}
  {x : User α} {f : α → User β} {frame : mantle_syscall_frame} {address length : Nat}

/-! ## One piece after another -/

theorem bind_next {a : α} (h : x t = .ok (.next a t')) : (x >>= f) t = f a t' := by
  change (x t >>= fun c => c.andThen f) = _
  rw [h]
  rfl

theorem bind_waiting (h : x t = .ok (.waiting t')) : (x >>= f) t = .ok (.waiting t') := by
  change (x t >>= fun c => c.andThen f) = _
  rw [h]
  rfl

theorem bind_halted (h : x t = .ok (.halted t')) : (x >>= f) t = .ok (.halted t') := by
  change (x t >>= fun c => c.andThen f) = _
  rw [h]
  rfl

theorem bind_entered (h : x t = .ok (.entered t' frame)) : (x >>= f) t = .ok (.entered t' frame) := by
  change (x t >>= fun c => c.andThen f) = _
  rw [h]
  rfl

theorem inspect_next {read : Window USER_BASE userSize → Checked α} {a : α}
    (h : read t.kernel.user.memory = .ok a) : inspect read t = .ok (.next a t) := by
  unfold inspect
  rw [h]
  rfl

/-! ## How far a piece goes -/

/-- Every byte outside the buffers is as it was. -/
def KeepsOutside (buffers : List Region) (memory memory' : Window USER_BASE userSize) : Prop :=
  ∀ a, USER_BASE ≤ a → (∀ b ∈ buffers, ¬ b.Holds a) → memory'.byte a = memory.byte a

/-- From `t` to `t'` the program has put the text on the console, made the calls, and taken the
keys. It has changed no other part of the kernel, and memory only in its buffers. -/
structure Went (buffers : List Region) (t t' : Task) (text : Bytes) (calls : List Service)
    (taken : List UInt8) : Prop where
  console : t'.kernel.console = t.kernel.console ++ text
  calls : t'.calls = t.calls ++ calls
  keys : t.kernel.keyboard = taken ++ t'.kernel.keyboard
  rootfs : t'.kernel.rootfs = t.kernel.rootfs
  process : t'.kernel.process = t.kernel.process
  finished : t'.kernel.hello_finished = t.kernel.hello_finished
  seen : t.kernel.user_marker_seen = true → t'.kernel.user_marker_seen = true
  pages : t'.kernel.user.pages = t.kernel.user.pages
  memory : KeepsOutside buffers t.kernel.user.memory t'.kernel.user.memory

theorem Went.refl (buffers : List Region) (t : Task) : Went buffers t t [] [] [] := by
  constructor
  · rw [List.append_nil]
  · rw [List.append_nil]
  · rw [List.nil_append]
  · rfl
  · rfl
  · rfl
  · exact id
  · rfl
  · exact fun _ _ _ => rfl

theorem Went.trans {text text' : Bytes} {calls calls' : List Service} {taken taken' : List UInt8}
    (h : Went buffers t t' text calls taken) (h' : Went buffers t' t'' text' calls' taken') :
    Went buffers t t'' (text ++ text') (calls ++ calls') (taken ++ taken') := by
  constructor
  · rw [h'.console, h.console, List.append_assoc]
  · rw [h'.calls, h.calls, List.append_assoc]
  · rw [h.keys, h'.keys, List.append_assoc]
  · exact h'.rootfs.trans h.rootfs
  · exact h'.process.trans h.process
  · exact h'.finished.trans h.finished
  · exact fun hseen => h'.seen (h.seen hseen)
  · exact h'.pages.trans h.pages
  · exact fun a ha hout => (h'.memory a ha hout).trans (h.memory a ha hout)

/-- A string apart from the buffers stays. -/
theorem KeepsOutside.isString {memory memory' : Window USER_BASE userSize} {s : Bytes}
    (h : KeepsOutside buffers memory memory') (hs : IsString memory address s)
    (hapart : ∀ b ∈ buffers, Region.Apart ⟨address, s.length + 1⟩ b) :
    IsString memory' address s := by
  refine ⟨hs.short, hs.inWindow, hs.fits, ?_, hs.noNul⟩
  rw [← hs.bytes]
  apply List.map_congr_left
  intro i hi
  rw [List.mem_range] at hi
  have hbase := hs.inWindow.1
  apply h
  · omega
  · intro b hb
    apply (hapart b hb).not_holds
    unfold Region.Holds
    dsimp only
    omega

/-! ## The stubs -/

/-- The line of the first call from user space, when it has not been written. -/
def greeting (k : Kernel) : Bytes :=
  if k.user_marker_seen then [] else ascii "MANTLE_USERSPACE_OK\n"

/-- The kernel behind `mantle_syscall_entry` and the marker. -/
def noted (k : Kernel) : Kernel := note_user { k with syscall_origin_user := 1 }

theorem noted_eq (k : Kernel) : ∃ syscall_origin_user,
    noted k = { k with user_marker_seen := true, syscall_origin_user
                       console := k.console ++ greeting k } := by
  obtain ⟨rootfs, user, descriptors, process, seen, finished, origin, console, keyboard⟩ := k
  cases seen with
  | false =>
    refine ⟨0, ?_⟩
    unfold noted note_user greeting
    dsimp only
    rw [if_pos (by simp), if_neg (by simp), mantle_console_write, cstring_append_nul (by decide)]
  | true =>
    refine ⟨1, ?_⟩
    unfold noted note_user greeting
    dsimp only
    rw [if_neg (by simp), if_pos rfl, List.append_nil]

theorem greeting_of_seen {k : Kernel} (h : k.user_marker_seen = true) : greeting k = [] := by
  unfold greeting
  rw [if_pos h]

/-- A result that fits an `int32_t` is what the stub gives. -/
theorem answer_value {result : Int} (h : -1 ≤ result) (hlt : result < 2 ^ 31) :
    (frame.answer result).rax.toBitVec.toInt = result := by
  by_cases hneg : result < 0
  · have h1 : result = -1 := by omega
    subst h1
    rfl
  · rw [answer_nonneg frame (by omega)]
    have hnat : (UInt64.ofNat result.toNat).toBitVec = BitVec.ofNat 64 result.toNat := rfl
    rw [hnat, BitVec.toInt_ofNat', Int.bmod_def]
    omega

theorem stub_plain {k' : Kernel} {result : Int} (hplain : Plain frame.service)
    (h : serviceResult (noted t.kernel) frame = .ok (k', some result)) (hlow : -1 ≤ result)
    (hhigh : result < 2 ^ 31) :
    stub layout frame t = .ok (.next result { kernel := k', calls := t.calls ++ [frame.service] }) := by
  have hback : comesBack frame.service result = true := by
    obtain ⟨hexec, hexit, hreboot⟩ := hplain
    unfold comesBack
    cases hs : frame.service with
    | sys_exec => exact absurd hs hexec
    | sys_exit => exact absurd hs hexit
    | _ => rfl
  unfold noted at h
  unfold stub
  rw [dispatch_of_plain layout _ hplain, h]
  change (if comesBack frame.service (frame.answer result).rax.toBitVec.toInt then _ else _) = _
  rw [answer_value hlow hhigh, if_pos hback]
  rfl

theorem stub_waits {k' : Kernel} (hplain : Plain frame.service)
    (h : serviceResult (noted t.kernel) frame = .ok (k', none)) :
    stub layout frame t = .ok (.waiting { kernel := k', calls := t.calls ++ [frame.service] }) := by
  unfold noted at h
  unfold stub
  rw [dispatch_of_plain layout _ hplain, h]
  rfl

/-- A call whose frame has the entry of another program. -/
theorem stub_enters {k' : Kernel} {frame' : mantle_syscall_frame}
    (h : mantle_syscall_dispatch layout { t.kernel with syscall_origin_user := 1 } frame =
      .ok (.returned k' frame'))
    (haway : comesBack frame.service frame'.rax.toBitVec.toInt = false) :
    stub layout frame t =
      .ok (.entered { kernel := k', calls := t.calls ++ [frame.service] } frame') := by
  unfold stub
  rw [h]
  change (if comesBack frame.service frame'.rax.toBitVec.toInt then _ else _) = _
  rw [haway]
  rfl

/-- A call of one service, with the text that it puts on the console and the keys that it takes. -/
theorem went_of_noted {k' : Kernel} {service : Service} {text : Bytes} {taken : List UInt8}
    (hconsole : k'.console = (noted t.kernel).console ++ text)
    (hkeys : t.kernel.keyboard = taken ++ k'.keyboard)
    (hrest : k'.rootfs = t.kernel.rootfs ∧ k'.process = t.kernel.process ∧
      k'.hello_finished = t.kernel.hello_finished ∧ k'.user_marker_seen = true ∧
      k'.user.pages = t.kernel.user.pages)
    (hmemory : KeepsOutside buffers t.kernel.user.memory k'.user.memory) :
    Went buffers t { kernel := k', calls := t.calls ++ [service] } (greeting t.kernel ++ text) [service]
      taken := by
  obtain ⟨origin, hnoted⟩ := noted_eq t.kernel
  obtain ⟨hrootfs, hprocess, hfinished, hseen, hpages⟩ := hrest
  constructor
  · rw [hconsole, hnoted, List.append_assoc]
  · rfl
  · exact hkeys
  · exact hrootfs
  · exact hprocess
  · exact hfinished
  · exact fun _ => hseen
  · exact hpages
  · exact hmemory

/-- The numbers of a range of the window are as they were in the registers. -/
theorem range_words (h : user_range address length = true) :
    (UInt64.ofNat address).toNat = address ∧ (UInt64.ofNat length).toNat = length := by
  obtain ⟨h1, h2⟩ := user_range_iff.mp h
  constructor
  · rw [UInt64.toNat_ofNat_of_lt']
    unfold UInt64.size
    omega
  · rw [UInt64.toNat_ofNat_of_lt']
    unfold UInt64.size
    omega

theorem range_of_isString {memory : Window USER_BASE userSize} {s : Bytes}
    (h : IsString memory address s) : user_range address s.length = true := by
  have hfits := h.fits
  have hbase := h.inWindow.1
  rw [user_range_iff]
  unfold USER_BASE USER_LIMIT at *
  omega

theorem mantle_write.spec {s : Bytes} (h : IsString t.kernel.user.memory address s) :
    ∃ t', mantle_write layout p 1 address s.length t = .ok (.next s.length t') ∧
      t'.kernel.user_marker_seen = true ∧
      Went buffers t t' (greeting t.kernel ++ s) [.sys_write] [] := by
  obtain ⟨origin, hnoted⟩ := noted_eq t.kernel
  have hrange := range_of_isString h
  have hlt := lt_of_user_range hrange
  obtain ⟨haddress, hlength⟩ := range_words hrange
  have hstring : IsString (noted t.kernel).user.memory address s := by
    rw [hnoted]
    exact h
  have hcall : serviceResult (noted t.kernel)
      { p.regs with rax := 1, rdi := .ofNat 1, rsi := .ofNat address, rdx := .ofNat s.length } =
      .ok ({ noted t.kernel with console := (noted t.kernel).console ++ s }, some (s.length : Int)) := by
    change (fun r : Kernel × Int => (r.1, some r.2)) <$>
      syscall_write (noted t.kernel) 1 (UInt64.ofNat address).toNat (UInt64.ofNat s.length).toNat = _
    rw [haddress, hlength, syscall_write_text hstring]
    rfl
  have hplain : Plain .sys_write := by decide
  refine ⟨_, stub_plain hplain hcall (by omega) (by omega), ?_, ?_⟩
  · dsimp only
    rw [hnoted]
  · apply went_of_noted
    · rfl
    · rw [hnoted]
      rfl
    · rw [hnoted]
      exact ⟨rfl, rfl, rfl, rfl, rfl⟩
    · rw [hnoted]
      exact fun _ _ _ => rfl

/-! ## The calls that fill a buffer -/

variable {memory : Window USER_BASE userSize} {service : Service} {keyboard taken : List UInt8}

theorem keepsOutside_of_same {size : Nat}
    (h : t.kernel.user.memory.SameOutside memory address length)
    (hbuffer : ⟨address, size⟩ ∈ buffers) (hsize : length ≤ size) :
    KeepsOutside buffers t.kernel.user.memory memory := by
  intro a ha hout
  apply h a ha
  rintro ⟨hlow, hhigh⟩
  apply hout _ hbuffer
  unfold Region.Holds
  dsimp only
  omega

/-- A call that fills a buffer of the program, and may take keys. -/
theorem went_buffer {size : Nat} (hseen : t.kernel.user_marker_seen = true)
    (hsame : t.kernel.user.memory.SameOutside memory address length)
    (hbuffer : ⟨address, size⟩ ∈ buffers) (hsize : length ≤ size)
    (hkeys : t.kernel.keyboard = taken ++ keyboard) :
    Went buffers t
      { kernel := { (noted t.kernel).withMemory memory with keyboard }, calls := t.calls ++ [service] } []
      [service] taken := by
  obtain ⟨origin, hnoted⟩ := noted_eq t.kernel
  have hwent : Went buffers t
      { kernel := { (noted t.kernel).withMemory memory with keyboard }, calls := t.calls ++ [service] }
      (greeting t.kernel ++ []) [service] taken := by
    apply went_of_noted
    · rw [List.append_nil]
      rfl
    · exact hkeys
    · rw [hnoted]
      exact ⟨rfl, rfl, rfl, rfl, rfl⟩
    · exact keepsOutside_of_same hsame hbuffer hsize
  rwa [greeting_of_seen hseen, List.append_nil] at hwent

/-- A string that was put into a buffer, with bytes after its NUL. -/
theorem isString_putAll {s rest : Bytes} (hbase : USER_BASE ≤ address)
    (hfits : address + s.length < USER_LIMIT) (hshort : s.length < MAX_PATH) (hnul : 0 ∉ s) :
    IsString (memory.putAll address (s ++ 0 :: rest)) address s := by
  refine ⟨hshort, ⟨hbase, by omega⟩, hfits, ?_, hnul⟩
  have hle : s.length + 1 ≤ (s ++ 0 :: rest).length := by
    rw [List.length_append, List.length_cons]
    omega
  have hsplit : s ++ 0 :: rest = (s ++ [0]) ++ rest := by simp
  have hback := Window.bytesAt_putAll memory (s ++ 0 :: rest) hbase
  rw [← Window.bytesAt_take _ _ hle, hback, hsplit, List.take_left' (by simp)]

/-- A read takes the first codes of the stream. -/
theorem typed_split (key : UInt8 → Option UInt8) (left : Nat) (codes : List UInt8) :
    codes = (typed key left codes).codes ++ (typed key left codes).rest := by
  induction codes generalizing left with
  | nil => cases left <;> rfl
  | cons scan rest ih =>
    cases left with
    | zero => rfl
    | succ left =>
      unfold typed
      cases key scan with
      | none => exact congrArg (scan :: ·) (ih (left + 1))
      | some c =>
        dsimp only
        split
        · rfl
        · exact congrArg (scan :: ·) (ih left)

theorem typed_text_length (key : UInt8 → Option UInt8) (left : Nat) (codes : List UInt8) :
    (typed key left codes).text.length ≤ left := by
  induction codes generalizing left with
  | nil => cases left <;> exact Nat.zero_le _
  | cons scan rest ih =>
    cases left with
    | zero => exact Nat.le_refl _
    | succ left =>
      unfold typed
      cases key scan with
      | none => exact ih (left + 1)
      | some c =>
        dsimp only
        split
        · exact Nat.succ_le_succ (Nat.zero_le left)
        · exact Nat.succ_le_succ (ih left)

/-- What a read comes to when it has its characters, and when it waits for more keys. -/
theorem mantle_read.spec {size : Nat} (hseen : t.kernel.user_marker_seen = true) (hlength : length ≠ 0)
    (hrange : user_range address length = true) (hbuffer : ⟨address, size⟩ ∈ buffers)
    (hsize : length ≤ size) :
    ∃ t', mantle_read layout p 0 address length t =
        .ok (if (typed decoded length t.kernel.keyboard).ended then
          .next (typed decoded length t.kernel.keyboard).text.length t' else .waiting t') ∧
      Went buffers t t' [] [.sys_read] (typed decoded length t.kernel.keyboard).codes ∧
      t'.kernel.keyboard = (typed decoded length t.kernel.keyboard).rest ∧
      t'.kernel.user.memory.bytesAt address (typed decoded length t.kernel.keyboard).text.length =
        (typed decoded length t.kernel.keyboard).text := by
  obtain ⟨origin, hnoted⟩ := noted_eq t.kernel
  obtain ⟨haddress, hword⟩ := range_words hrange
  have hbase := (user_range_iff.mp hrange).1
  have hlt := lt_of_user_range hrange
  have hcall : serviceResult (noted t.kernel)
      { p.regs with rax := 0, rdi := .ofNat 0, rsi := .ofNat address, rdx := .ofNat length } =
      .ok ((noted t.kernel).afterRead address (typed decoded length t.kernel.keyboard),
        (typed decoded length t.kernel.keyboard).result 0) := by
    change syscall_read (noted t.kernel) 0 (UInt64.ofNat address).toNat (UInt64.ofNat length).toNat = _
    rw [haddress, hword, syscall_read_eq _ hlength hrange, hnoted]
  have hsplit := typed_split decoded length t.kernel.keyboard
  have hshort := typed_text_length decoded length t.kernel.keyboard
  generalize typed decoded length t.kernel.keyboard = r at *
  have hsame : t.kernel.user.memory.SameOutside (t.kernel.user.memory.putAll address r.text) address
      length := Window.SameOutside.putAll _ _ hbase ⟨Nat.le_refl _, by omega⟩
  have hmemory : (noted t.kernel).afterRead address r =
      { (noted t.kernel).withMemory (t.kernel.user.memory.putAll address r.text) with
        keyboard := r.rest } := by
    rw [hnoted]
    rfl
  have hplain : Plain .sys_read := by decide
  rw [hmemory] at hcall
  refine ⟨_, ?_, went_buffer hseen hsame hbuffer hsize hsplit, rfl,
    Window.bytesAt_putAll _ r.text hbase⟩
  unfold Typed.result at hcall
  cases hended : r.ended with
  | true =>
    rw [hended, if_pos rfl, Nat.zero_add] at hcall
    exact stub_plain hplain hcall (by omega) (by omega)
  | false =>
    rw [hended, if_neg (by decide)] at hcall
    exact stub_waits hplain hcall

theorem mantle_getcwd.spec {size : Nat} (hseen : t.kernel.user_marker_seen = true)
    (hcwd : t.kernel.process.cwd = rootDirectory) (hlength : 2 ≤ length)
    (hrange : user_range address length = true) (hbuffer : ⟨address, size⟩ ∈ buffers)
    (hsize : length ≤ size) :
    ∃ t', mantle_getcwd layout p address length t = .ok (.next 1 t') ∧
      Went buffers t t' [] [.sys_getcwd] [] ∧ IsString t'.kernel.user.memory address [47] := by
  obtain ⟨origin, hnoted⟩ := noted_eq t.kernel
  obtain ⟨haddress, hword⟩ := range_words hrange
  obtain ⟨hbase, hend⟩ := user_range_iff.mp hrange
  have hcall : serviceResult (noted t.kernel)
      { p.regs with rax := 10, rdi := .ofNat address, rsi := .ofNat length } =
      .ok ({ (noted t.kernel).withMemory (t.kernel.user.memory.putAll address [47, 0]) with
        keyboard := t.kernel.keyboard }, some 1) := by
    change (fun r : Kernel × Int => (r.1, some r.2)) <$>
      sys_getcwd (noted t.kernel) (UInt64.ofNat address).toNat (UInt64.ofNat length).toNat = _
    rw [haddress, hword, sys_getcwd_root (by rw [hnoted]; exact hcwd) hlength hrange, hnoted]
    rfl
  have hsame : t.kernel.user.memory.SameOutside (t.kernel.user.memory.putAll address [47, 0]) address
      length := Window.SameOutside.putAll _ _ hbase ⟨Nat.le_refl _, by simpa using by omega⟩
  have hplain : Plain .sys_getcwd := by decide
  refine ⟨_, stub_plain hplain hcall (by decide) (by decide),
    went_buffer hseen hsame hbuffer hsize (List.nil_append _).symm, ?_⟩
  exact @isString_putAll address t.kernel.user.memory [47] [] hbase
    (by unfold USER_LIMIT; simp only [List.length_singleton]; omega) (by decide) (by decide)

theorem mantle_uname.spec {size : Nat} (hseen : t.kernel.user_marker_seen = true)
    (hlength : 18 ≤ length) (hrange : user_range address length = true)
    (hbuffer : ⟨address, size⟩ ∈ buffers) (hsize : length ≤ size) :
    ∃ t', mantle_uname layout p address length t = .ok (.next 16 t') ∧
      Went buffers t t' [] [.sys_uname] [] ∧
      IsString t'.kernel.user.memory address (ascii "MantleOS x86_64") := by
  obtain ⟨origin, hnoted⟩ := noted_eq t.kernel
  obtain ⟨haddress, hword⟩ := range_words hrange
  obtain ⟨hbase, hend⟩ := user_range_iff.mp hrange
  have hname : (ascii "MantleOS x86_64").length = 15 := by decide
  have hcall : serviceResult (noted t.kernel)
      { p.regs with rax := 14, rdi := .ofNat address, rsi := .ofNat length } =
      .ok ({ (noted t.kernel).withMemory
          (t.kernel.user.memory.putAll address (ascii "MantleOS x86_64" ++ [0, 0])) with
        keyboard := t.kernel.keyboard }, some 16) := by
    change (fun r : Kernel × Int => (r.1, some r.2)) <$>
      sys_uname (noted t.kernel) (UInt64.ofNat address).toNat (UInt64.ofNat length).toNat = _
    rw [haddress, hword, sys_uname_text hlength hrange, hnoted]
    rfl
  have hsame : t.kernel.user.memory.SameOutside
      (t.kernel.user.memory.putAll address (ascii "MantleOS x86_64" ++ [0, 0])) address length := by
    apply Window.SameOutside.putAll _ _ hbase
    rw [List.length_append, hname]
    exact ⟨Nat.le_refl _, by simpa using by omega⟩
  have hplain : Plain .sys_uname := by decide
  refine ⟨_, stub_plain hplain hcall (by decide) (by decide),
    went_buffer hseen hsame hbuffer hsize (List.nil_append _).symm, ?_⟩
  exact @isString_putAll address t.kernel.user.memory (ascii "MantleOS x86_64") [0] hbase
    (by unfold USER_LIMIT; omega) (by decide) (by decide)

/-- The string up to the first NUL of a text that stands in a buffer. -/
theorem isString_cstring {text : Bytes} (hbase : USER_BASE ≤ address)
    (hfits : address + text.length < USER_LIMIT) (hshort : text.length < MAX_PATH)
    (hbytes : memory.bytesAt address (text.length + 1) = text ++ [0]) :
    IsString memory address (cstring text) := by
  have hle : (cstring text).length ≤ text.length := (List.takeWhile_prefix _).length_le
  refine ⟨by omega, ⟨hbase, by omega⟩, by omega, ?_, notMem_cstring text⟩
  have htake := Window.bytesAt_take memory address
    (show (cstring text).length + 1 ≤ text.length + 1 by omega)
  rw [hbytes] at htake
  rw [← htake]
  by_cases hnul : 0 ∈ text
  · have hlt := cstring_length_lt hnul
    rw [List.take_append_of_le_length (by omega)]
    exact take_cstring hnul
  · rw [cstring_of_notMem hnul, List.take_of_length_le (by simp)]

theorem mantle_readdir.spec {size path : Nat} {blob : Blob} (hseen : t.kernel.user_marker_seen = true)
    (hroot : t.kernel.rootfs = mountedState blob) (ha : Accepts blob.content)
    (hpath : IsString t.kernel.user.memory path [47]) (hrange : user_range address length = true)
    (hlength : length ≤ MAX_PATH) (hbuffer : ⟨address, size⟩ ∈ buffers) (hsize : length ≤ size) :
    ∃ t', mantle_readdir layout p path address length t =
        .ok (.next (listingResult (listed t.kernel.rootfs) length) t') ∧
      Went buffers t t' [] [.sys_readdir] [] ∧
      ∀ text, listingText (listed t.kernel.rootfs) length = some text →
        IsString t'.kernel.user.memory address (cstring text) := by
  obtain ⟨origin, hnoted⟩ := noted_eq t.kernel
  obtain ⟨haddress, hword⟩ := range_words hrange
  obtain ⟨hbase, hend⟩ := user_range_iff.mp hrange
  have hlt := lt_of_user_range hrange
  have hpathword := (range_words (range_of_isString hpath)).1
  have hroot' : (noted t.kernel).rootfs = mountedState blob := by
    rw [hnoted]
    exact hroot
  have hpath' : IsString (noted t.kernel).user.memory path [47] := by
    rw [hnoted]
    exact hpath
  have hsize' : ∀ text, listingText (listed t.kernel.rootfs) length = some text →
      text.length + 1 < length := by
    intro text htext
    unfold listingText at htext
    split at htext
    · cases htext
      rw [List.length_append, List.length_dropLast, List.length_singleton]
      omega
    · cases htext
  obtain ⟨⟨k', n⟩, hrun, ⟨memory, hk', hsame, hbytes⟩, hn⟩ := sys_readdir_root hroot' ha hpath' hrange
  have hcall : serviceResult (noted t.kernel)
      { p.regs with rax := 13, rdi := .ofNat path, rsi := .ofNat address, rdx := .ofNat length } =
      .ok ({ (noted t.kernel).withMemory memory with keyboard := t.kernel.keyboard }, some n) := by
    change (fun r : Kernel × Int => (r.1, some r.2)) <$> sys_readdir (noted t.kernel)
      (UInt64.ofNat path).toNat (UInt64.ofNat address).toNat (UInt64.ofNat length).toNat = _
    rw [hpathword, haddress, hword, hrun, hnoted] at *
    dsimp only at hk'
    rw [hk']
    rfl
  rw [show listed (noted t.kernel).rootfs = listed t.kernel.rootfs by rw [hnoted]] at hn hbytes
  dsimp only at hn
  rw [← hn]
  have hplain : Plain .sys_readdir := by decide
  have hmemory : t.kernel.user.memory.SameOutside memory address length := by
    rw [hnoted] at hsame
    exact hsame
  have hrange' : -1 ≤ n ∧ n < 2 ^ 31 := by
    rw [hn]
    unfold listingResult
    cases htext : listingText (listed t.kernel.rootfs) length with
    | none => decide
    | some text =>
      have hfit := hsize' text htext
      dsimp only
      omega
  refine ⟨_, stub_plain hplain hcall hrange'.1 hrange'.2,
    went_buffer hseen hmemory hbuffer hsize (List.nil_append _).symm, ?_⟩
  intro text htext
  have hfit := hsize' text htext
  unfold MAX_PATH at hlength
  apply isString_cstring hbase
  · unfold USER_LIMIT
    omega
  · unfold MAX_PATH
    omega
  · exact hbytes text htext

/-! ## The calls that do not come back -/

/-- The processor goes on in the program of the file, with what the caller had of the machine. -/
structure HandsTo (layout : Layout) (t t' : Task) (frame : mantle_syscall_frame) (data : Bytes)
    (service : Service) : Prop where
  rip : frame.rip = .ofNat (headerOf data).entry
  rsp : frame.rsp = .ofNat USER_STACK_TOP
  space : t'.kernel.user = placedUser layout t.kernel.user data
  console : t'.kernel.console = t.kernel.console ++ greeting t.kernel
  calls : t'.calls = t.calls ++ [service]
  keys : t'.kernel.keyboard = t.kernel.keyboard
  rootfs : t'.kernel.rootfs = t.kernel.rootfs
  cwd : t'.kernel.process.cwd = t.kernel.process.cwd
  seen : t'.kernel.user_marker_seen = true

theorem mantle_exec.spec {path data : Bytes} (hgood : Good t.kernel.rootfs)
    (hpath : IsString t.kernel.user.memory address path) (hloads : Loads t.kernel.rootfs path data) :
    ∃ t' frame, mantle_exec layout p address t = .ok (.entered t' frame) ∧
      HandsTo layout t t' frame data .sys_exec ∧
      t'.kernel.hello_finished = t.kernel.hello_finished := by
  obtain ⟨origin, hnoted⟩ := noted_eq t.kernel
  have haddress := (range_words (range_of_isString hpath)).1
  have hgood' : Good (noted t.kernel).rootfs := by
    rw [hnoted]
    exact hgood
  let frame : mantle_syscall_frame := { p.regs with rax := 6, rdi := .ofNat address }
  have hexec : execM layout (noted t.kernel) frame address =
      ({ noted t.kernel with user := placedUser layout t.kernel.user data },
        { frame with rip := .ofNat (headerOf data).entry, rsp := .ofNat USER_STACK_TOP }, 0) := by
    unfold execM
    rw [hnoted]
    dsimp only
    rw [userString_eq hpath, Option.bind_some, hloads.file]
    dsimp only
    rw [hloads.loadM_eq]
  have hcall : mantle_syscall_dispatch layout { t.kernel with syscall_origin_user := 1 } frame =
      .ok (answered { frame with rip := .ofNat (headerOf data).entry, rsp := .ofNat USER_STACK_TOP }
        ({ noted t.kernel with user := placedUser layout t.kernel.user data }, 0)) := by
    change (do
      let next ← syscall_exec layout (noted t.kernel) frame (UInt64.ofNat address).toNat
      return answered next.2.1 (next.1, next.2.2)) = _
    rw [haddress, syscall_exec.spec layout _ _ _ hgood', ok_bind, hexec]
    rfl
  refine ⟨{ kernel := { noted t.kernel with user := placedUser layout t.kernel.user data }
            calls := t.calls ++ [.sys_exec] },
    mantle_syscall_frame.answer
      { frame with rip := .ofNat (headerOf data).entry, rsp := .ofNat USER_STACK_TOP } 0,
    stub_enters hcall rfl, ⟨rfl, rfl, rfl, ?_, rfl, ?_, ?_, ?_, ?_⟩, ?_⟩
  all_goals
    dsimp only
    rw [hnoted]

/-- An exit after another one halts the machine. -/
theorem mantle_exit.halts (status : Nat) (hgood : Good t.kernel.rootfs)
    (hfinished : t.kernel.hello_finished = true) :
    ∃ t', mantle_exit layout p status t = .ok (.halted t') ∧
      t'.kernel.console = t.kernel.console ++ (greeting t.kernel ++ ascii "MANTLE_USERSPACE_EXIT\n") ∧
      t'.calls = t.calls ++ [.sys_exit] ∧ t'.kernel.process.cwd = t.kernel.process.cwd := by
  obtain ⟨origin, hnoted⟩ := noted_eq t.kernel
  have hgood' : Good (noted t.kernel).rootfs := by
    rw [hnoted]
    exact hgood
  have hnone : initFile (noted t.kernel) = none := by
    unfold initFile
    rw [hnoted, if_pos hfinished]
  let frame : mantle_syscall_frame := { p.regs with rax := 11, rdi := .ofNat status }
  have hcall : mantle_syscall_dispatch layout { t.kernel with syscall_origin_user := 1 } frame =
      .ok (.halted (haltedKernel (noted t.kernel) frame)) := by
    change sys_exit layout (noted t.kernel) frame = _
    rw [sys_exit.eq layout _ _ hgood']
    unfold exitM
    rw [hnone]
  refine ⟨{ kernel := haltedKernel (noted t.kernel) frame, calls := t.calls ++ [.sys_exit] }, ?_, ?_, rfl,
    ?_⟩
  · unfold mantle_exit stub
    rw [hcall]
    rfl
  · unfold haltedKernel mantle_console_write
    rw [cstring_append_nul (by decide), hnoted, List.append_assoc]
  · unfold haltedKernel
    rw [hnoted]
    rfl

theorem exitM_hands {k : Kernel} {data : Bytes} {user : UserSpace} {image : mantle_user_image}
    (hfile : initFile k = some data) (hload : loadM layout k.user data = (user, some image)) :
    exitM layout k frame = .returned
      { k with
        user, hello_finished := true
        process := { k.process with
          state := .ready, exit_code := syscall.int32 frame.rdi.toNat } }
      { frame with rip := .ofNat image.entry, rsp := .ofNat image.stack, rax := -1 } := by
  unfold exitM
  rw [hfile]
  dsimp only
  rw [hload]

/-- The first exit hands the machine to `/sbin/init`. -/
theorem mantle_exit.hands (status : Nat) {data : Bytes} (hgood : Good t.kernel.rootfs)
    (hfinished : t.kernel.hello_finished = false)
    (hloads : Loads t.kernel.rootfs (ascii "/sbin/init") data) :
    ∃ t' frame, mantle_exit layout p status t = .ok (.entered t' frame) ∧
      HandsTo layout t t' frame data .sys_exit ∧ t'.kernel.hello_finished = true := by
  obtain ⟨origin, hnoted⟩ := noted_eq t.kernel
  have hgood' : Good (noted t.kernel).rootfs := by
    rw [hnoted]
    exact hgood
  have hfile : initFile (noted t.kernel) = some data := by
    unfold initFile
    rw [hnoted, if_neg (by simp [hfinished])]
    exact hloads.file
  have hcall : mantle_syscall_dispatch layout { t.kernel with syscall_origin_user := 1 }
      { p.regs with rax := 11, rdi := .ofNat status } =
      .ok (exitM layout (noted t.kernel) { p.regs with rax := 11, rdi := .ofNat status }) := by
    change sys_exit layout (noted t.kernel) { p.regs with rax := 11, rdi := .ofNat status } = _
    rw [sys_exit.eq layout _ _ hgood']
  rw [exitM_hands hfile (hloads.loadM_eq _)] at hcall
  refine ⟨_, _, stub_enters hcall rfl, ?_, rfl⟩
  constructor
  · rfl
  · rfl
  · dsimp only
    rw [hnoted]
  · dsimp only
    rw [hnoted]
  · rfl
  · dsimp only
    rw [hnoted]
  · dsimp only
    rw [hnoted]
  · dsimp only
    rw [hnoted]
  · dsimp only
    rw [hnoted]

end mantle.user
