-- The way into ring 3: the checks of `ring3_diagnostics`, which only the
-- boot path makes, and what ring 3 can reach through the tables of `boot.S`.
import MantleOS.BootTables
import MantleOS.ElfLaws

open checked bytes paging

namespace mantle

open elf

/-! ## The checks before ring 3 -/

def mantle_gdt : List Nat :=
  [0x0000000000000000, 0x00af9a000000ffff, 0x00cf92000000ffff, 0x00cff2000000ffff,
    0x00affa000000ffff]

/-- The word that the diagnostics leave on the user stack. -/
def sentinel : Nat := 0x4d414e544c455553

def entry_index (entry : Nat) : Nat := (entry - 0x400000) / 4096 % 2 ^ 32
def stack_index (stack : Nat) : Nat := (stack - 1 - 0x400000) / 4096 % 2 ^ 32

/-- The entry's page is executable and not writable. -/
def entry_pte_ok (entry_pte : Nat) : Bool := entry_pte &&& 0x7 = 0x5 && entry_pte &&& PAGE_NX = 0

/-- The stack's page is writable and not executable. -/
def stack_pte_ok (stack_pte : Nat) : Bool := stack_pte &&& 0x7 = 0x7 && stack_pte &&& PAGE_NX ≠ 0

/-- The checks of the page tables. -/
def paging_ok (layout : Layout) (pages : Nat → Nat) (entry stack : Nat) : Bool :=
  entry_pte_ok (pages (entry_index entry)) && stack_pte_ok (pages (stack_index stack)) &&
    boot_quad layout 1024 &&& 0x4 = 0

/-- `*stack_word = sentinel`, byte by byte. -/
def write_word (memory : Window USER_BASE userSize) (address value : Nat) :
    Checked (Window USER_BASE userSize) :=
  forRange (fun i memory => do
    let b ← byteAt (wordBytes 8 value) i
    memory.store (address + i) b) 0 8 memory

/-- The user space after the diagnostics, and their result. `tss_loaded` is what
`mantle_tss_loaded` reads from the task register. -/
def ring3_diagnostics (layout : Layout) (tss_loaded : Bool) (user : UserSpace)
    (entry stack : Nat) : Checked (UserSpace × Bool) :=
  if mantle_gdt[3]? ≠ some 0x00cff2000000ffff ∨ mantle_gdt[4]? ≠ some 0x00affa000000ffff then
    .ok (user, false)
  else if !tss_loaded then .ok (user, false)
  else if stack < 0x400000 ∨ 0x600000 < stack ∨ stack &&& 0xf ≠ 0 then .ok (user, false)
  else do
    let memory ← write_word user.memory (stack - 8) sentinel
    let user := { user with memory }
    let word ← memory.loads (stack - 8) 8
    if leValue word ≠ sentinel then return (user, false)
    else if entry < 0x400000 ∨ 0x600000 ≤ entry ∨ 512 ≤ entry_index entry ∨
        512 ≤ stack_index stack then
      return (user, false)
    else return (user, paging_ok layout user.pages entry stack)

theorem write_word.spec (memory : Window USER_BASE userSize) (address value : Nat)
    (h1 : USER_BASE ≤ address) (h2 : address + 8 ≤ USER_LIMIT) :
    write_word memory address value =
      .ok (memory.filled (address - USER_BASE) 8 (fun i => (wordBytes 8 value).getD i 0)) := by
  apply forRange_fill
  intro i m hi
  have hlen := wordBytes_length 8 value
  have hheld : Window.Holds USER_BASE userSize (address + i) := by
    unfold USER_LIMIT at h2
    unfold Window.Holds userSize
    unfold USER_BASE at *
    omega
  rw [byteAt_eq (by omega), ok_bind, Window.store_eq _ hheld, List.getD_eq_getElem _ _ (by omega),
    show address + i - USER_BASE = address - USER_BASE + i by omega]

/-- The diagnostics never change the page table. -/
theorem ring3_diagnostics.pages {layout : Layout} {tss_loaded entered : Bool} {user u : UserSpace}
    {entry stack : Nat}
    (h : ring3_diagnostics layout tss_loaded user entry stack = .ok (u, entered)) :
    u.pages = user.pages := by
  unfold ring3_diagnostics at h
  split at h
  · cases h
    rfl
  split at h
  · cases h
    rfl
  split at h
  · cases h
    rfl
  obtain ⟨memory, _, h⟩ := bind_eq_ok.mp h
  obtain ⟨word, _, h⟩ := bind_eq_ok.mp h
  split at h
  · cases h
    rfl
  split at h
  · cases h
    rfl
  · cases h
    rfl

/-- The user memory with the word of the diagnostics on the stack. -/
def withSentinel (memory : Window USER_BASE userSize) : Window USER_BASE userSize :=
  memory.filled (elf.USER_STACK_TOP - 8 - USER_BASE) 8 (fun i => (wordBytes 8 sentinel).getD i 0)

/-- With the task register loaded, an entry in the window and the stack at the top, the
checks of the page tables decide. -/
theorem ring3_diagnostics.decides (layout : Layout) (user : UserSpace) (entry : Nat)
    (hentry : InWindow entry) :
    ring3_diagnostics layout true user entry elf.USER_STACK_TOP =
      .ok ({ user with memory := withSentinel user.memory },
        paging_ok layout user.pages entry elf.USER_STACK_TOP) := by
  have hword : (withSentinel user.memory).bytesAt (elf.USER_STACK_TOP - 8) 8 =
      wordBytes 8 sentinel := rfl
  have hheld : Window.HoldsAll USER_BASE userSize (elf.USER_STACK_TOP - 8) 8 := by
    intro k hk
    unfold Window.Holds userSize elf.USER_STACK_TOP USER_LIMIT USER_BASE
    omega
  have hlow : ¬ (entry < 0x400000 ∨ 0x600000 ≤ entry ∨ 512 ≤ entry_index entry ∨
      512 ≤ stack_index elf.USER_STACK_TOP) := by
    unfold InWindow at hentry
    unfold entry_index stack_index elf.USER_STACK_TOP
    unfold USER_LIMIT USER_BASE at *
    omega
  unfold ring3_diagnostics
  rw [if_neg (by decide), if_neg (by decide), if_neg (by decide),
    write_word.spec _ _ _ (by decide) (by decide), ok_bind]
  simp only
  rw [← withSentinel, Window.loads_eq hheld, ok_bind, hword,
    leValue_wordBytes 8 sentinel (by decide), if_neg (by simp), if_neg hlow]
  rfl

/-! ## What the loader leaves in the two pages -/

theorem entryWith_and_7 (layout : Layout) (index : Nat) (write nx : Bool) (h : index < 512) :
    entryWith layout index write nx &&& 0x7 = if write then 0x7 else 0x5 := by
  have halign := layout.memory_aligned
  rw [entryWith_eq layout index write nx h, show (0x7 : Nat) = 2 ^ 3 - 1 by rfl,
    Nat.and_two_pow_sub_one_eq_mod]
  cases write <;> cases nx <;> simp only [if_true, if_false, Bool.false_eq_true] <;> omega

theorem entryWith_and_nx (layout : Layout) (index : Nat) (write nx : Bool) (h : index < 512) :
    entryWith layout index write nx &&& PAGE_NX = if nx then PAGE_NX else 0 := by
  have hfits := layout.memory_fits
  unfold userSize at hfits
  rw [entryWith_eq layout index write nx h, show PAGE_NX = 2 ^ 63 by rfl, Nat.and_two_pow,
    Nat.testBit_eq_decide_div_mod_eq]
  cases nx
  · rw [decide_eq_false (by cases write <;> simp only [if_true, if_false, Bool.false_eq_true] <;>
      omega)]
    rfl
  · rw [decide_eq_true (by cases write <;> simp only [if_true, if_false, Bool.false_eq_true] <;>
      omega)]
    rfl

theorem entry_pte_ok_iff (layout : Layout) (index : Nat) (write nx : Bool) (h : index < 512) :
    entry_pte_ok (entryWith layout index write nx) = true ↔ write = false ∧ nx = false := by
  simp only [entry_pte_ok, entryWith_and_7 layout index write nx h,
    entryWith_and_nx layout index write nx h, Bool.and_eq_true, decide_eq_true_eq]
  cases write <;> cases nx <;> decide

theorem stack_pte_ok_iff (layout : Layout) (index : Nat) (write nx : Bool) (h : index < 512) :
    stack_pte_ok (entryWith layout index write nx) = true ↔ write = true ∧ nx = true := by
  simp only [stack_pte_ok, entryWith_and_7 layout index write nx h,
    entryWith_and_nx layout index write nx h, Bool.and_eq_true, decide_eq_true_eq]
  cases write <;> cases nx <;> decide

/-- The last segment with a byte in the entry's page is executable. -/
def EntryPageExecutable (image : Bytes) : Prop :=
  ∃ p, lastMeeting (segments image) (pageOf (headerOf image).entry) = some p ∧ executes p = true

/-- No segment has a byte in the last page of the stack, or the last one that has is
writable. -/
def StackPageWritable (image : Bytes) : Prop :=
  ∀ p, lastMeeting (segments image) 511 = some p → writes p = true

/-- What an accepted image says of its own load. -/
theorem mantle_elf_load.accepted {layout : Layout} {user u : UserSpace} {image : Bytes}
    {result : mantle_user_image}
    (h : mantle_elf_load layout user (some image) = .ok (u, some result)) :
    HeaderAccepted image ∧ SegmentsAccepted image ∧ u = placedUser layout user image ∧
      result = { entry := (headerOf image).entry, stack := USER_STACK_TOP } := by
  rw [mantle_elf_load.spec, loadM] at h
  split at h
  · rename_i hh
    split at h
    · rename_i hs
      cases h
      exact ⟨hh, hs, rfl, rfl⟩
    · cases h
  · cases h

/-- An image that passes the checks is loaded. -/
theorem mantle_elf_load.accepts (layout : Layout) (user : UserSpace) {image : Bytes}
    (hh : HeaderAccepted image) (hs : SegmentsAccepted image) :
    mantle_elf_load layout user (some image) = .ok (placedUser layout user image,
      some { entry := (headerOf image).entry, stack := USER_STACK_TOP }) := by
  rw [mantle_elf_load.spec, loadM, if_pos hh, if_pos hs]

theorem entry_inWindow {image : Bytes} (h : HeaderAccepted image) :
    InWindow (headerOf image).entry := by
  have := user_range_iff.mp h.2.2
  unfold InWindow USER_BASE USER_LIMIT
  omega

/-- A load of an accepted image leaves the entry's page ready exactly when the last segment
that meets it is executable. -/
theorem entry_page_after_load (layout : Layout) (user : UserSpace) (image : Bytes)
    (hh : HeaderAccepted image) (hs : SegmentsAccepted image) :
    entry_pte_ok ((placedUser layout user image).pages (pageOf (headerOf image).entry)) = true ↔
      EntryPageExecutable image := by
  have hlt := pageOf_lt (entry_inWindow hh)
  have hp := placed_eq_segments hs.1
  rw [placedUser_pages layout user image _ hlt, hp]
  unfold EntryPageExecutable
  cases hl : lastMeeting (segments image) (pageOf (headerOf image).entry) with
  | none => simp [entry_pte_ok_iff layout _ _ _ hlt]
  | some p =>
    have hfits : Fits p image.length := fits_of_lastMeeting (by rw [hp]; exact hl)
    simp only [entry_pte_ok_iff layout _ _ _ hlt, Option.some.injEq, exists_eq_left']
    cases hw : writes p with
    | false => simp
    | true => simp [hfits.not_both hw]

/-- A load of an accepted image leaves the last page of the stack ready exactly when no
segment takes it, or the last one that does is writable. -/
theorem stack_page_after_load (layout : Layout) (user : UserSpace) (image : Bytes)
    (hs : SegmentsAccepted image) :
    stack_pte_ok ((placedUser layout user image).pages 511) = true ↔ StackPageWritable image := by
  have hp := placed_eq_segments hs.1
  rw [placedUser_pages layout user image 511 (by omega), hp]
  unfold StackPageWritable
  cases hl : lastMeeting (segments image) 511 with
  | none => simp [stack_pte_ok_iff layout 511 _ _ (by omega)]
  | some p =>
    have hfits : Fits p image.length := fits_of_lastMeeting (by rw [hp]; exact hl)
    simp only [stack_pte_ok_iff layout 511 _ _ (by omega), Option.some.injEq, forall_eq']
    cases hw : writes p with
    | false => simp
    | true => simp [hfits.not_both hw]

/-- The checks of the page tables after a load. -/
theorem paging_ok_after_load (layout : Layout) (user : UserSpace) (image : Bytes)
    (hh : HeaderAccepted image) (hs : SegmentsAccepted image) :
    paging_ok layout (placedUser layout user image).pages (headerOf image).entry USER_STACK_TOP =
      true ↔ EntryPageExecutable image ∧ StackPageWritable image := by
  have hlt := pageOf_lt (entry_inWindow hh)
  have he : entry_index (headerOf image).entry = pageOf (headerOf image).entry := by
    unfold entry_index pageOf USER_BASE at *
    omega
  have hk : boot_quad layout 1024 &&& 0x4 = 0 := by
    simp [boot_quad]
  rw [← entry_page_after_load layout user image hh hs, ← stack_page_after_load layout user image hs]
  simp only [paging_ok, he, hk, Bool.and_eq_true, decide_eq_true_eq, and_true]
  rfl

/-! ## The laws -/

/-- An accepted image passes the page checks of the diagnostics exactly when the last
segment that meets the entry's page is executable, and the last one that meets the page
under the stack top, if there is one, is writable. -/
theorem ring3_pages_are_ready_iff (layout : Layout) (user u : UserSpace) (image : Bytes)
    (result : mantle_user_image)
    (h : mantle_elf_load layout user (some image) = .ok (u, some result)) :
    paging_ok layout u.pages result.entry result.stack = true ↔
      EntryPageExecutable image ∧ StackPageWritable image := by
  obtain ⟨hh, hs, rfl, rfl⟩ := mantle_elf_load.accepted h
  exact paging_ok_after_load layout user image hh hs

/-- An ELF file with the entry, the program headers and the bytes after them. -/
def elfFile (entry : Nat) (programs : List elf_program_header) (data : Bytes) : Bytes :=
  [0x7f, 69, 76, 70, 2, 1, 1, 0, 0, 0, 0, 0, 0, 0, 0, 0] ++ wordBytes 2 ET_EXEC ++
    wordBytes 2 EM_X86_64 ++ wordBytes 4 1 ++ wordBytes 8 entry ++ wordBytes 8 64 ++
    wordBytes 8 0 ++ wordBytes 4 0 ++ wordBytes 2 64 ++ wordBytes 2 56 ++
    wordBytes 2 programs.length ++ wordBytes 6 0 ++
    programs.flatMap (fun p => wordBytes 4 p.type ++ wordBytes 4 p.flags ++ wordBytes 8 p.offset ++
      wordBytes 8 p.vaddr ++ wordBytes 8 0 ++ wordBytes 8 p.filesz ++ wordBytes 8 p.memsz ++
      wordBytes 8 p.align) ++ data

/-- One executable segment that holds the entry. -/
def codeFile : Bytes :=
  elfFile 0x400000 [⟨PT_LOAD, 5, 120, 0x400000, 2, 2, 0⟩] [0xeb, 0xfe]

/-- A writable segment in the same page as the executable one, after it in the table. -/
def sharedPageFile : Bytes :=
  elfFile 0x400000 [⟨PT_LOAD, 5, 176, 0x400000, 2, 2, 0⟩, ⟨PT_LOAD, 6, 178, 0x400800, 1, 1, 0⟩]
    [0xeb, 0xfe, 7]

/-- The user space before the first load. -/
def zeroUser : UserSpace := { memory := ⟨fun _ => 0⟩, pages := fun _ => 0 }

theorem ring3_pages_are_ready_for_code_file :
    paging_ok someLayout (placedUser someLayout zeroUser codeFile).pages 0x400000 0x600000 = true ↔
      EntryPageExecutable codeFile ∧ StackPageWritable codeFile :=
  ring3_pages_are_ready_iff someLayout zeroUser _ codeFile ⟨0x400000, 0x600000⟩
    (mantle_elf_load.accepts someLayout zeroUser (by decide +kernel) (by decide +kernel))

/-- The loader accepts the file, and the entry's page is then not executable. -/
theorem a_later_segment_takes_the_entry_page :
    ∃ u result, mantle_elf_load someLayout zeroUser (some sharedPageFile) = .ok (u, some result) ∧
      paging_ok someLayout u.pages result.entry result.stack = false ∧
      u.pages (entry_index result.entry) &&& 0x7 = 0x7 ∧
      u.pages (entry_index result.entry) &&& PAGE_NX ≠ 0 :=
  ⟨_, _, mantle_elf_load.accepts someLayout zeroUser (by decide +kernel) (by decide +kernel),
    by decide +kernel, by decide +kernel, by decide +kernel⟩

/-! ## What ring 3 can reach -/

/-- Every walk passes `pml4_table`, whose entry has no U/S bit. -/
theorem not_canRead (layout : Layout) (pages rest : Nat → Nat) {a : Nat} (ha : a < 2 ^ 64) :
    ¬ CanRead (read_quad layout pages rest) layout.pml4_table a := by
  have hu : user (layout.pml4_table + 0x1000 + 0x003) = false :=
    user_table (by have := layout.pml4_aligned; omega)
  by_cases hhigh : 2 ^ 32 ≤ a
  · exact not_canRead_of_none (walk_high layout pages rest hhigh ha)
  by_cases hw : InWindow a
  · have hwalk := walk_window layout pages rest hw
    split at hwalk
    · exact not_canRead_of_supervisor hwalk (by simp [upperEntries]) hu
    · exact not_canRead_of_none hwalk
  · exact not_canRead_of_supervisor (walk_identity layout pages rest (by omega) hw)
      (by simp [upperEntries]) hu

/-- Ring 3 reaches the address as `user_page_table` says: it reads the window, writes where
the entry has WRITE, and fetches where the entry has no NX. -/
def ReachesAsMapped (layout : Layout) (pages rest : Nat → Nat) (a : Nat) : Prop :=
  (CanRead (read_quad layout pages rest) layout.pml4_table a ↔ InWindow a) ∧
  (CanWrite (read_quad layout pages rest) layout.pml4_table a ↔
    InWindow a ∧ writable (pages (pageOf a)) = true) ∧
  (CanFetch (read_quad layout pages rest) layout.pml4_table a ↔
    InWindow a ∧ noExecute (pages (pageOf a)) = false)

/-- After the load of any accepted image, ring 3 reaches an address as mapped exactly when
the address is outside the window: it reaches nothing at all. -/
theorem ring3_reaches_as_mapped_only_outside_the_window (layout : Layout) (user u : UserSpace)
    (rest : Nat → Nat) (image : Bytes) (result : mantle_user_image)
    (_h : mantle_elf_load layout user (some image) = .ok (u, some result)) (a : UInt64) :
    ReachesAsMapped layout u.pages rest a.toNat ↔ ¬ InWindow a.toNat := by
  have hread := not_canRead layout u.pages rest a.toNat_lt
  have hwrite : ¬ CanWrite (read_quad layout u.pages rest) layout.pml4_table a.toNat :=
    fun h => hread h.canRead
  have hfetch : ¬ CanFetch (read_quad layout u.pages rest) layout.pml4_table a.toNat :=
    fun h => hread h.canRead
  unfold ReachesAsMapped
  constructor
  · intro h hw
    exact hread (h.1.mpr hw)
  · intro hw
    simp [hread, hwrite, hfetch, hw]

theorem ring3_reaches_as_mapped_at_zero :
    ReachesAsMapped someLayout (placedUser someLayout zeroUser codeFile).pages (fun _ => 0) 0 ↔
      ¬ InWindow 0 :=
  ring3_reaches_as_mapped_only_outside_the_window someLayout zeroUser _ (fun _ => 0) codeFile
    ⟨0x400000, 0x600000⟩
    (mantle_elf_load.accepts someLayout zeroUser (by decide +kernel) (by decide +kernel)) 0

/-- The entry of a program that the loader accepted cannot be fetched. -/
theorem ring3_cannot_fetch_its_entry :
    (∃ u result, mantle_elf_load someLayout zeroUser (some codeFile) = .ok (u, some result) ∧
      result.entry = 0x400000 ∧ noExecute (u.pages (pageOf 0x400000)) = false ∧
      ¬ CanFetch (read_quad someLayout u.pages (fun _ => 0)) someLayout.pml4_table 0x400000 ∧
      ¬ ReachesAsMapped someLayout u.pages (fun _ => 0) 0x400000) := by
  refine ⟨_, _, mantle_elf_load.accepts someLayout zeroUser (by decide +kernel) (by decide +kernel),
    by decide +kernel, by decide +kernel, ?_, ?_⟩
  · intro h
    exact not_canRead someLayout _ _ (by decide) h.canRead
  · intro h
    exact not_canRead someLayout _ _ (by decide) (h.1.mpr (by decide))

end mantle
