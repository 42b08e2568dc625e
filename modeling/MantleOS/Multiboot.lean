-- The block that the boot loader hands over: the walk over its tags to the
-- module of the root file system, and where that module may stand.
import MantleOS.BootTables

open checked bytes paging

namespace mantle

/-- The block of the boot loader, at the 32-bit address that `boot.S` takes from `%ebx`. -/
structure BootInfo where
  address : Nat
  content : Bytes
  address_lt : address < 2 ^ 32

namespace BootInfo

/-- A little-endian word of the block. -/
def word (info : BootInfo) (address n : Nat) : Checked Nat :=
  if info.address ≤ address then wordAt info.content (address - info.address) n
  else .error (.bounds address info.address)

/-- The bytes of the block from an address on. -/
def text (info : BootInfo) (address n : Nat) : Checked Bytes :=
  if info.address ≤ address then sliceAt info.content (address - info.address) n
  else .error (.bounds address info.address)

end BootInfo

def MB2_TAG_MODULE : Nat := 3
def MB2_MODULE_PREFIX_SIZE : Nat := 16
def MB2_ROOTFS_CMDLINE : Bytes := ascii "mantle-rootfs"
def MB2_ROOTFS_CMDLINE_LENGTH : Nat := 13

structure mantle_mb2_module where
  start : Nat
  finish : Nat
  size : Nat
  deriving DecidableEq

/-- The loop that compares the command line with a text, and stops at the first difference. -/
def same_text (info : BootInfo) (address : Nat) : Bytes → Checked Bool
  | [] => .ok true
  | c :: cs => do
    let b ← info.word address 1
    if b ≠ c.toNat then return false else same_text info (address + 1) cs

def mantle_mb2_parse_module (info : BootInfo) (tag available_size : Nat) :
    Checked (Option mantle_mb2_module) :=
  if tag = 0 ∨ available_size < MB2_MODULE_PREFIX_SIZE then .ok none
  else do
    let size ← info.word (tag + 4) 4
    let type ← info.word tag 4
    if size < MB2_MODULE_PREFIX_SIZE ∨ available_size < size ∨ type ≠ MB2_TAG_MODULE then
      return none
    else
      let mod_start ← info.word (tag + 8) 4
      let mod_end ← info.word (tag + 12) 4
      if mod_end ≤ mod_start then return none
      else if size - MB2_MODULE_PREFIX_SIZE ≠ MB2_ROOTFS_CMDLINE_LENGTH + 1 then return none
      else
        let same ← same_text info (tag + 16) MB2_ROOTFS_CMDLINE
        if !same then return none
        else
          let last ← info.word (tag + 16 + MB2_ROOTFS_CMDLINE_LENGTH) 1
          if last ≠ 0 then return none
          else return some { start := mod_start, finish := mod_end, size := mod_end - mod_start }

/-- `(size + 7u) & ~7u`. -/
def round8 (size : Nat) : Nat := (size + 7) % 2 ^ 32 / 8 * 8

/-- What the walk does with a tag of type 3. It prints the whole command line before it asks
`mantle_mb2_parse_module`; of the print only the reads are kept. -/
def module_tag (info : BootInfo) (cursor type size : Nat) : Checked (Option mantle_mb2_module) :=
  if type = 3 ∧ 16 ≤ size then do
    let _ ← info.word (cursor + 8) 4
    let _ ← info.word (cursor + 12) 4
    let _ ← info.text (cursor + 16) (size - 16)
    mantle_mb2_parse_module info cursor size
  else .ok none

/-- The loop of `find_rootfs`. The block is at most 1 MiB long, so that no size that passes
the check comes near the wrap of `round8`. -/
def scan_tags (info : BootInfo) (finish cursor : Nat) (hblock : finish ≤ cursor + 0x100000) :
    Checked (Except Int mantle_mb2_module) :=
  if cursor + 8 ≤ finish then do
    let type ← info.word cursor 4
    let size ← info.word (cursor + 4) 4
    if hbad : size < 8 ∨ finish < cursor + size ∨ cursor + round8 size < cursor then
      return .error (-2)
    else if type = 0 then return .error (-1)
    else
      let found ← module_tag info cursor type size
      match found with
      | some module => return .ok module
      | none => scan_tags info finish (cursor + round8 size) (by omega)
  else .ok (.error (-1))
termination_by finish - cursor
decreasing_by
  unfold round8
  omega

/-- The module, or the negative result. -/
def find_rootfs (info : BootInfo) : Checked (Except Int mantle_mb2_module) :=
  if info.address = 0 then .ok (.error (-1))
  else do
    let total_size ← info.word info.address 4
    if hsize : total_size < 8 ∨ 0x100000 < total_size then return .error (-2)
    else scan_tags info (info.address + total_size) (info.address + 8) (by omega)

/-- The check of `mantle_kernel_main` behind MANTLE_ROOTFS_MAPPING_ERROR. -/
def mapping_error (rootfs_image rootfs_size : Nat) : Bool :=
  0xffffffff - rootfs_image % 2 ^ 32 < rootfs_size ||
    (rootfs_image + rootfs_size) % 2 ^ 64 < rootfs_image

/-! ## What the walk finds -/

/-- At the address stands a tag of type 3 and size 30 with the command line of the root file
system and this range. -/
structure RootfsTag (info : BootInfo) (tag mod_start mod_end : Nat) : Prop where
  type : info.word tag 4 = .ok MB2_TAG_MODULE
  size : info.word (tag + 4) 4 = .ok 30
  start : info.word (tag + 8) 4 = .ok mod_start
  finish : info.word (tag + 12) 4 = .ok mod_end
  cmdline : same_text info (tag + 16) MB2_ROOTFS_CMDLINE = .ok true
  nul : info.word (tag + 29) 1 = .ok 0
  nonempty : mod_start < mod_end

theorem BootInfo.word_lt {info : BootInfo} {address n v : Nat} (h : info.word address n = .ok v) :
    v < 256 ^ n := by
  unfold word at h
  split at h
  · unfold wordAt at h
    split at h
    · cases h
      exact wordOf_lt _ _ _
    · cases h
  · cases h

/-- What `mantle_mb2_parse_module` accepts is a tag of the root file system. -/
theorem mantle_mb2_parse_module.accepts {info : BootInfo} {tag available_size : Nat}
    {m : mantle_mb2_module}
    (h : mantle_mb2_parse_module info tag available_size = .ok (some m)) :
    RootfsTag info tag m.start m.finish ∧ m.size = m.finish - m.start := by
  unfold mantle_mb2_parse_module at h
  split at h
  · cases h
  obtain ⟨size, hsize, h⟩ := bind_eq_ok.mp h
  obtain ⟨type, htype, h⟩ := bind_eq_ok.mp h
  split at h
  · cases h
  rename_i hbounds
  obtain ⟨mod_start, hstart, h⟩ := bind_eq_ok.mp h
  obtain ⟨mod_end, hend, h⟩ := bind_eq_ok.mp h
  split at h
  · cases h
  rename_i hrange
  split at h
  · cases h
  rename_i hlength
  obtain ⟨same, hsame, h⟩ := bind_eq_ok.mp h
  split at h
  · cases h
  rename_i hs
  obtain ⟨last, hlast, h⟩ := bind_eq_ok.mp h
  split at h
  · cases h
  rename_i hnul
  cases h
  have htype3 : type = MB2_TAG_MODULE := by
    by_contra hne
    exact hbounds (Or.inr (Or.inr hne))
  have hsize30 : size = 30 := by
    unfold MB2_MODULE_PREFIX_SIZE at hbounds hlength
    unfold MB2_ROOTFS_CMDLINE_LENGTH at hlength
    omega
  have htrue : same = true := by simpa using hs
  have hzero : last = 0 := by simpa using hnul
  subst htype3 hsize30 htrue hzero
  exact ⟨⟨htype, hsize, hstart, hend, hsame, hlast, Nat.lt_of_not_le hrange⟩, rfl⟩

/-- What the loop finds is a tag of the root file system. -/
theorem scan_tags.finds {info : BootInfo} {finish cursor : Nat}
    {hblock : finish ≤ cursor + 0x100000} {m : mantle_mb2_module}
    (h : scan_tags info finish cursor hblock = .ok (.ok m)) :
    ∃ tag, RootfsTag info tag m.start m.finish ∧ m.size = m.finish - m.start := by
  unfold scan_tags at h
  split at h
  · obtain ⟨type, htype, h⟩ := bind_eq_ok.mp h
    obtain ⟨size, hsize, h⟩ := bind_eq_ok.mp h
    split at h
    · cases h
    split at h
    · cases h
    obtain ⟨found, hfound, h⟩ := bind_eq_ok.mp h
    cases found with
    | some module =>
      cases h
      unfold module_tag at hfound
      split at hfound
      · obtain ⟨_, _, hfound⟩ := bind_eq_ok.mp hfound
        obtain ⟨_, _, hfound⟩ := bind_eq_ok.mp hfound
        obtain ⟨_, _, hfound⟩ := bind_eq_ok.mp hfound
        exact ⟨cursor, mantle_mb2_parse_module.accepts hfound⟩
      · cases hfound
    | none => exact scan_tags.finds h
  · cases h
termination_by finish - cursor
decreasing_by
  unfold round8
  omega

/-- When `find_rootfs` returns 0, a tag of the root file system gave the module. -/
theorem find_rootfs.finds {info : BootInfo} {m : mantle_mb2_module}
    (h : find_rootfs info = .ok (.ok m)) :
    ∃ tag, RootfsTag info tag m.start m.finish ∧ m.size = m.finish - m.start := by
  unfold find_rootfs at h
  split at h
  · cases h
  obtain ⟨total_size, _, h⟩ := bind_eq_ok.mp h
  split at h
  · cases h
  exact scan_tags.finds h

/-- A module that ends below 4 GiB always passes the check of `mantle_kernel_main`. -/
theorem mapping_error_eq_false {start finish : Nat} (h : start < finish) (hf : finish < 2 ^ 32) :
    mapping_error start (finish - start) = false := by
  simp only [mapping_error, Bool.or_eq_false_iff, decide_eq_false_iff_not]
  omega

/-! ## Where the module stands -/

variable (layout : Layout) (rest : Nat → Nat)

/-- The table of the window as some step of the kernel leaves it: empty as `boot.S` has it, or
mapped by `mantle_arch_user_memory_init` and by the loader. -/
def TableOfARun (pages : Nat → Nat) : Prop := pages = (fun _ => 0) ∨ PagesMapped layout pages

/-- What stands at the addresses from `start` to `finish` are the bytes that the boot loader
put there: each address is its own translation at all times, and no address of the user
window ever leads to it. -/
structure OwnBytes (start finish : Nat) : Prop where
  itself : ∀ pages, TableOfARun layout pages → ∀ a, start ≤ a → a < finish →
    translate (read_quad layout pages rest) layout.pml4_table a = some a
  unwritten : ∀ pages, TableOfARun layout pages → ∀ w, InWindow w → ∀ a, start ≤ a → a < finish →
    translate (read_quad layout pages rest) layout.pml4_table w ≠ some a

/-- The table that maps each page of the window read-only. -/
def readOnlyPages (p : Nat) : Nat := entryWith layout p false true

theorem readOnlyPages_mapped : PagesMapped layout (readOnlyPages layout) :=
  fun _ _ => ⟨false, true, rfl, fun _ => rfl⟩

/-- An address of the window goes nowhere before the first map. -/
theorem translate_unmapped {a : Nat} (hw : InWindow a) :
    translate (read_quad layout (fun _ => 0) rest) layout.pml4_table a = none := by
  rw [paging.translate, walk_window layout _ rest hw]
  rfl

/-- A range keeps its own bytes exactly when it meets neither the user window nor
`mantle_user_memory`. -/
theorem ownBytes_iff {start finish : Nat} (hne : start < finish) (hf : finish < 2 ^ 32) :
    OwnBytes layout rest start finish ↔
      (finish ≤ USER_BASE ∨ USER_LIMIT ≤ start) ∧
      (finish ≤ layout.mantle_user_memory ∨ layout.mantle_user_memory + userSize ≤ start) := by
  constructor
  · intro h
    constructor
    · by_contra hmeet
      -- the first address of the range that is in the window
      have hw : InWindow (max start USER_BASE) := by
        unfold InWindow USER_LIMIT at *
        unfold USER_BASE at *
        omega
      have := h.itself _ (Or.inl rfl) (max start USER_BASE) (by omega) (by omega)
      rw [translate_unmapped layout rest hw] at this
      cases this
    · by_contra hmeet
      have hw : InWindow (USER_BASE + (max start layout.mantle_user_memory -
          layout.mantle_user_memory)) := by
        unfold InWindow USER_LIMIT userSize at *
        unfold USER_BASE at *
        omega
      apply h.unwritten _ (Or.inr (readOnlyPages_mapped layout)) _ hw
        (max start layout.mantle_user_memory) (by omega) (by omega)
      rw [translate_window layout _ rest hw (readOnlyPages_mapped layout), Option.some.injEq]
      omega
  · rintro ⟨hwindow, hmemory⟩
    constructor
    · intro pages _ a h1 h2
      have hw : ¬ InWindow a := by
        unfold InWindow
        omega
      rw [paging.translate, walk_identity layout pages rest (by omega) hw]
      rfl
    · intro pages hpages w hw a h1 h2
      rcases hpages with rfl | hmapped
      · rw [translate_unmapped layout rest hw]
        exact Option.some_ne_none a |>.symm
      · rw [translate_window layout pages rest hw hmapped]
        intro heq
        rw [Option.some.injEq] at heq
        unfold InWindow USER_LIMIT at hw
        unfold userSize at hmemory
        unfold USER_BASE at *
        omega

/-- The check of `mantle_kernel_main` lets every module of `find_rootfs` pass, and the module
keeps its own bytes exactly when its range meets neither the user window nor
`mantle_user_memory`. -/
theorem rootfs_module_keeps_its_bytes_iff (info : BootInfo) (m : mantle_mb2_module)
    (h : find_rootfs info = .ok (.ok m)) :
    mapping_error m.start m.size = false ∧
    ∃ tag mod_start mod_end, RootfsTag info tag mod_start mod_end ∧
      m.start = mod_start ∧ m.size = mod_end - mod_start ∧
      (OwnBytes layout rest m.start (m.start + m.size) ↔
        (mod_end ≤ USER_BASE ∨ USER_LIMIT ≤ mod_start) ∧
        (mod_end ≤ layout.mantle_user_memory ∨
          layout.mantle_user_memory + userSize ≤ mod_start)) := by
  obtain ⟨tag, htag, hsize⟩ := find_rootfs.finds h
  have hf : m.finish < 2 ^ 32 := BootInfo.word_lt htag.finish
  have hend : m.start + m.size = m.finish := by
    have := htag.nonempty
    omega
  constructor
  · rw [hsize]
    exact mapping_error_eq_false htag.nonempty hf
  · refine ⟨tag, m.start, m.finish, htag, rfl, hsize, ?_⟩
    rw [hend]
    exact ownBytes_iff layout rest htag.nonempty hf

/-- A block with one module, at the address 0x9000. -/
def moduleBlock (mod_start mod_end : Nat) : BootInfo :=
  { address := 0x9000
    content := wordBytes 4 48 ++ wordBytes 4 0 ++
      (wordBytes 4 3 ++ wordBytes 4 30 ++ wordBytes 4 mod_start ++ wordBytes 4 mod_end ++
        MB2_ROOTFS_CMDLINE ++ [0, 0, 0]) ++ wordBytes 4 0 ++ wordBytes 4 8
    address_lt := by decide }

theorem rootfs_module_above_the_window_keeps_its_bytes :
    mapping_error 0x800000 16 = false ∧
    ∃ tag mod_start mod_end, RootfsTag (moduleBlock 0x800000 0x800010) tag mod_start mod_end ∧
      0x800000 = mod_start ∧ 16 = mod_end - mod_start ∧
      (OwnBytes someLayout (fun _ => 0) 0x800000 (0x800000 + 16) ↔
        (mod_end ≤ USER_BASE ∨ USER_LIMIT ≤ mod_start) ∧
        (mod_end ≤ someLayout.mantle_user_memory ∨
          someLayout.mantle_user_memory + userSize ≤ mod_start)) :=
  rootfs_module_keeps_its_bytes_iff someLayout (fun _ => 0) (moduleBlock 0x800000 0x800010)
    ⟨0x800000, 0x800010, 16⟩ (by decide +kernel)

/-- A module at the start of the window passes every check, and none of its addresses is its
own translation. -/
theorem rootfs_module_in_the_window_is_accepted :
    find_rootfs (moduleBlock 0x400000 0x400010) = .ok (.ok ⟨0x400000, 0x400010, 16⟩) ∧
    mapping_error 0x400000 16 = false ∧
    (∀ pages rest, TableOfARun someLayout pages → ∀ a, 0x400000 ≤ a → a < 0x400010 →
      translate (read_quad someLayout pages rest) someLayout.pml4_table a ≠ some a) ∧
    ¬ OwnBytes someLayout (fun _ => 0) 0x400000 0x400010 := by
  refine ⟨by decide +kernel, by decide, ?_, ?_⟩
  · intro pages rest hpages a h1 h2
    have hw : InWindow a := by
      unfold InWindow USER_BASE USER_LIMIT
      omega
    rcases hpages with rfl | hmapped
    · rw [translate_unmapped someLayout rest hw]
      exact nofun
    · rw [translate_window someLayout pages rest hw hmapped, Ne, Option.some.injEq]
      simp only [someLayout, USER_BASE]
      omega
  · rw [ownBytes_iff someLayout (fun _ => 0) (by decide) (by decide)]
    decide

end mantle
