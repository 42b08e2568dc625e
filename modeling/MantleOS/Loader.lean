-- The EFI loader of `boot/efi/loader.c`: the block that `build_info` writes
-- for the kernel, and what `find_rootfs` makes of it.
import MantleOS.Multiboot

open checked bytes

namespace mantle.loader

/-! ## The block -/

/-- The page that `AllocatePages(AllocateMaxAddress, ..)` gives for the limit 0xffffffff. -/
structure Page where
  address : Nat
  aligned : address % 0x1000 = 0
  below : address + 0x1000 ≤ 2 ^ 32

/-- The fields of `gop->Mode` and `gop->Mode->Info` that the loader reads. -/
structure GraphicsMode where
  FrameBufferBase : UInt64
  PixelsPerScanLine : UInt32
  HorizontalResolution : UInt32
  VerticalResolution : UInt32

/-- The fields of `mb2_module` at `offset`. -/
def put_module (info : Bytes) (offset : Nat) (rootfs rootfs_size : UInt64) : Bytes :=
  let start := rootfs.toNat % 2 ^ 32
  let info := splice info offset (wordBytes 4 3)
  let info := splice info (offset + 4) (wordBytes 4 30)
  let info := splice info (offset + 8) (wordBytes 4 start)
  let info := splice info (offset + 12) (wordBytes 4 ((start + rootfs_size.toNat % 2 ^ 32) % 2 ^ 32))
  splice info (offset + 16) (ascii "mantle-rootfs")

/-- The fields of `mb2_framebuffer` at `offset`. -/
def put_framebuffer (info : Bytes) (offset : Nat) (mode : GraphicsMode) : Bytes :=
  let info := splice info offset (wordBytes 4 8)
  let info := splice info (offset + 4) (wordBytes 4 38)
  let info := splice info (offset + 8) (wordBytes 8 mode.FrameBufferBase.toNat)
  let info := splice info (offset + 16) (wordBytes 4 (mode.PixelsPerScanLine.toNat * 4 % 2 ^ 32))
  let info := splice info (offset + 20) (wordBytes 4 mode.HorizontalResolution.toNat)
  let info := splice info (offset + 24) (wordBytes 4 mode.VerticalResolution.toNat)
  let info := splice info (offset + 28) [32]
  let info := splice info (offset + 29) [1]
  let info := splice info (offset + 32) [0]
  let info := splice info (offset + 34) [8]
  splice info (offset + 36) [16]

/-- The page of the block. `gop` is `none` when the protocol or its mode is missing. -/
def info_page (gop : Option GraphicsMode) (rootfs rootfs_size : UInt64) : Bytes :=
  let info := put_module (List.replicate 0x1000 0) 8 rootfs rootfs_size
  let (info, offset) :=
    match gop with
    | some mode => (put_framebuffer info 40 mode, 80)
    | none => (info, 40)
  let info := splice info offset (wordBytes 4 0)
  let info := splice info (offset + 4) (wordBytes 4 8)
  splice info 0 (wordBytes 4 (offset + 8))

/-- `none` is EFI_OUT_OF_RESOURCES: the firmware has no page. -/
def build_info (page : Option Page) (gop : Option GraphicsMode) (rootfs rootfs_size : UInt64) :
    Option BootInfo :=
  page.map fun page =>
    { address := page.address
      content := info_page gop rootfs rootfs_size
      address_lt := by have := page.below; omega }

/-- The block of `efi_main`, which asks for the size of the root file system first. `none` is
EFI_LOAD_ERROR or the error of `build_info`. -/
def efi_main_info (page : Option Page) (gop : Option GraphicsMode) (rootfs rootfs_size : UInt64) :
    Option BootInfo :=
  if 0xffffffff < rootfs_size.toNat then none else build_info page gop rootfs rootfs_size

/-! ## The writes of the block -/

def emptyPage : Bytes := List.replicate 0x1000 0

/-- What `put_module` writes, in its order. -/
def moduleWrites (start finish : Nat) : List (Nat × Bytes) :=
  [(8, wordBytes 4 3), (12, wordBytes 4 30), (16, wordBytes 4 start), (20, wordBytes 4 finish),
    (24, ascii "mantle-rootfs")]

/-- What `put_framebuffer` writes. -/
def framebufferWrites (mode : GraphicsMode) : List (Nat × Bytes) :=
  [(40, wordBytes 4 8), (44, wordBytes 4 38), (48, wordBytes 8 mode.FrameBufferBase.toNat),
    (56, wordBytes 4 (mode.PixelsPerScanLine.toNat * 4 % 2 ^ 32)),
    (60, wordBytes 4 mode.HorizontalResolution.toNat),
    (64, wordBytes 4 mode.VerticalResolution.toNat), (68, [32]), (69, [1]), (72, [0]), (74, [8]),
    (76, [16])]

/-- The writes after the module: the framebuffer if there is one, and the end tag. -/
def tailWrites : Option GraphicsMode → List (Nat × Bytes)
  | some mode => framebufferWrites mode ++ [(80, wordBytes 4 0), (84, wordBytes 4 8)]
  | none => [(40, wordBytes 4 0), (44, wordBytes 4 8)]

/-- The size of the block. -/
def totalSize : Option GraphicsMode → Nat
  | some _ => 88
  | none => 48

theorem info_page_eq (gop : Option GraphicsMode) (rootfs rootfs_size : UInt64) :
    info_page gop rootfs rootfs_size = written emptyPage
      (moduleWrites (rootfs.toNat % 2 ^ 32)
          ((rootfs.toNat % 2 ^ 32 + rootfs_size.toNat % 2 ^ 32) % 2 ^ 32) ++
        (tailWrites gop ++ [(0, wordBytes 4 (totalSize gop))])) := by
  cases gop <;> rfl

/-- The writes after the module stand in the bytes 40 to 87. -/
theorem tailWrites_range (gop : Option GraphicsMode) :
    ∀ w ∈ tailWrites gop, 40 ≤ w.1 ∧ w.1 + w.2.length ≤ 88 := by
  cases gop <;> simp [tailWrites, framebufferWrites]

section Block

variable (gop : Option GraphicsMode) (start finish : Nat)

/-- All writes of the block. -/
def blockWrites : List (Nat × Bytes) :=
  moduleWrites start finish ++ (tailWrites gop ++ [(0, wordBytes 4 (totalSize gop))])

theorem name_length : (ascii "mantle-rootfs").length = 13 := by decide

theorem blockWrites_fit : WritesFit (blockWrites gop start finish) emptyPage.length := by
  have hpage : emptyPage.length = 0x1000 := List.length_replicate
  intro w hw
  rw [hpage]
  simp only [blockWrites, List.mem_append, List.mem_singleton] at hw
  rcases hw with hw | hw | rfl
  · have hall : ∀ w ∈ moduleWrites start finish, w.1 + w.2.length ≤ 0x1000 := by
      simp [moduleWrites, name_length]
    exact hall w hw
  · have := (tailWrites_range gop w hw).2
    omega
  · simp

/-- The place is before the tail and not in the first word. -/
theorem missed_by_the_tail {i n : Nat} (hi : 4 ≤ i) (hn : i + n ≤ 40) :
    ∀ w ∈ tailWrites gop ++ [(0, wordBytes 4 (totalSize gop))],
      i + n ≤ w.1 ∨ w.1 + w.2.length ≤ i := by
  intro w hw
  rcases List.mem_append.mp hw with hw | hw
  · have := (tailWrites_range gop w hw).1
    omega
  · rw [List.mem_singleton] at hw
    subst hw
    rw [wordBytes_length]
    omega

/-- The bytes that a write of the module tag put in their place stay there. -/
theorem module_field (before : List (Nat × Bytes)) {after : List (Nat × Bytes)} {i : Nat} {bs : Bytes}
    (hsplit : moduleWrites start finish = before ++ (i, bs) :: after) (hi : 4 ≤ i)
    (hn : i + bs.length ≤ 40) (hafter : ∀ w ∈ after, i + bs.length ≤ w.1) :
    slice (written emptyPage (blockWrites gop start finish)) i bs.length = bs := by
  have hfit := blockWrites_fit gop start finish
  have happ : blockWrites gop start finish = before ++ (i, bs) ::
      (after ++ (tailWrites gop ++ [(0, wordBytes 4 (totalSize gop))])) := by
    rw [blockWrites, hsplit, List.append_assoc, List.cons_append]
  rw [happ] at hfit ⊢
  apply slice_written_self hfit
  intro w hw
  rcases List.mem_append.mp hw with hw | hw
  · exact Or.inl (hafter w hw)
  · exact missed_by_the_tail gop hi hn w hw

theorem module_word (before : List (Nat × Bytes)) {after : List (Nat × Bytes)} {i v : Nat}
    (hsplit : moduleWrites start finish = before ++ (i, wordBytes 4 v) :: after) (hi : 4 ≤ i)
    (hn : i + 4 ≤ 40) (hv : v < 2 ^ 32) (hafter : ∀ w ∈ after, i + 4 ≤ w.1) :
    wordOf (written emptyPage (blockWrites gop start finish)) i 4 = v := by
  have hslice := module_field gop start finish before hsplit hi (by simpa using hn)
    (by simpa using hafter)
  rw [wordBytes_length] at hslice
  rw [wordOf, hslice, leValue_wordBytes 4 v hv]

/-- What the kernel reads of the block: its size and the module tag. -/
structure Readable (page : Bytes) (total start finish : Nat) : Prop where
  length : page.length = 0x1000
  total : wordOf page 0 4 = total
  type : wordOf page 8 4 = 3
  size : wordOf page 12 4 = 30
  start : wordOf page 16 4 = start
  finish : wordOf page 20 4 = finish
  name : slice page 24 13 = ascii "mantle-rootfs"
  nul : wordOf page 37 1 = 0

theorem block_readable (hs : start < 2 ^ 32) (hf : finish < 2 ^ 32) :
    Readable (written emptyPage (blockWrites gop start finish)) (totalSize gop) start finish := by
  have hfit := blockWrites_fit gop start finish
  constructor
  · rw [written_length hfit]
    exact List.length_replicate
  · have htotal : totalSize gop < 256 ^ 4 := by cases gop <;> simp [totalSize]
    have happ : blockWrites gop start finish = (moduleWrites start finish ++ tailWrites gop) ++
        (0, wordBytes 4 (totalSize gop)) :: [] := by simp [blockWrites]
    rw [happ] at hfit ⊢
    exact wordOf_written hfit htotal nofun
  · exact module_word gop start finish [] rfl (by omega) (by omega) (by omega) (by simp)
  · exact module_word gop start finish [(8, wordBytes 4 3)] rfl (by omega) (by omega) (by omega)
      (by simp)
  · exact module_word gop start finish [(8, wordBytes 4 3), (12, wordBytes 4 30)] rfl (by omega)
      (by omega) hs (by simp)
  · exact module_word gop start finish
      [(8, wordBytes 4 3), (12, wordBytes 4 30), (16, wordBytes 4 start)] rfl (by omega) (by omega) hf
      (by simp)
  · exact module_field gop start finish
      [(8, wordBytes 4 3), (12, wordBytes 4 30), (16, wordBytes 4 start), (20, wordBytes 4 finish)] rfl
      (by omega) (by rw [name_length]; omega) nofun
  · -- no write reaches the last byte of the command line
    have hmissed : ∀ w ∈ blockWrites gop start finish, 37 + 1 ≤ w.1 ∨ w.1 + w.2.length ≤ 37 := by
      intro w hw
      rcases List.mem_append.mp hw with hw | hw
      · have hall : ∀ w ∈ moduleWrites start finish, w.1 + w.2.length ≤ 37 := by
          simp [moduleWrites, name_length]
        exact Or.inr (hall w hw)
      · exact missed_by_the_tail gop (by omega) (by omega) w hw
    rw [wordOf, slice_written hfit hmissed]
    rfl

end Block

/-! ## The kernel reads the block -/

variable {info : BootInfo} {total start finish : Nat}

theorem word_of_page (h : info.content.length = 0x1000) (i n : Nat) (hi : i + n ≤ 0x1000) :
    info.word (info.address + i) n = .ok (wordOf info.content i n) := by
  rw [BootInfo.word, if_pos (by omega), Nat.add_sub_cancel_left, wordAt_eq (by omega)]

/-- A text that stands in the block is found by the comparison. -/
theorem same_text_of_slice (i : Nat) (text : Bytes)
    (h : slice info.content i text.length = text) (hi : i + text.length ≤ info.content.length) :
    same_text info (info.address + i) text = .ok true := by
  induction text generalizing i with
  | nil => rfl
  | cons c cs ih =>
    rw [List.length_cons] at hi h
    rw [slice_succ (by omega)] at h
    obtain ⟨hc, hcs⟩ := List.cons.inj h
    have hword : info.word (info.address + i) 1 = .ok c.toNat := by
      rw [BootInfo.word, if_pos (by omega), Nat.add_sub_cancel_left, wordAt_eq (by omega), wordOf,
        slice_succ (by omega), slice_zero, hc]
      simp [leValue]
    rw [same_text, hword, ok_bind, if_neg (by simp), Nat.add_assoc]
    exact ih (i + 1) hcs (by omega)

/-- A block with a module tag of a range that is not empty: `mantle_mb2_parse_module` accepts
the tag. -/
theorem parse_readable (h : Readable info.content total start finish) (hlt : start < finish) :
    mantle_mb2_parse_module info (info.address + 8) 30 =
      .ok (some { start, finish, size := finish - start }) := by
  have hword := word_of_page h.length
  have hname := same_text_of_slice 24 (ascii "mantle-rootfs") (by rw [name_length]; exact h.name)
    (by rw [name_length, h.length]; omega)
  unfold mantle_mb2_parse_module
  rw [if_neg (by unfold MB2_MODULE_PREFIX_SIZE; omega)]
  simp only [Nat.add_assoc, Nat.reduceAdd]
  rw [hword 12 4 (by omega), ok_bind, hword 8 4 (by omega), ok_bind, h.size, h.type,
    if_neg (by decide), hword 16 4 (by omega), ok_bind, hword 20 4 (by omega), ok_bind, h.start,
    h.finish, if_neg (by omega), if_neg (by decide), MB2_ROOTFS_CMDLINE, hname, ok_bind,
    if_neg (by simp)]
  rw [show info.address + (24 + MB2_ROOTFS_CMDLINE_LENGTH) = info.address + 37 from rfl,
    hword 37 1 (by omega), ok_bind, h.nul, if_neg (by simp)]
  rfl

theorem find_readable (h : Readable info.content total start finish) (ha : info.address ≠ 0)
    (htotal : 38 ≤ total) (hsmall : total ≤ 0x1000) (hlt : start < finish) :
    find_rootfs info = .ok (.ok { start, finish, size := finish - start }) := by
  have hword := word_of_page h.length
  have htext : info.text (info.address + 8 + 16) (30 - 16) = .ok (slice info.content 24 14) := by
    rw [BootInfo.text, if_pos (by omega), show info.address + 8 + 16 - info.address = 24 by omega,
      sliceAt_eq (by rw [h.length]; omega)]
  have hfirst := hword 0 4 (by omega)
  rw [Nat.add_zero] at hfirst
  unfold find_rootfs
  rw [if_neg ha, hfirst, ok_bind, h.total, dif_neg (by omega)]
  unfold scan_tags
  rw [if_pos (by omega), hword 8 4 (by omega), ok_bind, Nat.add_assoc info.address 8 4,
    hword 12 4 (by omega), ok_bind, h.type, h.size, dif_neg (by unfold round8; omega),
    if_neg (by decide), module_tag, if_pos (by decide), Nat.add_assoc info.address 8 8,
    hword 16 4 (by omega), ok_bind, Nat.add_assoc info.address 8 12, hword 20 4 (by omega), ok_bind,
    htext, ok_bind, parse_readable h hlt, ok_bind]
  rfl

/-! ## The hand-over -/

/-- Whenever the loader makes a block, `find_rootfs` returns the buffer and its size. -/
def HandsOver (page : Option Page) (gop : Option GraphicsMode) (rootfs rootfs_size : UInt64) : Prop :=
  ∀ info, efi_main_info page gop rootfs rootfs_size = some info →
    ∃ m, find_rootfs info = .ok (.ok m) ∧ m.start = rootfs.toNat ∧ m.size = rootfs_size.toNat

theorem build_info_readable {page : Page} {gop : Option GraphicsMode} {rootfs rootfs_size : UInt64}
    (hsum : rootfs.toNat + rootfs_size.toNat < 2 ^ 32) {info : BootInfo}
    (h : build_info (some page) gop rootfs rootfs_size = some info) :
    info.address = page.address ∧ Readable info.content (totalSize gop) rootfs.toNat
      (rootfs.toNat + rootfs_size.toNat) := by
  cases h
  refine ⟨rfl, ?_⟩
  have hstart : rootfs.toNat % 2 ^ 32 = rootfs.toNat := Nat.mod_eq_of_lt (by omega)
  have hend : (rootfs.toNat + rootfs_size.toNat % 2 ^ 32) % 2 ^ 32 =
      rootfs.toNat + rootfs_size.toNat := by omega
  simp only
  rw [info_page_eq, hstart, hend]
  exact block_readable gop _ _ (by omega) hsum

/-- The loader hands a root file system over exactly when its buffer ends below 4 GiB and the
page of the block is not page 0. -/
theorem the_rootfs_is_handed_over_iff (page : Option Page) (gop : Option GraphicsMode)
    (rootfs rootfs_size : UInt64) (hpos : 0 < rootfs_size.toNat) :
    HandsOver page gop rootfs rootfs_size ↔
      ∀ p, page = some p → rootfs_size.toNat ≤ 0xffffffff →
        p.address ≠ 0 ∧ rootfs.toNat + rootfs_size.toNat < 2 ^ 32 := by
  constructor
  · rintro h p rfl hsize
    obtain ⟨m, hm, hstart, hmsize⟩ := h _ (if_neg (by omega))
    constructor
    · intro hzero
      rw [find_rootfs, if_pos hzero] at hm
      cases hm
    · obtain ⟨tag, htag, hlen⟩ := find_rootfs.finds hm
      have hend := BootInfo.word_lt htag.finish
      have hne := htag.nonempty
      omega
  · intro h info hinfo
    unfold efi_main_info at hinfo
    split at hinfo
    · cases hinfo
    rename_i hsize
    cases page with
    | none => cases hinfo
    | some p =>
      obtain ⟨hp, hsum⟩ := h p rfl (by omega)
      obtain ⟨haddress, hread⟩ := build_info_readable hsum hinfo
      have htotal : 48 ≤ totalSize gop ∧ totalSize gop ≤ 88 := by cases gop <;> simp [totalSize]
      refine ⟨_, find_readable hread (by rw [haddress]; exact hp) (by omega) (by omega) (by omega), rfl, ?_⟩
      simp only
      omega

/-- A page of the firmware. -/
def somePage : Page := { address := 0x9000, aligned := by decide, below := by decide }

theorem a_rootfs_below_4_GiB_is_handed_over :
    HandsOver (some somePage) none 0x800000 16 := by
  refine (the_rootfs_is_handed_over_iff (some somePage) none 0x800000 16 (by decide)).mpr ?_
  rintro p ⟨⟩ _
  decide

/-- A buffer at 4 GiB is handed over as the buffer at 0, and one that ends at 4 GiB is not
found. -/
theorem a_rootfs_at_4_GiB_is_lost :
    (∃ info, efi_main_info (some somePage) none 0x100000000 16 = some info ∧
      find_rootfs info = .ok (.ok { start := 0, finish := 16, size := 16 })) ∧
    (∃ info, efi_main_info (some somePage) none 0xfffffff0 16 = some info ∧
      find_rootfs info = .ok (.error (-1))) ∧
    ¬ HandsOver (some somePage) none 0x100000000 16 := by
  refine ⟨⟨_, rfl, by decide +kernel⟩, ⟨_, rfl, by decide +kernel⟩, fun h => ?_⟩
  obtain ⟨m, hm, hstart, _⟩ := h _ rfl
  obtain ⟨tag, htag, hlen⟩ := find_rootfs.finds hm
  have hend := BootInfo.word_lt htag.finish
  have hne := htag.nonempty
  rw [show (0x100000000 : UInt64).toNat = 0x100000000 from rfl] at hstart
  omega

end mantle.loader
