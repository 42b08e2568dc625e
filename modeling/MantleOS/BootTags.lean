-- The block of the boot loader as a list of tags, and `find_rootfs` as a
-- search in that list: for every block of an accepted size the walk ends, and
-- no read leaves the block.
import MantleOS.Multiboot

open checked bytes

namespace mantle

/-! ## The tags of a block -/

/-- The tags from a position on, each with all its bytes, and whether they end well: with an end
tag, or with less than 8 bytes left. A tag starts where the one before it ends, rounded up to 8;
one that is shorter than its own header or longer than the block ends them badly. -/
def tagsFrom (block : Bytes) (p : Nat) : List Bytes × Bool :=
  if block.length < p + 8 then ([], true)
  else if wordOf block (p + 4) 4 < 8 ∨ block.length < p + wordOf block (p + 4) 4 then
    ([], false)
  else if wordOf block p 4 = 0 then ([], true)
  else
    let (tags, well) := tagsFrom block (p + (wordOf block (p + 4) 4 + 7) / 8 * 8)
    (slice block p (wordOf block (p + 4) 4) :: tags, well)
termination_by block.length - p
decreasing_by omega

/-- The module of a tag, when the tag is the one of the root file system. -/
def rootfsOf (tag : Bytes) : Option mantle_mb2_module :=
  if wordOf tag 0 4 = 3 ∧ tag.length = 30 ∧ tag.drop 16 = ascii "mantle-rootfs" ++ [0] ∧
      wordOf tag 8 4 < wordOf tag 12 4 then
    some ⟨wordOf tag 8 4, wordOf tag 12 4, wordOf tag 12 4 - wordOf tag 8 4⟩
  else none

/-- The module of the first tag of the root file system from a position on; without one -1, and
-2 when the tags end badly. -/
def rootfsFrom (block : Bytes) (p : Nat) : Except Int mantle_mb2_module :=
  match (tagsFrom block p).1.findSome? rootfsOf with
  | some module => .ok module
  | none => .error (if (tagsFrom block p).2 then -1 else -2)

/-! ## Reads inside the block -/

variable {info : BootInfo}

theorem BootInfo.word_eq {p n : Nat} (h : p + n ≤ info.content.length) :
    info.word (info.address + p) n = .ok (wordOf info.content p n) := by
  rw [word, if_pos (Nat.le_add_right _ _), Nat.add_sub_cancel_left, wordAt_eq h]

theorem BootInfo.text_eq {p n : Nat} (h : p + n ≤ info.content.length) :
    info.text (info.address + p) n = .ok (slice info.content p n) := by
  rw [text, if_pos (Nat.le_add_right _ _), Nat.add_sub_cancel_left, sliceAt_eq h]

/-- A word of a tag is the word of the block at that place. -/
theorem wordOf_slice {b : Bytes} {p size i n : Nat} (h : i + n ≤ size) :
    wordOf (slice b p size) i n = wordOf b (p + i) n := by
  have hslice : slice (slice b p size) i n = slice b (p + i) n := by
    rw [slice, drop_slice, take_slice _ _ (by omega)]
  rw [wordOf, wordOf, hslice]

theorem wordOf_one {b : Bytes} {p : Nat} (h : p < b.length) : wordOf b p 1 = b[p].toNat := by
  rw [wordOf, slice_succ h, slice_zero]
  simp [leValue]

/-- The loop over the command line compares the bytes there with the text. -/
theorem same_text_eq {p : Nat} (cs : Bytes) (h : p + cs.length ≤ info.content.length) :
    same_text info (info.address + p) cs =
      .ok (decide (slice info.content p cs.length = cs)) := by
  induction cs generalizing p with
  | nil => simp [same_text, slice_zero]
  | cons c cs ih =>
    rw [List.length_cons] at h ⊢
    have hp : p < info.content.length := by omega
    rw [same_text, BootInfo.word_eq (by omega), ok_bind, wordOf_one hp, slice_succ hp]
    by_cases hc : info.content[p] = c
    · rw [if_neg (by simp [hc]), Nat.add_assoc, ih (by omega)]
      simp [hc]
    · have hne : ¬ info.content[p].toNat = c.toNat := fun h => hc (UInt8.toNat.inj h)
      rw [if_pos hne]
      simp [hc]

/-! ## The walk -/

theorem cmdline_length : MB2_ROOTFS_CMDLINE.length = 13 := by decide

/-- The 14 bytes of the command line are the text and its NUL. -/
theorem cmdline_iff {p : Nat} (h : p + 14 ≤ info.content.length) :
    slice info.content p 14 = MB2_ROOTFS_CMDLINE ++ [0] ↔
      slice info.content p 13 = MB2_ROOTFS_CMDLINE ∧ wordOf info.content (p + 13) 1 = 0 := by
  have hlast : p + 13 < info.content.length := by omega
  rw [slice_add info.content p 13 1, slice_succ hlast, slice_zero, wordOf_one hlast]
  constructor
  · intro heq
    obtain ⟨htext, hnul⟩ := List.append_inj' heq rfl
    exact ⟨htext, by rw [List.head_eq_of_cons_eq hnul]; rfl⟩
  · rintro ⟨htext, hnul⟩
    rw [htext, show info.content[p + 13] = 0 from UInt8.toNat.inj hnul]

/-- On a tag inside the block `mantle_mb2_parse_module` says what `rootfsOf` says. -/
theorem mantle_mb2_parse_module_eq {p size : Nat} (hinfo : info.address ≠ 0) (h16 : 16 ≤ size)
    (hin : p + size ≤ info.content.length) (hsize : wordOf info.content (p + 4) 4 = size) :
    mantle_mb2_parse_module info (info.address + p) size =
      .ok (rootfsOf (slice info.content p size)) := by
  have hword : ∀ {k n : Nat}, k + n ≤ size →
      info.word (info.address + p + k) n = .ok (wordOf info.content (p + k) n) := by
    intro k n hk
    rw [Nat.add_assoc]
    exact BootInfo.word_eq (by omega)
  unfold mantle_mb2_parse_module rootfsOf
  rw [if_neg (by unfold MB2_MODULE_PREFIX_SIZE; omega), hword (by omega), ok_bind,
    BootInfo.word_eq (by omega), ok_bind, hsize, wordOf_slice (by omega), wordOf_slice (by omega),
    wordOf_slice (by omega), slice_length hin, drop_slice, Nat.add_zero]
  by_cases htype : wordOf info.content p 4 = 3
  swap
  · rw [if_pos (by unfold MB2_TAG_MODULE; omega), if_neg (fun h => htype h.1)]
    rfl
  rw [if_neg (by unfold MB2_MODULE_PREFIX_SIZE MB2_TAG_MODULE; omega), hword (by omega), ok_bind,
    hword (by omega), ok_bind]
  by_cases hrange : wordOf info.content (p + 12) 4 ≤ wordOf info.content (p + 8) 4
  · rw [if_pos hrange, if_neg (fun h => by omega)]
    rfl
  rw [if_neg hrange]
  by_cases h30 : size = 30
  swap
  · rw [if_pos (by unfold MB2_MODULE_PREFIX_SIZE MB2_ROOTFS_CMDLINE_LENGTH; omega),
      if_neg (fun h => h30 h.2.1)]
    rfl
  subst h30
  rw [if_neg (by decide), Nat.add_assoc, same_text_eq _ (by rw [cmdline_length]; omega), ok_bind,
    cmdline_length, MB2_ROOTFS_CMDLINE_LENGTH, Nat.add_assoc, BootInfo.word_eq (by omega), ok_bind]
  have hcmdline := @cmdline_iff info (p + 16) (by omega)
  by_cases hsame : slice info.content (p + 16) 13 = MB2_ROOTFS_CMDLINE
  swap
  · rw [if_pos (by simpa using hsame), if_neg (fun h => hsame (hcmdline.mp h.2.2.1).1)]
    rfl
  rw [if_neg (by simpa using hsame)]
  by_cases hnul : wordOf info.content (p + (16 + 13)) 1 = 0
  · rw [if_neg (by simpa using hnul),
      if_pos ⟨htype, rfl, hcmdline.mpr ⟨hsame, hnul⟩, Nat.lt_of_not_le hrange⟩]
    rfl
  · rw [if_pos hnul, if_neg (fun h => hnul (hcmdline.mp h.2.2.1).2)]
    rfl

theorem module_tag_eq {p : Nat} (hinfo : info.address ≠ 0)
    (hin : p + wordOf info.content (p + 4) 4 ≤ info.content.length)
    (h8 : 8 ≤ wordOf info.content (p + 4) 4) :
    module_tag info (info.address + p) (wordOf info.content p 4) (wordOf info.content (p + 4) 4) =
      .ok (rootfsOf (slice info.content p (wordOf info.content (p + 4) 4))) := by
  unfold module_tag
  split
  · rename_i hmodule
    rw [Nat.add_assoc, BootInfo.word_eq (by omega), ok_bind, Nat.add_assoc,
      BootInfo.word_eq (by omega), ok_bind, Nat.add_assoc, BootInfo.text_eq (by omega), ok_bind,
      mantle_mb2_parse_module_eq hinfo hmodule.2 hin rfl]
  · rename_i hother
    rw [rootfsOf, wordOf_slice (by omega), slice_length hin, if_neg (fun h => hother ⟨h.1, by omega⟩)]

/-- The loop searches the tags from its cursor on. -/
theorem scan_tags_eq (hinfo : info.address ≠ 0) (hlen : info.content.length ≤ 0x100000) (p : Nat)
    (hblock : info.address + info.content.length ≤ info.address + p + 0x100000) :
    scan_tags info (info.address + info.content.length) (info.address + p) hblock =
      .ok (rootfsFrom info.content p) := by
  unfold scan_tags rootfsFrom tagsFrom
  by_cases hover : info.content.length < p + 8
  · rw [if_neg (by omega)]
    simp [hover]
  rw [if_pos (by omega), BootInfo.word_eq (by omega), ok_bind, Nat.add_assoc,
    BootInfo.word_eq (by omega), ok_bind]
  simp only [hover, if_false]
  by_cases hbad : wordOf info.content (p + 4) 4 < 8 ∨
      info.content.length < p + wordOf info.content (p + 4) 4
  · rw [dif_pos (by omega)]
    simp [hbad]
  have hround : round8 (wordOf info.content (p + 4) 4) =
      (wordOf info.content (p + 4) 4 + 7) / 8 * 8 := by
    unfold round8
    rw [Nat.mod_eq_of_lt (by omega)]
  rw [dif_neg (by omega)]
  simp only [hbad, if_false]
  by_cases hend : wordOf info.content p 4 = 0
  · simp [hend]
  rw [if_neg hend, if_neg hend, module_tag_eq hinfo (by omega) (by omega), ok_bind,
    List.findSome?_cons]
  cases hfound : rootfsOf (slice info.content p (wordOf info.content (p + 4) 4)) with
  | some module => rfl
  | none =>
    simp only [Nat.add_assoc, hround]
    exact scan_tags_eq hinfo hlen _ _
termination_by info.content.length - p
decreasing_by omega

/-- For every block of an accepted size: `find_rootfs` ends, reads no byte outside of the block,
and gives what the search in the list of its tags gives. -/
theorem find_rootfs_searches_the_tags (info : BootInfo)
    (htotal : wordOf info.content 0 4 = info.content.length) (h8 : 8 ≤ info.content.length)
    (hmax : info.content.length ≤ 0x100000) :
    find_rootfs info =
      .ok (if info.address = 0 then .error (-1) else rootfsFrom info.content 8) := by
  unfold find_rootfs
  by_cases hinfo : info.address = 0
  · rw [if_pos hinfo, if_pos hinfo]
  rw [if_neg hinfo, if_neg hinfo]
  have hread : info.word info.address 4 = .ok info.content.length := by
    have := @BootInfo.word_eq info 0 4 (by omega)
    rwa [htotal] at this
  simp only [hread, ok_bind]
  rw [dif_neg (by omega)]
  exact scan_tags_eq hinfo hmax 8 _

/-- The module of a block with one tag is found in the list of its tags. -/
theorem the_only_module_is_found :
    find_rootfs (moduleBlock 0x800000 0x800010) =
        .ok (rootfsFrom (moduleBlock 0x800000 0x800010).content 8) ∧
      rootfsFrom (moduleBlock 0x800000 0x800010).content 8 = .ok ⟨0x800000, 0x800010, 16⟩ :=
  ⟨find_rootfs_searches_the_tags (moduleBlock 0x800000 0x800010) (by decide +kernel)
    (by decide +kernel) (by decide +kernel), by decide +kernel⟩

end mantle
