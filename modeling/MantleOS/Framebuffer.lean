-- The first walk over the block of the boot loader, to the tag of the
-- framebuffer, and the splash that is drawn there. Other than `find_rootfs` it
-- never looks at the size of the block, so here is which blocks it gets out of.
import MantleOS.BootTags

open checked bytes

namespace mantle

/-! ## The picture -/

def MULTIBOOT2_BOOTLOADER_MAGIC : Nat := 0x36d76289
def MULTIBOOT_TAG_TYPE_END : Nat := 0
def MULTIBOOT_TAG_TYPE_FRAMEBUFFER : Nat := 8
def MULTIBOOT_FRAMEBUFFER_TYPE_DIRECT_RGB : Nat := 1

structure framebuffer_state where
  address : Nat
  pitch : Nat
  width : Nat
  height : Nat
  bytes_per_pixel : Nat
  red_position : Nat
  green_position : Nat
  blue_position : Nat

/-- `a - b` on `uint32_t`. -/
def sub32 (a b : Nat) : Nat := (a + 2 ^ 32 - b) % 2 ^ 32

/-- `(int32_t)a`. -/
def int32 (a : Nat) : Int := Int.bmod a (2 ^ 32)

/-- `(uint32_t)a`. -/
def uint32 (a : Int) : Nat := (a % 2 ^ 32).toNat

variable (state : framebuffer_state)

/-- The shifts take their count modulo 32, as the machine does. -/
def color (red green blue : Nat) : Nat :=
  red <<< (state.red_position % 32) % 2 ^ 32 |||
    green <<< (state.green_position % 32) % 2 ^ 32 |||
    blue <<< (state.blue_position % 32) % 2 ^ 32

def pixel (x y value : Nat) (video : Nat → UInt8) : Nat → UInt8 :=
  if state.width ≤ x ∨ state.height ≤ y then video
  else
    let destination := state.address + y * state.pitch + x * state.bytes_per_pixel
    (List.range state.bytes_per_pixel).foldl (fun video byte =>
      Function.update video ((destination + byte) % 2 ^ 64) (.ofNat (value >>> (byte * 8)))) video

/-- Both loops stop below a 32-bit bound, so that their counters do not wrap. -/
def rectangle (left top width height value : Nat) (video : Nat → UInt8) : Nat → UInt8 :=
  let bottom := min ((top + height) % 2 ^ 32) state.height
  let right := min ((left + width) % 2 ^ 32) state.width
  (List.range' top (bottom - top)).foldl (fun video y =>
    (List.range' left (right - left)).foldl (fun video x => pixel state x y value video) video) video

/-- The signed sums wrap. The loop `x <= x1` would not end for the largest `x1`: there its bound
is a fault. -/
def line (x0 y0 x1 y1 value : Nat) (video : Nat → UInt8) : Checked (Nat → UInt8) :=
  if x0 = x1 then
    let current_y := int32 y0
    let end_y := int32 y1
    let step_y : Int := if current_y ≤ end_y then 1 else -1
    .ok ((List.range ((end_y - current_y).natAbs + 1)).foldl (fun video turn =>
      pixel state x0 (uint32 (current_y + turn * step_y)) value video) video)
  else if x1 < x0 then .ok video
  else do
    let delta_x := Int.bmod (int32 x1 - int32 x0) (2 ^ 32)
    let delta_y := Int.bmod (int32 y1 - int32 y0) (2 ^ 32)
    let bound ← add32 x1 1
    return (List.range' x0 (bound - x0)).foldl (fun video x =>
      let y := uint32 (int32 y0 +
        (Int.bmod (delta_y * Int.bmod (int32 x - int32 x0) (2 ^ 32)) (2 ^ 32)).tdiv delta_x)
      pixel state x y value video) video

/-- `left` and `top` are below 2^31, so that no sum with one of them wraps. -/
def draw_mantle_splash (video : Nat → UInt8) : Checked (Nat → UInt8) := do
  let background := color state 12 19 29
  let panel := color state 24 36 49
  let accent := color state 108 174 255
  let white := color state 238 244 249
  let mark_width := if 640 < state.width then 180 else 96
  let mark_height := if 480 < state.height then 136 else 80
  let left := sub32 state.width mark_width / 2
  let top := sub32 state.height mark_height / 2
  let bar_top := if 64 < state.height then state.height - 48 else 0
  let video := rectangle state 0 0 state.width state.height background video
  let video := rectangle state 0 0 state.width 2 accent video
  let video := rectangle state 0 bar_top state.width 1 panel video
  let video ← line state left (top + mark_height) left top white video
  let video ← line state left top (left + mark_width / 2) (top + mark_height / 2) white video
  let video ← line state (left + mark_width / 2) (top + mark_height / 2) (left + mark_width) top
    white video
  let video ← line state (left + mark_width) top (left + mark_width) (top + mark_height) white video
  let video ← line state (left + 10) (top + mark_height + 12) (left + mark_width / 2)
    (top + mark_height / 2 + 12) accent video
  let video ← line state (left + mark_width / 2) (top + mark_height / 2 + 12)
    (left + mark_width - 10) (top + mark_height + 12) accent video
  let video := rectangle state (left + mark_width / 2 - 38) (sub32 bar_top 13) 76 3 panel video
  return rectangle state (left + mark_width / 2 - 38) (sub32 bar_top 13) 25 3 accent video

/-! ## The walk -/

/-- What `mantle_framebuffer_init` writes: the state of this file, and the memory. -/
structure Screen where
  state : framebuffer_state
  video : Nat → UInt8

/-- What the walk does with a usable tag of the framebuffer. -/
def framebuffer_tag (info : BootInfo) (tag : Nat) (screen : Screen) : Checked (Int × Screen) := do
  let framebuffer_type ← info.word (tag + 29) 1
  if framebuffer_type ≠ MULTIBOOT_FRAMEBUFFER_TYPE_DIRECT_RGB then return (-1, screen)
  else
    let framebuffer_addr ← info.word (tag + 8) 8
    if framebuffer_addr = 0 then return (-1, screen)
    else
      let framebuffer_bpp ← info.word (tag + 28) 1
      if framebuffer_bpp < 24 ∨ 32 < framebuffer_bpp then return (-1, screen)
      else
        let pitch ← info.word (tag + 16) 4
        let width ← info.word (tag + 20) 4
        let height ← info.word (tag + 24) 4
        let red_position ← info.word (tag + 32) 1
        let green_position ← info.word (tag + 34) 1
        let blue_position ← info.word (tag + 36) 1
        let state : framebuffer_state :=
          { address := framebuffer_addr, pitch, width, height
            bytes_per_pixel := (framebuffer_bpp + 7) / 8
            red_position, green_position, blue_position }
        if width = 0 ∨ height = 0 ∨ pitch = 0 then return (-1, { screen with state })
        else
          let video ← draw_mantle_splash state screen.video
          return (0, { state, video })

/-- One turn of the loop: the cursor of the next turn, or the result. -/
def tag_step (info : BootInfo) (cursor : Nat) (screen : Screen) : Checked (Nat ⊕ Int × Screen) := do
  let type ← info.word cursor 4
  if type = MULTIBOOT_TAG_TYPE_END then return .inr (-1, screen)
  else
    let size ← info.word (cursor + 4) 4
    if type = MULTIBOOT_TAG_TYPE_FRAMEBUFFER ∧ 38 ≤ size then
      let result ← framebuffer_tag info cursor screen
      return .inr result
    else return .inl (cursor + round8 size)

/-- The loop, with fuel for its turns. -/
def tag_walk (info : BootInfo) (screen : Screen) : Nat → Nat → Option (Checked (Int × Screen))
  | 0, _ => none
  | fuel + 1, cursor =>
    match tag_step info cursor screen with
    | .error fault => some (.error fault)
    | .ok (.inr result) => some (.ok result)
    | .ok (.inl next) => tag_walk info screen fuel next

def mantle_framebuffer_init (multiboot_magic : Nat) (info : BootInfo) (screen : Screen) (fuel : Nat) :
    Option (Checked (Int × Screen)) :=
  if multiboot_magic ≠ MULTIBOOT2_BOOTLOADER_MAGIC ∨ info.address = 0 then
    some (.ok (-1, screen))
  else tag_walk info screen fuel (info.address + 8)

/-! ## The splash is always drawn -/

variable {state}

/-- A line that ends before the last column of 32 bits is drawn. -/
theorem line_yields {x0 y0 x1 y1 value : Nat} {video : Nat → UInt8} (h : x1 + 1 < 2 ^ 32) :
    Yields (line state x0 y0 x1 y1 value video) (fun _ => True) := by
  unfold line
  rw [add32_eq h]
  split
  · exact ⟨_, rfl, trivial⟩
  · split
    · exact ⟨_, rfl, trivial⟩
    · exact ⟨_, rfl, trivial⟩

theorem sub32_half_lt (a b : Nat) : sub32 a b / 2 < 2 ^ 31 := by
  unfold sub32
  omega

/-- The splash ends, whatever the size of the picture. -/
theorem draw_mantle_splash_yields (video : Nat → UInt8) :
    Yields (draw_mantle_splash state video) (fun _ => True) := by
  unfold draw_mantle_splash
  dsimp only
  have hwidth : (if 640 < state.width then 180 else 96) ≤ 180 := by split <;> omega
  generalize (if 640 < state.width then 180 else 96) = mark_width at hwidth ⊢
  have hleft := sub32_half_lt state.width mark_width
  generalize sub32 state.width mark_width / 2 = left at hleft ⊢
  refine (line_yields (by omega)).bind fun video _ => ?_
  refine (line_yields (by omega)).bind fun video _ => ?_
  refine (line_yields (by omega)).bind fun video _ => ?_
  refine (line_yields (by omega)).bind fun video _ => ?_
  refine (line_yields (by omega)).bind fun video _ => ?_
  refine (line_yields (by omega)).bind fun video _ => ?_
  exact ⟨_, rfl, trivial⟩

/-! ## Which blocks the walk gets out of -/

/-- A tag of the framebuffer with the size of its fields. -/
def FramebufferTag (block : Bytes) (p : Nat) : Prop :=
  wordOf block p 4 = 8 ∧ 38 ≤ wordOf block (p + 4) 4

/-- The fields before the colors are those of a picture that can be drawn to. -/
def Drawable (block : Bytes) (p : Nat) : Prop :=
  wordOf block (p + 29) 1 = 1 ∧ wordOf block (p + 8) 8 ≠ 0 ∧ 24 ≤ wordOf block (p + 28) 1 ∧
    wordOf block (p + 28) 1 ≤ 32

/-- The walk may stop here: the type of an end tag is inside the block, or the fields of a tag of
the framebuffer are, with the colors when they are read. -/
def LastTag (block : Bytes) (p : Nat) : Prop :=
  (p + 4 ≤ block.length ∧ wordOf block p 4 = 0) ∨
  (p + 30 ≤ block.length ∧ FramebufferTag block p ∧ (Drawable block p → p + 37 ≤ block.length))

/-- The walk may go on here: the header of another tag is inside the block. -/
def PassedTag (block : Bytes) (p : Nat) : Prop :=
  p + 8 ≤ block.length ∧ wordOf block p 4 ≠ 0 ∧ ¬ FramebufferTag block p

/-- From a position on the tags, each with its header inside the block and none with a size that
rounds to 0, lead to one where the walk may stop. -/
inductive TagsEndInside (block : Bytes) : Nat → Prop
  | last {p : Nat} (h : LastTag block p) : TagsEndInside block p
  | next {p : Nat} (h : PassedTag block p) (hsize : 0 < round8 (wordOf block (p + 4) 4))
      (hrest : TagsEndInside block (p + round8 (wordOf block (p + 4) 4))) : TagsEndInside block p

variable {info : BootInfo} {screen : Screen}

/-- A computation that starts with a read comes to a value when the read is inside the block and
the rest comes to one. -/
theorem BootInfo.word_bind_iff {β : Type} {p n : Nat} {f : Nat → Checked β} {Q : β → Prop} :
    Yields (info.word (info.address + p) n >>= f) Q ↔
      p + n ≤ info.content.length ∧ Yields (f (wordOf info.content p n)) Q := by
  by_cases h : p + n ≤ info.content.length
  · rw [BootInfo.word_eq h, ok_bind]
    simp [h]
  · rw [word, if_pos (Nat.le_add_right _ _), Nat.add_sub_cancel_left, wordAt, if_neg h]
    constructor
    · rintro ⟨r, hr, -⟩
      cases hr
    · rintro ⟨hin, -⟩
      exact absurd hin h

theorem framebuffer_tag_yields_iff {p : Nat} :
    Yields (framebuffer_tag info (info.address + p) screen) (fun _ => True) ↔
      p + 30 ≤ info.content.length ∧ (Drawable info.content p → p + 37 ≤ info.content.length) := by
  unfold framebuffer_tag
  simp only [Nat.add_assoc]
  rw [BootInfo.word_bind_iff]
  refine and_congr_right fun h30 => ?_
  split
  · rename_i htype
    exact iff_of_true ⟨_, rfl, trivial⟩ (fun h => absurd h.1 htype)
  rename_i htype
  rw [BootInfo.word_bind_iff, and_iff_right (by omega)]
  split
  · rename_i haddr
    exact iff_of_true ⟨_, rfl, trivial⟩ (fun h => absurd haddr h.2.1)
  rename_i haddr
  rw [BootInfo.word_bind_iff, and_iff_right (by omega)]
  split
  · rename_i hbpp
    exact iff_of_true ⟨_, rfl, trivial⟩ (fun h => by have := h.2.2; omega)
  rename_i hbpp
  have hdraw : Drawable info.content p :=
    ⟨not_not.mp htype, haddr, by omega, by omega⟩
  rw [forall_prop_of_true hdraw]
  repeat rw [BootInfo.word_bind_iff]
  constructor
  · intro h
    omega
  · intro h37
    refine ⟨by omega, by omega, by omega, by omega, by omega, by omega, ?_⟩
    split
    · exact ⟨_, rfl, trivial⟩
    · exact (draw_mantle_splash_yields _).bind fun _ _ => ⟨_, rfl, trivial⟩

theorem tag_step_of_last {p : Nat} (h : LastTag info.content p) :
    ∃ result, tag_step info (info.address + p) screen = .ok (.inr result) := by
  unfold tag_step MULTIBOOT_TAG_TYPE_END MULTIBOOT_TAG_TYPE_FRAMEBUFFER
  rcases h with ⟨hin, hend⟩ | ⟨hin, ⟨htype, hsize⟩, hdraw⟩
  · rw [BootInfo.word_eq hin, ok_bind, if_pos hend]
    exact ⟨_, rfl⟩
  · obtain ⟨result, hresult, -⟩ := (@framebuffer_tag_yields_iff info screen p).mpr ⟨hin, hdraw⟩
    rw [BootInfo.word_eq (by omega), ok_bind, if_neg (by omega), Nat.add_assoc,
      BootInfo.word_eq (by omega), ok_bind, if_pos ⟨htype, hsize⟩, hresult]
    exact ⟨_, rfl⟩

theorem tag_step_of_passed {p : Nat} (h : PassedTag info.content p) :
    tag_step info (info.address + p) screen =
      .ok (.inl (info.address + (p + round8 (wordOf info.content (p + 4) 4)))) := by
  obtain ⟨hin, hend, hframe⟩ := h
  unfold FramebufferTag at hframe
  unfold tag_step MULTIBOOT_TAG_TYPE_END MULTIBOOT_TAG_TYPE_FRAMEBUFFER
  rw [BootInfo.word_eq (by omega), ok_bind, if_neg hend, Nat.add_assoc, BootInfo.word_eq (by omega),
    ok_bind, if_neg hframe, Nat.add_assoc]
  rfl

/-- A turn without a fault is at a tag where the walk may stop or go on. -/
theorem tag_of_step {p : Nat} {x : Nat ⊕ Int × Screen}
    (h : tag_step info (info.address + p) screen = .ok x) :
    LastTag info.content p ∨ PassedTag info.content p := by
  have hyields : Yields (tag_step info (info.address + p) screen) (fun _ => True) := ⟨x, h, trivial⟩
  unfold tag_step MULTIBOOT_TAG_TYPE_END MULTIBOOT_TAG_TYPE_FRAMEBUFFER at hyields
  rw [BootInfo.word_bind_iff] at hyields
  obtain ⟨h4, hyields⟩ := hyields
  split at hyields
  · rename_i hend
    exact .inl (.inl ⟨h4, hend⟩)
  rename_i hend
  rw [Nat.add_assoc, BootInfo.word_bind_iff] at hyields
  obtain ⟨h8, hyields⟩ := hyields
  split at hyields
  · rename_i hframe
    obtain ⟨r, hr, -⟩ := hyields
    obtain ⟨result, hresult, -⟩ := bind_eq_ok.mp hr
    obtain ⟨hin, hdraw⟩ := framebuffer_tag_yields_iff.mp ⟨result, hresult, trivial⟩
    exact .inl (.inr ⟨hin, hframe, hdraw⟩)
  · rename_i hframe
    exact .inr ⟨by omega, hend, hframe⟩

/-- The tags along which a walk came to its result. -/
theorem tagsEndInside_of_walk {fuel p : Nat} {r : Int × Screen}
    (h : tag_walk info screen fuel (info.address + p) = some (.ok r)) :
    TagsEndInside info.content p := by
  induction fuel generalizing p with
  | zero => cases h
  | succ fuel ih =>
    unfold tag_walk at h
    cases hstep : tag_step info (info.address + p) screen with
    | error fault => simp [hstep] at h
    | ok x =>
      rcases tag_of_step hstep with hlast | hpassed
      · exact .last hlast
      · rw [tag_step_of_passed hpassed] at h
        have hrest := ih h
        -- a size that rounds to 0 leaves the cursor where it is
        by_cases hsize : round8 (wordOf info.content (p + 4) 4) = 0
        · rwa [hsize] at hrest
        · exact .next hpassed (Nat.pos_of_ne_zero hsize) hrest

theorem walk_of_tagsEndInside (screen : Screen) {p : Nat} (h : TagsEndInside info.content p) :
    ∃ r, Settles (fun fuel => tag_walk info screen fuel (info.address + p)) (.ok r) := by
  induction h with
  | last h =>
    obtain ⟨result, hresult⟩ := @tag_step_of_last info screen _ h
    refine ⟨result, (Settles.some _).succ fun fuel => ?_⟩
    simp only [tag_walk, hresult]
  | next h hsize hrest ih =>
    obtain ⟨r, hr⟩ := ih
    refine ⟨r, hr.succ fun fuel => ?_⟩
    simp only [tag_walk, tag_step_of_passed h]

/-! ## The law -/

/-- `mantle_framebuffer_init` comes to an end, without a read outside of the block. -/
def EndsInside (multiboot_magic : Nat) (info : BootInfo) (screen : Screen) : Prop :=
  ∃ r, Settles (mantle_framebuffer_init multiboot_magic info screen) (.ok r)

/-- For every block, with `content` its `total_size` bytes, and whatever tags it has:
`mantle_framebuffer_init` ends without a read outside of the block exactly when it does not walk
at all, or the tags of the block lead to an end tag or to a tag of the framebuffer, each inside
the block and none with a size that rounds to 0. -/
theorem framebuffer_walk_ends_inside_iff (multiboot_magic : Nat) (info : BootInfo) (screen : Screen) :
    EndsInside multiboot_magic info screen ↔
      multiboot_magic ≠ MULTIBOOT2_BOOTLOADER_MAGIC ∨ info.address = 0 ∨
        TagsEndInside info.content 8 := by
  unfold EndsInside mantle_framebuffer_init
  by_cases hwalk : multiboot_magic ≠ MULTIBOOT2_BOOTLOADER_MAGIC ∨ info.address = 0
  · simp only [if_pos hwalk]
    refine iff_of_true ⟨_, Settles.some _⟩ ?_
    rcases hwalk with hmagic | haddress
    · exact .inl hmagic
    · exact .inr (.inl haddress)
  · simp only [if_neg hwalk]
    rw [← or_assoc, or_iff_right hwalk]
    constructor
    · rintro ⟨r, n, hn⟩
      exact tagsEndInside_of_walk (hn n (Nat.le_refl n))
    · exact walk_of_tagsEndInside screen

theorem low_address_lt : 0x9000 < 2 ^ 32 := by decide

/-- A block with one tag, whose size is 0. -/
def emptyTagBlock : BootInfo :=
  { address := 0x9000
    content := wordBytes 4 16 ++ wordBytes 4 0 ++ wordBytes 4 1 ++ wordBytes 4 0
    address_lt := low_address_lt }

/-- A block without an end tag. -/
def openBlock : BootInfo :=
  { address := 0x9000
    content := wordBytes 4 8 ++ wordBytes 4 0
    address_lt := low_address_lt }

def darkScreen : Screen := { state := ⟨0, 0, 0, 0, 0, 0, 0, 0⟩, video := fun _ => 0 }

/-- On a tag of size 0 the walk stays where it is. -/
theorem walk_stays_on_the_empty_tag (fuel : Nat) :
    tag_walk emptyTagBlock darkScreen fuel (emptyTagBlock.address + 8) = none := by
  have hpassed : PassedTag emptyTagBlock.content 8 := by
    unfold PassedTag FramebufferTag
    decide
  have hround : round8 (wordOf emptyTagBlock.content (8 + 4) 4) = 0 := by decide
  induction fuel with
  | zero => rfl
  | succ fuel ih =>
    simp only [tag_walk, tag_step_of_passed hpassed, hround]
    exact ih

/-- `find_rootfs` refuses a block with a tag of size 0 and gets out of one without an end tag,
and `mantle_framebuffer_init` never returns from the first and reads past the second. -/
theorem framebuffer_walk_never_returns :
    (emptyTagBlock.content.length = 16 ∧ wordOf emptyTagBlock.content 0 4 = 16 ∧
      find_rootfs emptyTagBlock = .ok (.error (-2)) ∧
      (∀ fuel, mantle_framebuffer_init MULTIBOOT2_BOOTLOADER_MAGIC emptyTagBlock darkScreen fuel =
        none) ∧
      ¬ EndsInside MULTIBOOT2_BOOTLOADER_MAGIC emptyTagBlock darkScreen) ∧
    (openBlock.content.length = 8 ∧ wordOf openBlock.content 0 4 = 8 ∧
      find_rootfs openBlock = .ok (.error (-1)) ∧
      ¬ EndsInside MULTIBOOT2_BOOTLOADER_MAGIC openBlock darkScreen) := by
  have hnever : ∀ fuel, mantle_framebuffer_init MULTIBOOT2_BOOTLOADER_MAGIC emptyTagBlock darkScreen
      fuel = none := by
    intro fuel
    rw [mantle_framebuffer_init, if_neg (by decide)]
    exact walk_stays_on_the_empty_tag fuel
  have hfault : tag_step openBlock (openBlock.address + 8) darkScreen = .error (.bounds 12 8) := rfl
  refine ⟨⟨rfl, by decide, by decide +kernel, hnever, ?_⟩, rfl, by decide, by decide +kernel, ?_⟩
  · rintro ⟨r, n, hn⟩
    have := hn n (Nat.le_refl n)
    rw [hnever] at this
    cases this
  · rintro ⟨r, n, hn⟩
    have := hn (n + 1) (Nat.le_succ n)
    rw [mantle_framebuffer_init, if_neg (by decide), tag_walk, hfault] at this
    cases this

end mantle
