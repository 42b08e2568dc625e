-- `boot/splash/mantle-splash.c`: an image fades into another one on the framebuffer.
-- The mix of a byte is between the two bytes, and comes to the light one, exactly
-- when it has not to go down: the difference is an unsigned number.
import MantleOS.CText

open checked bytes ctext

namespace mantle.splash

/-! ## The images -/

structure image where
  w : Nat
  h : Nat
  p : Bytes
  deriving DecidableEq

/-- `fscanf(f, "%2s %u %u %u", ..)`, the test of the magic and `fgetc`: the size of the image,
and the rest of the file. -/
def scan_header (text : Bytes) : Option (Nat × Nat × Bytes) := do
  let (magic, rest) := scanWord 2 text
  let (w, rest) ← scanUnsigned rest
  let (h, rest) ← scanUnsigned rest
  let (_, rest) ← scanUnsigned rest
  if magic[0]? = some 80 ∧ magic[1]? = some 54 then some (w, h, rest.drop 1) else none

/-- `load_ppm(name, im)`, with what the file holds and the sizes for which `malloc` has memory. -/
def load_ppm (malloc : Nat → Bool) (file : Option Bytes) : Checked (Option image) :=
  match file.bind scan_header with
  | none => .ok none
  | some (w, h, rest) =>
    let size := w * h * 3 % 2 ^ 32
    let count := w * h % 2 ^ 32
    if !malloc size then .ok none
    else do
      let p ← spliceAt (List.replicate size 0) 0 (rest.take (3 * count))
      if min count (rest.length / 3) = count then return some ⟨w, h, p⟩ else return none

/-! ## The animation -/

/-- `blend(a, b, t)`. `(int)b - a` is an `unsigned` when it meets `t`. -/
def blend (a b : UInt8) (t : UInt32) : UInt8 :=
  (a.toUInt32 + (b.toUInt32 - a.toUInt32) * t / 1000).toUInt8

/-- What the two `ioctl` calls tell of the screen. -/
structure screeninfo where
  xres : Nat
  yres : Nat
  bits_per_pixel : Nat
  line_length : Nat
  smem_len : Nat

/-- `v.xres > dark.w ? (v.xres - dark.w) / 2 : 0`, and so for the rows. -/
def origin (res extent : Nat) : Nat := if extent < res then (res - extent) / 2 else 0

/-- `frame < 90 ? frame * 1000 / 90 : 1000`. -/
def time (frame : Nat) : Nat := if frame < 90 then frame * 1000 / 90 else 1000

section Draw

variable (v : screeninfo) (dark light : image)

/-- The body of the loops of `main`. -/
def draw_pixel (t : Nat) (y x : Nat) (mem : Bytes) : Checked Bytes := do
  let i := (y * dark.w + x) * 3 % 2 ^ 32
  let r := blend (← byteAt dark.p i) (← byteAt light.p i) (.ofNat t)
  let g := blend (← byteAt dark.p (i + 1)) (← byteAt light.p (i + 1)) (.ofNat t)
  let b := blend (← byteAt dark.p (i + 2)) (← byteAt light.p (i + 2)) (.ofNat t)
  let ox := origin v.xres dark.w
  let oy := origin v.yres dark.h
  let o := ((oy + y) * v.line_length + (ox + x) * (v.bits_per_pixel / 8)) % 2 ^ 32
  let mem ← setAt mem o b
  let mem ← setAt mem (o + 1) g
  let mem ← setAt mem (o + 2) r
  if v.bits_per_pixel = 32 then setAt mem (o + 3) 255 else return mem

/-- One frame: the loops over the rows and the columns. -/
def draw_frame (frame : Nat) (mem : Bytes) : Checked Bytes :=
  let ox := origin v.xres dark.w
  let oy := origin v.yres dark.h
  forWhile (fun y => (oy + y) % 2 ^ 32 < v.yres) (fun y mem =>
    forWhile (fun x => (ox + x) % 2 ^ 32 < v.xres) (draw_pixel v dark light (time frame) y) 0 dark.w mem)
    0 dark.h mem

/-- What the screen shows in a frame, after the frames before it. -/
def shown (mem : Bytes) (frame : Nat) : Checked Bytes := forRange (draw_frame v dark light) 0 (frame + 1) mem

end Draw

/-- What the program finds: the screen that it can map, with its memory, the sizes that each call
of `malloc` has memory for, and the two files. -/
structure machine where
  fb0 : Option (screeninfo × Bytes)
  malloc : Nat → Nat → Bool
  dark : Option Bytes
  light : Option Bytes

/-- `main`: what is in the memory of the screen at the end. -/
def main (m : machine) : Checked (Option Bytes) :=
  match m.fb0 with
  | none => .ok none
  | some (v, mem) =>
    if v.bits_per_pixel < 24 then .ok (some mem)
    else do
      let some dark ← load_ppm (m.malloc 0) m.dark | return some mem
      let some light ← load_ppm (m.malloc 1) m.light | return some mem
      let mem ← shown v dark light mem 149
      return some mem

/-! ## A screen, and what it should show -/

/-- A screen of 24 or 32 bits, whose rows have room for their pixels and are in its memory. -/
structure Framebuffer (v : screeninfo) : Prop where
  depth : v.bits_per_pixel = 24 ∨ v.bits_per_pixel = 32
  xres_lt : v.xres < 2 ^ 32
  yres_lt : v.yres < 2 ^ 32
  row : v.xres * (v.bits_per_pixel / 8) ≤ v.line_length
  rows : v.yres * v.line_length ≤ v.smem_len
  smem_len_lt : v.smem_len < 2 ^ 32

/-- A byte of a buffer. -/
def byte (b : Bytes) (i : Nat) : UInt8 := b.getD i 0

/-- Where the pixel `x`, `y` of the image is in the memory of the screen. -/
def place (v : screeninfo) (dark : image) (x y : Nat) : Nat :=
  (origin v.yres dark.h + y) * v.line_length + (origin v.xres dark.w + x) * (v.bits_per_pixel / 8)

/-- One byte lies between two others. -/
def Between (a b c : UInt8) : Prop := a ≤ c ∧ c ≤ b ∨ b ≤ c ∧ c ≤ a

instance (a b c : UInt8) : Decidable (Between a b c) := inferInstanceAs (Decidable (_ ∨ _))

/-- What is shown of the colour `c` (0 is red) of each pixel is between the two images, and it is
the light one from frame 90 on. -/
def Fades (v : screeninfo) (dark light : image) (mem : Bytes) : Prop :=
  ∀ frame < 150, Yields (shown v dark light mem frame) fun screen =>
    ∀ x < dark.w, ∀ y < dark.h, ∀ c < 3,
      let a := byte dark.p ((y * dark.w + x) * 3 + c)
      let b := byte light.p ((y * dark.w + x) * 3 + c)
      let s := byte screen (place v dark x y + (2 - c))
      Between a b s ∧ (90 ≤ frame → s = b)

/-! ## The mix of two bytes -/

/-- The mix in numbers, with the difference modulo `2 ^ 32`. -/
theorem blend_toNat (a b : UInt8) {t : Nat} (ht : t ≤ 1000) :
    (blend a b (.ofNat t)).toNat =
      (a.toNat + (2 ^ 32 - a.toNat + b.toNat) % 2 ^ 32 * t % 2 ^ 32 / 1000) % 2 ^ 32 % 2 ^ 8 := by
  have htime : t % 2 ^ 32 = t := Nat.mod_eq_of_lt (by omega)
  unfold blend
  rw [UInt32.toNat_toUInt8, UInt32.toNat_add, UInt32.toNat_div, UInt32.toNat_mul, UInt32.toNat_sub,
    UInt8.toNat_toUInt32, UInt8.toNat_toUInt32, UInt32.toNat_ofNat', htime]
  rfl

/-- Going up, the mix is the one that is meant. -/
theorem blend_rising {a b : UInt8} {t : Nat} (h : a ≤ b) (ht : t ≤ 1000) :
    (blend a b (.ofNat t)).toNat = a.toNat + (b.toNat - a.toNat) * t / 1000 := by
  have hb : b.toNat < 256 := b.toNat_lt
  have hab : a.toNat ≤ b.toNat := h
  have hsub : (2 ^ 32 - a.toNat + b.toNat) % 2 ^ 32 = b.toNat - a.toNat := by omega
  have hmul : (b.toNat - a.toNat) * t ≤ (b.toNat - a.toNat) * 1000 := Nat.mul_le_mul_left _ ht
  rw [blend_toNat a b ht, hsub, Nat.mod_eq_of_lt (a := (b.toNat - a.toNat) * t) (by omega),
    Nat.mod_eq_of_lt (by omega), Nat.mod_eq_of_lt (by omega)]

theorem blend_between {a b : UInt8} {t : Nat} (h : a ≤ b) (ht : t ≤ 1000) :
    a ≤ blend a b (.ofNat t) ∧ blend a b (.ofNat t) ≤ b := by
  have hab : a.toNat ≤ b.toNat := h
  have hmul : (b.toNat - a.toNat) * t ≤ (b.toNat - a.toNat) * 1000 := Nat.mul_le_mul_left _ ht
  rw [UInt8.le_iff_toNat_le, UInt8.le_iff_toNat_le, blend_rising h ht]
  omega

/-- At the end it is the light byte. -/
theorem blend_light {a b : UInt8} (h : a ≤ b) : blend a b (.ofNat 1000) = b := by
  have hab : a.toNat ≤ b.toNat := h
  rw [← UInt8.toNat_inj, blend_rising h (Nat.le_refl _), Nat.mul_div_cancel _ (by omega)]
  omega

/-- Going down, the quotient is one of a number near to `2 ^ 32`, and the end misses the light byte. -/
theorem blend_falling {a b : UInt8} (h : b < a) : blend a b (.ofNat 1000) ≠ b := by
  have ha : a.toNat < 256 := a.toNat_lt
  have hab : b.toNat < a.toNat := h
  have hsub : (2 ^ 32 - a.toNat + b.toNat) % 2 ^ 32 = 2 ^ 32 - (a.toNat - b.toNat) := by omega
  have hmul : (2 ^ 32 - (a.toNat - b.toNat)) * 1000 % 2 ^ 32 = 2 ^ 32 - (a.toNat - b.toNat) * 1000 := by omega
  have hdiv : (2 ^ 32 - (a.toNat - b.toNat) * 1000) / 1000 = 4294967 - (a.toNat - b.toNat) := by omega
  have hsum : a.toNat + (4294967 - (a.toNat - b.toNat)) = b.toNat + 4294967 := by omega
  intro heq
  have hmix := blend_toNat a b (Nat.le_refl 1000)
  rw [heq, hsub, hmul, hdiv, hsum, Nat.mod_eq_of_lt (by omega)] at hmix
  -- the last byte of 4294967 is 55
  omega

/-- The mix is right at every time exactly when the byte does not go down. -/
theorem mixes_iff (a b : UInt8) :
    (∀ frame < 150, Between a b (blend a b (.ofNat (time frame))) ∧
      (90 ≤ frame → blend a b (.ofNat (time frame)) = b)) ↔ a ≤ b := by
  constructor
  · intro hall
    have hend := (hall 90 (by omega)).2 (Nat.le_refl 90)
    by_contra hfall
    exact blend_falling (UInt8.not_le.mp hfall) hend
  · intro h frame _
    have htime : time frame ≤ 1000 := by
      unfold time
      split <;> omega
    refine ⟨.inl (blend_between h htime), fun hlate => ?_⟩
    rw [time, if_neg (by omega)]
    exact blend_light h

/-! ## The pixels in the memory -/

/-- Two images of one size, and a screen at least as large. -/
structure Fits (v : screeninfo) (dark light : image) : Prop extends Framebuffer v where
  width : dark.w ≤ v.xres
  height : dark.h ≤ v.yres
  dark_length : dark.p.length = dark.w * dark.h * 3
  light_length : light.p.length = dark.w * dark.h * 3

theorem origin_fits {res extent : Nat} (h : extent ≤ res) : origin res extent + extent ≤ res := by
  unfold origin
  split <;> omega

/-- A pixel ends before the next one of its row begins. -/
theorem place_next (v : screeninfo) (dark : image) {x x' : Nat} (y : Nat) (h : x < x') :
    place v dark x y + v.bits_per_pixel / 8 ≤ place v dark x' y := by
  unfold place
  rw [Nat.add_assoc, ← Nat.succ_mul]
  exact Nat.add_le_add_left (Nat.mul_le_mul_right _ (by omega)) _

theorem index_lt {w h x y c : Nat} (hx : x < w) (hy : y < h) (hc : c < 3) :
    (y * w + x) * 3 + c < w * h * 3 := by
  have hrow : (y + 1) * w ≤ h * w := Nat.mul_le_mul_right _ hy
  rw [Nat.succ_mul, Nat.mul_comm h] at hrow
  omega

theorem Framebuffer.depth_pos {v : screeninfo} (hv : Framebuffer v) : 3 ≤ v.bits_per_pixel / 8 := by
  rcases hv.depth with h | h <;> omega

/-- An image on the screen has fewer bytes than its memory. -/
theorem image_small {v : screeninfo} {w h : Nat} (hv : Framebuffer v) (hw : w ≤ v.xres) (hh : h ≤ v.yres) :
    w * h * 3 < 2 ^ 32 := by
  calc w * h * 3 = h * (w * 3) := by ring
    _ ≤ v.yres * (v.xres * (v.bits_per_pixel / 8)) := Nat.mul_le_mul hh (Nat.mul_le_mul hw hv.depth_pos)
    _ ≤ v.yres * v.line_length := Nat.mul_le_mul_left _ hv.row
    _ ≤ v.smem_len := hv.rows
    _ < 2 ^ 32 := hv.smem_len_lt

section Pixels

variable {v : screeninfo} {dark light : image} (hfits : Fits v dark light)

include hfits

/-- A pixel ends before the next row begins. -/
theorem place_row {x y : Nat} (hx : x < dark.w) :
    place v dark x y + v.bits_per_pixel / 8 ≤ (origin v.yres dark.h + (y + 1)) * v.line_length := by
  have hcolumn : origin v.xres dark.w + x + 1 ≤ v.xres := by
    have := origin_fits hfits.width
    omega
  have hrow := (Nat.mul_le_mul_right (v.bits_per_pixel / 8) hcolumn).trans hfits.row
  rw [Nat.succ_mul] at hrow
  unfold place
  rw [← Nat.add_assoc (origin v.yres dark.h), Nat.succ_mul]
  omega

theorem place_below {x x' y y' : Nat} (hx : x < dark.w) (h : y < y') :
    place v dark x y + v.bits_per_pixel / 8 ≤ place v dark x' y' := by
  have hnext : (origin v.yres dark.h + (y + 1)) * v.line_length ≤ (origin v.yres dark.h + y') * v.line_length :=
    Nat.mul_le_mul_right _ (by omega)
  exact ((place_row hfits hx).trans hnext).trans (Nat.le_add_right _ _)

theorem place_inside {x y : Nat} (hx : x < dark.w) (hy : y < dark.h) :
    place v dark x y + v.bits_per_pixel / 8 ≤ v.smem_len := by
  have hrow : origin v.yres dark.h + (y + 1) ≤ v.yres := by
    have := origin_fits hfits.height
    omega
  exact ((place_row hfits hx).trans (Nat.mul_le_mul_right _ hrow)).trans hfits.rows

/-- The places of two pixels do not meet. -/
theorem place_apart {x x' y y' : Nat} (hx : x < dark.w) (hx' : x' < dark.w) (h : x ≠ x' ∨ y ≠ y') :
    place v dark x y + v.bits_per_pixel / 8 ≤ place v dark x' y' ∨
      place v dark x' y' + v.bits_per_pixel / 8 ≤ place v dark x y := by
  rcases Nat.lt_trichotomy y y' with hy | rfl | hy
  · exact .inl (place_below hfits hx hy)
  · rcases Nat.lt_or_gt_of_ne (h.resolve_right (not_not_intro rfl)) with hlt | hgt
    · exact .inl (place_next v dark y hlt)
    · exact .inr (place_next v dark y hgt)
  · exact .inr (place_below hfits hx' hy)

end Pixels

/-! ## One frame -/

/-- The bytes of a pixel at a time of the animation, as they stand in the memory. -/
def blended (dark light : image) (t x y : Nat) : Bytes :=
  let i := (y * dark.w + x) * 3
  let mix c := blend (byte dark.p (i + c)) (byte light.p (i + c)) (.ofNat t)
  [mix 2, mix 1, mix 0]

/-- The pixels before `x`, `y` in the order of the loops are drawn. -/
structure Drawn (v : screeninfo) (dark light : image) (t y x : Nat) (mem : Bytes) : Prop where
  length : mem.length = v.smem_len
  pixels : ∀ x' < dark.w, ∀ y' < dark.h, y' < y ∨ y' = y ∧ x' < x →
    slice mem (place v dark x' y') 3 = blended dark light t x' y'

theorem byteAt_byte {b : Bytes} {i : Nat} (h : i < b.length) : byteAt b i = .ok (byte b i) := by
  rw [byteAt_eq h, byte, List.getD_eq_getElem?_getD, List.getElem?_eq_getElem h, Option.getD_some]

/-- The byte of a colour in a frame is the mix of the two images. -/
theorem Drawn.byte_eq {v : screeninfo} {dark light : image} {t x y c : Nat} {mem : Bytes} (h : Drawn v dark light t dark.h 0 mem)
    (hx : x < dark.w) (hy : y < dark.h) (hc : c < 3) :
    byte mem (place v dark x y + (2 - c)) =
      blend (byte dark.p ((y * dark.w + x) * 3 + c)) (byte light.p ((y * dark.w + x) * 3 + c)) (.ofNat t) := by
  have hpixel := h.pixels x hx y hy (.inl hy)
  have hbyte : byte mem (place v dark x y + (2 - c)) = byte (slice mem (place v dark x y) 3) (2 - c) := by
    simp only [byte, List.getD_eq_getElem?_getD, slice, List.getElem?_take, List.getElem?_drop]
    rw [if_pos (by omega)]
  rw [hbyte, hpixel]
  obtain rfl | rfl | rfl : c = 0 ∨ c = 1 ∨ c = 2 := by omega
  · rfl
  · rfl
  · rfl

section Frame

variable {v : screeninfo} {dark light : image} (hfits : Fits v dark light)

include hfits

/-- A pixel that is drawn: its mixed bytes stand in its place, and nothing else is written. -/
theorem draw_pixel.spec (t : Nat) {x y : Nat} {mem : Bytes} (hx : x < dark.w) (hy : y < dark.h)
    (hmem : mem.length = v.smem_len) :
    Yields (draw_pixel v dark light t y x mem) fun mem' => ∃ pad, pad.length = v.bits_per_pixel / 8 - 3 ∧
      mem' = splice mem (place v dark x y) (blended dark light t x y ++ pad) := by
  have hsmall := image_small hfits.toFramebuffer hfits.width hfits.height
  have hinside := place_inside hfits hx hy
  have hdepth := hfits.depth_pos
  have hplace : ((origin v.yres dark.h + y) * v.line_length + (origin v.xres dark.w + x) *
      (v.bits_per_pixel / 8)) % 2 ^ 32 = place v dark x y :=
    Nat.mod_eq_of_lt (by have := hfits.smem_len_lt; unfold place at hinside; omega)
  have hindex : (y * dark.w + x) * 3 + 2 < dark.w * dark.h * 3 := index_lt hx hy (by omega)
  unfold draw_pixel blended
  dsimp only
  generalize (y * dark.w + x) * 3 = i at hindex ⊢
  rw [Nat.mod_eq_of_lt (by omega : i < 2 ^ 32)]
  have hdark : ∀ c < 3, byteAt dark.p (i + c) = .ok (byte dark.p (i + c)) :=
    fun c hc => byteAt_byte (by rw [hfits.dark_length]; omega)
  have hlight : ∀ c < 3, byteAt light.p (i + c) = .ok (byte light.p (i + c)) :=
    fun c hc => byteAt_byte (by rw [hfits.light_length]; omega)
  have hdark0 := hdark 0 (by omega)
  have hlight0 := hlight 0 (by omega)
  rw [Nat.add_zero] at hdark0 hlight0 ⊢
  rw [hdark0, hlight0, hdark 1 (by omega), hlight 1 (by omega), hdark 2 (by omega), hlight 2 (by omega), hplace]
  simp only [ok_bind]
  generalize blend (byte dark.p i) (byte light.p i) (.ofNat t) = r
  generalize blend (byte dark.p (i + 1)) (byte light.p (i + 1)) (.ofNat t) = g
  generalize blend (byte dark.p (i + 2)) (byte light.p (i + 2)) (.ofNat t) = b
  -- the stores are one write
  have hb : setAt mem (place v dark x y) b = .ok (splice mem (place v dark x y) [b]) := by
    rw [setAt_eq b (by omega), set_eq_splice b (by omega)]
  have hg := @setAt_splice mem [b] (place v dark x y) g (by rw [List.length_singleton]; omega)
  have hr := @setAt_splice mem [b, g] (place v dark x y) r (by simp only [List.length_cons, List.length_nil]; omega)
  simp only [List.length_cons, List.length_nil, List.cons_append, List.nil_append, Nat.zero_add] at hg hr
  rw [hb, ok_bind, hg, ok_bind, hr, ok_bind]
  split
  · rename_i h32
    have hpad := @setAt_splice mem [b, g, r] (place v dark x y) 255
      (by simp only [List.length_cons, List.length_nil]; omega)
    rw [List.length_cons, List.length_cons, List.length_singleton] at hpad
    exact ⟨_, hpad, [255], by rw [h32]; rfl, rfl⟩
  · have h24 : v.bits_per_pixel = 24 := hfits.depth.resolve_right ‹_›
    exact ⟨_, rfl, [], by rw [h24]; rfl, rfl⟩

/-- One more pixel is drawn, and those before it stay. -/
theorem draw_pixel.drawn {t x y : Nat} {mem : Bytes} (hx : x < dark.w) (hy : y < dark.h)
    (h : Drawn v dark light t y x mem) :
    Yields (draw_pixel v dark light t y x mem) (Drawn v dark light t y (x + 1)) := by
  apply (draw_pixel.spec hfits t hx hy h.length).mono
  rintro mem' ⟨pad, hpad, rfl⟩
  have hdepth := hfits.depth_pos
  have hinside := place_inside hfits hx hy
  have hlen : (blended dark light t x y ++ pad).length = v.bits_per_pixel / 8 := by
    rw [List.length_append, hpad]
    exact Nat.add_sub_cancel' hdepth
  have hroom : place v dark x y + (blended dark light t x y ++ pad).length ≤ mem.length := by
    rw [hlen, h.length]
    exact hinside
  refine ⟨(splice_length hroom).trans h.length, fun x' hx' y' hy' hbefore => ?_⟩
  by_cases hsame : x' = x ∧ y' = y
  · obtain ⟨rfl, rfl⟩ := hsame
    have hself := @slice_splice_self mem (blended dark light t x' y' ++ pad) (place v dark x' y')
      (Nat.le_of_add_right_le hroom)
    rw [← take_slice _ _ (hlen ▸ hdepth), hself]
    rfl
  · have hapart := place_apart hfits hx' hx (by omega : x' ≠ x ∨ y' ≠ y)
    rw [slice_splice_other hroom (by rw [hlen]; omega)]
    exact h.pixels x' hx' y' hy' (by omega)

/-- A row that is drawn. -/
theorem draw_row.spec {t y : Nat} {mem : Bytes} (hy : y < dark.h) (h : Drawn v dark light t y 0 mem) :
    Yields (forWhile (fun x => (origin v.xres dark.w + x) % 2 ^ 32 < v.xres) (draw_pixel v dark light t y)
      0 dark.w mem) (Drawn v dark light t (y + 1) 0) := by
  have hwidth := origin_fits hfits.width
  have hxres := hfits.xres_lt
  rw [forWhile_eq_forRange]
  · refine (forRange.spec _ (Drawn v dark light t y) 0 dark.w mem h ?_).mono ?_
    · intro x mem' _ hx h'
      exact draw_pixel.drawn hfits (by omega) hy h'
    · intro mem' h'
      exact ⟨h'.length, fun x' hx' y' hy' hbefore => h'.pixels x' hx' y' hy' (by omega)⟩
  · intro x _ hx
    rw [decide_eq_true_eq, Nat.mod_eq_of_lt (by omega)]
    omega

/-- A frame that is drawn, whatever is in the memory. -/
theorem draw_frame.spec (frame : Nat) {mem : Bytes} (hmem : mem.length = v.smem_len) :
    Yields (draw_frame v dark light frame mem) (Drawn v dark light (time frame) dark.h 0) := by
  have hheight := origin_fits hfits.height
  have hyres := hfits.yres_lt
  have hstart : Drawn v dark light (time frame) 0 0 mem := ⟨hmem, fun x' _ y' _ hbefore => by omega⟩
  unfold draw_frame
  dsimp only
  rw [forWhile_eq_forRange]
  · refine (forRange.spec _ (fun y => Drawn v dark light (time frame) y 0) 0 dark.h mem hstart ?_).mono ?_
    · intro y mem' _ hy h'
      exact draw_row.spec hfits (by omega) h'
    · intro mem' h'
      rwa [Nat.zero_add] at h'
  · intro y _ hy
    rw [decide_eq_true_eq, Nat.mod_eq_of_lt (by omega)]
    omega

/-- Each frame is drawn over the one before it. -/
theorem shown.spec (frame : Nat) {mem : Bytes} (hmem : mem.length = v.smem_len) :
    Yields (shown v dark light mem frame) (Drawn v dark light (time frame) dark.h 0) := by
  unfold shown
  refine (forRange.spec _ (fun n mem => mem.length = v.smem_len ∧ ∀ k, n = k + 1 →
    Drawn v dark light (time k) dark.h 0 mem) 0 (frame + 1) mem ⟨hmem, fun k hk => by omega⟩ ?_).mono ?_
  · intro n mem' _ _ h'
    apply (draw_frame.spec hfits n h'.1).mono
    intro screen hscreen
    refine ⟨hscreen.length, fun k hk => ?_⟩
    obtain rfl : n = k := by omega
    exact hscreen
  · intro screen hscreen
    exact hscreen.2 frame (Nat.zero_add _)

/-- Every frame is as it should be exactly when no byte has to go down. -/
theorem fades_iff {mem : Bytes} (hmem : mem.length = v.smem_len) :
    Fades v dark light mem ↔ ∀ i < dark.p.length, byte dark.p i ≤ byte light.p i := by
  constructor
  · intro hfades i hi
    rw [hfits.dark_length] at hi
    -- the pixel and the colour of the byte
    have hw : 0 < dark.w := by
      apply Nat.pos_of_ne_zero
      intro h0
      rw [h0, Nat.zero_mul, Nat.zero_mul] at hi
      exact Nat.not_lt_zero i hi
    have hx : i / 3 % dark.w < dark.w := Nat.mod_lt _ hw
    have hy : i / 3 / dark.w < dark.h := by
      apply Nat.div_lt_of_lt_mul
      omega
    have hindex : (i / 3 / dark.w * dark.w + i / 3 % dark.w) * 3 + i % 3 = i := by
      rw [Nat.div_add_mod', Nat.div_add_mod']
    rw [← mixes_iff]
    intro frame hframe
    obtain ⟨screen, hscreen, hbytes⟩ := hfades frame hframe
    have hdrawn := (shown.spec hfits frame hmem).of_eq_ok hscreen
    have hbyte := hbytes _ hx _ hy (i % 3) (Nat.mod_lt i (by omega))
    rw [hdrawn.byte_eq hx hy (Nat.mod_lt i (by omega)), hindex] at hbyte
    exact hbyte
  · intro hrise frame hframe
    apply (shown.spec hfits frame hmem).mono
    intro screen hdrawn x hx y hy c hc
    have hi : (y * dark.w + x) * 3 + c < dark.p.length := hfits.dark_length ▸ index_lt hx hy hc
    dsimp only
    rw [hdrawn.byte_eq hx hy hc]
    exact (mixes_iff _ _).mpr (hrise _ hi) frame hframe

end Frame

/-! ## The law -/

/-- An image that is accepted has the bytes of its size, if their number fits. -/
theorem load_ppm_length {malloc : Nat → Bool} {file : Option Bytes} {im : image}
    (h : load_ppm malloc file = .ok (some im)) (hsmall : im.w * im.h * 3 < 2 ^ 32) :
    im.p.length = im.w * im.h * 3 := by
  unfold load_ppm at h
  cases hheader : file.bind scan_header with
  | none =>
    rw [hheader] at h
    cases h
  | some header =>
    obtain ⟨w, height, rest⟩ := header
    rw [hheader] at h
    dsimp only at h
    split at h
    · cases h
    · obtain ⟨p, hp, h⟩ := bind_eq_ok.mp h
      have hlen : p.length = w * height * 3 % 2 ^ 32 := by
        unfold spliceAt at hp
        split at hp
        · rename_i hroom
          cases hp
          rw [splice_length hroom, List.length_replicate]
        · cases hp
      split at h
      · cases h
        exact hlen.trans (Nat.mod_eq_of_lt hsmall)
      · cases h

/-- **When nothing has to go down, the light image is on the screen at the end.** -/
theorem the_light_image_stays (m : machine) {v : screeninfo} {dark light : image} {mem : Bytes}
    (hfb : m.fb0 = some (v, mem)) (hmem : mem.length = v.smem_len) (hfits : Fits v dark light)
    (hdark : load_ppm (m.malloc 0) m.dark = .ok (some dark))
    (hlight : load_ppm (m.malloc 1) m.light = .ok (some light))
    (hrise : ∀ i < dark.p.length, byte dark.p i ≤ byte light.p i) :
    Yields (main m) fun screen => ∃ mem', screen = some mem' ∧ ∀ x < dark.w, ∀ y < dark.h, ∀ c < 3,
      byte mem' (place v dark x y + (2 - c)) = byte light.p ((y * dark.w + x) * 3 + c) := by
  obtain ⟨mem', hshown, hbytes⟩ := (fades_iff hfits hmem).mpr hrise 149 (by omega)
  have hdepth : ¬ v.bits_per_pixel < 24 := by
    rcases hfits.depth with h | h <;> omega
  refine ⟨some mem', ?_, mem', rfl, fun x hx y hy c hc => (hbytes x hx y hy c hc).2 (by omega)⟩
  unfold main
  rw [hfb]
  dsimp only
  rw [if_neg hdepth, hdark, ok_bind]
  dsimp only
  rw [hlight, ok_bind]
  dsimp only
  rw [hshown]
  rfl

/-- **The images fade into each other exactly when no byte of the dark one is larger.** -/
theorem the_images_fade_iff (v : screeninfo) (hv : Framebuffer v) (mem : Bytes) (hmem : mem.length = v.smem_len)
    (malloc malloc' : Nat → Bool) (dark_file light_file : Option Bytes) (dark light : image)
    (hdark : load_ppm malloc dark_file = .ok (some dark))
    (hlight : load_ppm malloc' light_file = .ok (some light))
    (hw : dark.w = light.w) (hh : dark.h = light.h) (hx : dark.w ≤ v.xres) (hy : dark.h ≤ v.yres) :
    Fades v dark light mem ↔ ∀ i < dark.p.length, byte dark.p i ≤ byte light.p i := by
  have hsmall := image_small hv hx hy
  have hlight_length := load_ppm_length hlight (hw ▸ hh ▸ hsmall)
  rw [← hw, ← hh] at hlight_length
  exact fades_iff ⟨hv, hx, hy, load_ppm_length hdark hsmall, hlight_length⟩ hmem

/-- A screen of one pixel of 24 bits. -/
def pixel_screen : screeninfo := ⟨1, 1, 24, 3, 3⟩

theorem pixel_screen_framebuffer : Framebuffer pixel_screen :=
  ⟨.inl rfl, by decide, by decide, by decide, by decide, by decide⟩

/-- A file of one pixel. -/
def pixel_file (bytes : Bytes) : Option Bytes := some (ascii "P6\n1 1\n255\n" ++ bytes)

theorem black_fades_into_white :
    load_ppm (fun _ => true) (pixel_file [0, 0, 0]) = .ok (some ⟨1, 1, [0, 0, 0]⟩) ∧
      load_ppm (fun _ => true) (pixel_file [255, 255, 255]) = .ok (some ⟨1, 1, [255, 255, 255]⟩) ∧
      Fades pixel_screen ⟨1, 1, [0, 0, 0]⟩ ⟨1, 1, [255, 255, 255]⟩ [0, 0, 0] := by
  have hdark : load_ppm (fun _ => true) (pixel_file [0, 0, 0]) = .ok (some ⟨1, 1, [0, 0, 0]⟩) := by decide
  have hlight : load_ppm (fun _ => true) (pixel_file [255, 255, 255]) = .ok (some ⟨1, 1, [255, 255, 255]⟩) := by
    decide
  refine ⟨hdark, hlight, ?_⟩
  apply (the_images_fade_iff pixel_screen pixel_screen_framebuffer _ rfl _ _ _ _ _ _ hdark hlight rfl rfl
    (Nat.le_refl 1) (Nat.le_refl 1)).mpr
  intro i hi
  obtain rfl | rfl | rfl : i = 0 ∨ i = 1 ∨ i = 2 := by
    have : i < 3 := hi
    omega
  all_goals decide

/-- A red dot that goes out never goes out: it ends at 55. -/
theorem a_byte_that_goes_down_ends_past_the_light_one :
    load_ppm (fun _ => true) (pixel_file [200, 0, 0]) = .ok (some ⟨1, 1, [200, 0, 0]⟩) ∧
      load_ppm (fun _ => true) (pixel_file [0, 0, 0]) = .ok (some ⟨1, 1, [0, 0, 0]⟩) ∧
      ¬ Fades pixel_screen ⟨1, 1, [200, 0, 0]⟩ ⟨1, 1, [0, 0, 0]⟩ [0, 0, 0] := by
  refine ⟨by decide, by decide, ?_⟩
  rw [fades_iff ⟨pixel_screen_framebuffer, Nat.le_refl 1, Nat.le_refl 1, rfl, rfl⟩ rfl]
  decide

end mantle.splash
