-- The splash that `mantle_framebuffer_init` draws: which bytes it writes, and
-- when they are those of the framebuffer; where the mark is, and when the lines
-- of it are drawn without a signed overflow.
import MantleOS.Framebuffer

open checked bytes

namespace mantle

/-! ## Drawing without looking -/

section Cells

variable {ι κ β : Type} {f g : (κ → β) → κ → β} {a : κ}

/-- The drawing puts one and the same value at `a`, whatever was drawn on. -/
def Fixes (f : (κ → β) → κ → β) (a : κ) : Prop := ∃ c, ∀ video, f video a = c

/-- The drawing leaves what is at `a`. -/
def Keeps (f : (κ → β) → κ → β) (a : κ) : Prop := ∀ video, f video a = video a

theorem Fixes.then (hf : Fixes f a) (hg : Fixes g a ∨ Keeps g a) :
    Fixes (fun video => g (f video)) a := by
  obtain ⟨c, hc⟩ := hf
  rcases hg with ⟨d, hd⟩ | hg
  · exact ⟨d, fun video => hd (f video)⟩
  · exact ⟨c, fun video => (hg (f video)).trans (hc video)⟩

theorem Fixes.after (hg : Fixes g a) : Fixes (fun video => g (f video)) a := by
  obtain ⟨d, hd⟩ := hg
  exact ⟨d, fun video => hd (f video)⟩

theorem Keeps.then (hf : Keeps f a) (hg : Keeps g a) : Keeps (fun video => g (f video)) a :=
  fun video => (hg (f video)).trans (hf video)

/-- A loop fixes what one of its turns fixes. -/
theorem Fixes.foldl {l : List ι} {turn : ι → (κ → β) → κ → β}
    (hcell : ∀ i ∈ l, Fixes (turn i) a ∨ Keeps (turn i) a) (h : ∃ i ∈ l, Fixes (turn i) a) :
    Fixes (fun video => l.foldl (fun video i => turn i video) video) a := by
  induction l using List.reverseRecOn with
  | nil =>
    obtain ⟨i, hi, -⟩ := h
    cases hi
  | append_singleton l i ih =>
    simp only [List.foldl_append, List.foldl_cons, List.foldl_nil]
    rcases hcell i (by simp) with hlast | hlast
    · exact hlast.after
    · obtain ⟨j, hj, hfix⟩ := h
      rcases List.mem_append.mp hj with hj | hj
      · exact (ih (fun k hk => hcell k (by simp [hk])) ⟨j, hj, hfix⟩).then (.inr hlast)
      · rw [List.mem_singleton.mp hj] at hfix
        exact hfix.after

theorem Keeps.foldl {l : List ι} {turn : ι → (κ → β) → κ → β} (h : ∀ i ∈ l, Keeps (turn i) a) :
    Keeps (fun video => l.foldl (fun video i => turn i video) video) a := by
  induction l using List.reverseRecOn with
  | nil => exact fun _ => rfl
  | append_singleton l i ih =>
    simp only [List.foldl_append, List.foldl_cons, List.foldl_nil]
    exact (ih fun k hk => h k (by simp [hk])).then (h i (by simp))

/-- A loop of such drawings is one. -/
theorem cell_foldl {l : List ι} {turn : ι → (κ → β) → κ → β}
    (h : ∀ i ∈ l, Fixes (turn i) a ∨ Keeps (turn i) a) :
    Fixes (fun video => l.foldl (fun video i => turn i video) video) a ∨
      Keeps (fun video => l.foldl (fun video i => turn i video) video) a := by
  by_cases hfix : ∃ i ∈ l, Fixes (turn i) a
  · exact .inl (.foldl h hfix)
  · refine .inr (.foldl fun i hi => ?_)
    exact (h i hi).resolve_left fun hf => hfix ⟨i, hi, hf⟩

end Cells

/-! ## The bytes of the screen -/

section Bytes

variable (state : framebuffer_state)

/-- The place of a byte of the pixel at `x`, `y`, as `pixel` computes it. -/
def byte_address (x y byte : Nat) : Nat :=
  (state.address + y * state.pitch + x * state.bytes_per_pixel + byte) % 2 ^ 64

/-- A byte of a pixel of the screen. -/
def PixelByte (a : Nat) : Prop :=
  ∃ x y byte, x < state.width ∧ y < state.height ∧ byte < state.bytes_per_pixel ∧
    a = byte_address state x y byte

/-- A drawing that writes bytes of the screen only, and the same ones every time. -/
structure Paints (f : (Nat → UInt8) → Nat → UInt8) : Prop where
  cell : ∀ a, Fixes f a ∨ Keeps f a
  outside : ∀ a, ¬ PixelByte state a → Keeps f a

variable {state}

theorem Paints.then {f g : (Nat → UInt8) → Nat → UInt8} (hf : Paints state f) (hg : Paints state g) :
    Paints state (fun video => g (f video)) := by
  refine ⟨?_, ?_⟩
  · intro a
    rcases hf.cell a with hfix | hkeep
    · exact .inl (hfix.then (hg.cell a))
    · rcases hg.cell a with hfix | hkeep'
      · exact .inl hfix.after
      · exact .inr (hkeep.then hkeep')
  · intro a ha
    exact (hf.outside a ha).then (hg.outside a ha)

theorem Paints.foldl {ι : Type} {l : List ι} {turn : ι → (Nat → UInt8) → Nat → UInt8}
    (h : ∀ i ∈ l, Paints state (turn i)) :
    Paints state (fun video => l.foldl (fun video i => turn i video) video) :=
  ⟨fun a => cell_foldl fun i hi => (h i hi).cell a,
    fun a ha => .foldl fun i hi => (h i hi).outside a ha⟩

theorem store_fixes (i : Nat) (x : UInt8) :
    Fixes (fun video : Nat → UInt8 => Function.update video i x) i :=
  ⟨x, fun video => Function.update_self i x video⟩

/-- A store fixes its byte and keeps the others. -/
theorem store_cell (i : Nat) (x : UInt8) (a : Nat) :
    Fixes (fun video : Nat → UInt8 => Function.update video i x) a ∨
      Keeps (fun video : Nat → UInt8 => Function.update video i x) a := by
  by_cases ha : a = i
  · subst ha
    exact .inl (store_fixes a x)
  · exact .inr fun video => Function.update_of_ne ha x video

theorem pixel_paints (x y value : Nat) : Paints state (pixel state x y value) := by
  unfold pixel
  split
  · exact ⟨fun a => .inr fun _ => rfl, fun a _ => fun _ => rfl⟩
  · rename_i hin
    rw [not_or, Nat.not_le, Nat.not_le] at hin
    refine ⟨fun a => cell_foldl fun byte _ => store_cell _ _ a, ?_⟩
    intro a ha
    refine .foldl fun byte hbyte => ?_
    intro video
    refine Function.update_of_ne ?_ _ video
    rintro rfl
    exact ha ⟨x, y, byte, hin.1, hin.2, List.mem_range.mp hbyte, rfl⟩

theorem pixel_fixes {x y byte : Nat} (value : Nat) (hx : x < state.width) (hy : y < state.height)
    (hbyte : byte < state.bytes_per_pixel) :
    Fixes (pixel state x y value) (byte_address state x y byte) := by
  unfold pixel
  simp only [if_neg (by omega : ¬ (state.width ≤ x ∨ state.height ≤ y))]
  exact .foldl (fun i _ => store_cell _ _ _) ⟨byte, List.mem_range.mpr hbyte, store_fixes _ _⟩

theorem rectangle_paints (left top width height value : Nat) :
    Paints state (rectangle state left top width height value) :=
  .foldl fun y _ => .foldl fun x _ => pixel_paints x y value

/-- The rectangle of the whole screen fixes every byte of it. -/
theorem rectangle_fixes {a : Nat} (value : Nat) (hw : state.width < 2 ^ 32)
    (hh : state.height < 2 ^ 32) (ha : PixelByte state a) :
    Fixes (rectangle state 0 0 state.width state.height value) a := by
  obtain ⟨x, y, byte, hx, hy, hbyte, rfl⟩ := ha
  have hrow : y ∈ List.range' 0 (min ((0 + state.height) % 2 ^ 32) state.height - 0) := by
    rw [Nat.zero_add, Nat.mod_eq_of_lt hh, List.mem_range'_1]
    omega
  have hcolumn : x ∈ List.range' 0 (min ((0 + state.width) % 2 ^ 32) state.width - 0) := by
    rw [Nat.zero_add, Nat.mod_eq_of_lt hw, List.mem_range'_1]
    omega
  have hcells : ∀ a i j, Fixes (pixel state i j value) a ∨ Keeps (pixel state i j value) a :=
    fun a i j => (pixel_paints i j value).cell a
  refine .foldl (fun j _ => cell_foldl fun i _ => hcells _ i j) ⟨y, hrow, ?_⟩
  exact .foldl (fun i _ => hcells _ i y) ⟨x, hcolumn, pixel_fixes value hx hy hbyte⟩

theorem line_paints {x0 y0 x1 y1 value : Nat} (h : x1 + 1 < 2 ^ 32) :
    ∃ f, Paints state f ∧ ∀ video, line state x0 y0 x1 y1 value video = .ok (f video) := by
  unfold line
  rw [add32_eq h]
  split
  · exact ⟨_, .foldl fun turn _ => pixel_paints _ _ value, fun _ => rfl⟩
  · split
    · exact ⟨id, ⟨fun a => .inr fun _ => rfl, fun a _ => fun _ => rfl⟩, fun _ => rfl⟩
    · exact ⟨_, .foldl fun x _ => pixel_paints x _ value, fun _ => rfl⟩

end Bytes

/-! ## The parts of the splash -/

section Parts

variable (state : framebuffer_state)

def mark_width : Nat := if 640 < state.width then 180 else 96

def mark_height : Nat := if 480 < state.height then 136 else 80

def mark_left : Nat := sub32 state.width (mark_width state) / 2

def mark_top : Nat := sub32 state.height (mark_height state) / 2

/-- The arguments of a call of `line`. -/
structure Line where
  x0 : Nat
  y0 : Nat
  x1 : Nat
  y1 : Nat
  value : Nat

/-- The six calls of `line`, in their order. -/
def splash_lines : List Line :=
  let left := mark_left state
  let top := mark_top state
  let middle := left + mark_width state / 2
  let white := color state 238 244 249
  let accent := color state 108 174 255
  [⟨left, top + mark_height state, left, top, white⟩,
    ⟨left, top, middle, top + mark_height state / 2, white⟩,
    ⟨middle, top + mark_height state / 2, left + mark_width state, top, white⟩,
    ⟨left + mark_width state, top, left + mark_width state, top + mark_height state, white⟩,
    ⟨left + 10, top + mark_height state + 12, middle, top + mark_height state / 2 + 12, accent⟩,
    ⟨middle, top + mark_height state / 2 + 12, left + mark_width state - 10,
      top + mark_height state + 12, accent⟩]

def bar_top : Nat := if 64 < state.height then state.height - 48 else 0

/-- The rectangles above the mark. -/
def splash_head (video : Nat → UInt8) : Nat → UInt8 :=
  rectangle state 0 (bar_top state) state.width 1 (color state 24 36 49)
    (rectangle state 0 0 state.width 2 (color state 108 174 255) video)

/-- The rectangles below it. -/
def splash_tail (video : Nat → UInt8) : Nat → UInt8 :=
  let left := mark_left state + mark_width state / 2 - 38
  rectangle state left (sub32 (bar_top state) 13) 25 3 (color state 108 174 255)
    (rectangle state left (sub32 (bar_top state) 13) 76 3 (color state 24 36 49) video)

theorem draw_mantle_splash_eq (video : Nat → UInt8) :
    draw_mantle_splash state video = (do
      let screen := rectangle state 0 0 state.width state.height (color state 12 19 29) video
      let marked ← (splash_lines state).foldlM
        (fun video l => line state l.x0 l.y0 l.x1 l.y1 l.value video) (splash_head state screen)
      return splash_tail state marked) := by
  simp only [splash_lines, List.foldlM_cons, List.foldlM_nil, bind_assoc, pure_bind]
  rfl

/-- The lines end before the last column of 32 bits. -/
theorem splash_lines_short : ∀ l ∈ splash_lines state, l.x1 + 1 < 2 ^ 32 := by
  have hleft : mark_left state < 2 ^ 31 := sub32_half_lt _ _
  have hwidth : mark_width state ≤ 180 := by
    unfold mark_width
    split <;> omega
  intro l hl
  simp only [splash_lines, List.mem_cons, List.not_mem_nil, or_false] at hl
  rcases hl with rfl | rfl | rfl | rfl | rfl | rfl
  all_goals
    dsimp only
    omega

end Parts

/-! ## The bytes that the splash writes -/

section Written

variable {state : framebuffer_state}

theorem lines_paint {l : List Line} (h : ∀ a ∈ l, a.x1 + 1 < 2 ^ 32) :
    ∃ f, Paints state f ∧ ∀ video, l.foldlM
      (fun video a => line state a.x0 a.y0 a.x1 a.y1 a.value video) video = .ok (f video) := by
  induction l with
  | nil => exact ⟨id, ⟨fun a => .inr fun _ => rfl, fun a _ => fun _ => rfl⟩, fun _ => rfl⟩
  | cons a l ih =>
    obtain ⟨f, hf, hline⟩ := @line_paints state a.x0 a.y0 a.x1 a.y1 a.value (h a (by simp))
    obtain ⟨g, hg, hrest⟩ := ih fun b hb => h b (by simp [hb])
    refine ⟨fun video => g (f video), hf.then hg, fun video => ?_⟩
    rw [List.foldlM_cons, hline, ok_bind, hrest]

/-- After the background the splash paints the screen. -/
theorem splash_paints : ∃ f, Paints state f ∧ ∀ video, draw_mantle_splash state video =
    .ok (f (rectangle state 0 0 state.width state.height (color state 12 19 29) video)) := by
  obtain ⟨f, hf, hlines⟩ := @lines_paint state _ (splash_lines_short state)
  have hbox : ∀ left top width height value,
      Paints state (rectangle state left top width height value) := rectangle_paints
  have hhead := (hbox 0 0 state.width 2 (color state 108 174 255)).then
    (hbox 0 (bar_top state) state.width 1 (color state 24 36 49))
  have htail := (hbox (mark_left state + mark_width state / 2 - 38) (sub32 (bar_top state) 13) 76 3
      (color state 24 36 49)).then
    (hbox (mark_left state + mark_width state / 2 - 38) (sub32 (bar_top state) 13) 25 3
      (color state 108 174 255))
  refine ⟨fun video => splash_tail state (f (splash_head state video)),
    (hhead.then hf).then htail, fun video => ?_⟩
  rw [draw_mantle_splash_eq]
  simp only [hlines, ok_bind]
  rfl

/-- The splash writes a byte: on some contents of the memory, the byte is another one after it. -/
def Writes (state : framebuffer_state) (a : Nat) : Prop :=
  ∃ video video', draw_mantle_splash state video = .ok video' ∧ video' a ≠ video a

/-- The splash writes every byte of the screen, and no other. -/
theorem writes_iff {a : Nat} (hw : state.width < 2 ^ 32) (hh : state.height < 2 ^ 32) :
    Writes state a ↔ PixelByte state a := by
  obtain ⟨f, hf, hdraw⟩ := @splash_paints state
  have hscreen := @rectangle_paints state 0 0 state.width state.height (color state 12 19 29)
  constructor
  · rintro ⟨video, video', hvideo, hne⟩
    by_contra ha
    rw [hdraw] at hvideo
    cases hvideo
    exact hne ((hscreen.outside a ha).then (hf.outside a ha) video)
  · intro ha
    obtain ⟨c, hc⟩ := (rectangle_fixes (color state 12 19 29) hw hh ha).then (hf.cell a)
    obtain ⟨d, hd⟩ : ∃ d : UInt8, c ≠ d := by
      by_cases h0 : c = 0
      · exact ⟨1, by rw [h0]; decide⟩
      · exact ⟨0, h0⟩
    refine ⟨fun _ => d, _, hdraw _, ?_⟩
    exact fun h => hd ((hc _).symm.trans h)

/-- Every byte of the screen is in the memory of the framebuffer exactly when the rows have room
for their pixels, and the last row ends before the addresses do. -/
theorem pixelBytes_inside_iff (haddress : state.address < 2 ^ 64) (hpitch : state.pitch < 2 ^ 32)
    (hw : 0 < state.width) (hh : 0 < state.height) (hh' : state.height < 2 ^ 32)
    (hb : 0 < state.bytes_per_pixel) :
    (∀ a, PixelByte state a →
      state.address ≤ a ∧ a < state.address + state.pitch * state.height) ↔
    state.width * state.bytes_per_pixel ≤ state.pitch ∧
      state.address + (state.height - 1) * state.pitch + state.width * state.bytes_per_pixel ≤
        2 ^ 64 := by
  obtain ⟨rows, hrows⟩ : ∃ rows, state.height = rows + 1 := ⟨state.height - 1, by omega⟩
  have harea : state.pitch * state.height = rows * state.pitch + state.pitch := by
    rw [hrows]
    ring
  have hsmall : state.pitch * state.height < 2 ^ 64 := by
    calc state.pitch * state.height ≤ state.pitch * 2 ^ 32 := Nat.mul_le_mul_left _ (by omega)
      _ < 2 ^ 32 * 2 ^ 32 := Nat.mul_lt_mul_of_pos_right hpitch (by omega)
      _ = 2 ^ 64 := by norm_num
  rw [harea] at hsmall ⊢
  rw [show state.height - 1 = rows by omega]
  constructor
  · intro h
    have hrow : state.width * state.bytes_per_pixel ≤ state.pitch := by
      by_contra hlong
      -- the first byte after the memory is one of the last row
      have hcolumn : state.pitch / state.bytes_per_pixel < state.width :=
        Nat.div_lt_of_lt_mul (by rw [Nat.mul_comm]; omega)
      have hplace := Nat.div_add_mod' state.pitch state.bytes_per_pixel
      have := h _ ⟨state.pitch / state.bytes_per_pixel, rows, state.pitch % state.bytes_per_pixel,
        hcolumn, by omega, Nat.mod_lt _ hb, rfl⟩
      unfold byte_address at this
      rw [Nat.add_assoc (state.address + rows * state.pitch), hplace] at this
      omega
    refine ⟨hrow, ?_⟩
    by_contra hwrap
    obtain ⟨columns, hcolumns⟩ : ∃ columns, state.width = columns + 1 := ⟨state.width - 1, by omega⟩
    have hlast : state.width * state.bytes_per_pixel =
        columns * state.bytes_per_pixel + state.bytes_per_pixel := by
      rw [hcolumns]
      ring
    have := h _ ⟨columns, rows, state.bytes_per_pixel - 1, by omega, by omega, by omega, rfl⟩
    unfold byte_address at this
    omega
  · rintro ⟨hrow, hend⟩ a ⟨x, y, byte, hx, hy, hbyte, rfl⟩
    have hxs : (x + 1) * state.bytes_per_pixel ≤ state.width * state.bytes_per_pixel :=
      Nat.mul_le_mul_right _ hx
    have hys : y * state.pitch ≤ rows * state.pitch := Nat.mul_le_mul_right _ (by omega)
    rw [Nat.add_mul, Nat.one_mul] at hxs
    have hno : byte_address state x y byte =
        state.address + y * state.pitch + x * state.bytes_per_pixel + byte :=
      Nat.mod_eq_of_lt (by omega)
    omega

end Written

/-! ## The tags that are accepted -/

/-- The state that the fields of a tag give. -/
def tagState (block : Bytes) (p : Nat) : framebuffer_state :=
  { address := wordOf block (p + 8) 8
    pitch := wordOf block (p + 16) 4
    width := wordOf block (p + 20) 4
    height := wordOf block (p + 24) 4
    bytes_per_pixel := (wordOf block (p + 28) 1 + 7) / 8
    red_position := wordOf block (p + 32) 1
    green_position := wordOf block (p + 34) 1
    blue_position := wordOf block (p + 36) 1 }

/-- A tag of the framebuffer whose fields pass the checks. -/
structure AcceptedTag (block : Bytes) (p : Nat) : Prop where
  tag : FramebufferTag block p
  drawable : Drawable block p
  width_pos : 0 < (tagState block p).width
  height_pos : 0 < (tagState block p).height
  pitch_pos : 0 < (tagState block p).pitch

instance (block : Bytes) (p : Nat) : Decidable (FramebufferTag block p) :=
  inferInstanceAs (Decidable (_ ∧ _))

instance (block : Bytes) (p : Nat) : Decidable (Drawable block p) :=
  inferInstanceAs (Decidable (_ ∧ _))

instance (block : Bytes) (p : Nat) : Decidable (AcceptedTag block p) :=
  decidable_of_iff (FramebufferTag block p ∧ Drawable block p ∧ 0 < (tagState block p).width ∧
      0 < (tagState block p).height ∧ 0 < (tagState block p).pitch)
    ⟨fun h => ⟨h.1, h.2.1, h.2.2.1, h.2.2.2.1, h.2.2.2.2⟩, fun h => ⟨h.1, h.2, h.3, h.4, h.5⟩⟩

section Accepted

variable {info : BootInfo} {screen screen' : Screen}

theorem framebuffer_tag_accepts {p : Nat} (htag : FramebufferTag info.content p)
    (h : framebuffer_tag info (info.address + p) screen = .ok (0, screen')) :
    AcceptedTag info.content p ∧ screen'.state = tagState info.content p := by
  have hyields : Yields (framebuffer_tag info (info.address + p) screen)
      (fun r => r = (0, screen')) := ⟨_, h, rfl⟩
  unfold framebuffer_tag at hyields
  simp only [Nat.add_assoc] at hyields
  rw [BootInfo.word_bind_iff] at hyields
  obtain ⟨-, hyields⟩ := hyields
  split at hyields
  · simp at hyields
  rename_i htype
  rw [BootInfo.word_bind_iff] at hyields
  obtain ⟨-, hyields⟩ := hyields
  split at hyields
  · simp at hyields
  rename_i haddress
  rw [BootInfo.word_bind_iff] at hyields
  obtain ⟨-, hyields⟩ := hyields
  split at hyields
  · simp at hyields
  rename_i hbpp
  repeat rw [BootInfo.word_bind_iff] at hyields
  obtain ⟨-, -, -, -, -, -, hyields⟩ := hyields
  split at hyields
  · simp at hyields
  rename_i hsize
  obtain ⟨r, hr, hres⟩ := hyields
  obtain ⟨video, -, hvideo⟩ := bind_eq_ok.mp hr
  cases hvideo
  obtain rfl := congrArg Prod.snd hres
  simp only [not_or] at hsize
  exact ⟨⟨htag, ⟨not_not.mp htype, haddress, by omega, by omega⟩, Nat.pos_of_ne_zero hsize.1,
    Nat.pos_of_ne_zero hsize.2.1, Nat.pos_of_ne_zero hsize.2.2⟩, rfl⟩

/-- A turn that goes on leaves the cursor at or after its place. -/
theorem tag_step_next {cursor next : Nat} (h : tag_step info cursor screen = .ok (.inl next)) :
    ∃ n, next = cursor + n := by
  unfold tag_step at h
  obtain ⟨type, -, h⟩ := bind_eq_ok.mp h
  split at h
  · cases h
  obtain ⟨size, -, h⟩ := bind_eq_ok.mp h
  split at h
  · obtain ⟨result, -, h⟩ := bind_eq_ok.mp h
    cases h
  · cases h
    exact ⟨_, rfl⟩

/-- A turn that ends with 0 is at a tag of the framebuffer. -/
theorem tag_step_accepts {p : Nat}
    (h : tag_step info (info.address + p) screen = .ok (.inr (0, screen'))) :
    FramebufferTag info.content p ∧
      framebuffer_tag info (info.address + p) screen = .ok (0, screen') := by
  have hyields : Yields (tag_step info (info.address + p) screen)
      (fun r => r = .inr (0, screen')) := ⟨_, h, rfl⟩
  unfold tag_step at hyields
  rw [BootInfo.word_bind_iff] at hyields
  obtain ⟨-, hyields⟩ := hyields
  split at hyields
  · simp at hyields
  rw [Nat.add_assoc, BootInfo.word_bind_iff] at hyields
  obtain ⟨-, hyields⟩ := hyields
  split at hyields
  · rename_i htag
    obtain ⟨r, hr, hres⟩ := hyields
    obtain ⟨result, hresult, hr⟩ := bind_eq_ok.mp hr
    cases hr
    cases hres
    exact ⟨htag, hresult⟩
  · simp at hyields

theorem tag_walk_accepts {fuel p : Nat}
    (h : tag_walk info screen fuel (info.address + p) = some (.ok (0, screen'))) :
    ∃ q, AcceptedTag info.content q ∧ screen'.state = tagState info.content q := by
  induction fuel generalizing p with
  | zero => cases h
  | succ fuel ih =>
    unfold tag_walk at h
    split at h
    · cases h
    · rename_i result hstep
      cases h
      obtain ⟨htag, hdrawn⟩ := tag_step_accepts hstep
      exact ⟨p, framebuffer_tag_accepts htag hdrawn⟩
    · rename_i next hstep
      obtain ⟨n, rfl⟩ := tag_step_next hstep
      rw [Nat.add_assoc] at h
      exact ih h

/-- What is drawn is drawn for a tag that is accepted. -/
theorem accepted_of_init {multiboot_magic fuel : Nat}
    (h : mantle_framebuffer_init multiboot_magic info screen fuel = some (.ok (0, screen'))) :
    ∃ p, AcceptedTag info.content p ∧ screen'.state = tagState info.content p := by
  unfold mantle_framebuffer_init at h
  split at h
  · cases h
  · exact tag_walk_accepts h

/-- The sizes of the fields. -/
theorem AcceptedTag.bounds {block : Bytes} {p : Nat} (h : AcceptedTag block p) :
    (tagState block p).address < 2 ^ 64 ∧ (tagState block p).pitch < 2 ^ 32 ∧
      (tagState block p).width < 2 ^ 32 ∧ (tagState block p).height < 2 ^ 32 ∧
      0 < (tagState block p).bytes_per_pixel := by
  have hdraw := h.drawable.2.2.1
  refine ⟨wordOf_lt block (p + 8) 8, wordOf_lt block (p + 16) 4, wordOf_lt block (p + 20) 4,
    wordOf_lt block (p + 24) 4, ?_⟩
  simp only [tagState]
  omega

/-- The first tag of a block is one that is accepted: then it is drawn to. -/
theorem init_accepts (screen : Screen) (hblock : info.address ≠ 0) (hlen : 8 + 38 ≤ info.content.length)
    (h : AcceptedTag info.content 8) :
    ∃ video, mantle_framebuffer_init MULTIBOOT2_BOOTLOADER_MAGIC info screen 1 =
      some (.ok (0, { state := tagState info.content 8, video })) := by
  obtain ⟨htype, haddress, hbpp, hbpp'⟩ := h.drawable
  obtain ⟨video, hvideo, -⟩ := @draw_mantle_splash_yields (tagState info.content 8) screen.video
  have hsize : ¬ (wordOf info.content (8 + 20) 4 = 0 ∨ wordOf info.content (8 + 24) 4 = 0 ∨
      wordOf info.content (8 + 16) 4 = 0) := by
    have hw := h.width_pos
    have hh := h.height_pos
    have hp := h.pitch_pos
    simp only [tagState] at hw hh hp
    omega
  have htag : framebuffer_tag info (info.address + 8) screen =
      .ok (0, { state := tagState info.content 8, video }) := by
    unfold framebuffer_tag MULTIBOOT_FRAMEBUFFER_TYPE_DIRECT_RGB
    simp only [Nat.add_assoc]
    rw [BootInfo.word_eq (by omega), ok_bind, if_neg (not_not.mpr htype), BootInfo.word_eq (by omega),
      ok_bind, if_neg haddress, BootInfo.word_eq (by omega), ok_bind, if_neg (by omega)]
    repeat rw [BootInfo.word_eq (by omega), ok_bind]
    rw [if_neg hsize]
    exact bind_eq_ok.mpr ⟨video, hvideo, rfl⟩
  have htype' : wordOf info.content 8 4 ≠ MULTIBOOT_TAG_TYPE_END := by
    rw [h.tag.1]
    decide
  have hheader : wordOf info.content 8 4 = MULTIBOOT_TAG_TYPE_FRAMEBUFFER ∧
      38 ≤ wordOf info.content (8 + 4) 4 := h.tag
  have hstep : tag_step info (info.address + 8) screen =
      .ok (.inr (0, { state := tagState info.content 8, video })) := by
    unfold tag_step
    rw [BootInfo.word_eq (by omega), ok_bind, if_neg htype', Nat.add_assoc,
      BootInfo.word_eq (by omega), ok_bind, if_pos hheader, htag]
    rfl
  refine ⟨video, ?_⟩
  rw [mantle_framebuffer_init, if_neg (by simp [hblock]), tag_walk, hstep]

end Accepted

/-! ## The law of the bytes -/

/-- Every byte that the splash writes is in the memory of the framebuffer. -/
def InsideMemory (state : framebuffer_state) : Prop :=
  ∀ a, Writes state a → state.address ≤ a ∧ a < state.address + state.pitch * state.height

/-- The rows have room for their pixels, and the last row ends before the addresses do. -/
def RowsFit (state : framebuffer_state) : Prop :=
  state.width * state.bytes_per_pixel ≤ state.pitch ∧
    state.address + (state.height - 1) * state.pitch + state.width * state.bytes_per_pixel ≤ 2 ^ 64

instance (state : framebuffer_state) : Decidable (RowsFit state) :=
  inferInstanceAs (Decidable (_ ∧ _))

/-- Whatever the fields of the tag that is accepted: the splash stays in the memory of the
framebuffer exactly when the rows fit. -/
theorem the_splash_stays_in_the_framebuffer_iff (multiboot_magic fuel : Nat) (info : BootInfo)
    (screen screen' : Screen)
    (h : mantle_framebuffer_init multiboot_magic info screen fuel = some (.ok (0, screen'))) :
    (∃ p, AcceptedTag info.content p ∧ screen'.state = tagState info.content p) ∧
      (InsideMemory screen'.state ↔ RowsFit screen'.state) := by
  obtain ⟨p, haccepted, hstate⟩ := accepted_of_init h
  obtain ⟨haddress, hpitch, hwidth, hheight, hbytes⟩ := haccepted.bounds
  refine ⟨⟨p, haccepted, hstate⟩, ?_⟩
  rw [hstate]
  unfold InsideMemory RowsFit
  simp only [writes_iff hwidth hheight]
  exact pixelBytes_inside_iff haddress hpitch haccepted.width_pos haccepted.height_pos hheight hbytes

/-- A block with one tag, of a framebuffer of 32 bits, and an end tag. -/
def framebufferBlock (address pitch width height : Nat) : BootInfo :=
  { address := 0x9000
    content := wordBytes 4 56 ++ wordBytes 4 0 ++ wordBytes 4 8 ++ wordBytes 4 38 ++
      wordBytes 8 address ++ wordBytes 4 pitch ++ wordBytes 4 width ++ wordBytes 4 height ++
      [32, 1, 0, 0, 16, 8, 8, 8, 0, 8, 0, 0] ++ wordBytes 4 0 ++ wordBytes 4 8
    address_lt := low_address_lt }

theorem accepted_wide : AcceptedTag (framebufferBlock 0xfd000000 2560 640 480).content 8 := by
  decide

theorem a_usual_splash_stays_in_the_framebuffer :
    ∃ screen', mantle_framebuffer_init MULTIBOOT2_BOOTLOADER_MAGIC
        (framebufferBlock 0xfd000000 2560 640 480) darkScreen 1 = some (.ok (0, screen')) ∧
      InsideMemory screen'.state := by
  obtain ⟨video, h⟩ := init_accepts darkScreen (by decide) (by decide) accepted_wide
  obtain ⟨-, hiff⟩ := the_splash_stays_in_the_framebuffer_iff _ _ _ _ _ h
  have hfit : RowsFit (tagState (framebufferBlock 0xfd000000 2560 640 480).content 8) := by decide
  exact ⟨_, h, hiff.mpr hfit⟩

theorem accepted_narrow : AcceptedTag (framebufferBlock 0xfd000000 640 640 480).content 8 := by
  decide

/-- A pitch that is too small for the width is accepted, and the last row is drawn past the end
of the framebuffer. -/
theorem a_narrow_pitch_is_drawn_past :
    ∃ screen', mantle_framebuffer_init MULTIBOOT2_BOOTLOADER_MAGIC
        (framebufferBlock 0xfd000000 640 640 480) darkScreen 1 = some (.ok (0, screen')) ∧
      Writes screen'.state (0xfd000000 + 640 * 480) ∧
      screen'.state.address + screen'.state.pitch * screen'.state.height = 0xfd000000 + 640 * 480 ∧
      ¬ InsideMemory screen'.state := by
  obtain ⟨video, h⟩ := init_accepts darkScreen (by decide) (by decide) accepted_narrow
  have hend : (tagState (framebufferBlock 0xfd000000 640 640 480).content 8).address +
      (tagState (framebufferBlock 0xfd000000 640 640 480).content 8).pitch *
        (tagState (framebufferBlock 0xfd000000 640 640 480).content 8).height =
      0xfd000000 + 640 * 480 := by decide
  have hwrites : Writes (tagState (framebufferBlock 0xfd000000 640 640 480).content 8)
      (0xfd000000 + 640 * 480) := by
    rw [writes_iff (by decide) (by decide)]
    exact ⟨160, 479, 0, by decide, by decide, by decide, by decide⟩
  refine ⟨_, h, hwrites, hend, fun hinside => ?_⟩
  have := (hinside _ hwrites).2
  rw [hend] at this
  exact Nat.lt_irrefl _ this

/-! ## The lines without a signed overflow -/

/-- A result of `int32_t` arithmetic, with the overflow as a fault. -/
def fits32 (a : Int) : Checked Int :=
  if -2 ^ 31 ≤ a ∧ a < 2 ^ 31 then .ok a else .error (.wrap a.natAbs)

/-- The loop of a vertical line, with the turns before its last one. -/
def climb (x : Nat) (step_y : Int) : Nat → Int → Checked (List (Nat × Nat))
  | 0, current_y => .ok [(x, uint32 current_y)]
  | turns + 1, current_y => do
    let next_y ← fits32 (current_y + step_y)
    let rest ← climb x step_y turns next_y
    return (x, uint32 current_y) :: rest

/-- The points of a call of `line`, with every difference, product and sum of `int32_t` checked. -/
def line_points (x0 y0 x1 y1 : Nat) : Checked (List (Nat × Nat)) :=
  if x0 = x1 then
    let current_y := int32 y0
    let end_y := int32 y1
    let step_y : Int := if current_y ≤ end_y then 1 else -1
    climb x0 step_y (end_y - current_y).natAbs current_y
  else if x1 < x0 then .ok []
  else do
    let delta_x ← fits32 (int32 x1 - int32 x0)
    let delta_y ← fits32 (int32 y1 - int32 y0)
    let bound ← add32 x1 1
    (List.range' x0 (bound - x0)).mapM fun x => do
      let run ← fits32 (int32 x - int32 x0)
      let rise ← fits32 (delta_y * run)
      let y ← fits32 (int32 y0 + rise.tdiv delta_x)
      return (x, uint32 y)

theorem fits32_eq {a : Int} (h : -2 ^ 31 ≤ a ∧ a < 2 ^ 31) : fits32 a = .ok a := if_pos h

theorem of_fits32 {a b : Int} (h : fits32 a = .ok b) : b = a ∧ -2 ^ 31 ≤ a ∧ a < 2 ^ 31 := by
  unfold fits32 at h
  split at h
  · rename_i hfits
    cases h
    exact ⟨rfl, hfits⟩
  · cases h

/-- A value of 32 bits is its own residue. -/
theorem bmod_eq {a : Int} (h : -2 ^ 31 ≤ a ∧ a < 2 ^ 31) : Int.bmod a (2 ^ 32) = a :=
  Int.bmod_eq_of_le (by omega) (by omega)

/-- The checked steps of a vertical line are those of the loop. -/
theorem of_climb {x turns : Nat} {step_y current_y : Int} {points : List (Nat × Nat)}
    (h : climb x step_y turns current_y = .ok points) :
    points = (List.range (turns + 1)).map fun turn : Nat =>
      (x, uint32 (current_y + turn * step_y)) := by
  induction turns generalizing current_y points with
  | zero =>
    cases h
    simp
  | succ turns ih =>
    unfold climb at h
    obtain ⟨next_y, hnext, h⟩ := bind_eq_ok.mp h
    obtain ⟨rest, hrest, h⟩ := bind_eq_ok.mp h
    cases h
    obtain ⟨rfl, -⟩ := of_fits32 hnext
    have hrange : List.range (turns + 1 + 1) = 0 :: (List.range (turns + 1)).map Nat.succ :=
      List.range_succ_eq_map
    rw [ih hrest, hrange, List.map_cons, List.map_map]
    refine congrArg₂ List.cons (by simp) (List.map_congr_left fun turn _ => ?_)
    simp only [Function.comp_apply, Nat.cast_succ]
    congr 2
    ring

/-- Where no result overflows, `line` draws the points. -/
theorem line_of_points {state : framebuffer_state} {x0 y0 x1 y1 : Nat} {points : List (Nat × Nat)}
    (value : Nat) (video : Nat → UInt8) (h : line_points x0 y0 x1 y1 = .ok points) :
    line state x0 y0 x1 y1 value video =
      .ok (points.foldl (fun video p => pixel state p.1 p.2 value video) video) := by
  unfold line_points at h
  unfold line
  split at h
  · rename_i hx
    rw [if_pos hx, of_climb h]
    simp only [bind_pure_comp, List.map_eq_map, List.foldl_map]
  rename_i hx
  rw [if_neg hx]
  split at h
  · rename_i hback
    rw [if_pos hback]
    cases h
    rfl
  rename_i hback
  rw [if_neg hback]
  obtain ⟨delta_x, hdx, h⟩ := bind_eq_ok.mp h
  obtain ⟨hx1, hdx⟩ := of_fits32 hdx
  obtain ⟨delta_y, hdy, h⟩ := bind_eq_ok.mp h
  obtain ⟨hy1, hdy⟩ := of_fits32 hdy
  obtain ⟨bound, hbound, h⟩ := bind_eq_ok.mp h
  rw [hbound, ok_bind, bmod_eq hdx, bmod_eq hdy, ← hx1, ← hy1]
  have hpoints : points = (List.range' x0 (bound - x0)).map fun x => (x, uint32 (int32 y0 +
      (Int.bmod (delta_y * Int.bmod (int32 x - int32 x0) (2 ^ 32)) (2 ^ 32)).tdiv delta_x)) := by
    refine of_mapM (fun x _ point hpoint => ?_) h
    obtain ⟨run, hrun, hpoint⟩ := bind_eq_ok.mp hpoint
    obtain ⟨hx, hrun⟩ := of_fits32 hrun
    obtain ⟨rise, hrise, hpoint⟩ := bind_eq_ok.mp hpoint
    obtain ⟨hr, hrise⟩ := of_fits32 hrise
    obtain ⟨y, hy, hpoint⟩ := bind_eq_ok.mp hpoint
    obtain ⟨hy0, -⟩ := of_fits32 hy
    cases hpoint
    rw [bmod_eq hrun, ← hx, bmod_eq hrise, ← hr, ← hy0]
  rw [hpoints, List.foldl_map, pure_eq_ok]

/-! ## When the lines are drawn so -/

theorem int32_range (a : Nat) : -2 ^ 31 ≤ int32 a ∧ int32 a < 2 ^ 31 := by
  have hlow := @Int.le_bmod a (2 ^ 32) (by decide)
  have hhigh := @Int.bmod_lt a (2 ^ 32) (by decide)
  unfold int32
  omega

theorem int32_low {a : Nat} (h : a < 2 ^ 31) : int32 a = a := bmod_eq (by omega)

theorem int32_high {a : Nat} (h : 2 ^ 31 ≤ a) (h' : a < 2 ^ 32) : int32 a = a - 2 ^ 32 := by
  have hkeep := @bmod_eq ((a : Int) - 2 ^ 32) (by omega)
  have hsame := Int.sub_bmod_right (a : Int) (2 ^ 32)
  unfold int32
  exact hsame.symm.trans hkeep

theorem climb_yields {x turns : Nat} {step_y current_y : Int} (hstep : step_y = 1 ∨ step_y = -1)
    (hrange : -2 ^ 31 ≤ current_y ∧ current_y < 2 ^ 31)
    (hlast : -2 ^ 31 ≤ current_y + turns * step_y ∧ current_y + turns * step_y < 2 ^ 31) :
    Yields (climb x step_y turns current_y) (fun _ => True) := by
  induction turns generalizing current_y with
  | zero => exact ⟨_, rfl, trivial⟩
  | succ turns ih =>
    have hnext : -2 ^ 31 ≤ current_y + step_y ∧ current_y + step_y < 2 ^ 31 := by
      rcases hstep with rfl | rfl <;> omega
    unfold climb
    rw [fits32_eq hnext, ok_bind]
    apply (ih hnext ?_).bind
    · intro rest _
      exact ⟨_, rfl, trivial⟩
    · rcases hstep with rfl | rfl <;> omega

/-- A vertical line never overflows. -/
theorem vertical_yields (x y0 y1 : Nat) : Yields (line_points x y0 x y1) (fun _ => True) := by
  have h0 := int32_range y0
  have h1 := int32_range y1
  unfold line_points
  rw [if_pos rfl]
  apply climb_yields
  · split
    · exact .inl rfl
    · exact .inr rfl
  · exact h0
  · split <;> omega

/-- The height of a slope after a part of its run is between its ends. -/
theorem slope_between {dx dy run : Int} (hdx : 0 < dx) (hrun : 0 ≤ run) (hle : run ≤ dx) :
    (0 ≤ (dy * run).tdiv dx ∧ (dy * run).tdiv dx ≤ dy) ∨
      (dy ≤ (dy * run).tdiv dx ∧ (dy * run).tdiv dx ≤ 0) := by
  have hup : ∀ e : Int, 0 ≤ e → 0 ≤ (e * run).tdiv dx ∧ (e * run).tdiv dx ≤ e := by
    intro e he
    have hpos : 0 ≤ e * run := Int.mul_nonneg he hrun
    refine ⟨Int.tdiv_nonneg hpos (Int.le_of_lt hdx), ?_⟩
    rw [Int.tdiv_eq_ediv_of_nonneg hpos]
    exact Int.ediv_le_of_le_mul hdx (Int.mul_le_mul_of_nonneg_left hle he)
  rcases Int.le_total 0 dy with hdy | hdy
  · exact .inl (hup dy hdy)
  · have h := hup (-dy) (by omega)
    rw [Int.neg_mul, Int.neg_tdiv] at h
    exact .inr (by omega)

/-- A short line in columns below 2^31 is drawn when the difference of its rows fits. -/
theorem sloped_yields {x0 y0 x1 y1 : Nat} (hlt : x0 < x1) (hx : x1 < 2 ^ 31) (hdx : x1 - x0 ≤ 1000)
    (hdy : (int32 y1 - int32 y0).natAbs ≤ 1000) :
    Yields (line_points x0 y0 x1 y1) (fun _ => True) := by
  have h0 := int32_range y0
  have h1 := int32_range y1
  unfold line_points
  rw [if_neg (by omega), if_neg (by omega), int32_low hx, int32_low (by omega : x0 < 2 ^ 31),
    fits32_eq (by omega), ok_bind, fits32_eq (by omega), ok_bind, add32_eq (by omega), ok_bind]
  generalize hdelta : int32 y1 - int32 y0 = delta_y at hdy ⊢
  have hturns : ∀ x ∈ List.range' x0 (x1 + 1 - x0), Yields (do
      let run ← fits32 (int32 x - x0)
      let rise ← fits32 (delta_y * run)
      let y ← fits32 (int32 y0 + rise.tdiv (x1 - x0))
      return (x, uint32 y)) (fun _ => True) := by
    intro x hx'
    rw [List.mem_range'_1] at hx'
    have hrise : (delta_y * (x - x0 : Int)).natAbs ≤ 1000 * 1000 := by
      rw [Int.natAbs_mul]
      exact Nat.mul_le_mul hdy (by omega)
    have hbetween := @slope_between (x1 - x0) delta_y (x - x0) (by omega) (by omega) (by omega)
    rw [int32_low (by omega : x < 2 ^ 31), fits32_eq (by omega), ok_bind, fits32_eq (by omega),
      ok_bind, fits32_eq (by omega), ok_bind]
    exact ⟨_, rfl, trivial⟩
  exact (mapM_yields hturns).mono fun _ _ => trivial

/-- A line whose differences do not fit overflows. -/
theorem differences_fit {x0 y0 x1 y1 : Nat} (hlt : x0 < x1)
    (h : Yields (line_points x0 y0 x1 y1) (fun _ => True)) :
    (-2 ^ 31 ≤ int32 x1 - int32 x0 ∧ int32 x1 - int32 x0 < 2 ^ 31) ∧
      (-2 ^ 31 ≤ int32 y1 - int32 y0 ∧ int32 y1 - int32 y0 < 2 ^ 31) := by
  obtain ⟨points, h, -⟩ := h
  unfold line_points at h
  rw [if_neg (by omega), if_neg (by omega)] at h
  obtain ⟨delta_x, hdx, h⟩ := bind_eq_ok.mp h
  obtain ⟨delta_y, hdy, -⟩ := bind_eq_ok.mp h
  exact ⟨(of_fits32 hdx).2, (of_fits32 hdy).2⟩

/-! ## The law of the mark -/

/-- The mark is inside the screen, and its six lines are drawn without an overflow. -/
structure MarkDrawn (state : framebuffer_state) : Prop where
  across : mark_left state + mark_width state ≤ state.width
  down : mark_top state + mark_height state ≤ state.height
  lines : ∀ l ∈ splash_lines state, Yields (line_points l.x0 l.y0 l.x1 l.y1) (fun _ => True)

/-- The screen is neither too small for the mark nor too large for the signed coordinates. -/
def MarkFits (state : framebuffer_state) : Prop :=
  96 ≤ state.width ∧ state.width < 2 ^ 32 - 180 ∧
    (80 ≤ state.height ∧ state.height < 2 ^ 32 - 160 ∨ 2 ^ 32 - 24 ≤ state.height)

instance (state : framebuffer_state) : Decidable (MarkFits state) :=
  inferInstanceAs (Decidable (_ ∧ _))

section Mark

variable {state : framebuffer_state}

theorem sub32_eq {a b : Nat} (h : b ≤ a) (ha : a < 2 ^ 32) : sub32 a b = a - b := by
  unfold sub32
  omega

theorem sub32_wrap {a b : Nat} (h : a < b) : sub32 a b = a + 2 ^ 32 - b := by
  unfold sub32
  omega

/-- The columns of the mark. On a narrow screen its left edge wraps. -/
theorem mark_columns (hw : state.width < 2 ^ 32) :
    (mark_left state + mark_width state ≤ state.width ↔ 96 ≤ state.width) ∧
      (96 ≤ state.width → mark_left state + mark_width state / 2 < 2 ^ 31 ∧
        (mark_left state + mark_width state < 2 ^ 31 ↔ state.width < 2 ^ 32 - 180)) := by
  unfold mark_left mark_width
  split
  · rw [sub32_eq (by omega) hw]
    omega
  · by_cases h : 96 ≤ state.width
    · rw [sub32_eq h hw]
      omega
    · rw [sub32_wrap (by omega)]
      omega

/-- The rows of the mark, and those of the second mark 12 rows below it. -/
theorem mark_rows (hh : state.height < 2 ^ 32) :
    (mark_top state + mark_height state ≤ state.height ↔ 80 ≤ state.height) ∧
      (80 ≤ state.height → mark_top state + mark_height state / 2 < 2 ^ 31 ∧
        (mark_top state + mark_height state + 12 < 2 ^ 31 ↔ state.height < 2 ^ 32 - 160) ∧
        (2 ^ 31 ≤ mark_top state + mark_height state / 2 + 12 ↔ 2 ^ 32 - 24 ≤ state.height)) := by
  unfold mark_top mark_height
  split
  · rw [sub32_eq (by omega) hh]
    omega
  · by_cases h : 80 ≤ state.height
    · rw [sub32_eq h hh]
      omega
    · rw [sub32_wrap (by omega)]
      omega

theorem mark_size : (mark_width state = 96 ∨ mark_width state = 180) ∧
    (mark_height state = 80 ∨ mark_height state = 136) := by
  unfold mark_width mark_height
  split <;> split <;> simp

/-- The difference of two rows on one side of the edge is that of the numbers. -/
theorem rows_differ {a b : Nat} (ha : a < 2 ^ 32) (hb : b < 2 ^ 32)
    (h : a < 2 ^ 31 ∧ b < 2 ^ 31 ∨ 2 ^ 31 ≤ a ∧ 2 ^ 31 ≤ b) : int32 a - int32 b = a - b := by
  rcases h with ⟨h, h'⟩ | ⟨h, h'⟩
  · rw [int32_low h, int32_low h']
  · rw [int32_high h ha, int32_high h' hb]
    omega

theorem markDrawn_of_fits (hw : state.width < 2 ^ 32) (hh : state.height < 2 ^ 32)
    (h : MarkFits state) : MarkDrawn state := by
  obtain ⟨hwidth, hwide, hheight⟩ := h
  have hheight' : 80 ≤ state.height := by omega
  obtain ⟨hacross, hcolumns⟩ := mark_columns hw
  obtain ⟨hmiddle, hright⟩ := hcolumns hwidth
  obtain ⟨hdown, hrows⟩ := mark_rows hh
  obtain ⟨hhalf, hbelow, habove⟩ := hrows hheight'
  obtain ⟨hmw, hmh⟩ := @mark_size state
  have htop : mark_top state < 2 ^ 31 := sub32_half_lt _ _
  refine ⟨hacross.mpr hwidth, hdown.mpr hheight', ?_⟩
  -- both ends of a sloped line have their rows on one side of the edge of the signed numbers
  have hsloped : ∀ {x0 y0 x1 y1 : Nat}, x0 < x1 → x1 < 2 ^ 31 → x1 - x0 ≤ 180 →
      (y1 < 2 ^ 31 ∧ y0 < 2 ^ 31 ∨ 2 ^ 31 ≤ y1 ∧ 2 ^ 31 ≤ y0) → y0 ≤ y1 + 136 → y1 ≤ y0 + 136 →
      y0 < 2 ^ 32 → y1 < 2 ^ 32 → Yields (line_points x0 y0 x1 y1) (fun _ => True) := by
    intro x0 y0 x1 y1 hlt hx hrun hside hup hdown hy0 hy1
    refine sloped_yields hlt hx (by omega) ?_
    rw [rows_differ hy1 hy0 hside]
    omega
  intro l hl
  simp only [splash_lines, List.mem_cons, List.not_mem_nil, or_false] at hl
  rcases hl with rfl | rfl | rfl | rfl | rfl | rfl
  all_goals dsimp only
  · exact vertical_yields _ _ _
  · apply hsloped <;> omega
  · apply hsloped <;> omega
  · exact vertical_yields _ _ _
  · apply hsloped <;> omega
  · apply hsloped <;> omega

theorem fits_of_markDrawn (hw : state.width < 2 ^ 32) (hh : state.height < 2 ^ 32)
    (h : MarkDrawn state) : MarkFits state := by
  obtain ⟨hacross, hcolumns⟩ := mark_columns hw
  obtain ⟨hdown, hrows⟩ := mark_rows hh
  have hwidth := hacross.mp h.across
  have hheight := hdown.mp h.down
  obtain ⟨hmiddle, hright⟩ := hcolumns hwidth
  obtain ⟨hhalf, hbelow, habove⟩ := hrows hheight
  obtain ⟨hmw, hmh⟩ := @mark_size state
  have hleft : mark_left state < 2 ^ 31 := sub32_half_lt _ _
  have htop : mark_top state < 2 ^ 31 := sub32_half_lt _ _
  refine ⟨hwidth, ?_, ?_⟩
  · -- the third line goes over the last signed column
    have hthird := h.lines ⟨mark_left state + mark_width state / 2,
      mark_top state + mark_height state / 2, mark_left state + mark_width state, mark_top state,
      color state 238 244 249⟩ (by simp [splash_lines])
    have hfit := (differences_fit (by dsimp only; omega) hthird).1
    dsimp only at hfit
    by_contra hwide
    rw [int32_low hmiddle, int32_high (by omega) (by omega)] at hfit
    omega
  · -- the fifth line goes over the last signed row
    have hfifth := h.lines ⟨mark_left state + 10, mark_top state + mark_height state + 12,
      mark_left state + mark_width state / 2, mark_top state + mark_height state / 2 + 12,
      color state 108 174 255⟩ (by simp [splash_lines])
    have hfit := (differences_fit (by dsimp only; omega) hfifth).2
    dsimp only at hfit
    by_contra hhigh
    rw [int32_low (by omega), int32_high (by omega) (by omega)] at hfit
    omega

end Mark

/-- Whatever width and height are accepted: the mark is inside the screen and drawn without an
overflow exactly when the screen is neither too small nor too large for it. -/
theorem the_mark_is_drawn_inside_iff (multiboot_magic fuel : Nat) (info : BootInfo)
    (screen screen' : Screen)
    (h : mantle_framebuffer_init multiboot_magic info screen fuel = some (.ok (0, screen'))) :
    (∃ p, AcceptedTag info.content p ∧ screen'.state = tagState info.content p) ∧
      (MarkDrawn screen'.state ↔ MarkFits screen'.state) := by
  obtain ⟨p, haccepted, hstate⟩ := accepted_of_init h
  obtain ⟨-, -, hwidth, hheight, -⟩ := haccepted.bounds
  refine ⟨⟨p, haccepted, hstate⟩, ?_⟩
  rw [hstate]
  exact ⟨fits_of_markDrawn hwidth hheight, markDrawn_of_fits hwidth hheight⟩

theorem the_mark_is_drawn_on_a_usual_screen :
    ∃ screen', mantle_framebuffer_init MULTIBOOT2_BOOTLOADER_MAGIC
        (framebufferBlock 0xfd000000 2560 640 480) darkScreen 1 = some (.ok (0, screen')) ∧
      MarkDrawn screen'.state := by
  obtain ⟨video, h⟩ := init_accepts darkScreen (by decide) (by decide) accepted_wide
  obtain ⟨-, hiff⟩ := the_mark_is_drawn_inside_iff _ _ _ _ _ h
  have hfit : MarkFits (tagState (framebufferBlock 0xfd000000 2560 640 480).content 8) := by decide
  exact ⟨_, h, hiff.mpr hfit⟩

theorem accepted_small : AcceptedTag (framebufferBlock 0xfd000000 256 64 64).content 8 := by
  decide

/-- On a screen of 64 by 64 the left edge of the mark wraps. -/
theorem the_mark_leaves_a_small_screen :
    ∃ screen', mantle_framebuffer_init MULTIBOOT2_BOOTLOADER_MAGIC
        (framebufferBlock 0xfd000000 256 64 64) darkScreen 1 = some (.ok (0, screen')) ∧
      screen'.state.width = 64 ∧ mark_left screen'.state = 2 ^ 31 - 16 ∧
      ¬ MarkDrawn screen'.state := by
  obtain ⟨video, h⟩ := init_accepts darkScreen (by decide) (by decide) accepted_small
  have hleft : mark_left (tagState (framebufferBlock 0xfd000000 256 64 64).content 8) =
      2 ^ 31 - 16 := by decide
  have hwidth : (tagState (framebufferBlock 0xfd000000 256 64 64).content 8).width = 64 := by decide
  refine ⟨_, h, hwidth, hleft, fun hdrawn => ?_⟩
  have := hdrawn.across
  dsimp only at this
  omega

end mantle
