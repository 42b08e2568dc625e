-- The terminal of the kernel: the cells of the VGA text that `vga_putc` writes,
-- whatever is printed, and the characters that a read of the keyboard stores,
-- whatever keys are pressed.
import MantleOS.SyscallSpecs

open checked bytes mantle.elf

namespace mantle.syscall

/-! ## The screen -/

/-- The static `vga_cursor`, a `uint16_t`, and the cells at VGA_MEMORY. -/
structure Vga where
  vga_cursor : Nat
  video : Nat → Nat

/-- The state after the call, and the index of the cell that it writes. -/
def vga_putc (s : Vga) (value : UInt8) : Vga × Option Nat :=
  if value = 10 then ({ s with vga_cursor := (s.vga_cursor / 80 + 1) * 80 % 2 ^ 16 }, none)
  else
    let cursor := if 80 * 25 ≤ s.vga_cursor then 0 else s.vga_cursor
    ({ vga_cursor := (cursor + 1) % 2 ^ 16
       video := Function.update s.video cursor (0x0700 ||| value.toNat) }, some cursor)

/-- The characters of a text one after the other. -/
def vga_text (s : Vga) (text : Bytes) : Vga := text.foldl (fun s c => (vga_putc s c).1) s

/-- What `mantle_console_write` does to the screen. -/
def vga_console_write (s : Vga) (text : Bytes) : Vga := vga_text s (cstring text)

theorem vga_text_append (s : Vga) (a b : Bytes) : vga_text s (a ++ b) = vga_text (vga_text s a) b :=
  List.foldl_append

theorem vga_text_concat (s : Vga) (a : Bytes) (c : UInt8) :
    vga_text s (a ++ [c]) = (vga_putc (vga_text s a) c).1 := by
  rw [vga_text_append]
  rfl

/-- The screen follows the console of the kernel: what `mantle_console_write` adds to the one, it
prints on the other. -/
theorem vga_text_console (s : Vga) (k : Kernel) (text : Bytes) :
    vga_text s (mantle_console_write k text).console =
      vga_console_write (vga_text s k.console) text := vga_text_append s k.console (cstring text)

theorem vga_putc_newline (s : Vga) :
    (vga_putc s 10).1.vga_cursor = (s.vga_cursor / 80 + 1) * 80 % 2 ^ 16 := rfl

theorem vga_putc_cell (s : Vga) {c : UInt8} (hc : c ≠ 10) :
    (vga_putc s c).2 = some (if 80 * 25 ≤ s.vga_cursor then 0 else s.vga_cursor) := by
  rw [vga_putc, if_neg hc]

/-- A cell that is written is on the screen. -/
theorem vga_putc_on_screen {s : Vga} {c : UInt8} {i : Nat} (h : (vga_putc s c).2 = some i) :
    i < 80 * 25 := by
  by_cases hc : c = 10
  · subst hc
    cases h
  · rw [vga_putc_cell s hc, Option.some.injEq] at h
    subst h
    split <;> omega

theorem vga_putc_cursor (s : Vga) (c : UInt8) : (vga_putc s c).1.vga_cursor < 2 ^ 16 := by
  unfold vga_putc
  split
  · exact Nat.mod_lt _ (by omega)
  · exact Nat.mod_lt _ (by omega)

theorem vga_text_cursor {s : Vga} (text : Bytes) (h : s.vga_cursor < 2 ^ 16) :
    (vga_text s text).vga_cursor < 2 ^ 16 := by
  rcases List.eq_nil_or_concat text with rfl | ⟨before, c, rfl⟩
  · exact h
  · rw [List.concat_eq_append, vga_text_concat]
    exact vga_putc_cursor _ c

/-- A newline and then a character: the character is in the first column exactly when the cursor
was in a row that the counter can leave. -/
theorem cell_after_newline {s : Vga} {c : UInt8} (hs : s.vga_cursor < 2 ^ 16) (hc : c ≠ 10) :
    (∀ i, (vga_putc (vga_putc s 10).1 c).2 = some i → i % 80 = 0) ↔ s.vga_cursor < 819 * 80 := by
  rw [vga_putc_cell _ hc, vga_putc_newline]
  simp only [Option.some.injEq, forall_eq']
  by_cases hrow : s.vga_cursor < 819 * 80
  · have hkeep : (s.vga_cursor / 80 + 1) * 80 % 2 ^ 16 = (s.vga_cursor / 80 + 1) * 80 :=
      Nat.mod_eq_of_lt (by omega)
    rw [hkeep]
    refine iff_of_true ?_ hrow
    split <;> omega
  · have hlast : s.vga_cursor / 80 = 819 := by omega
    rw [hlast]
    exact iff_of_false (by decide) hrow

/-! ## The law of the screen -/

/-- The screen when the kernel starts. -/
def vga_start : Vga := { vga_cursor := 0, video := fun _ => 0 }

/-- Every cell that a character of the text is written to is on the screen, and the first
character after newlines, which follows the last of them, is written in the first column. -/
structure WellPlaced (text : Bytes) : Prop where
  on_screen : ∀ before c after, text = before ++ c :: after →
    ∀ i, (vga_putc (vga_text vga_start before) c).2 = some i → i < 80 * 25
  new_row : ∀ before c after, text = before ++ 10 :: c :: after → c ≠ 10 →
    ∀ i, (vga_putc (vga_text vga_start (before ++ [10])) c).2 = some i → i % 80 = 0

/-- Whatever is sent to the console: every cell is on the screen, and the characters after
newlines are in the first column exactly when no character follows a newline that was sent with
the cursor in row 819, the last one of the 16-bit counter. -/
theorem characters_are_well_placed_iff (text : Bytes) :
    WellPlaced text ↔ ∀ before c after, text = before ++ 10 :: c :: after → c ≠ 10 →
      (vga_text vga_start before).vga_cursor < 819 * 80 := by
  have hcursor : ∀ before, (vga_text vga_start before).vga_cursor < 2 ^ 16 :=
    fun before => vga_text_cursor before (by decide)
  constructor
  · intro h before c after htext hc
    apply (cell_after_newline (hcursor before) hc).mp
    have hrow := h.new_row before c after htext hc
    rwa [vga_text_concat] at hrow
  · intro h
    refine ⟨?_, ?_⟩
    · intro before c after _ i hi
      exact vga_putc_on_screen hi
    · intro before c after htext hc
      rw [vga_text_concat]
      exact (cell_after_newline (hcursor before) hc).mpr (h before c after htext hc)

/-- After 820 newlines the counter has wrapped, and the next character is in column 64. -/
theorem a_character_after_820_newlines :
    (vga_putc (vga_text vga_start (List.replicate 820 10)) 65).2 = some 64 ∧
      ¬ WellPlaced (List.replicate 820 10 ++ [65]) := by
  have hcell : (vga_putc (vga_text vga_start (List.replicate 819 10 ++ [10])) 65).2 = some 64 := by
    decide +kernel
  refine ⟨by decide +kernel, fun h => ?_⟩
  have := h.new_row (List.replicate 819 10) 65 [] (by decide +kernel) (by decide) 64 hcell
  omega

/-! ## The keys -/

/-- What a press or a release gives: a key of `keymap` its character, Enter a newline, Space a
blank, and a release or a key without a character nothing. -/
def pressed (scan : UInt8) : Option UInt8 :=
  if scan &&& 0x80 ≠ 0 then none
  else if scan = 0x1c then some 10
  else if scan = 0x39 then some 32
  else keymap[scan.toNat]?.filter (· ≠ 63)

/-- What `keyboard_read` makes of a code. -/
def decoded (scan : UInt8) : Option UInt8 :=
  if scan &&& 0x80 ≠ 0 ∨ keymap.length ≤ scan.toNat then none
  else if scan = 0x1c then some 10
  else if scan = 0x39 then some 32
  else keymap[scan.toNat]?.filter (· ≠ 63)

/-- What a read comes to: the codes that it takes, their characters, the codes that are left, and
whether it has ended. -/
structure Typed where
  codes : List UInt8
  text : Bytes
  rest : List UInt8
  ended : Bool

def Typed.push (t : Typed) (scan : UInt8) (text : Bytes) : Typed :=
  { t with codes := scan :: t.codes, text := text ++ t.text }

/-- A read of `left` characters at most, up to the first newline, with the meaning of a code. -/
def typed (key : UInt8 → Option UInt8) : Nat → List UInt8 → Typed
  | 0, rest => { codes := [], text := [], rest, ended := true }
  | _ + 1, [] => { codes := [], text := [], rest := [], ended := false }
  | left + 1, scan :: rest =>
    match key scan with
    | none => (typed key (left + 1) rest).push scan []
    | some c =>
      if c = 10 then { codes := [scan], text := [10], rest, ended := true }
      else (typed key left rest).push scan [c]

theorem pressed_space : pressed 0x39 = some 32 := by decide

/-- The two meanings differ at Space only. -/
theorem decoded_eq {scan : UInt8} (h : scan ≠ 0x39) : decoded scan = pressed scan := by
  unfold decoded pressed
  by_cases hup : scan &&& 0x80 ≠ 0
  · rw [if_pos (Or.inl hup), if_pos hup]
  · rw [if_neg hup, if_neg h]
    by_cases hlong : keymap.length ≤ scan.toNat
    · have henter : scan ≠ 0x1c := by
        rintro rfl
        revert hlong
        decide
      rw [if_pos (Or.inr hlong), if_neg henter, List.getElem?_eq_none hlong]
      rfl
    · rw [if_neg (by rintro (h1 | h1); exacts [hup h1, hlong h1])]

/-- No code is decoded to a blank. -/
theorem decoded_ne_blank (scan : UInt8) : decoded scan ≠ some 32 := by
  have hmap : (32 : UInt8) ∉ keymap := by decide
  intro h
  unfold decoded at h
  split at h
  · cases h
  rename_i hin
  split at h
  · cases h
  split at h
  · rename_i hspace
    subst hspace
    exact hin (Or.inr (by decide))
  · obtain ⟨hget, -⟩ := Option.filter_eq_some_iff.mp h
    exact hmap (List.mem_of_getElem? hget)

theorem keyboard_read_cons (scan : UInt8) (rest : List UInt8) :
    keyboard_read (scan :: rest) =
      match decoded scan with
      | none => keyboard_read rest
      | some c => .ok (some c, rest) := by
  rw [keyboard_read, decoded]
  split
  · rfl
  rename_i hin
  split
  · rfl
  split
  · rfl
  have hlt : scan.toNat < keymap.length := by
    rw [not_or] at hin
    omega
  rw [byteAt_eq hlt, ok_bind, List.getElem?_eq_getElem hlt, Option.filter_some]
  by_cases hc : keymap[scan.toNat] = 63
  · simp [hc]
  · simp [hc]

/-! ## The read -/

/-- The kernel after a read that comes to `t`: its characters are stored, and its codes taken. -/
def Kernel.afterRead (k : Kernel) (address : Nat) (t : Typed) : Kernel :=
  { k.withMemory (k.user.memory.putAll address t.text) with keyboard := t.rest }

/-- The number of characters, or nothing for a read that waits for ever. -/
def Typed.result (t : Typed) (index : Nat) : Option Int :=
  if t.ended then some ((index + t.text.length : Nat) : Int) else none

theorem read_loop_none (address left index : Nat) {k : Kernel} {scan : UInt8} {rest : List UInt8}
    (hk : k.keyboard = scan :: rest) (h : decoded scan = none) :
    read_loop address (left + 1) index k =
      read_loop address (left + 1) index { k with keyboard := rest } := by
  simp only [read_loop, hk, keyboard_read_cons, h]

theorem read_loop_some (address left index : Nat) {k : Kernel} {scan c : UInt8} {rest : List UInt8}
    (hk : k.keyboard = scan :: rest) (h : decoded scan = some c)
    (hheld : Window.Holds USER_BASE userSize (address + index)) :
    read_loop address (left + 1) index k =
      if c = 10 then
        .ok ({ k.withMemory (k.user.memory.put (address + index - USER_BASE) c) with
          keyboard := rest }, some (int32 (index + 1)))
      else read_loop address left (index + 1)
        { k.withMemory (k.user.memory.put (address + index - USER_BASE) c) with
          keyboard := rest } := by
  simp only [read_loop, hk, keyboard_read_cons, h, ok_bind, Window.store_eq c hheld]
  rfl

theorem typed_zero (key : UInt8 → Option UInt8) (codes : List UInt8) :
    typed key 0 codes = { codes := [], text := [], rest := codes, ended := true } := by
  cases codes <;> rfl

/-- The read has all its characters. -/
theorem read_loop_zero (address index : Nat) (k : Kernel) (h : index < 2 ^ 31) :
    read_loop address 0 index k =
      .ok (k.afterRead (address + index) (typed decoded 0 k.keyboard),
        (typed decoded 0 k.keyboard).result index) := by
  rw [read_loop, int32_eq h, typed_zero]
  rfl

/-- The read stores and takes what the codes say, with the meaning that `keyboard_read` gives
them. -/
theorem read_loop_eq (address length : Nat) (h : Window.HoldsAll USER_BASE userSize address length)
    (hlength : length < 2 ^ 31) (codes : List UInt8) (left index : Nat) (k : Kernel)
    (hleft : index + left ≤ length) (hk : k.keyboard = codes) :
    read_loop address left index k =
      .ok (k.afterRead (address + index) (typed decoded left codes),
        (typed decoded left codes).result index) := by
  induction codes generalizing left index k with
  | nil =>
    cases left with
    | zero =>
      rw [← hk]
      exact read_loop_zero address index k (by omega)
    | succ left =>
      cases k
      subst hk
      rfl
  | cons scan rest ih =>
    cases left with
    | zero =>
      rw [← hk]
      exact read_loop_zero address index k (by omega)
    | succ left =>
      rw [typed]
      cases hkey : decoded scan with
      | none =>
        rw [read_loop_none address left index hk hkey, ih (left + 1) index _ hleft rfl]
        rfl
      | some c =>
        rw [read_loop_some address left index hk hkey (h index (by omega))]
        simp only
        split
        · rename_i hc
          rw [int32_eq (by omega), hc]
          rfl
        · rw [ih left (index + 1) _ (by omega) rfl]
          refine congrArg Except.ok (Prod.ext rfl ?_)
          simp only [Typed.result, Typed.push, List.length_append, List.length_singleton]
          split
          · congr 2
            omega
          · rfl

theorem syscall_read_eq (k : Kernel) {address length : Nat} (hlength : length ≠ 0)
    (hrange : user_range address length = true) :
    syscall_read k 0 address length =
      .ok (k.afterRead address (typed decoded length k.keyboard),
        (typed decoded length k.keyboard).result 0) := by
  rw [syscall_read, if_neg (by simp [hlength, hrange]), mod_of_user_range hrange]
  exact read_loop_eq address length (holdsAll_of_user_range hrange) (lt_of_user_range hrange)
    k.keyboard length 0 k (by omega) rfl

/-! ## The law of the keys -/

/-- The characters of a read are those of the codes that it takes. -/
theorem mem_typed_text {key : UInt8 → Option UInt8} {left : Nat} {codes : List UInt8} {c : UInt8} :
    c ∈ (typed key left codes).text ↔ ∃ scan ∈ (typed key left codes).codes, key scan = some c := by
  induction codes generalizing left with
  | nil => cases left <;> simp [typed]
  | cons scan rest ih =>
    cases left with
    | zero => simp [typed]
    | succ left =>
      rw [typed]
      cases hkey : key scan with
      | none => simp [Typed.push, ih, hkey]
      | some d =>
        simp only
        split
        · rename_i hd
          subst hd
          simp [hkey, eq_comm]
        · simp [Typed.push, ih, hkey, eq_comm]

/-- Without a press of Space among the codes, both meanings give the same read. -/
theorem typed_decoded_eq {left : Nat} {codes : List UInt8}
    (h : 0x39 ∉ (typed pressed left codes).codes) :
    typed decoded left codes = typed pressed left codes := by
  induction codes generalizing left with
  | nil => cases left <;> rfl
  | cons scan rest ih =>
    cases left with
    | zero => rfl
    | succ left =>
      rw [typed] at h ⊢
      rw [typed]
      cases hkey : pressed scan with
      | none =>
        simp only [hkey, Typed.push, List.mem_cons, not_or] at h
        simp only [decoded_eq (Ne.symm h.1), hkey, ih h.2]
      | some c =>
        simp only [hkey] at h
        split at h
        · rename_i hc
          simp only [List.mem_singleton] at h
          simp only [decoded_eq (Ne.symm h), hkey, if_pos hc]
        · rename_i hc
          simp only [Typed.push, List.mem_cons, not_or] at h
          simp only [decoded_eq (Ne.symm h.1), hkey, if_neg hc, ih h.2]

/-- A read of the stream into the buffer stores the characters of the keys that are pressed, in
their order, up to the first newline or the end of the buffer, returns their number, and leaves
the codes after the last one. When the stream is too short for that, it waits for more. -/
def ReadsKeys (stream : List UInt8) (address length : Nat) : Prop :=
  ∀ k : Kernel, k.keyboard = stream → syscall_read k 0 address length =
    .ok (k.afterRead address (typed pressed length stream), (typed pressed length stream).result 0)

/-- Every read stores the characters of the keys exactly when Space is not pressed before the
read is at its end. -/
theorem a_read_stores_the_keys_iff (stream : List UInt8) (address length : Nat) (hlength : length ≠ 0)
    (hrange : user_range address length = true) :
    ReadsKeys stream address length ↔ 0x39 ∉ (typed pressed length stream).codes := by
  constructor
  · intro h hspace
    -- a memory of zeros tells a stored blank from one that stood there before
    have hread := h (.start [] stream) rfl
    rw [syscall_read_eq _ hlength hrange] at hread
    have hbase : USER_BASE ≤ address := (user_range_iff.mp hrange).1
    have hmemory : zeroUser.memory.putAll address (typed decoded length stream).text =
        zeroUser.memory.putAll address (typed pressed length stream).text :=
      congrArg (fun r : Kernel × Option Int => r.1.user.memory) (Except.ok.inj hread)
    have hblank : 32 ∈ (typed pressed length stream).text :=
      mem_typed_text.mpr ⟨0x39, hspace, pressed_space⟩
    have hback := Window.bytesAt_putAll zeroUser.memory (typed pressed length stream).text hbase
    rw [← hback, ← hmemory] at hblank
    obtain ⟨i, -, hi⟩ := List.mem_map.mp hblank
    rcases Window.byte_putAll zeroUser.memory (typed decoded length stream).text hbase
      (by omega : USER_BASE ≤ address + i) with hmem | hzero
    · rw [hi] at hmem
      obtain ⟨scan, -, hscan⟩ := mem_typed_text.mp hmem
      exact decoded_ne_blank scan hscan
    · have hzero' : (32 : UInt8) = 0 := hi.symm.trans hzero
      exact absurd hzero' (by decide)
  · intro hspace k hk
    rw [syscall_read_eq k hlength hrange, hk, typed_decoded_eq hspace]

/-- The keys `l`, `s` and Enter, with their releases. -/
theorem a_command_is_read : ReadsKeys [0x26, 0xa6, 0x1f, 0x9f, 0x1c, 0x9c] 0x400000 64 :=
  (a_read_stores_the_keys_iff [0x26, 0xa6, 0x1f, 0x9f, 0x1c, 0x9c] 0x400000 64 (by decide)
    (by decide)).mpr (by decide)

/-- The keys `a`, Space, `s` and Enter give four characters, and the read stores three. -/
theorem a_blank_is_never_read :
    (typed pressed 64 [0x1e, 0x39, 0x1f, 0x1c]).text = ascii "a s\n" ∧
      (∀ k : Kernel, k.keyboard = [0x1e, 0x39, 0x1f, 0x1c] →
        syscall_read k 0 0x400000 64 =
          .ok ({ k.withMemory (k.user.memory.putAll 0x400000 (ascii "as\n")) with keyboard := [] },
            some 3)) ∧
      ¬ ReadsKeys [0x1e, 0x39, 0x1f, 0x1c] 0x400000 64 := by
  have hread : ∀ k : Kernel, k.keyboard = [0x1e, 0x39, 0x1f, 0x1c] →
      syscall_read k 0 0x400000 64 =
        .ok ({ k.withMemory (k.user.memory.putAll 0x400000 (ascii "as\n")) with keyboard := [] },
          some 3) := by
    intro k hk
    rw [syscall_read_eq k (by decide) (by decide), hk]
    rfl
  refine ⟨by decide, hread, fun h => ?_⟩
  have hclaim := h (.start [] [0x1e, 0x39, 0x1f, 0x1c]) rfl
  rw [hread _ rfl] at hclaim
  have hresult : (some 3 : Option Int) = (typed pressed 64 [0x1e, 0x39, 0x1f, 0x1c]).result 0 :=
    congrArg Prod.snd (Except.ok.inj hclaim)
  exact absurd hresult (by decide)

end mantle.syscall
