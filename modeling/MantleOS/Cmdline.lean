-- `init/mantle-init.c`: a value of the kernel command line. One search for the key
-- decides where the value is, so it is right only where the key stands first, and the
-- newline at the end of the line belongs to the last value.
import MantleOS.CText

open checked bytes ctext

namespace mantle.cmdline

/-! ## The lookup -/

/-- `char line[2048]`. -/
def line_size : Nat := 2048

/-- `p == line || p[-1] == ' '`. -/
def begins_word (line : Bytes) (p : Nat) : Checked Bool :=
  if p = 0 then .ok true
  else do
    let b ← byteAt line (p - 1)
    return b = 32

/-- The end of `cmdline_value`, from `p += strlen(key)` on, for a `size` that is not 0. -/
def copy_value (line key out : Bytes) (size p : Nat) : Checked (Nat × Bytes) := do
  let value := line.drop (p + key.length)
  let n := match value.idxOf? 32 with
    | some e => e
    | none => value.length
  let n := if size ≤ n then size - 1 else n
  let out ← spliceAt out 0 (value.take n)
  let out ← setAt out n 0
  return (1, out)

/-- `cmdline_value(key, out, size)`: the result and `out`, with what `/proc/cmdline` holds. -/
def cmdline_value (proc_cmdline : Option Bytes) (key out : Bytes) (size : Nat) : Checked (Nat × Bytes) :=
  match proc_cmdline with
  | none => .ok (0, out)
  | some text =>
    match (fgetsAll line_size text).head? with
    | none => .ok (0, out)
    | some piece =>
      let line := cstring piece
      match strstr key line with
      | none => .ok (0, out)
      | some p => do
        if ← begins_word line p then copy_value line key out size p else return (0, out)

/-! ## The values of the words -/

/-- The value of a key: what comes behind it in the first word that starts with it. -/
def value_of (key : Bytes) (words : List Bytes) : Option Bytes :=
  (words.find? fun w => decide (key <+: w)).map (List.drop key.length)

/-- The lookup finds the value of the key, as much of it as `out` has room for. -/
def FindsValue (key body out : Bytes) (size : Nat) : Prop :=
  Yields (cmdline_value (some (body ++ [10])) key out size) fun r =>
    match value_of key (body.splitOn 32) with
    | none => r.1 = 0
    | some value => r.1 = 1 ∧ cstring r.2 = value.take (size - 1)

/-- The key stands between `a` and `b`, and nowhere before. -/
structure First (key body a b : Bytes) : Prop where
  split : body = a ++ key ++ b
  first : ∀ a' b', body = a' ++ key ++ b' → a.length ≤ a'.length

/-- What comes behind these bytes begins a word. -/
def BeginsWord (a : Bytes) : Prop := a = [] ∨ a.getLast? = some 32

/-- The first place of the key tells its value. -/
inductive Tells (key body : Bytes) (size : Nat) : Prop
  | absent (h : ¬ key <:+: body)
  | inside (a b : Bytes) (h : First key body a b) (hword : ¬ BeginsWord a)
      (hnone : ∀ w ∈ body.splitOn 32, ¬ key <+: w)
  | word (a b : Bytes) (h : First key body a b) (hword : BeginsWord a) (hkey : 32 ∉ key)
      (hend : 32 ∈ b ∨ size ≤ b.length + 1)

variable {key body a b : Bytes}

/-- A key that ends in `=` does not reach into the newline. -/
theorem occurrence_in_body {c : Bytes} (hkey : key.getLast? = some 61) (h : body ++ [10] = a ++ key ++ c) :
    ∃ b, c = b ++ [10] ∧ body = a ++ key ++ b := by
  rcases List.eq_nil_or_concat c with rfl | ⟨b, x, rfl⟩
  · have hlast := congrArg List.getLast? h
    have hne : key ≠ [] := by
      rintro rfl
      cases hkey
    rw [List.append_nil, List.getLast?_append_of_ne_nil _ hne, hkey] at hlast
    simp at hlast
  · rw [List.concat_eq_append, ← List.append_assoc] at h
    obtain ⟨hbody, hx⟩ := List.append_inj' h rfl
    cases hx
    exact ⟨b, by rw [List.concat_eq_append], hbody⟩

/-- The search in the line is one in its words. -/
theorem strstr_line (hkey : key.getLast? = some 61) :
    (strstr key (body ++ [10]) = none ∧ ¬ key <:+: body) ∨
      ∃ a b, First key body a b ∧ strstr key (body ++ [10]) = some a.length := by
  cases hfound : strstr key (body ++ [10]) with
  | none =>
    left
    refine ⟨rfl, fun hin => strstr_eq_none_iff.mp hfound ?_⟩
    exact hin.trans (List.prefix_append body [10]).isInfix
  | some i =>
    right
    obtain ⟨a, c, hsplit, hlen, hfirst⟩ := strstr_eq_some hfound
    obtain ⟨b, -, hbody⟩ := occurrence_in_body hkey hsplit
    refine ⟨a, b, ⟨hbody, fun a' b' h => ?_⟩, by rw [hlen]⟩
    rw [hlen]
    apply hfirst a' (b' ++ [10])
    rw [h, List.append_assoc]

theorem begins_word_eq {text c : Bytes} (h : text = a ++ c) :
    ∃ begins, begins_word text a.length = .ok begins ∧ (begins = true ↔ BeginsWord a) := by
  unfold begins_word BeginsWord
  rcases List.eq_nil_or_concat a with rfl | ⟨a, x, rfl⟩
  · exact ⟨true, rfl, by simp⟩
  · have hplace : text[a.length]? = some x := by
      rw [h]
      simp
    refine ⟨decide (x = 32), ?_, by simp⟩
    simp [byteAt, hplace]

/-- `strchr`, or the end of the string: the length of what stands before the byte. -/
theorem idxOf_or_length (s : Bytes) (c : UInt8) :
    (match s.idxOf? c with | some e => e | none => s.length) = (s.takeWhile (· ≠ c)).length := by
  induction s with
  | nil => rfl
  | cons b s ih =>
    rw [List.idxOf?_cons]
    by_cases hb : b = c
    · simp [hb]
    · rw [List.takeWhile_cons_of_pos (by simpa using hb), List.length_cons, List.length_cons, ← ih]
      cases s.idxOf? c <;> simp [hb]

/-- `copy_value` stores the value up to the next space, or to the end of the line. -/
theorem copy_value_eq {line c out : Bytes} {size : Nat} (hline : line = a ++ key ++ c) (h0 : 0 ∉ c)
    (hsize : 0 < size) (hout : size ≤ out.length) :
    ∃ out', copy_value line key out size a.length = .ok (1, out') ∧
      cstring out' = (c.takeWhile (· ≠ 32)).take (size - 1) := by
  have hvalue : line.drop (a.length + key.length) = c := by
    rw [hline, ← List.length_append, List.drop_left]
  unfold copy_value
  simp only [hvalue, idxOf_or_length]
  generalize hn : (if size ≤ (c.takeWhile (· ≠ 32)).length then size - 1 else (c.takeWhile (· ≠ 32)).length) = n
  have hword : n ≤ (c.takeWhile (· ≠ 32)).length ∧ n < size := by
    split at hn <;> omega
  have hword_start := List.takeWhile_prefix (fun x => decide (x ≠ 32)) (l := c)
  have hlen : (c.take n).length = n := List.length_take_of_le (hword.1.trans hword_start.length_le)
  have hstored : c.take n = (c.takeWhile (· ≠ 32)).take (size - 1) := by
    rw [List.prefix_iff_eq_take.mp hword_start, List.take_take]
    congr 1
    split at hn <;> omega
  obtain ⟨copied, hcopy, hset⟩ := @copy_string out (c.take n) (by omega)
  rw [hlen] at hset
  refine ⟨_, by rw [hcopy, ok_bind, hset]; rfl, ?_⟩
  rw [cstring_splice fun h => h0 (List.mem_of_mem_take h), hstored]

/-! ## The words of the line -/

/-- The words of a line, at a place where one begins: those before it, and those from it on. -/
theorem splitOn_at_word (h : BeginsWord a) (s : Bytes) :
    ∃ before, (a ++ s).splitOn 32 = before ++ s.splitOn 32 ∧
      ∀ w ∈ before, ∃ x y, a = x ++ w ++ y ∧ y ≠ [] := by
  rcases h with rfl | hlast
  · exact ⟨[], rfl, by simp⟩
  · obtain ⟨front, rfl⟩ := List.getLast?_eq_some_iff.mp hlast
    refine ⟨front.splitOn 32, ?_, ?_⟩
    · rw [List.append_assoc, List.singleton_append, List.splitOn_append_cons_self]
    · intro w hw
      obtain ⟨x, y, hsplit⟩ := infix_of_mem_splitOn hw
      exact ⟨x, y ++ [32], by rw [← hsplit, List.append_assoc], by simp⟩

/-- Where the key stands first, at the start of a word, is the first word that starts with it. -/
theorem value_of_first (h : First key body a b) (hword : BeginsWord a) (hkey : 32 ∉ key) :
    value_of key (body.splitOn 32) = some (b.takeWhile (· ≠ 32)) := by
  obtain ⟨before, hsplit, hbefore⟩ := splitOn_at_word hword (key ++ b)
  obtain ⟨rest, hhead⟩ := splitOn_head (key ++ b) 32
  have hstart : (key ++ b).takeWhile (· ≠ 32) = key ++ b.takeWhile (· ≠ 32) := by
    apply List.takeWhile_append_of_pos
    intro x hx
    simpa using fun h32 : x = 32 => hkey (h32 ▸ hx)
  have hnone : before.find? (fun w => decide (key <+: w)) = none := by
    rw [List.find?_eq_none]
    intro w hw hstarts
    obtain ⟨v, rfl⟩ := of_decide_eq_true hstarts
    obtain ⟨x, y, ha, hy⟩ := hbefore _ hw
    -- the key would stand earlier than it does first
    have hle := h.first x (v ++ y ++ key ++ b) (by rw [h.split, ha]; simp)
    have hlen := congrArg List.length ha
    have hpos := List.length_pos_of_ne_nil hy
    simp only [List.length_append] at hlen
    omega
  rw [value_of, h.split, List.append_assoc, hsplit, List.find?_append, hnone, Option.none_or, hhead, hstart,
    List.find?_cons_of_pos (by simp), Option.map_some, List.drop_left]

theorem value_of_eq_none {words : List Bytes} : value_of key words = none ↔ ∀ w ∈ words, ¬ key <+: w := by
  simp [value_of]

/-- A word that starts with the key has no space, so the key has none. -/
theorem value_of_spaced (hkey : 32 ∈ key) : value_of key (body.splitOn 32) = none := by
  rw [value_of_eq_none]
  intro w hw hstarts
  exact notMem_of_mem_splitOn hw (hstarts.subset hkey)

theorem value_of_absent (h : ¬ key <:+: body) : value_of key (body.splitOn 32) = none := by
  rw [value_of_eq_none]
  intro w hw hstarts
  exact h (hstarts.isInfix.trans (infix_of_mem_splitOn hw))

/-- The value up to the end of the line is the one of the word, unless the newline comes with it. -/
theorem take_value_iff (size : Nat) :
    ((b ++ [10]).takeWhile (· ≠ 32)).take (size - 1) = (b.takeWhile (· ≠ 32)).take (size - 1) ↔
      32 ∈ b ∨ size ≤ b.length + 1 := by
  by_cases hspace : 32 ∈ b
  · obtain ⟨x, y, rfl⟩ := List.append_of_mem hspace
    rw [iff_true_right (.inl hspace)]
    congr 1
    simp only [List.append_assoc, List.cons_append, List.takeWhile_append]
    split <;> simp
  · have hall : ∀ x ∈ b ++ [10], decide (x ≠ 32) = true := by
      intro x hx
      rcases List.mem_append.mp hx with hx | hx
      · simpa using fun h32 : x = 32 => hspace (h32 ▸ hx)
      · rw [List.mem_singleton.mp hx]
        rfl
    have hbody : ∀ x ∈ b, decide (x ≠ 32) = true := fun x hx => hall x (List.mem_append_left _ hx)
    rw [List.takeWhile_eq_self_iff.mpr hall, List.takeWhile_eq_self_iff.mpr hbody, or_iff_right hspace,
      List.take_append, List.append_right_eq_self]
    simp only [List.take_eq_nil_iff, List.cons_ne_nil, or_false]
    omega

theorem First.unique {a' b' : Bytes} (h : First key body a b) (h' : First key body a' b') : a = a' ∧ b = b' := by
  have hlen : a.length = a'.length := Nat.le_antisymm (h.first a' b' h'.split) (h'.first a b h.split)
  have hsplit := h.split.symm.trans h'.split
  rw [List.append_assoc, List.append_assoc] at hsplit
  obtain ⟨ha, hrest⟩ := List.append_inj hsplit hlen
  exact ⟨ha, List.append_cancel_left hrest⟩

theorem First.isInfix (h : First key body a b) : key <:+: body := ⟨a, b, h.split.symm⟩

/-- What the first place of the key tells, at the start of a word. -/
theorem First.tells_word {size : Nat} (h : First key body a b) (hword : BeginsWord a) :
    Tells key body size ↔ 32 ∉ key ∧ (32 ∈ b ∨ size ≤ b.length + 1) := by
  constructor
  · intro htells
    cases htells with
    | absent habsent => exact absurd h.isInfix habsent
    | inside a' b' h' hinside hnone =>
      obtain ⟨rfl, rfl⟩ := h.unique h'
      exact absurd hword hinside
    | word a' b' h' hword' hkey hend =>
      obtain ⟨rfl, rfl⟩ := h.unique h'
      exact ⟨hkey, hend⟩
  · rintro ⟨hkey, hend⟩
    exact .word a b h hword hkey hend

/-- What it tells inside of a word. -/
theorem First.tells_inside {size : Nat} (h : First key body a b) (hword : ¬ BeginsWord a) :
    Tells key body size ↔ ∀ w ∈ body.splitOn 32, ¬ key <+: w := by
  constructor
  · intro htells
    cases htells with
    | absent habsent => exact absurd h.isInfix habsent
    | inside a' b' h' hinside hnone => exact hnone
    | word a' b' h' hword' hkey hend =>
      obtain ⟨rfl, rfl⟩ := h.unique h'
      exact absurd hword' hword
  · intro hnone
    exact .inside a b h hword hnone

/-! ## The law -/

/-- The line is read whole. -/
theorem cmdline_value_line {out : Bytes} {size : Nat} (h0 : 0 ∉ body) (h10 : 10 ∉ body)
    (hlen : body.length + 1 < line_size) :
    cmdline_value (some (body ++ [10])) key out size =
      match strstr key (body ++ [10]) with
      | none => .ok (0, out)
      | some p => do
        if ← begins_word (body ++ [10]) p then copy_value (body ++ [10]) key out size p else return (0, out) := by
  have hline : cstring (body ++ [10]) = body ++ [10] := by
    apply cstring_of_notMem
    simp [h0]
  rw [cmdline_value, fgetsAll_line line_size body h10 (by omega)]
  simp only [List.head?_cons, hline]

section Found

variable {out : Bytes} {size : Nat} (h0 : 0 ∉ body) (h10 : 10 ∉ body) (hlen : body.length + 1 < line_size)

include h0 h10 hlen

/-- A key that is not in the line is not found, and no word starts with it. -/
theorem finds_value_absent (hnone : strstr key (body ++ [10]) = none) (habsent : ¬ key <:+: body) :
    FindsValue key body out size := by
  unfold FindsValue
  rw [cmdline_value_line h0 h10 hlen, hnone, yields_ok, value_of_absent habsent]

/-- Inside of a word the lookup ends. -/
theorem finds_value_inside (h : First key body a b) (hfound : strstr key (body ++ [10]) = some a.length)
    (hword : ¬ BeginsWord a) : FindsValue key body out size ↔ ∀ w ∈ body.splitOn 32, ¬ key <+: w := by
  have hline : body ++ [10] = a ++ (key ++ (b ++ [10])) := by rw [h.split]; simp
  obtain ⟨begins, hbegins, hiff⟩ := begins_word_eq hline
  have hno : begins = false := by
    rw [← Bool.not_eq_true, hiff]
    exact hword
  unfold FindsValue
  rw [cmdline_value_line h0 h10 hlen, hfound]
  dsimp only
  rw [hbegins, ok_bind, hno, if_neg Bool.false_ne_true, ← value_of_eq_none, pure_eq_ok, yields_ok]
  cases value_of key (body.splitOn 32) with
  | none => simp
  | some value => simp

/-- At the start of a word it stores what comes up to the next space or to the end of the line. -/
theorem finds_value_word (h : First key body a b) (hfound : strstr key (body ++ [10]) = some a.length)
    (hword : BeginsWord a) (hsize : 0 < size) (hout : size ≤ out.length) :
    FindsValue key body out size ↔ 32 ∉ key ∧ (32 ∈ b ∨ size ≤ b.length + 1) := by
  have hline : body ++ [10] = a ++ (key ++ (b ++ [10])) := by rw [h.split]; simp
  obtain ⟨begins, hbegins, hiff⟩ := begins_word_eq hline
  have h0' : 0 ∉ b ++ [10] := by
    rw [h.split] at h0
    simp only [List.mem_append, not_or] at h0
    simp [h0.2]
  rw [← List.append_assoc] at hline
  obtain ⟨out', hcopy, hstored⟩ := copy_value_eq hline h0' hsize hout
  unfold FindsValue
  rw [cmdline_value_line h0 h10 hlen, hfound]
  dsimp only
  rw [hbegins, ok_bind, if_pos (hiff.mpr hword), hcopy, yields_ok]
  by_cases hspaced : 32 ∈ key
  · rw [value_of_spaced hspaced]
    exact iff_of_false Nat.one_ne_zero fun h => h.1 hspaced
  · rw [value_of_first h hword hspaced]
    dsimp only
    rw [hstored, take_value_iff]
    simp [hspaced]

end Found

/-- **The value is found exactly where the first place of the key tells it.** -/
theorem the_value_is_found_iff (key body out : Bytes) (size : Nat) (hkey : key.getLast? = some 61)
    (h0 : 0 ∉ body) (h10 : 10 ∉ body) (hlen : body.length + 1 < line_size) (hsize : 0 < size)
    (hout : size ≤ out.length) : FindsValue key body out size ↔ Tells key body size := by
  rcases @strstr_line key body hkey with ⟨hnone, habsent⟩ | ⟨a, b, hfirst, hfound⟩
  · exact iff_of_true (finds_value_absent h0 h10 hlen hnone habsent) (.absent habsent)
  · by_cases hword : BeginsWord a
    · rw [finds_value_word h0 h10 hlen hfirst hfound hword hsize hout, hfirst.tells_word hword]
    · rw [finds_value_inside h0 h10 hlen hfirst hfound hword, hfirst.tells_inside hword]

theorem first_of_strstr (hsplit : body = a ++ key ++ b) (h : strstr key body = some a.length) :
    First key body a b := by
  obtain ⟨a', b', -, -, hfirst⟩ := strstr_eq_some h
  exact ⟨hsplit, hfirst⟩

theorem a_root_before_other_words_is_found :
    FindsValue (ascii "mantle.root=") (ascii "quiet mantle.root=/dev/vda2 splash") (List.replicate 256 0) 256 := by
  apply (the_value_is_found_iff _ _ _ _ (by decide) (by decide) (by decide) (by decide) (by decide)
    (by rw [List.length_replicate])).mpr
  have hfirst := @first_of_strstr (ascii "mantle.root=") (ascii "quiet mantle.root=/dev/vda2 splash")
    (ascii "quiet ") (ascii "/dev/vda2 splash") (by decide) (by decide)
  exact .word _ _ hfirst (.inr (by decide)) (by decide) (.inl (by decide))

/-- The name of the last device of the line ends in a newline. -/
theorem the_last_value_has_the_newline :
    ¬ FindsValue (ascii "mantle.root=") (ascii "quiet mantle.root=/dev/vda2") (List.replicate 256 0) 256 := by
  have hfirst := @first_of_strstr (ascii "mantle.root=") (ascii "quiet mantle.root=/dev/vda2")
    (ascii "quiet ") (ascii "/dev/vda2") (by decide) (by decide)
  rw [finds_value_word (by decide) (by decide) (by decide) hfirst (by decide) (.inr (by decide)) (by decide)
    (by rw [List.length_replicate])]
  decide

end mantle.cmdline
