-- Text as C programs read it: lines of a bounded buffer, words of `sscanf`,
-- the classes of `ctype.h`, and strings that a given text does not contain.
import Mathlib.Data.Fintype.BigOperators
import Mathlib.Data.List.Infix
import Mathlib.Data.List.OfFn
import MantleOS.Bytes

open bytes

namespace ctext

def isspace (b : UInt8) : Bool := b = 32 || (9 ≤ b && b ≤ 13)

def isxdigit (b : UInt8) : Bool :=
  (48 ≤ b && b ≤ 57) || (65 ≤ b && b ≤ 70) || (97 ≤ b && b ≤ 102)

/-- A property of the bytes of a literal, checked byte by byte. -/
theorem forall_ascii {text : String} {P : UInt8 → Prop} [DecidablePred P]
    (h : (ascii text).all (fun b => decide (P b)) = true) : ∀ b ∈ ascii text, P b := by
  simpa using h

/-! ## Lines -/

/-- `while (fgets(..))` over the input, with what the current call has read so far: a call
ends after a newline, and when the buffer holds `n` bytes. -/
def fgets_loop (n : Nat) : Bytes → Bytes → List Bytes
  | line, [] => if line = [] then [] else [line]
  | line, b :: rest =>
    if b = 10 ∨ (line ++ [b]).length = n then (line ++ [b]) :: fgets_loop n [] rest
    else fgets_loop n (line ++ [b]) rest

/-- The lines that `fgets` gives one after the other with a buffer of `size` bytes. -/
def fgetsAll (size : Nat) (input : Bytes) : List Bytes := fgets_loop (size - 1) [] input

/-- The string after `line[strcspn(line, "\r\n")] = 0`. -/
def cutLine (line : Bytes) : Bytes := (cstring line).takeWhile (fun b => b ≠ 13 ∧ b ≠ 10)

theorem fgets_loop_append (n : Nat) (line a b : Bytes) :
    fgets_loop n line (a ++ 10 :: b) = fgets_loop n line (a ++ [10]) ++ fgets_loop n [] b := by
  induction a generalizing line with
  | nil => simp [fgets_loop]
  | cons x a ih =>
    simp only [List.cons_append, fgets_loop]
    split
    · rw [ih, List.cons_append]
    · rw [ih]

/-- What follows a newline is read as if it stood alone. -/
theorem fgetsAll_append (size : Nat) (a b : Bytes) :
    fgetsAll size (a ++ [10] ++ b) = fgetsAll size (a ++ [10]) ++ fgetsAll size b := by
  rw [List.append_assoc]
  exact fgets_loop_append (size - 1) [] a b

theorem fgets_loop_line (n : Nat) (line body : Bytes) (hbody : 10 ∉ body)
    (hlen : line.length + body.length < n) :
    fgets_loop n line (body ++ [10]) = [line ++ body ++ [10]] := by
  induction body generalizing line with
  | nil => simp [fgets_loop]
  | cons x body ih =>
    simp only [List.length_cons] at hlen
    have hx : ¬ (x = 10 ∨ (line ++ [x]).length = n) := by
      rintro (rfl | h)
      · exact hbody (by simp)
      · simp only [List.length_append, List.length_cons, List.length_nil] at h
        omega
    rw [List.cons_append, fgets_loop, if_neg hx, ih]
    · simp
    · exact fun h => hbody (List.mem_cons_of_mem _ h)
    · simp only [List.length_append, List.length_cons, List.length_nil]
      omega

/-- A line that fits the buffer is read whole. -/
theorem fgetsAll_line (size : Nat) (body : Bytes) (hbody : 10 ∉ body)
    (hlen : body.length < size - 1) : fgetsAll size (body ++ [10]) = [body ++ [10]] := by
  have h := fgets_loop_line (size - 1) [] body hbody (by simpa using hlen)
  rwa [List.nil_append] at h

/-- A text of whole lines is read line by line. -/
theorem fgetsAll_flatMap {α : Type} (size : Nat) (f : α → Bytes) (l : List α) :
    fgetsAll size (l.flatMap fun e => f e ++ [10]) = l.flatMap fun e => fgetsAll size (f e ++ [10]) := by
  induction l with
  | nil => rfl
  | cons e l ih => rw [List.flatMap_cons, fgetsAll_append, ih, List.flatMap_cons]

theorem infix_of_fgets_loop (n : Nat) (line input : Bytes) :
    ∀ chunk ∈ fgets_loop n line input, chunk <:+: line ++ input := by
  induction input generalizing line with
  | nil =>
    intro chunk hc
    rw [fgets_loop] at hc
    split at hc
    · cases hc
    · rw [List.mem_singleton.mp hc, List.append_nil]
  | cons b rest ih =>
    intro chunk hc
    have hsplit : line ++ b :: rest = (line ++ [b]) ++ rest := by simp
    rw [fgets_loop] at hc
    split at hc
    · rcases List.mem_cons.mp hc with rfl | hc
      · rw [hsplit]
        exact (List.prefix_append _ _).isInfix
      · rw [hsplit]
        exact (ih [] chunk hc).trans (List.suffix_append _ _).isInfix
    · rw [hsplit]
      exact ih _ chunk hc

/-- Every line stands in the text. -/
theorem infix_of_fgetsAll {size : Nat} {input chunk : Bytes} (h : chunk ∈ fgetsAll size input) :
    chunk <:+: input := infix_of_fgets_loop (size - 1) [] input chunk h

theorem infix_of_cutLine (line : Bytes) : cutLine line <:+: line :=
  ((List.takeWhile_prefix _).trans (List.takeWhile_prefix _)).isInfix

theorem cutLine_line {body : Bytes} (h : ∀ b ∈ body, b ≠ 0 ∧ b ≠ 13 ∧ b ≠ 10) :
    cutLine (body ++ [10]) = body := by
  have h0 : (0 : UInt8) ∉ body ++ [10] := by
    rw [List.mem_append, not_or]
    exact ⟨fun hm => (h 0 hm).1 rfl, by decide⟩
  rw [cutLine, cstring_of_notMem h0, List.takeWhile_append_of_pos]
  · simp
  · intro b hb
    simpa using (h b hb).2

theorem fgets_loop_length_le {n : Nat} {line input : Bytes} (hn : line.length < n) :
    ∀ chunk ∈ fgets_loop n line input, chunk.length ≤ n := by
  induction input generalizing line with
  | nil =>
    intro chunk hc
    rw [fgets_loop] at hc
    split at hc
    · cases hc
    · rw [List.mem_singleton.mp hc]
      exact Nat.le_of_lt hn
  | cons b rest ih =>
    intro chunk hc
    have hlen : (line ++ [b]).length = line.length + 1 := by simp
    rw [fgets_loop] at hc
    split at hc
    · rcases List.mem_cons.mp hc with rfl | hc
      · omega
      · exact ih (Nat.lt_of_le_of_lt (Nat.zero_le _) hn) chunk hc
    · rename_i hgo
      exact ih (by omega) chunk hc

/-- Every line fits the buffer, with its end. -/
theorem fgetsAll_length_lt {size : Nat} {input chunk : Bytes} (hsize : 1 < size)
    (h : chunk ∈ fgetsAll size input) : chunk.length < size := by
  have hle := @fgets_loop_length_le (size - 1) [] input (by simp; omega) chunk h
  omega

/-- The first call on a text reads to the end of its first line, as far as the buffer goes. -/
theorem fgets_loop_head {n : Nat} {line body ending : Bytes} (hn : line.length < n)
    (hbody : 10 ∉ body) (hend : ending = [10] ∨ ending = [] ∧ line ++ body ≠ []) :
    (fgets_loop n line (body ++ ending)).head? = some ((line ++ body ++ ending).take n) := by
  induction body generalizing line with
  | nil =>
    rcases hend with rfl | ⟨rfl, hne⟩
    · have hfit : (line ++ [10]).length ≤ n := by simpa using hn
      simp [fgets_loop, List.take_of_length_le hfit]
    · rw [List.append_nil] at hne
      simp [fgets_loop, hne, List.take_of_length_le (Nat.le_of_lt hn)]
  | cons x body ih =>
    rw [List.mem_cons, not_or] at hbody
    rw [List.cons_append, fgets_loop]
    have hwhole : line ++ x :: body ++ ending = line ++ [x] ++ (body ++ ending) := by simp
    split
    · rename_i hstop
      have hfull : (line ++ [x]).length = n := hstop.resolve_left (Ne.symm hbody.1)
      rw [hwhole, List.head?_cons, ← hfull, List.take_left]
    · rename_i hgo
      rw [not_or, List.length_append, List.length_singleton] at hgo
      rw [ih (by rw [List.length_append, List.length_singleton]; omega) hbody.2]
      · simp
      · rcases hend with hend | hend
        · exact .inl hend
        · exact .inr ⟨hend.1, by simp⟩

/-- A line is read with its start whole: what stands before its first end is what a call gives,
if the buffer can hold it. -/
theorem mem_cut_of_line {size : Nat} {body ending : Bytes} (hsize : 1 < size) (h10 : 10 ∉ body)
    (h0 : 0 ∉ body) (hend : ending = [10] ∨ ending = [] ∧ body ≠ [])
    (hlen : (cutLine body).length < size) :
    cutLine body ∈ (fgetsAll size (body ++ ending)).map cutLine := by
  have hhead := @fgets_loop_head (size - 1) [] body ending (by simp; omega) h10 hend
  refine List.mem_map.mpr ⟨(body ++ ending).take (size - 1), List.mem_of_mem_head? hhead, ?_⟩
  have h0' : 0 ∉ (body ++ ending).take (size - 1) := by
    intro hm
    rcases List.mem_append.mp (List.mem_of_mem_take hm) with hm | hm
    · exact h0 hm
    · rcases hend with rfl | ⟨rfl, -⟩
      · cases List.mem_singleton.mp hm
      · cases hm
  unfold cutLine at hlen ⊢
  rw [cstring_of_notMem h0] at hlen ⊢
  rw [cstring_of_notMem h0', ← List.take_takeWhile]
  have hcut : (body ++ ending).takeWhile (fun b => b ≠ 13 ∧ b ≠ 10) =
      body.takeWhile (fun b => b ≠ 13 ∧ b ≠ 10) := by
    rcases hend with rfl | ⟨rfl, -⟩
    · rw [List.takeWhile_append]
      split
      · rename_i hall
        rw [List.takeWhile_cons_of_neg (by simp), List.append_nil]
        exact (List.Sublist.eq_of_length (List.takeWhile_prefix _).sublist hall).symm
      · rfl
    · rw [List.append_nil]
  rw [hcut]
  exact List.take_of_length_le (by omega)

/-! ## Pieces -/

theorem infix_of_mem_splitOn {l piece : Bytes} {sep : UInt8} (h : piece ∈ l.splitOn sep) :
    piece <:+: l := by
  have hwhole := @List.intercalate_splitOn _ l _ _ sep
  rw [← hwhole]
  generalize l.splitOn sep = pieces at h
  induction pieces with
  | nil => cases h
  | cons first rest ih =>
    rcases rest with _ | ⟨second, rest⟩
    · rw [List.mem_singleton.mp h]
      simp
    · rw [List.intercalate_cons_cons]
      rcases List.mem_cons.mp h with rfl | h
      · exact (List.prefix_append _ _).isInfix.trans (List.prefix_append _ _).isInfix
      · exact (ih h).trans (List.suffix_append _ _).isInfix

/-- No piece holds a byte that the text was split at. -/
theorem no_break_in_piece {p : UInt8 → Bool} {l piece : Bytes} (h : piece ∈ l.splitOnP p) :
    ∀ b ∈ piece, p b = false := by
  induction l generalizing piece with
  | nil =>
    rw [List.splitOnP_nil, List.mem_singleton] at h
    simp [h]
  | cons b l ih =>
    obtain ⟨first, rest, hpieces⟩ := List.exists_cons_of_ne_nil (List.splitOnP_ne_nil p l)
    rw [List.splitOnP_cons_eq_if_modifyHead, hpieces] at h
    rw [hpieces] at ih
    split at h
    · rcases List.mem_cons.mp h with rfl | h
      · simp
      · exact ih h
    · rename_i hb
      rcases List.mem_cons.mp h with rfl | h
      · rw [List.forall_mem_cons]
        exact ⟨by simpa using hb, ih List.mem_cons_self⟩
      · exact ih (List.mem_cons_of_mem _ h)

theorem notMem_of_mem_splitOn {l piece : Bytes} {sep : UInt8} (h : piece ∈ l.splitOn sep) :
    sep ∉ piece := by
  intro hsep
  rw [List.splitOn_eq_splitOnP] at h
  simpa using no_break_in_piece h sep hsep

theorem mem_piece_of_mem {l : Bytes} {b sep : UInt8} (h : b ∈ l) (hsep : b ≠ sep) :
    ∃ piece ∈ l.splitOn sep, b ∈ piece := by
  rw [← @List.intercalate_splitOn _ l _ _ sep] at h
  generalize l.splitOn sep = pieces at h ⊢
  induction pieces with
  | nil => cases h
  | cons first rest ih =>
    rcases rest with _ | ⟨second, rest⟩
    · exact ⟨first, by simp, by simpa using h⟩
    · rw [List.intercalate_cons_cons, List.mem_append, List.mem_append, List.mem_singleton] at h
      rcases h with (h | h) | h
      · exact ⟨first, by simp, h⟩
      · exact absurd h hsep
      · obtain ⟨piece, hpiece, hb⟩ := ih h
        exact ⟨piece, List.mem_cons_of_mem _ hpiece, hb⟩

/-- Whatever the other lines of a text are: the start of a line, up to its first end, is read
whole if the buffer can hold it. -/
theorem mem_cut_of_splitOn {size : Nat} {text line : Bytes} (hsize : 1 < size) (h0 : 0 ∉ text)
    (hline : line ∈ text.splitOn 10) (hne : line ≠ []) (hlen : (cutLine line).length < size) :
    cutLine line ∈ (fgetsAll size text).map cutLine := by
  have h0line : 0 ∉ line := fun h => h0 ((infix_of_mem_splitOn hline).subset h)
  have h10 : 10 ∉ line := notMem_of_mem_splitOn hline
  rw [← @List.intercalate_splitOn _ text _ _ 10]
  generalize text.splitOn 10 = lines at hline
  induction lines with
  | nil => cases hline
  | cons first rest ih =>
    rcases rest with _ | ⟨second, rest⟩
    · obtain rfl := List.mem_singleton.mp hline
      have h := mem_cut_of_line hsize h10 h0line (.inr ⟨rfl, hne⟩) hlen
      rw [List.append_nil] at h
      simpa using h
    · rw [List.intercalate_cons_cons, fgetsAll_append, List.map_append]
      rcases List.mem_cons.mp hline with rfl | hline
      · exact List.mem_append_left _ (mem_cut_of_line hsize h10 h0line (.inl rfl) hlen)
      · exact List.mem_append_right _ (ih hline)

/-- The first piece of a text reaches to its first separator. -/
theorem splitOn_head (s : Bytes) (sep : UInt8) :
    ∃ rest, s.splitOn sep = s.takeWhile (· ≠ sep) :: rest := by
  have hall : ∀ b ∈ s.takeWhile (· ≠ sep), (b == sep) = false := by
    intro b hb
    simpa using List.mem_takeWhile_imp hb
  rcases hrest : s.dropWhile (· ≠ sep) with _ | ⟨c, more⟩
  · rw [List.dropWhile_eq_nil_iff] at hrest
    rw [List.takeWhile_eq_self_iff.mpr hrest] at hall ⊢
    exact ⟨[], by rw [List.splitOn_eq_splitOnP, List.splitOnP_eq_singleton hall]⟩
  · have hc : (c == sep) = true := by
      have := List.head?_dropWhile_not (fun x => decide (x ≠ sep)) s
      rw [hrest] at this
      simpa using this
    refine ⟨more.splitOn sep, ?_⟩
    conv => lhs; rw [← @List.takeWhile_append_dropWhile _ (fun x => decide (x ≠ sep)) s, hrest]
    rw [List.splitOn_eq_splitOnP, List.splitOnP_append_cons_of_forall_mem hall c hc, List.splitOn_eq_splitOnP]

/-! ## Words -/

/-- `%<limit>s` of `sscanf`: the word, and what is left after it. -/
def scanWord (limit : Nat) (s : Bytes) : Bytes × Bytes :=
  let start := s.dropWhile isspace
  let word := (start.takeWhile (fun b => !isspace b)).take limit
  (word, start.drop word.length)

theorem dropWhile_of_head {p : UInt8 → Bool} {s : Bytes} (h : ∀ b ∈ s.head?, p b = false) :
    s.dropWhile p = s := by
  cases s with
  | nil => rfl
  | cons b s => simp [h b (by simp)]

theorem scanWord_word {limit : Nat} {word rest : Bytes} (hne : word ≠ [])
    (hword : ∀ b ∈ word, isspace b = false) (hlen : word.length ≤ limit)
    (hrest : ∀ b ∈ rest.head?, isspace b = true) : scanWord limit (word ++ rest) = (word, rest) := by
  have hhead : ∀ b ∈ (word ++ rest).head?, isspace b = false := by
    intro b hb
    apply hword
    cases word with
    | nil => exact absurd rfl hne
    | cons x word =>
      simp only [List.cons_append, List.head?_cons, Option.mem_def, Option.some.injEq] at hb
      simp [hb]
  have htake : (word ++ rest).takeWhile (fun b => !isspace b) = word := by
    rw [List.takeWhile_append_of_pos (by simpa using hword)]
    cases rest with
    | nil => simp
    | cons x rest => simp [hrest x (by simp)]
  simp only [scanWord, dropWhile_of_head hhead, htake, List.take_of_length_le hlen,
    List.drop_left]

/-- The word stands in the string, and so does what is left after it. -/
theorem infix_of_scanWord (limit : Nat) (s : Bytes) :
    (scanWord limit s).1 <:+: s ∧ (scanWord limit s).2 <:+: s := by
  have hstart : s.dropWhile isspace <:+: s := (List.dropWhile_suffix _).isInfix
  exact ⟨(((List.take_prefix _ _).trans (List.takeWhile_prefix _)).isInfix).trans hstart,
    (List.drop_suffix _ _).isInfix.trans hstart⟩

/-- A blank before a word is skipped. -/
theorem scanWord_blank (limit : Nat) (s : Bytes) : scanWord limit (32 :: s) = scanWord limit s := by
  simp [scanWord, isspace]

/-! ## Numbers -/

def isdigit (b : UInt8) : Bool := 48 ≤ b && b ≤ 57

/-- `%u` of `fscanf`: the number, as `strtoul` and the 32 bits of an `unsigned` give it, and what
is left after it. -/
def scanUnsigned (s : Bytes) : Option (Nat × Bytes) :=
  let start := s.dropWhile isspace
  let body := if start.head? = some 43 ∨ start.head? = some 45 then start.tail else start
  let digits := body.takeWhile isdigit
  if digits = [] then none
  else
    let value : Nat := digits.foldl (fun v d => v * 10 + (d.toNat - 48)) 0
    let value :=
      if 2 ^ 64 ≤ value then 2 ^ 64 - 1
      else if start.head? = some 45 then 2 ^ 64 - value else value
    some (value % 2 ^ 32, body.drop digits.length)

/-! ## Words of a text -/

/-- The words that `strtok` gives one after the other, with the bytes that separate them. -/
def tokensOf (p : UInt8 → Bool) (s : Bytes) : List Bytes := (s.splitOnP p).filter (· ≠ [])

theorem tokensOf_append_break {p : UInt8 → Bool} {b : UInt8} (hb : p b = true) (x y : Bytes) :
    tokensOf p (x ++ b :: y) = tokensOf p x ++ tokensOf p y := by
  unfold tokensOf
  rw [List.splitOnP_append_cons x y hb, List.filter_append]

theorem tokensOf_cons_break {p : UInt8 → Bool} {b : UInt8} (hb : p b = true) (s : Bytes) :
    tokensOf p (b :: s) = tokensOf p s := by
  have hnil : tokensOf p [] = [] := by simp [tokensOf]
  have := tokensOf_append_break hb [] s
  rwa [hnil] at this

/-- Separators before a text add no word. -/
theorem tokensOf_append_left {p : UInt8 → Bool} {a : Bytes} (ha : ∀ b ∈ a, p b = true) (s : Bytes) :
    tokensOf p (a ++ s) = tokensOf p s := by
  induction a with
  | nil => rfl
  | cons b a ih =>
    rw [List.cons_append, tokensOf_cons_break (ha b List.mem_cons_self)]
    exact ih fun c hc => ha c (List.mem_cons_of_mem _ hc)

/-- Separators behind a text add no word. -/
theorem tokensOf_append_right {p : UInt8 → Bool} {a : Bytes} (ha : ∀ b ∈ a, p b = true) (s : Bytes) :
    tokensOf p (s ++ a) = tokensOf p s := by
  cases a with
  | nil => rw [List.append_nil]
  | cons b a =>
    have hnil : tokensOf p [] = [] := by simp [tokensOf]
    have hrest := tokensOf_append_left (fun c hc => ha c (List.mem_cons_of_mem b hc)) []
    rw [List.append_nil, hnil] at hrest
    rw [tokensOf_append_break (ha b List.mem_cons_self), hrest, List.append_nil]

theorem ne_nil_of_mem_tokensOf {p : UInt8 → Bool} {s w : Bytes} (h : w ∈ tokensOf p s) : w ≠ [] := by
  simpa using (List.mem_filter.mp h).2

/-- The words together are the bytes that separate nothing. -/
theorem flatten_tokensOf (p : UInt8 → Bool) (s : Bytes) :
    (tokensOf p s).flatten = s.filter (fun b => !p b) := by
  unfold tokensOf
  rw [List.flatten_filter_ne_nil]
  induction s with
  | nil => simp
  | cons b s ih =>
    obtain ⟨first, rest, hpieces⟩ := List.exists_cons_of_ne_nil (List.splitOnP_ne_nil p s)
    rw [hpieces] at ih
    rw [List.splitOnP_cons_eq_if_modifyHead, hpieces]
    cases hb : p b with
    | true => simpa [hb] using ih
    | false => simpa [hb] using ih

theorem tokensOf_eq_nil_iff {p : UInt8 → Bool} {s : Bytes} :
    tokensOf p s = [] ↔ ∀ b ∈ s, p b = true := by
  constructor
  · intro hnil b hb
    have hflat := flatten_tokensOf p s
    rw [hnil, List.flatten_nil, eq_comm, List.filter_eq_nil_iff] at hflat
    simpa using hflat b hb
  · intro hall
    have := tokensOf_append_left hall []
    rw [List.append_nil] at this
    rw [this]
    simp [tokensOf]

/-! ## A text in another -/

/-- `strstr`: the place where a text first stands in another. -/
def strstr (needle : Bytes) : Bytes → Option Nat
  | [] => if needle = [] then some 0 else none
  | b :: s => if needle <+: b :: s then some 0 else (strstr needle s).map (· + 1)

theorem strstr_eq_none_iff {needle s : Bytes} : strstr needle s = none ↔ ¬ needle <:+: s := by
  induction s with
  | nil => simp [strstr]
  | cons b s ih =>
    rw [strstr, List.infix_cons_iff, not_or, ← ih]
    by_cases hstart : needle <+: b :: s
    · simp [hstart]
    · simp [hstart]

theorem strstr_isSome_iff {needle s : Bytes} : (strstr needle s).isSome = true ↔ needle <:+: s := by
  rw [← not_iff_not, ← strstr_eq_none_iff, Bool.not_eq_true, Option.isSome_eq_false_iff, Option.isNone_iff_eq_none]

/-- What is found is the needle, and no occurrence begins before it. -/
theorem strstr_eq_some {needle s : Bytes} {i : Nat} (h : strstr needle s = some i) :
    ∃ a b, s = a ++ needle ++ b ∧ a.length = i ∧ ∀ a' b', s = a' ++ needle ++ b' → i ≤ a'.length := by
  induction s generalizing i with
  | nil =>
    rw [strstr] at h
    split at h
    · rename_i hempty
      cases h
      exact ⟨[], [], by rw [hempty]; rfl, rfl, fun _ _ _ => Nat.zero_le _⟩
    · cases h
  | cons c s ih =>
    rw [strstr] at h
    split at h
    · rename_i hstart
      cases h
      obtain ⟨b, hb⟩ := hstart
      exact ⟨[], b, by rw [List.nil_append, hb], rfl, fun _ _ _ => Nat.zero_le _⟩
    · rename_i hstart
      obtain ⟨j, hj, rfl⟩ := Option.map_eq_some_iff.mp h
      obtain ⟨a, b, hsplit, hlen, hfirst⟩ := ih hj
      refine ⟨c :: a, b, by rw [hsplit]; rfl, by rw [List.length_cons, hlen], ?_⟩
      intro a' b' hoccurs
      cases a' with
      | nil => exact absurd ⟨b', hoccurs.symm⟩ hstart
      | cons c' a' =>
        rw [List.length_cons]
        exact Nat.succ_le_succ (hfirst a' b' (List.cons.inj hoccurs).2)

/-! ## Words that a text does not contain -/

/-- The word of `a` and `b` that a choice of letters spells. -/
def letters {n : Nat} (v : Fin n → Bool) : Bytes := List.ofFn fun i => if v i then 97 else 98

theorem letters_injective {n : Nat} : Function.Injective (letters (n := n)) := by
  intro v w h
  have hf := List.ofFn_injective h
  funext i
  have hi := congrFun hf i
  cases hv : v i <;> cases hw : w i <;> simp_all

/-- A text of fewer than `2 ^ n` bytes misses a word of `n` letters. -/
theorem exists_letters_missing (n : Nat) (hn : 0 < n) (text : Bytes)
    (h : text.length < 2 ^ n) : ∃ v : Fin n → Bool, ¬ letters v <:+: text := by
  by_contra hall
  rw [not_exists] at hall
  have hplace : ∀ v : Fin n → Bool, ∃ i : Fin text.length, slice text i n = letters v := by
    intro v
    obtain ⟨a, c, hac⟩ := not_not.mp (hall v)
    have hlen : (letters v).length = n := by simp [letters]
    have htext : text.length = a.length + n + c.length := by
      rw [← hac, List.length_append, List.length_append, hlen]
    have hslice : slice text a.length n = letters v := by
      rw [← hac, List.append_assoc]
      exact slice_append rfl hlen.symm
    exact ⟨⟨a.length, by omega⟩, hslice⟩
  choose place hplace using hplace
  have hinj : Function.Injective place := by
    intro v w hvw
    apply letters_injective
    rw [← hplace v, ← hplace w, hvw]
  have hcard := Fintype.card_le_of_injective place hinj
  rw [Fintype.card_fun, Fintype.card_bool, Fintype.card_fin, Fintype.card_fin] at hcard
  omega

end ctext
