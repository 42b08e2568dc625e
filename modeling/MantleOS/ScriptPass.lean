-- The tokens of a script, read in one pass. The lexer goes on at every byte
-- but two, and the pass says what the interpreter reads after each token,
-- whatever it executes.
import MantleOS.Script

open bytes ctext

namespace mantle.script

/-! ## The progress of the lexer -/

theorem string_loop_length (q : UInt8) (room : Nat) (rest : Bytes) :
    (string_loop q room rest).2.length ≤ rest.length := by
  induction room generalizing rest with
  | zero => simp [string_loop]
  | succ room ih =>
    cases rest with
    | nil => simp [string_loop]
    | cons c rest =>
      unfold string_loop
      split
      · simp
      · split
        · rename_i d rest' _
          split
          · have := ih rest'
            simp only [List.length_cons]
            omega
          · have := ih (d :: rest')
            simp only [List.length_cons] at *
            omega
        · have := ih rest
          simp only [List.length_cons]
          omega

theorem string_loop_text_length (q : UInt8) (room : Nat) (rest : Bytes) :
    (string_loop q room rest).1.length ≤ room := by
  fun_induction string_loop q room rest <;> simp_all

/-- The bytes of a quoted text, and those after it, are bytes of the source. -/
theorem string_loop_bytes (q : UInt8) (room : Nat) (rest : Bytes) :
    (∀ b ∈ (string_loop q room rest).1, b ∈ rest) ∧ ∀ b ∈ (string_loop q room rest).2, b ∈ rest := by
  fun_induction string_loop q room rest <;> simp_all

theorem string_loop_byte {q c : UInt8} {room : Nat} {rest : Bytes} (h0 : c ≠ 0) (hcq : c ≠ q)
    (hplain : ¬ (c = 92 ∧ ∃ d more, rest = d :: more ∧ d ≠ 0)) :
    string_loop q (room + 1) (c :: rest) =
      (c :: (string_loop q room rest).1, (string_loop q room rest).2) := by
  have hgo : ¬ (c = 0 ∨ c = q) := by simp [h0, hcq]
  by_cases hslash : c = 92
  · subst hslash
    cases rest with
    | nil =>
      rw [string_loop, if_neg hgo]
      intro d more _ hno
      cases hno
    | cons d more =>
      have hd : d = 0 := by
        by_contra hd
        exact hplain ⟨rfl, d, more, rfl, hd⟩
      rw [string_loop, if_neg hgo, if_neg (by simp [hd])]
  · rw [string_loop, if_neg hgo]
    exact fun d more hc => absurd hc hslash

theorem string_loop_escaped {q d : UInt8} {room : Nat} {rest : Bytes} (hq : q ≠ 92) (hd : d ≠ 0) :
    string_loop q (room + 1) (92 :: d :: rest) =
      (d :: (string_loop q room rest).1, (string_loop q room rest).2) := by
  have hslash : ¬ ((92 : UInt8) = 0 ∨ 92 = q) := by simp [Ne.symm hq]
  rw [string_loop, if_neg hslash]
  simp [hd]

/-- The byte starts no token: the lexer returns an empty word and stays before it. -/
def Blocks (rest : Bytes) : Prop := rest.head? = some 11 ∨ rest.head? = some 12

instance (rest : Bytes) : Decidable (Blocks rest) := inferInstanceAs (Decidable (_ ∨ _))

/-- A byte that starts no token of another kind and is in no word. -/
theorem blocks_of_not_word {c : UInt8} (hblank : isblank c = false) (h0 : c ≠ 0) (h10 : ¬ c = 10)
    (hp : punctuation c = none) (hw : word_byte c = false) : c = 11 ∨ c = 12 := by
  have hspace : isspace c = true := by
    by_contra hno
    rw [Bool.not_eq_true] at hno
    simp [word_byte, h0, hno, hp] at hw
  simp only [isspace, Bool.or_eq_true, decide_eq_true_eq, Bool.and_eq_true] at hspace
  simp only [isblank, Bool.or_eq_false_iff, decide_eq_false_iff_not] at hblank
  obtain ⟨⟨h32, h9⟩, h13⟩ := hblank
  rcases hspace with hspace | ⟨hlow, hhigh⟩
  · exact absurd hspace h32
  · have hl : 9 ≤ c.toNat := UInt8.le_iff_toNat_le.mp hlow
    have hh : c.toNat ≤ 13 := UInt8.le_iff_toNat_le.mp hhigh
    simp only [← UInt8.toNat_inj, UInt8.reduceToNat] at h9 h10 h13 ⊢
    omega

theorem head_dropWhile {p : UInt8 → Bool} {s rest : Bytes} {c : UInt8}
    (h : s.dropWhile p = c :: rest) : p c = false := by
  have := List.head?_dropWhile_not p s
  rw [h] at this
  simpa using this

/-- The lexer consumes input, or it reports the end of the file, or a byte blocks it. -/
theorem lex_cases (l : lexer) :
    (lex l).token.kind = .K_EOF ∨ (lex l).rest.length < l.rest.length ∨
      (Blocks l.rest ∧ (lex l).token.kind = .K_WORD ∧ (lex l).rest = l.rest) := by
  -- the lexer calls itself after a comment, on a shorter text
  induction hn : l.rest.length using Nat.strong_induction_on generalizing l with
  | _ n ih =>
  subst hn
  have hblank := (List.dropWhile_suffix (l := l.rest) isblank).length_le
  rw [lex]
  split
  · exact Or.inl rfl
  rename_i c rest hrest
  rw [hrest, List.length_cons] at hblank
  split
  · exact Or.inl rfl
  rename_i h0
  split
  · exact Or.inr (Or.inl (by simp only; omega))
  rename_i h10
  split
  · -- a comment was dropped, whatever comes after it
    have hcomment := (List.dropWhile_suffix (l := rest) (fun c => c ≠ 0 && c ≠ 10)).length_le
    rcases ih (rest.dropWhile (fun c => c ≠ 0 && c ≠ 10)).length (by omega)
      { l with rest := rest.dropWhile (fun c => c ≠ 0 && c ≠ 10) } rfl with h | h | h
    · exact Or.inl h
    · exact Or.inr (Or.inl (by omega))
    · rw [h.2.2]
      exact Or.inr (Or.inl (by simp only; omega))
  split
  · exact Or.inr (Or.inl (by simp only; omega))
  rename_i hp
  split
  · have hloop := string_loop_length c textLimit rest
    refine Or.inr (Or.inl ?_)
    simp only
    split
    · rw [List.length_tail]
      omega
    · omega
  · by_cases hw : word_byte c = true
    · have htext : (((c :: rest).takeWhile word_byte).take textLimit).length ≠ 0 := by
        simp [hw, textLimit]
      refine Or.inr (Or.inl ?_)
      simp only [word_loop, List.length_drop, List.length_cons]
      omega
    · rw [Bool.not_eq_true] at hw
      have hstay : word_loop (c :: rest) = ([], c :: rest) := by simp [word_loop, hw]
      rw [hstay]
      by_cases hsame : l.rest = c :: rest
      · have hc := blocks_of_not_word (head_dropWhile hrest) h0 h10 hp hw
        refine Or.inr (Or.inr ⟨?_, rfl, hsame.symm⟩)
        rw [Blocks, hsame]
        rcases hc with rfl | rfl
        · exact Or.inl rfl
        · exact Or.inr rfl
      · -- blanks stood before the byte
        have hsuffix : c :: rest <:+ l.rest := hrest ▸ List.dropWhile_suffix _
        have hne : (c :: rest).length ≠ l.rest.length := fun h => hsame (hsuffix.eq_of_length h).symm
        simp only [List.length_cons] at hne ⊢
        exact Or.inr (Or.inl (by omega))

/-- A byte that blocks the lexer gives an empty word, for ever. -/
theorem lex_of_blocks {l : lexer} (h : Blocks l.rest) :
    (lex l).token.kind = .K_WORD ∧ (lex l).rest = l.rest := by
  obtain ⟨c, rest, hl, hc⟩ : ∃ c rest, l.rest = c :: rest ∧ (c = 11 ∨ c = 12) := by
    cases hl : l.rest with
    | nil => simp [Blocks, hl] at h
    | cons c rest => exact ⟨c, rest, rfl, by simpa [Blocks, hl] using h⟩
  have hdrop : l.rest.dropWhile isblank = c :: rest := by
    rw [hl]
    rcases hc with rfl | rfl <;> rfl
  have hword : word_loop (c :: rest) = ([], c :: rest) := by
    rcases hc with rfl | rfl <;> rfl
  rw [lex]
  split
  · rename_i hnil
    rw [hdrop] at hnil
    cases hnil
  · rename_i c' rest' hcons
    rw [hdrop] at hcons
    cases hcons
    rw [hl, hword]
    rcases hc with rfl | rfl <;> exact ⟨rfl, rfl⟩

/-- The lexer consumes input or reports the end of the file exactly when no byte blocks it. -/
theorem lex_progress_iff (l : lexer) :
    ((lex l).token.kind = .K_EOF ∨ (lex l).rest.length < l.rest.length) ↔ ¬ Blocks l.rest := by
  constructor
  · intro h hb
    obtain ⟨hkind, hrest⟩ := lex_of_blocks hb
    rw [hkind, hrest] at h
    rcases h with h | h
    · cases h
    · omega
  · intro hno
    rcases lex_cases l with h | h | h
    · exact Or.inl h
    · exact Or.inr h
    · exact absurd h.1 hno

/-! ## One pass over the tokens -/

/-- The tokens after the current one, up to the end of the file or to a byte that blocks the
lexer. -/
def tokensFrom (l : lexer) : List token :=
  if (lex l).token.kind = .K_EOF then [(lex l).token]
  else if (lex l).rest.length < l.rest.length then (lex l).token :: tokensFrom (lex l)
  else []
termination_by l.rest.length

/-- What the interpreter is about to read: the start of a statement, or a place in one. -/
inductive Mode
  | start
  | letName
  | letEq
  | letValue
  | printText
  | runArgs
  | ifWord
  | ifOpen
  | ifText
  | ifClose
  | requireWord
  | brace
  | skip
  deriving DecidableEq

/-- What comes after a keyword. An `exit` leaves its code to be read as a statement, and an
unknown word skips to the end of the block. -/
def modeAfter (keyword : Bytes) : Mode :=
  if keyword = ascii "let" then .letName
  else if keyword = ascii "print" then .printText
  else if keyword = ascii "run" then .runArgs
  else if keyword = ascii "if" then .ifWord
  else if keyword = ascii "require" then .requireWord
  else if keyword = ascii "exit" then .start
  else .skip

/-- The token goes on with the statement in `m`: where that leads, and how many blocks are
open then. -/
def takes (m : Mode) (depth : Nat) (t : token) : Option (Mode × Nat) :=
  match m with
  | .start => none
  | .letName => if t.kind = .K_WORD then some (.letEq, depth) else none
  | .letEq => if t.kind = .K_EQ then some (.letValue, depth) else none
  | .letValue => if is_text t.kind then some (.start, depth) else none
  | .printText => if is_text t.kind then some (.start, depth) else none
  | .runArgs => if is_text t.kind then some (.runArgs, depth) else none
  | .ifWord =>
    if t.kind = .K_WORD ∧ t.text = ascii "command.exists" then some (.ifOpen, depth) else none
  | .ifOpen => if t.kind = .K_LP then some (.ifText, depth) else none
  | .ifText => if is_text t.kind then some (.ifClose, depth) else none
  | .ifClose => if t.kind = .K_RP then some (.brace, depth) else none
  | .requireWord => if t.kind = .K_WORD ∧ t.text = ascii "admin" then some (.brace, depth) else none
  | .brace =>
    if t.kind = .K_NEWLINE then some (.brace, depth)
    else if t.kind = .K_LBRACE then some (.start, depth + 1)
    else none
  | .skip => if !ends_block t.kind then some (.skip, depth) else none

inductive Verdict
  | done
  | stuck
  | go (m : Mode) (depth : Nat)
  deriving DecidableEq

/-- The token at the start of a statement. A token that is no word is reported and left where
it is, and so the next statement meets it again. -/
def starts (depth : Nat) (t : token) : Verdict :=
  match t.kind with
  | .K_EOF => .done
  | .K_NEWLINE => .go .start depth
  | .K_RBRACE => if depth = 0 then .done else .go .start (depth - 1)
  | .K_WORD => .go (modeAfter (t.text.take 63)) depth
  | _ => .stuck

/-- A token that does not go on with its statement starts the next one. -/
def next (m : Mode) (depth : Nat) (t : token) : Verdict :=
  match takes m depth t with
  | some (m, depth) => .go m depth
  | none => starts depth t

/-- The pass comes to the end of the file, or to a `}` outside all blocks, without a token that
it is stuck at. -/
def accepted : Mode → Nat → List token → Bool
  | _, _, [] => false
  | m, depth, t :: ts =>
    match next m depth t with
    | .done => true
    | .stuck => false
    | .go m depth => accepted m depth ts

/-- The pass is accepted from the current token of a lexer on. -/
def reads (m : Mode) (depth : Nat) (l : lexer) : Bool := accepted m depth (l.token :: tokensFrom l)

theorem takes_eof (m : Mode) (depth : Nat) {t : token} (h : t.kind = .K_EOF) :
    takes m depth t = none := by
  cases m <;> simp [takes, is_text, ends_block, h]

theorem next_eof (m : Mode) (depth : Nat) {t : token} (h : t.kind = .K_EOF) :
    next m depth t = .done := by
  rw [next, takes_eof m depth h]
  simp [starts, h]

/-- A word always leads on. -/
theorem next_word (m : Mode) (depth : Nat) {t : token} (h : t.kind = .K_WORD) :
    ∃ m' depth', next m depth t = .go m' depth' := by
  unfold next
  split
  · exact ⟨_, _, rfl⟩
  · exact ⟨_, _, by simp only [starts, h]; rfl⟩

/-- A pass reads the tokens as the lexer gives them. At a byte that blocks the lexer both
sides are false. -/
theorem accepted_tokensFrom (m : Mode) (depth : Nat) (l : lexer) :
    accepted m depth (tokensFrom l) = reads m depth (lex l) := by
  unfold reads
  rw [tokensFrom]
  split
  · rename_i heof
    simp only [accepted, next_eof m depth heof]
  split
  · rfl
  · rename_i heof hshort
    rcases lex_cases l with h | h | ⟨hblocks, hword, hrest⟩
    · exact absurd h heof
    · exact absurd h hshort
    · have hagain : tokensFrom (lex l) = [] := by
        obtain ⟨hkind, hsame⟩ := lex_of_blocks (l := lex l) (by rw [hrest]; exact hblocks)
        rw [tokensFrom, if_neg (by rw [hkind]; decide), if_neg (by rw [hsame]; omega)]
      obtain ⟨m', depth', hnext⟩ := next_word m depth hword
      simp only [hagain, accepted, hnext]

/-- One token of a pass. -/
theorem reads_eq (m : Mode) (depth : Nat) (l : lexer) :
    reads m depth l =
      match next m depth l.token with
      | .done => true
      | .stuck => false
      | .go m depth => reads m depth (lex l) := by
  rw [reads, accepted]
  split
  · rfl
  · rfl
  · exact accepted_tokensFrom _ _ l

end mantle.script
