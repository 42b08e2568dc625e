-- The tokens that a source text has, whatever their length, and the tokens that
-- the lexer reads. These are the same, byte for byte, exactly when every word
-- and literal fits the buffer of a token and no byte between them blocks the lexer.
import MantleOS.ScriptGrammar

open bytes ctext

namespace mantle.script

/-! ## The tokens of a source text -/

/-- A text from behind its opening quote on: what the literal holds, up to the first quote that no
backslash stands before, and what follows it. -/
def literal (q : UInt8) : Bytes → Bytes × Bytes
  | [] => ([], [])
  | c :: rest =>
    if c = q then ([], rest)
    else
      match c, rest with
      | 92, d :: rest => (d :: (literal q rest).1, (literal q rest).2)
      | c, rest => (c :: (literal q rest).1, (literal q rest).2)

theorem literal_suffix (q : UInt8) (rest : Bytes) : (literal q rest).2 <:+ rest := by
  fun_induction literal q rest with
  | case1 => exact List.suffix_refl _
  | case2 rest => exact List.suffix_cons _ _
  | case3 d rest hne ih => exact ih.trans (List.suffix_append [92, d] rest)
  | case4 c rest hplain hne ih => exact ih.trans (List.suffix_cons c rest)

/-- A part of a source text: a byte between the tokens, or a token with the text after it. -/
inductive Part
  | gap (c : UInt8)
  | token (t : Lexeme) (after : Bytes)
  deriving DecidableEq

/-- The parts of a text. A comment, which is a gap, goes to the end of its line; a word is a run of
word bytes that nothing but its start and another byte end. -/
def parts : Bytes → List Part
  | [] => []
  | c :: rest =>
    if isspace c && c ≠ 10 then .gap c :: parts rest
    else if c = 35 then .gap c :: parts (rest.dropWhile (· ≠ 10))
    else if c = 10 then .token (mark .K_NEWLINE) rest :: parts rest
    else
      match punctuation c with
      | some k => .token (mark k) rest :: parts rest
      | none =>
        if c = 34 ∨ c = 39 then
          .token ⟨.K_STRING, (literal c rest).1⟩ (literal c rest).2 :: parts (literal c rest).2
        else
          .token (word (c :: rest.takeWhile word_byte)) (rest.dropWhile word_byte) ::
            parts (rest.dropWhile word_byte)
termination_by src => src.length
decreasing_by
  all_goals
    have hliteral := (literal_suffix c rest).length_le
    have hline := (List.dropWhile_suffix (l := rest) (fun c => decide (c ≠ 10))).length_le
    have hword := (List.dropWhile_suffix (l := rest) word_byte).length_le
    rw [List.length_cons]
    omega

/-- The lexer reads these parts and then the end of the file: each token in its turn, up to the text
that follows it. Behind the parts stands the rest of the file. -/
def ReadsParts (tail : Bytes) : lexer → List Part → Prop
  | l, [] => (lex l).token.kind = .K_EOF
  | l, .gap _ :: ps => ReadsParts tail l ps
  | l, .token t after :: ps =>
    (lex l).token.kind = t.kind ∧ (lex l).token.text = t.text ∧ (lex l).rest = after ++ tail ∧
      ReadsParts tail (lex l) ps

/-- Every word and every literal fits the text of a token, and no vertical tab and no form feed stands
between them. -/
structure Fits (ps : List Part) : Prop where
  tokens : ∀ t after, .token t after ∈ ps → t.text.length ≤ textLimit
  gaps : ∀ c, .gap c ∈ ps → c ≠ 11 ∧ c ≠ 12

/-! ## The buffer of a token -/

/-- Behind the source text the file is at its end, or has a NUL. -/
def Ends (tail : Bytes) : Prop := tail = [] ∨ ∃ more, tail = 0 :: more

/-- What the loop over a literal has read, and what the lexer goes on with. -/
def closed (q : UInt8) (r : Bytes × Bytes) : Bytes × Bytes :=
  (r.1, if r.2.head? = some q then r.2.tail else r.2)

theorem string_loop_end {q : UInt8} (hq : q ≠ 0) {tail : Bytes} (htail : Ends tail) (room : Nat) :
    closed q (string_loop q room tail) = ([], tail) := by
  rcases htail with rfl | ⟨more, rfl⟩
  · cases room <;> simp [string_loop, closed]
  · cases room <;> simp [string_loop, closed, Ne.symm hq]

/-- A literal that fits is read whole. -/
theorem string_loop_literal {q : UInt8} (hq : q = 34 ∨ q = 39) {tail : Bytes} (htail : Ends tail)
    {room : Nat} {rest : Bytes} (h0 : 0 ∉ rest) (hroom : (literal q rest).1.length ≤ room) :
    closed q (string_loop q room (rest ++ tail)) = ((literal q rest).1, (literal q rest).2 ++ tail) := by
  have hq0 : q ≠ 0 := by rcases hq with rfl | rfl <;> decide
  have h92 : q ≠ 92 := by rcases hq with rfl | rfl <;> decide
  fun_induction literal q rest generalizing room with
  | case1 => exact string_loop_end hq0 htail room
  | case2 rest =>
    cases room with
    | zero => simp [string_loop, closed]
    | succ room => simp [string_loop, closed]
  | case3 d rest hne ih =>
    simp only [List.mem_cons, not_or] at h0
    cases room with
    | zero => simp at hroom
    | succ room =>
      have hrest := @ih room h0.2.2 (by simpa using hroom)
      simp only [List.cons_append]
      rw [string_loop_escaped h92 (Ne.symm h0.2.1)]
      simp only [closed, Prod.mk.injEq] at hrest ⊢
      exact ⟨by rw [hrest.1], hrest.2⟩
  | case4 c rest hplain hne ih =>
    simp only [List.mem_cons, not_or] at h0
    cases room with
    | zero => simp at hroom
    | succ room =>
      have hrest := @ih room h0.2 (by simpa using hroom)
      rw [List.cons_append, string_loop_byte (Ne.symm h0.1) hne]
      · simp only [closed, Prod.mk.injEq] at hrest ⊢
        exact ⟨by rw [hrest.1], hrest.2⟩
      · rintro ⟨rfl, d, more, hsplit, hd⟩
        cases rest with
        | nil =>
          rcases htail with rfl | ⟨after, rfl⟩
          · cases hsplit
          · cases hsplit
            exact hd rfl
        | cons e rest => exact hplain e rest rfl rfl

theorem lex_text_length (l : lexer) : (lex l).token.text.length ≤ textLimit := by
  -- the lexer calls itself after a comment, on a shorter text
  induction hn : l.rest.length using Nat.strong_induction_on generalizing l with
  | _ n ih =>
    cases hdrop : l.rest.dropWhile isblank with
    | nil =>
      rw [lex_of_end hdrop]
      exact Nat.zero_le _
    | cons c rest =>
      have hblank := (List.dropWhile_suffix (l := l.rest) isblank).length_le
      rw [hdrop, List.length_cons] at hblank
      rw [lex_of_head hdrop]
      split
      · exact Nat.zero_le _
      split
      · exact Nat.zero_le _
      split
      · have hshort := (List.dropWhile_suffix (l := rest) (fun c => c ≠ 0 && c ≠ 10)).length_le
        exact ih (rest.dropWhile (fun c => c ≠ 0 && c ≠ 10)).length (by omega) _ rfl
      cases punctuation c with
      | some k => exact Nat.zero_le _
      | none =>
        dsimp only
        split
        · exact string_loop_text_length c textLimit rest
        · exact List.length_take_le _ _

/-! ## The lexer part by part -/

/-- The lexer goes on as if only this text were left. -/
def Left (l : lexer) (text : Bytes) : Prop := lex l = lex { l with rest := text }

theorem Left.of_rest {l : lexer} {text : Bytes} (h : l.rest = text) : Left l text := by
  unfold Left
  rw [← h]

theorem lex_at_end {l : lexer} {tail : Bytes} (htail : Ends tail) (hl : Left l tail) :
    (lex l).token.kind = .K_EOF := by
  rw [hl]
  rcases htail with rfl | ⟨more, rfl⟩
  · rw [lex_of_end rfl]
  · rw [lex_of_head (dropWhile_of_not_blank rfl), if_pos rfl]

/-- A vertical tab or a form feed is read as an empty word, again and again. -/
theorem lex_stray {l : lexer} {c : UInt8} {text : Bytes} (hc : c = 11 ∨ c = 12) (hl : Left l (c :: text)) :
    (lex l).token.kind = .K_WORD ∧ (lex l).token.text = [] := by
  have hdrop : (c :: text).dropWhile isblank = c :: text := by
    rcases hc with rfl | rfl <;> rfl
  have hloop : word_loop (c :: text) = ([], c :: text) := by
    rcases hc with rfl | rfl <;> rfl
  rw [hl, lex_of_head hdrop, hloop]
  rcases hc with rfl | rfl <;> exact ⟨rfl, rfl⟩

/-- The words of a text are not empty, and no part is the end of the file. -/
theorem parts_words {src : Bytes} {t : Lexeme} {after : Bytes} (h : .token t after ∈ parts src) :
    t.kind ≠ .K_EOF ∧ (t.kind = .K_WORD → t.text ≠ []) := by
  fun_induction parts src with
  | case1 => cases h
  | case2 c rest hspace ih =>
    rcases List.mem_cons.mp h with h | h
    · cases h
    · exact ih h
  | case3 rest hspace ih =>
    rcases List.mem_cons.mp h with h | h
    · cases h
    · exact ih h
  | case4 rest hspace hcomment ih =>
    rcases List.mem_cons.mp h with h | h
    · cases h
      simp [mark]
    · exact ih h
  | case5 c rest hspace hcomment hnewline k hk ih =>
    rcases List.mem_cons.mp h with h | h
    · cases h
      refine ⟨fun heof => ?_, fun hword => ?_⟩
      · have heof : k = .K_EOF := heof
        rw [heof] at hk
        unfold punctuation at hk
        split_ifs at hk <;> cases hk
      · have hword : k = .K_WORD := hword
        rw [hword] at hk
        unfold punctuation at hk
        split_ifs at hk <;> cases hk
    · exact ih h
  | case6 c rest hspace hcomment hnewline hpunct hquote ih =>
    rcases List.mem_cons.mp h with h | h
    · cases h
      simp
    · exact ih h
  | case7 c rest hspace hcomment hnewline hpunct hquote ih =>
    rcases List.mem_cons.mp h with h | h
    · cases h
      simp [word]
    · exact ih h

/-- Where the lexer reads an empty word, it does not read the parts of a text. -/
theorem not_reads_of_stray {tail : Bytes} {l : lexer} (hword : (lex l).token.kind = .K_WORD)
    (hempty : (lex l).token.text = []) {ps : List Part}
    (hps : ∀ t after, .token t after ∈ ps → t.kind = .K_WORD → t.text ≠ []) : ¬ ReadsParts tail l ps := by
  induction ps with
  | nil =>
    intro hread
    have heof : (lex l).token.kind = .K_EOF := hread
    rw [hword] at heof
    cases heof
  | cons p ps ih =>
    cases p with
    | gap c => exact ih fun t after ht => hps t after (List.mem_cons_of_mem _ ht)
    | token t after =>
      rintro ⟨hkind, htext, -⟩
      exact hps t after List.mem_cons_self (hkind.symm.trans hword) (htext.symm.trans hempty)

/-- What the first part of a text is, the parts after it decide; or the text is over. -/
theorem fits_gap {c : UInt8} {ps : List Part} : Fits (.gap c :: ps) ↔ (c ≠ 11 ∧ c ≠ 12) ∧ Fits ps := by
  constructor
  · intro hfits
    exact ⟨hfits.gaps c List.mem_cons_self, fun t after ht => hfits.tokens t after (List.mem_cons_of_mem _ ht),
      fun c hc => hfits.gaps c (List.mem_cons_of_mem _ hc)⟩
  · rintro ⟨hc, hfits⟩
    constructor
    · intro t after ht
      rcases List.mem_cons.mp ht with ht | ht
      · cases ht
      · exact hfits.tokens t after ht
    · intro d hd
      rcases List.mem_cons.mp hd with hd | hd
      · cases hd
        exact hc
      · exact hfits.gaps d hd

theorem fits_token {t : Lexeme} {after : Bytes} {ps : List Part} :
    Fits (.token t after :: ps) ↔ t.text.length ≤ textLimit ∧ Fits ps := by
  constructor
  · intro hfits
    exact ⟨hfits.tokens t after List.mem_cons_self,
      fun t after ht => hfits.tokens t after (List.mem_cons_of_mem _ ht),
      fun c hc => hfits.gaps c (List.mem_cons_of_mem _ hc)⟩
  · rintro ⟨hlength, hfits⟩
    constructor
    · intro t' after' ht
      rcases List.mem_cons.mp ht with ht | ht
      · cases ht
        exact hlength
      · exact hfits.tokens t' after' ht
    · intro d hd
      rcases List.mem_cons.mp hd with hd | hd
      · cases hd
      · exact hfits.gaps d hd

/-- A token that the lexer reads whenever it fits decides with the parts after it. -/
theorem reads_token_iff {tail : Bytes} {l : lexer} {t : Lexeme} {after : Bytes} {ps : List Part}
    (hread : t.text.length ≤ textLimit → (lex l).token.kind = t.kind ∧ (lex l).token.text = t.text ∧
      (lex l).rest = after ++ tail)
    (hps : (lex l).rest = after ++ tail → (ReadsParts tail (lex l) ps ↔ Fits ps)) :
    ReadsParts tail l (.token t after :: ps) ↔ Fits (.token t after :: ps) := by
  rw [fits_token, ReadsParts]
  constructor
  · rintro ⟨-, htext, hrest, hparts⟩
    refine ⟨?_, (hps hrest).mp hparts⟩
    rw [← htext]
    exact lex_text_length l
  · rintro ⟨hlength, hfits⟩
    obtain ⟨hkind, htext, hrest⟩ := hread hlength
    exact ⟨hkind, htext, hrest, (hps hrest).mpr hfits⟩

theorem dropWhile_tail {p : UInt8 → Bool} {tail : Bytes} (htail : Ends tail) (hp : p 0 = false) :
    tail.takeWhile p = [] ∧ tail.dropWhile p = tail := by
  rcases htail with rfl | ⟨more, rfl⟩
  · exact ⟨rfl, rfl⟩
  · simp [hp]

theorem takeWhile_append_tail {p : UInt8 → Bool} {tail : Bytes} (htail : Ends tail) (hp : p 0 = false)
    (rest : Bytes) :
    (rest ++ tail).takeWhile p = rest.takeWhile p ∧ (rest ++ tail).dropWhile p = rest.dropWhile p ++ tail := by
  obtain ⟨htake, hdrop⟩ := dropWhile_tail htail hp
  induction rest with
  | nil => exact ⟨htake, hdrop⟩
  | cons c rest ih =>
    cases hc : p c with
    | true => simp [hc, ih]
    | false => simp [hc]

theorem isblank_of_gap {c : UInt8} (hspace : (isspace c && decide (c ≠ 10)) = true)
    (hstray : ¬ (c = 11 ∨ c = 12)) : isblank c = true := by
  simp only [isspace, Bool.and_eq_true, Bool.or_eq_true, decide_eq_true_eq] at hspace
  simp only [isblank, Bool.or_eq_true, decide_eq_true_eq]
  grind

/-- In a text without a NUL the line of a comment ends where the lexer says so. -/
theorem comment_line {rest : Bytes} (h0 : 0 ∉ rest) :
    rest.dropWhile (fun c => c ≠ 0 && c ≠ 10) = rest.dropWhile (· ≠ 10) := by
  induction rest with
  | nil => rfl
  | cons c rest ih =>
    rw [List.mem_cons, not_or] at h0
    by_cases hc : c = 10
    · subst hc
      rfl
    · rw [List.dropWhile_cons_of_pos (by simp [hc, Ne.symm h0.1]), List.dropWhile_cons_of_pos (by simp [hc])]
      exact ih h0.2

/-- A literal that fits becomes one token. -/
theorem lex_literal {l : lexer} {c : UInt8} {rest tail : Bytes} (hq : c = 34 ∨ c = 39) (htail : Ends tail)
    (h0 : 0 ∉ rest) (hl : Left l (c :: rest ++ tail)) (hlength : (literal c rest).1.length ≤ textLimit) :
    lex l = { l with rest := (literal c rest).2 ++ tail,
                     token := ⟨.K_STRING, (literal c rest).1, l.line⟩ } := by
  have hclass : isblank c = false ∧ c ≠ 0 ∧ c ≠ 10 ∧ c ≠ 35 ∧ punctuation c = none := by
    rcases hq with rfl | rfl <;> decide
  obtain ⟨hblank, hc0, h10, h35, hpunct⟩ := hclass
  have hloop := string_loop_literal hq htail h0 hlength
  simp only [closed, Prod.mk.injEq] at hloop
  have hdrop : (c :: (rest ++ tail)).dropWhile isblank = c :: (rest ++ tail) := dropWhile_of_not_blank hblank
  rw [hl, List.cons_append, lex_of_head hdrop, if_neg hc0, if_neg h10, if_neg h35, hpunct]
  dsimp only
  rw [if_pos hq, hloop.1, hloop.2]

/-- A word that fits becomes one token. -/
theorem lex_run {l : lexer} {c : UInt8} {rest tail : Bytes} (hc : word_byte c = true)
    (hstart : c ≠ 34 ∧ c ≠ 39 ∧ c ≠ 35) (htail : Ends tail) (hl : Left l (c :: rest ++ tail))
    (hlength : (c :: rest.takeWhile word_byte).length ≤ textLimit) :
    lex l = { l with rest := rest.dropWhile word_byte ++ tail,
                     token := ⟨.K_WORD, c :: rest.takeWhile word_byte, l.line⟩ } := by
  have hword : isWord (c :: rest.takeWhile word_byte) = true := by
    rw [isWord, Bool.and_eq_true, List.all_eq_true]
    refine ⟨by simpa [starts_word, and_assoc] using hstart, ?_⟩
    intro b hb
    rcases List.mem_cons.mp hb with rfl | hb
    · exact hc
    · exact List.mem_takeWhile_imp hb
  have hends : ¬ StartsWith word_byte (rest.dropWhile word_byte ++ tail) := by
    rw [← (takeWhile_append_tail htail (p := word_byte) (by decide) rest).2]
    cases hdrop : (rest ++ tail).dropWhile word_byte with
    | nil => simp [StartsWith]
    | cons b after =>
      have hb := List.head_dropWhile_not word_byte (l := rest ++ tail) (by simp [hdrop])
      simpa [StartsWith, hdrop] using hb
  rw [hl]
  refine lex_word ?_ hword hends hlength
  rw [List.cons_append, List.cons_append, ← List.append_assoc, List.takeWhile_append_dropWhile]

/-- By induction on the parts of the text. -/
theorem reads_parts_iff {tail : Bytes} (htail : Ends tail) {text : Bytes} (h0 : 0 ∉ text) {l : lexer}
    (hl : Left l (text ++ tail)) : ReadsParts tail l (parts text) ↔ Fits (parts text) := by
  fun_induction parts text generalizing l with
  | case1 => exact iff_of_true (lex_at_end htail hl) ⟨by simp, by simp⟩
  | case2 c rest hspace ih =>
    rw [List.mem_cons, not_or] at h0
    rw [fits_gap]
    by_cases hstray : c = 11 ∨ c = 12
    · obtain ⟨hword, hempty⟩ := lex_stray hstray hl
      refine iff_of_false (not_reads_of_stray hword hempty fun t after ht => ?_) ?_
      · exact (parts_words ((List.mem_cons.mp ht).resolve_left (by simp))).2
      · rintro ⟨⟨h11, h12⟩, -⟩
        exact hstray.elim h11 h12
    · have hblank : isblank c = true := isblank_of_gap hspace hstray
      have hleft : Left l (rest ++ tail) := by
        rw [Left, hl]
        exact lex_blank hblank rfl
      rw [and_iff_right (by rw [not_or] at hstray; exact hstray)]
      exact ih h0.2 hleft
  | case3 rest hspace ih =>
    rw [List.mem_cons, not_or] at h0
    rw [fits_gap, and_iff_right (by decide)]
    have h0' : 0 ∉ rest.dropWhile (· ≠ 10) := fun h => h0.2 ((List.dropWhile_suffix _).mem h)
    refine ih h0' ?_
    have hsame : (rest ++ tail).dropWhile (fun c => c ≠ 0 && c ≠ 10) = rest.dropWhile (· ≠ 10) ++ tail := by
      rw [(takeWhile_append_tail htail (by decide) rest).2, comment_line h0.2]
    rw [Left, hl, List.cons_append, lex_of_head (dropWhile_of_not_blank (by rfl)), if_neg (by decide),
      if_neg (by decide), if_pos rfl, hsame]
  | case4 rest hspace hcomment ih =>
    rw [List.mem_cons, not_or] at h0
    have hlex : lex l = { rest := rest ++ tail, line := l.line + 1, token := ⟨.K_NEWLINE, [], l.line⟩ } := by
      rw [hl]
      exact lex_newline rfl
    apply reads_token_iff
    · intro _
      rw [hlex]
      exact ⟨rfl, rfl, rfl⟩
    · exact fun hrest => ih h0.2 (.of_rest hrest)
  | case5 c rest hspace hcomment hnewline k hk ih =>
    rw [List.mem_cons, not_or] at h0
    have hlex : lex l = { l with rest := rest ++ tail, token := ⟨k, [], l.line⟩ } := by
      rw [hl]
      exact lex_mark rfl hk
    apply reads_token_iff
    · intro _
      rw [hlex]
      exact ⟨rfl, rfl, rfl⟩
    · exact fun hrest => ih h0.2 (.of_rest hrest)
  | case6 c rest hspace hcomment hnewline hpunct hquote ih =>
    rw [List.mem_cons, not_or] at h0
    have hafter : 0 ∉ (literal c rest).2 := fun h => h0.2 ((literal_suffix c rest).mem h)
    apply reads_token_iff
    · intro hlength
      rw [lex_literal hquote htail h0.2 hl hlength]
      exact ⟨rfl, rfl, rfl⟩
    · exact fun hrest => ih hafter (.of_rest hrest)
  | case7 c rest hspace hcomment hnewline hpunct hquote ih =>
    rw [List.mem_cons, not_or] at h0
    have hafter : 0 ∉ rest.dropWhile word_byte := fun h => h0.2 ((List.dropWhile_suffix _).mem h)
    rw [not_or] at hquote
    have hbyte : word_byte c = true := by
      simp only [word_byte, Bool.and_eq_true, decide_eq_true_eq, Bool.not_eq_true']
      refine ⟨⟨Ne.symm h0.1, ?_⟩, hpunct⟩
      simpa [hnewline] using hspace
    apply reads_token_iff
    · intro hlength
      rw [lex_run hbyte ⟨hquote.1, hquote.2, hcomment⟩ htail hl hlength]
      exact ⟨rfl, rfl, rfl⟩
    · exact fun hrest => ih hafter (.of_rest hrest)

/-! ## Fidelity -/

/-- From its first to its last token the lexer reads the parts of the text: each literal and each run
of word bytes is one token that carries all of it. -/
def Faithful (src : Bytes) : Prop :=
  ReadsParts (src.drop (cstring src).length) (.start src) (parts (cstring src))

theorem drop_cstring (src : Bytes) : src.drop (cstring src).length = src.dropWhile (· ≠ 0) := by
  have hsplit : cstring src ++ src.dropWhile (· ≠ 0) = src := List.takeWhile_append_dropWhile
  calc src.drop (cstring src).length
      = (cstring src ++ src.dropWhile (· ≠ 0)).drop (cstring src).length := by rw [hsplit]
    _ = src.dropWhile (· ≠ 0) := List.drop_left

theorem ends_after_cstring (src : Bytes) : Ends (src.drop (cstring src).length) := by
  rw [drop_cstring]
  cases hdrop : src.dropWhile (· ≠ 0) with
  | nil => exact .inl rfl
  | cons c rest =>
    have hc := List.head_dropWhile_not (fun c : UInt8 => decide (c ≠ 0)) (l := src)
      (by rw [hdrop]; exact List.cons_ne_nil c rest)
    simp only [hdrop, List.head_cons, decide_eq_false_iff_not, ne_eq, not_not] at hc
    rw [hc]
    exact .inr ⟨rest, rfl⟩

/-- The lexer is faithful exactly to the texts whose words and literals all fit, with no vertical tab
and no form feed between them. -/
theorem the_lexer_is_faithful_iff (src : Bytes) : Faithful src ↔ Fits (parts (cstring src)) := by
  apply reads_parts_iff (ends_after_cstring src) (notMem_cstring src)
  apply Left.of_rest
  rw [drop_cstring]
  exact List.takeWhile_append_dropWhile.symm

theorem literal_plain {q : UInt8} {text : Bytes} (htext : ∀ c ∈ text, c ≠ q ∧ c ≠ 92) (rest : Bytes) :
    literal q (text ++ q :: rest) = (text, rest) := by
  induction text with
  | nil =>
    rw [List.nil_append, literal.eq_def]
    exact if_pos rfl
  | cons c text ih =>
    obtain ⟨hq, hslash⟩ := htext c List.mem_cons_self
    rw [List.cons_append, literal, if_neg hq, ih fun c hc => htext c (List.mem_cons_of_mem _ hc)]
    exact fun d more hc => absurd hc hslash

/-- Of a literal of 512 bytes the last byte and the closing quote are read as other tokens. -/
theorem a_long_literal_is_cut : ¬ Faithful (34 :: (List.replicate 512 97 ++ [34])) := by
  have htext : ∀ c ∈ List.replicate 512 (97 : UInt8), c ≠ 34 ∧ c ≠ 92 := by
    intro c hc
    rw [List.eq_of_mem_replicate hc]
    decide
  have h0 : (0 : UInt8) ∉ 34 :: (List.replicate 512 97 ++ [34]) := by
    rw [List.mem_cons, List.mem_append, List.mem_replicate]
    decide
  unfold Faithful
  rw [cstring_of_notMem h0, List.drop_length, reads_parts_iff (.inl rfl) h0 (.of_rest (List.append_nil _).symm)]
  intro hfits
  have hpart : .token ⟨.K_STRING, List.replicate 512 97⟩ [] ∈ parts (34 :: (List.replicate 512 97 ++ [34])) := by
    rw [parts, if_neg (by decide), if_neg (by decide), if_neg (by decide), literal_plain htext []]
    exact List.mem_cons_self
  have hlength := hfits.tokens _ _ hpart
  rw [List.length_replicate] at hlength
  exact absurd hlength (by decide)

end mantle.script
