-- The grammar of `docs/mantle-script.md`: programs as trees, their tokens, and
-- the source texts that spell these. A text that spells tokens is read as these
-- tokens by the lexer.
import MantleOS.ScriptPass

open bytes ctext

namespace mantle.script

/-! ## Programs -/

/-- `( string | word )`. -/
structure Operand where
  quoted : Bool
  text : Bytes
  deriving DecidableEq

inductive Guard
  | if_exists (command : Operand)
  | require_admin
  deriving DecidableEq

/-- `{ statement }`: the first statement, and the rest of them. -/
inductive Program
  | done
  | let_ (name : Bytes) (value : Operand) (rest : Program)
  | print (text : Operand) (rest : Program)
  | run (command : Bytes) (args : List Operand) (rest : Program)
  | guard (g : Guard) (body rest : Program)
  | exit (code : Bytes) (rest : Program)

/-! ## Their tokens -/

/-- A token without its line. -/
structure Lexeme where
  kind : kind
  text : Bytes
  deriving DecidableEq

def word (text : Bytes) : Lexeme := ⟨.K_WORD, text⟩

def mark (k : kind) : Lexeme := ⟨k, []⟩

def Operand.lexeme (o : Operand) : Lexeme := ⟨if o.quoted then .K_STRING else .K_WORD, o.text⟩

def Guard.lexemes : Guard → List Lexeme
  | .if_exists command =>
    [word (ascii "if"), word (ascii "command.exists"), mark .K_LP, command.lexeme, mark .K_RP]
  | .require_admin => [word (ascii "require"), word (ascii "admin")]

/-- The tokens of a program. The grammar has a newline after each statement but the guards; newlines
may also stand before every statement, before the `{` of a block, and at its end. -/
inductive Lines : Program → List Lexeme → Prop
  | done : Lines .done []
  | blank {p : Program} {ts : List Lexeme} : Lines p ts → Lines p (mark .K_NEWLINE :: ts)
  | let_ (name : Bytes) (value : Operand) {rest : Program} {ts : List Lexeme} : Lines rest ts →
      Lines (.let_ name value rest)
        (word (ascii "let") :: word name :: mark .K_EQ :: value.lexeme :: mark .K_NEWLINE :: ts)
  | print (text : Operand) {rest : Program} {ts : List Lexeme} : Lines rest ts →
      Lines (.print text rest) (word (ascii "print") :: text.lexeme :: mark .K_NEWLINE :: ts)
  | run (command : Bytes) (args : List Operand) {rest : Program} {ts : List Lexeme} : Lines rest ts →
      Lines (.run command args rest)
        (word (ascii "run") :: word command :: (args.map Operand.lexeme ++ mark .K_NEWLINE :: ts))
  | guard (g : Guard) (newlines : Nat) {body rest : Program} {inner ts : List Lexeme} :
      Lines body inner → Lines rest ts →
      Lines (.guard g body rest)
        (g.lexemes ++ (List.replicate newlines (mark .K_NEWLINE) ++
          mark .K_LBRACE :: (inner ++ mark .K_RBRACE :: ts)))
  | exit (code : Bytes) {rest : Program} {ts : List Lexeme} : Lines rest ts →
      Lines (.exit code rest) (word (ascii "exit") :: word code :: mark .K_NEWLINE :: ts)

/-! ## The source texts that spell them -/

/-- The text between two quotes `q`, with a backslash before any byte that is to stand for
itself. -/
inductive Quoted (q : UInt8) : Bytes → Bytes → Prop
  | nil : Quoted q [] []
  | plain (c : UInt8) {text body : Bytes} : c ≠ 0 → c ≠ q → c ≠ 92 → Quoted q text body →
      Quoted q (c :: text) (c :: body)
  | escaped (d : UInt8) {text body : Bytes} : d ≠ 0 → Quoted q text body →
      Quoted q (d :: text) (92 :: d :: body)

/-- The text starts with a byte of this kind. -/
def StartsWith (p : UInt8 → Bool) (src : Bytes) : Prop := src.head?.any p = true

instance (p : UInt8 → Bool) (src : Bytes) : Decidable (StartsWith p src) :=
  inferInstanceAs (Decidable (_ = true))

/-- A word starts with no quote and no `#`. -/
def starts_word (c : UInt8) : Bool := c ≠ 34 && c ≠ 39 && c ≠ 35

def isWord (text : Bytes) : Bool := text.head?.any starts_word && text.all word_byte

inductive Spelled : List Lexeme → Bytes → Prop
  | nil : Spelled [] []
  | blank (c : UInt8) {ts : List Lexeme} {src : Bytes} : isblank c = true → Spelled ts src →
      Spelled ts (c :: src)
  /-- A comment goes to the end of its line. -/
  | comment (text : Bytes) {ts : List Lexeme} {src : Bytes} : (∀ c ∈ text, c ≠ 0 ∧ c ≠ 10) →
      src = [] ∨ src.head? = some 10 → Spelled ts src → Spelled ts (35 :: (text ++ src))
  | newline {ts : List Lexeme} {src : Bytes} : Spelled ts src →
      Spelled (mark .K_NEWLINE :: ts) (10 :: src)
  | mark (c : UInt8) (k : kind) {ts : List Lexeme} {src : Bytes} : punctuation c = some k →
      Spelled ts src → Spelled (mark k :: ts) (c :: src)
  | string (q : UInt8) {text body : Bytes} {ts : List Lexeme} {src : Bytes} : q = 34 ∨ q = 39 →
      Quoted q text body → Spelled ts src → Spelled (⟨.K_STRING, text⟩ :: ts) (q :: (body ++ q :: src))
  /-- The byte after a word is not one of a word. -/
  | word {text : Bytes} {ts : List Lexeme} {src : Bytes} : isWord text = true →
      ¬ StartsWith word_byte src → Spelled ts src → Spelled (word text :: ts) (text ++ src)

/-! ## The lexer reads what is spelled -/

/-- From the current token on the lexer reads these tokens, and then the end of the file. -/
def Faces : lexer → List Lexeme → Prop
  | l, [] => l.token.kind = .K_EOF
  | l, t :: ts => l.token.kind = t.kind ∧ l.token.text = t.text ∧ Faces (lex l) ts

/-- The first byte after the blanks decides. -/
theorem lex_of_head {l : lexer} {c : UInt8} {rest : Bytes} (hdrop : l.rest.dropWhile isblank = c :: rest) :
    lex l =
      if c = 0 then { l with rest := c :: rest, token := ⟨.K_EOF, [], l.line⟩ }
      else if c = 10 then { rest, line := l.line + 1, token := ⟨.K_NEWLINE, [], l.line⟩ }
      else if c = 35 then lex { l with rest := rest.dropWhile (fun c => c ≠ 0 && c ≠ 10) }
      else
        match punctuation c with
        | some kind => { l with rest, token := ⟨kind, [], l.line⟩ }
        | none =>
          if c = 34 ∨ c = 39 then
            let (text, after) := string_loop c textLimit rest
            { l with rest := if after.head? = some c then after.tail else after
                     token := ⟨.K_STRING, text, l.line⟩ }
          else
            let (text, after) := word_loop (c :: rest)
            { l with rest := after, token := ⟨.K_WORD, text, l.line⟩ } := by
  rw [lex]
  split
  · rename_i hnil
    rw [hdrop] at hnil
    cases hnil
  · rename_i c' rest' hcons
    rw [hdrop] at hcons
    cases hcons
    rfl

theorem lex_of_end {l : lexer} (hdrop : l.rest.dropWhile isblank = []) :
    lex l = { l with rest := [], token := ⟨.K_EOF, [], l.line⟩ } := by
  rw [lex]
  split
  · rfl
  · rename_i c rest hcons
    rw [hdrop] at hcons
    cases hcons

theorem lex_blank {l : lexer} {c : UInt8} {src : Bytes} (hc : isblank c = true) (hl : l.rest = c :: src) :
    lex l = lex { l with rest := src } := by
  have hdrop : l.rest.dropWhile isblank = src.dropWhile isblank := by
    rw [hl, List.dropWhile_cons_of_pos hc]
  cases hsrc : src.dropWhile isblank with
  | nil => rw [lex_of_end (hdrop.trans hsrc), lex_of_end (l := { l with rest := src }) hsrc]
  | cons b rest => rw [lex_of_head (hdrop.trans hsrc), lex_of_head (l := { l with rest := src }) hsrc]

/-- A byte that is not blank is the first one. -/
theorem dropWhile_of_not_blank {c : UInt8} {src : Bytes} (hc : isblank c = false) :
    (c :: src).dropWhile isblank = c :: src := List.dropWhile_cons_of_neg (by simp [hc])

theorem lex_comment {l : lexer} {text src : Bytes} (hl : l.rest = 35 :: (text ++ src))
    (htext : ∀ c ∈ text, c ≠ 0 ∧ c ≠ 10) (hsrc : src = [] ∨ src.head? = some 10) :
    lex l = lex { l with rest := src } := by
  have hall : ∀ c ∈ text, (c ≠ 0 && c ≠ 10) = true := fun c hc => by simpa using htext c hc
  have hrest : (text ++ src).dropWhile (fun c => c ≠ 0 && c ≠ 10) = src := by
    rw [List.dropWhile_append_of_pos hall]
    rcases hsrc with rfl | hhead
    · rfl
    · cases src with
      | nil => rfl
      | cons c rest =>
        cases hhead
        rfl
  have hdrop : l.rest.dropWhile isblank = 35 :: (text ++ src) := by
    rw [hl]
    exact dropWhile_of_not_blank rfl
  rw [lex_of_head hdrop, if_neg (by decide), if_neg (by decide), if_pos rfl, hrest]

theorem lex_newline {l : lexer} {src : Bytes} (hl : l.rest = 10 :: src) :
    lex l = { rest := src, line := l.line + 1, token := ⟨.K_NEWLINE, [], l.line⟩ } := by
  have hdrop : l.rest.dropWhile isblank = 10 :: src := by
    rw [hl]
    exact dropWhile_of_not_blank rfl
  rw [lex_of_head hdrop, if_neg (by decide), if_pos rfl]

theorem punctuation_not_blank {c : UInt8} {k : kind} (hc : punctuation c = some k) :
    isblank c = false ∧ c ≠ 0 ∧ c ≠ 10 ∧ c ≠ 35 := by
  have hcases : c = 123 ∨ c = 125 ∨ c = 61 ∨ c = 40 ∨ c = 41 := by
    unfold punctuation at hc
    by_contra hno
    simp only [not_or] at hno
    simp [hno] at hc
  rcases hcases with rfl | rfl | rfl | rfl | rfl <;> decide

theorem lex_mark {l : lexer} {c : UInt8} {k : kind} {src : Bytes} (hl : l.rest = c :: src)
    (hc : punctuation c = some k) : lex l = { l with rest := src, token := ⟨k, [], l.line⟩ } := by
  obtain ⟨hblank, h0, h10, h35⟩ := punctuation_not_blank hc
  have hdrop : l.rest.dropWhile isblank = c :: src := by
    rw [hl]
    exact dropWhile_of_not_blank hblank
  rw [lex_of_head hdrop, if_neg h0, if_neg h10, if_neg h35, hc]

theorem string_loop_quoted {q : UInt8} {text body : Bytes} (hq : q = 34 ∨ q = 39)
    (hbody : Quoted q text body) (src : Bytes) {room : Nat} (hroom : text.length ≤ room) :
    string_loop q room (body ++ q :: src) = (text, q :: src) := by
  induction hbody generalizing room with
  | nil =>
    cases room with
    | zero => rfl
    | succ room => simp [string_loop]
  | plain c h0 hcq h92 _ ih =>
    cases room with
    | zero => simp at hroom
    | succ room =>
      have hrest := @ih room (by simpa using hroom)
      rw [List.cons_append, string_loop, if_neg (by simp [h0, hcq]), hrest]
      exact fun d rest hc => absurd hc h92
  | escaped d hd _ ih =>
    cases room with
    | zero => simp at hroom
    | succ room =>
      have hrest := @ih room (by simpa using hroom)
      have hslash : ¬ ((92 : UInt8) = 0 ∨ 92 = q) := by rcases hq with rfl | rfl <;> decide
      simp only [List.cons_append, string_loop, if_neg hslash, ne_eq, hd,
        not_false_eq_true, if_true, hrest]

theorem lex_string {l : lexer} {q : UInt8} {text body src : Bytes} (hl : l.rest = q :: (body ++ q :: src))
    (hq : q = 34 ∨ q = 39) (hbody : Quoted q text body) (hlength : text.length ≤ textLimit) :
    lex l = { l with rest := src, token := ⟨.K_STRING, text, l.line⟩ } := by
  have hclass : isblank q = false ∧ q ≠ 0 ∧ q ≠ 10 ∧ q ≠ 35 ∧ punctuation q = none := by
    rcases hq with rfl | rfl <;> decide
  obtain ⟨hblank, h0, h10, h35, hpunct⟩ := hclass
  have hdrop : l.rest.dropWhile isblank = q :: (body ++ q :: src) := by
    rw [hl]
    exact dropWhile_of_not_blank hblank
  rw [lex_of_head hdrop, if_neg h0, if_neg h10, if_neg h35, hpunct]
  simp [hq, string_loop_quoted hq hbody src hlength]

theorem word_loop_word {text src : Bytes} (htext : ∀ b ∈ text, word_byte b = true)
    (hsrc : ¬ StartsWith word_byte src) (hlength : text.length ≤ textLimit) :
    word_loop (text ++ src) = (text, src) := by
  have htake : (text ++ src).takeWhile word_byte = text := by
    rw [List.takeWhile_append_of_pos htext]
    cases src with
    | nil => simp
    | cons c rest =>
      have hc : word_byte c = false := by simpa [StartsWith] using hsrc
      rw [List.takeWhile_cons_of_neg (by simp [hc]), List.append_nil]
  simp [word_loop, htake, List.take_of_length_le hlength]

/-- What a byte of a word is not. -/
theorem word_byte_class {c : UInt8} (hc : word_byte c = true) :
    isblank c = false ∧ c ≠ 0 ∧ c ≠ 10 ∧ punctuation c = none := by
  simp only [word_byte, Bool.and_eq_true, decide_eq_true_eq, Bool.not_eq_true'] at hc
  obtain ⟨⟨h0, hspace⟩, hpunct⟩ := hc
  refine ⟨?_, h0, ?_, hpunct⟩
  · rw [Bool.eq_false_iff]
    intro hblank
    simp only [isblank, Bool.or_eq_true, decide_eq_true_eq] at hblank
    rcases hblank with (rfl | rfl) | rfl <;> cases hspace
  · rintro rfl
    cases hspace

theorem lex_word {l : lexer} {text src : Bytes} (hl : l.rest = text ++ src) (hword : isWord text = true)
    (hsrc : ¬ StartsWith word_byte src) (hlength : text.length ≤ textLimit) :
    lex l = { l with rest := src, token := ⟨.K_WORD, text, l.line⟩ } := by
  rw [isWord, Bool.and_eq_true, List.all_eq_true] at hword
  obtain ⟨hhead, htext⟩ := hword
  have hloop := word_loop_word htext hsrc hlength
  cases text with
  | nil => cases hhead
  | cons c text =>
    have hclass := word_byte_class (htext c List.mem_cons_self)
    obtain ⟨hblank, h0, h10, hpunct⟩ := hclass
    have hdrop : l.rest.dropWhile isblank = c :: (text ++ src) := by
      rw [hl]
      exact dropWhile_of_not_blank hblank
    have hstart : c ≠ 34 ∧ c ≠ 39 ∧ c ≠ 35 := by simpa [starts_word, and_assoc] using hhead
    rw [lex_of_head hdrop, if_neg h0, if_neg h10, if_neg hstart.2.2, hpunct]
    rw [List.cons_append] at hloop
    simp [hstart, hloop]

/-- By induction on the spelling; blanks and comments change nothing. -/
theorem lex_spelled {ts : List Lexeme} {src : Bytes} (hs : Spelled ts src)
    (hfits : ∀ t ∈ ts, t.text.length ≤ textLimit) {l : lexer} (hl : l.rest = src) : Faces (lex l) ts := by
  induction hs generalizing l with
  | nil =>
    rw [lex_of_end (by rw [hl]; rfl)]
    exact rfl
  | blank c hc _ ih =>
    rw [lex_blank hc hl]
    exact ih hfits rfl
  | comment text htext hsrc _ ih =>
    rw [lex_comment hl htext hsrc]
    exact ih hfits rfl
  | newline _ ih =>
    rw [lex_newline hl]
    exact ⟨rfl, rfl, ih (fun t ht => hfits t (List.mem_cons_of_mem _ ht)) rfl⟩
  | mark c k hc _ ih =>
    rw [lex_mark hl hc]
    exact ⟨rfl, rfl, ih (fun t ht => hfits t (List.mem_cons_of_mem _ ht)) rfl⟩
  | string q hq hbody _ ih =>
    rw [lex_string hl hq hbody (hfits _ List.mem_cons_self)]
    exact ⟨rfl, rfl, ih (fun t ht => hfits t (List.mem_cons_of_mem _ ht)) rfl⟩
  | word hword hsrc _ ih =>
    rw [lex_word hl hword hsrc (hfits _ List.mem_cons_self)]
    exact ⟨rfl, rfl, ih (fun t ht => hfits t (List.mem_cons_of_mem _ ht)) rfl⟩

/-! ## Texts that are no sentences -/

theorem quoted_length {q : UInt8} {text body : Bytes} (hbody : Quoted q text body) :
    text.length ≤ body.length := by
  induction hbody with
  | nil => exact Nat.le_refl _
  | plain c _ _ _ _ ih =>
    simp only [List.length_cons]
    omega
  | escaped d _ _ ih =>
    simp only [List.length_cons]
    omega

/-- No token is longer than the text, and none is the end of the file. -/
theorem spelled_token {ts : List Lexeme} {src : Bytes} (hs : Spelled ts src) :
    ∀ t ∈ ts, t.text.length ≤ src.length ∧ t.kind ≠ .K_EOF := by
  induction hs with
  | nil => simp
  | blank c _ _ ih =>
    intro t ht
    exact ⟨Nat.le_succ_of_le (ih t ht).1, (ih t ht).2⟩
  | comment text _ _ _ ih =>
    intro t ht
    have hlength := (ih t ht).1
    refine ⟨?_, (ih t ht).2⟩
    simp only [List.length_cons, List.length_append]
    omega
  | newline _ ih =>
    intro t ht
    rcases List.mem_cons.mp ht with rfl | ht
    · exact ⟨Nat.zero_le _, by simp [mark]⟩
    · exact ⟨Nat.le_succ_of_le (ih t ht).1, (ih t ht).2⟩
  | mark c k hc _ ih =>
    intro t ht
    rcases List.mem_cons.mp ht with rfl | ht
    · refine ⟨Nat.zero_le _, fun hk => ?_⟩
      have hk : k = .K_EOF := hk
      rw [hk] at hc
      unfold punctuation at hc
      split_ifs at hc <;> cases hc
    · exact ⟨Nat.le_succ_of_le (ih t ht).1, (ih t ht).2⟩
  | string q _ hbody _ ih =>
    intro t ht
    simp only [List.length_cons, List.length_append]
    rcases List.mem_cons.mp ht with rfl | ht
    · have hlength := quoted_length hbody
      exact ⟨by simp only; omega, by simp⟩
    · have hlength := (ih t ht).1
      exact ⟨by omega, (ih t ht).2⟩
  | word _ _ _ ih =>
    intro t ht
    simp only [List.length_append]
    rcases List.mem_cons.mp ht with rfl | ht
    · exact ⟨Nat.le_add_right _ _, by simp [word]⟩
    · have hlength := (ih t ht).1
      exact ⟨by omega, (ih t ht).2⟩

/-- The tokens that a lexer reads, when there are fewer than `n`. -/
def lexemes : Nat → lexer → Option (List Lexeme)
  | 0, _ => none
  | n + 1, l =>
    if l.token.kind = .K_EOF then some []
    else (⟨l.token.kind, l.token.text⟩ :: ·) <$> lexemes n (lex l)

theorem lexemes_eq {n : Nat} {l : lexer} {ts ts' : List Lexeme} (hfaces : Faces l ts)
    (hkinds : ∀ t ∈ ts, t.kind ≠ .K_EOF) (hread : lexemes n l = some ts') : ts = ts' := by
  induction n generalizing l ts ts' with
  | zero => cases hread
  | succ n ih =>
    rw [lexemes] at hread
    cases ts with
    | nil =>
      have heof : l.token.kind = .K_EOF := hfaces
      rw [if_pos heof] at hread
      exact Option.some.inj hread
    | cons t ts =>
      obtain ⟨hkind, htext, hrest⟩ := hfaces
      rw [if_neg (by rw [hkind]; exact hkinds t List.mem_cons_self)] at hread
      obtain ⟨rest, hrest', rfl⟩ := Option.map_eq_some_iff.mp hread
      rw [ih hrest (fun t ht => hkinds t (List.mem_cons_of_mem _ ht)) hrest', hkind, htext]

/-- A source text that is not too long spells no tokens but those that the lexer reads. -/
theorem spelled_lexemes {n : Nat} {src : Bytes} {ts ts' : List Lexeme} (hs : Spelled ts src)
    (hlength : src.length ≤ textLimit) (hread : lexemes n (lex (.start src)) = some ts') : ts = ts' :=
  lexemes_eq (lex_spelled hs (fun t ht => Nat.le_trans (spelled_token hs t ht).1 hlength) rfl)
    (fun t ht => (spelled_token hs t ht).2) hread

/-- How many tokens of one kind there are. -/
def braces (k : kind) (ts : List Lexeme) : Nat := ts.countP (·.kind = k)

@[simp] theorem braces_nil (k : kind) : braces k [] = 0 := rfl

@[simp] theorem braces_cons (k : kind) (t : Lexeme) (ts : List Lexeme) :
    braces k (t :: ts) = braces k ts + if t.kind = k then 1 else 0 := by
  simp [braces, List.countP_cons]

@[simp] theorem braces_append (k : kind) (a b : List Lexeme) :
    braces k (a ++ b) = braces k a + braces k b := List.countP_append ..

/-- Words and strings are no braces. -/
theorem operand_ne {k : kind} (hk : is_text k = false) (o : Operand) : o.lexeme.kind ≠ k := by
  unfold Operand.lexeme
  cases o.quoted <;> cases k <;> simp_all [is_text]

theorem braces_operands {k : kind} (hk : is_text k = false) (args : List Operand) :
    braces k (args.map Operand.lexeme) = 0 := by
  induction args with
  | nil => rfl
  | cons o args ih => rw [List.map_cons, braces_cons, ih, if_neg (operand_ne hk o)]

theorem braces_newlines {k : kind} (hk : k ≠ .K_NEWLINE) (n : Nat) :
    braces k (List.replicate n (mark .K_NEWLINE)) = 0 := by
  have hne : (mark .K_NEWLINE).kind ≠ k := hk.symm
  induction n with
  | zero => rfl
  | succ n ih => rw [List.replicate_succ, braces_cons, ih, if_neg hne]

theorem braces_guard {k : kind} (hk : k = .K_LBRACE ∨ k = .K_RBRACE) (g : Guard) : braces k g.lexemes = 0 := by
  have htext : is_text k = false := by rcases hk with rfl | rfl <;> rfl
  cases g with
  | if_exists command =>
    have hcommand := operand_ne htext command
    rcases hk with rfl | rfl <;> simp [Guard.lexemes, word, mark, hcommand]
  | require_admin => rcases hk with rfl | rfl <;> rfl

/-- Every block of a program is closed. -/
theorem lines_balanced {p : Program} {ts : List Lexeme} (hlines : Lines p ts) :
    braces .K_LBRACE ts = braces .K_RBRACE ts := by
  induction hlines with
  | done => rfl
  | blank _ ih => simpa [mark] using ih
  | let_ name value _ ih =>
    simpa [word, mark, operand_ne (k := .K_LBRACE) rfl, operand_ne (k := .K_RBRACE) rfl] using ih
  | print text _ ih =>
    simpa [word, mark, operand_ne (k := .K_LBRACE) rfl, operand_ne (k := .K_RBRACE) rfl] using ih
  | run command args _ ih =>
    simpa [word, mark, braces_operands (k := .K_LBRACE) rfl, braces_operands (k := .K_RBRACE) rfl] using ih
  | guard g newlines _ _ ihb ihr =>
    simp only [braces_append, braces_cons, braces_guard (.inl rfl) g, braces_guard (.inr rfl) g,
      braces_newlines (k := .K_LBRACE) (by simp), braces_newlines (k := .K_RBRACE) (by simp), ihb, ihr]
    simp only [mark, reduceCtorEq, if_true, if_false]
    omega
  | exit code _ ih => simpa [word, mark] using ih

end mantle.script
