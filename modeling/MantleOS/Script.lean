-- The interpreter of `scripting/mantle-script.c`: the lexer, the variables, and
-- the statements as the C code reads and runs them in one pass. Loops that
-- may not end take fuel.
import MantleOS.CText

open bytes ctext

namespace mantle.script

/-! ## The lexer -/

inductive kind
  | K_EOF
  | K_WORD
  | K_STRING
  | K_LBRACE
  | K_RBRACE
  | K_EQ
  | K_LP
  | K_RP
  | K_DOT
  | K_NEWLINE
  deriving DecidableEq

structure token where
  kind : kind
  text : Bytes
  line : Nat
  deriving DecidableEq

/-- `rest` is the source from `pos` on, without the NUL at its end. -/
structure lexer where
  rest : Bytes
  line : Nat
  token : token
  deriving DecidableEq

/-- `sizeof(text) - 1` of a token and of a value. -/
def textLimit : Nat := 511

def isblank (c : UInt8) : Bool := c = 32 || c = 9 || c = 13

/-- The tokens of one character. -/
def punctuation (c : UInt8) : Option kind :=
  if c = 123 then some .K_LBRACE
  else if c = 125 then some .K_RBRACE
  else if c = 61 then some .K_EQ
  else if c = 40 then some .K_LP
  else if c = 41 then some .K_RP
  else none

/-- The loop over a quoted text, with the room that is left in the token: the text, and what
follows it. -/
def string_loop (q : UInt8) : Nat → Bytes → Bytes × Bytes
  | 0, rest => ([], rest)
  | _ + 1, [] => ([], [])
  | room + 1, c :: rest =>
    if c = 0 ∨ c = q then ([], c :: rest)
    else
      match c, rest with
      | 92, d :: rest =>
        if d ≠ 0 then
          let (text, after) := string_loop q room rest
          (d :: text, after)
        else
          let (text, after) := string_loop q room (d :: rest)
          (92 :: text, after)
      | c, rest =>
        let (text, after) := string_loop q room rest
        (c :: text, after)

def word_byte (c : UInt8) : Bool := c ≠ 0 && !isspace c && punctuation c = none

/-- The loop over a word: the text, and what follows it. -/
def word_loop (rest : Bytes) : Bytes × Bytes :=
  let text := (rest.takeWhile word_byte).take textLimit
  (text, rest.drop text.length)

def lex (l : lexer) : lexer :=
  match hrest : l.rest.dropWhile isblank with
  | [] => { l with rest := [], token := ⟨.K_EOF, [], l.line⟩ }
  | c :: rest =>
    if c = 0 then { l with rest := c :: rest, token := ⟨.K_EOF, [], l.line⟩ }
    else if c = 10 then { rest, line := l.line + 1, token := ⟨.K_NEWLINE, [], l.line⟩ }
    else if c = 35 then
      lex { l with rest := rest.dropWhile (fun c => c ≠ 0 && c ≠ 10) }
    else
      match punctuation c with
      | some kind => { l with rest, token := ⟨kind, [], l.line⟩ }
      | none =>
        if c = 34 ∨ c = 39 then
          let (text, after) := string_loop c textLimit rest
          { l with rest := if after.head? = some c then after.tail else after
                   token := ⟨.K_STRING, text, l.line⟩ }
        else
          let (text, after) := word_loop (c :: rest)
          { l with rest := after, token := ⟨.K_WORD, text, l.line⟩ }
termination_by l.rest.length
decreasing_by
  have h1 := (List.dropWhile_suffix (l := rest) (fun c => c ≠ 0 && c ≠ 10)).length_le
  have h2 := (List.dropWhile_suffix (l := l.rest) isblank).length_le
  rw [hrest, List.length_cons] at h2
  omega

/-! ## The machine around a script -/

structure value where
  name : Bytes
  text : Bytes
  deriving DecidableEq

/-- What a script does that can be seen from outside: a line of `puts`, a command that it
launches, and a message with the line of its token. -/
inductive effect
  | puts (text : Bytes)
  | run (argv : List Bytes)
  | message (line : Nat) (text : Bytes)
  deriving DecidableEq

/-- How a launched command comes back. -/
inductive ending
  | exited (status : Nat)
  | signalled
  | not_started

/-- What the script finds on its machine. What a command does and which files can be executed
may depend on all that the script did before. -/
structure host where
  geteuid : Nat
  getenv : Bytes → Option Bytes
  script_args : List Bytes
  /-- What `script_args[n]` reads for a negative `n`. -/
  before_args : Int → Bytes
  access : List effect → Bytes → Bool
  launch : List effect → List Bytes → ending

structure Script where
  l : lexer
  vars : List value
  effects : List effect

def Script.lexed (s : Script) : Script := { s with l := lex s.l }

def Script.at (s : Script) (l : lexer) : Script := { s with l }

/-- `fprintf(stderr, ..)` with the line of the token. -/
def Script.complain (s : Script) (text : Bytes) : Script :=
  { s with effects := s.effects ++ [.message s.l.token.line text] }

/-! ## Variables -/

/-- `atoi`, as `(int)strtol(.., 10)`. -/
def atoi (s : Bytes) : Int :=
  let s := s.dropWhile isspace
  let negative := s.head? = some 45
  let digits := (if s.head? = some 45 ∨ s.head? = some 43 then s.tail else s).takeWhile
    (fun c => 48 ≤ c && c ≤ 57)
  let n : Nat := digits.foldl (fun n c => n * 10 + (c.toNat - 48)) 0
  let long : Int := if negative then max (-n) (-2 ^ 63) else min n (2 ^ 63 - 1)
  (BitVec.ofInt 32 long).toInt

def getvar (h : host) (vars : List value) (name : Bytes) : Option Bytes :=
  match vars.find? (fun v => v.name = name) with
  | some v => some v.text
  | none =>
    if name.head? = some 36 ∧ (name.tail.head?.any fun c => 48 ≤ c && c ≤ 57) then
      let n := atoi name.tail
      if n < h.script_args.length then
        if n < 0 then some (h.before_args n) else some (h.script_args.getD n.toNat [])
      else some []
    else h.getenv name

/-- The text of `interpolate`, with the room that is left in the buffer. -/
def interpolate_loop (get : Bytes → Option Bytes) : Nat → Bytes → Bytes
  | 0, _ => []
  | _ + 1, [] => []
  | room + 1, c :: rest =>
    if c = 36 ∧ rest.head? = some 123 then
      let key := rest.tail.takeWhile (· ≠ 125)
      let after := rest.tail.drop key.length
      let v := ((get (key.take 63)).getD []).take (room + 1)
      v ++ interpolate_loop get (room + 1 - v.length) (if after.head? = some 125 then after.tail else rest)
    else c :: interpolate_loop get room rest
termination_by _ input => input.length
decreasing_by
  · simp only [List.length_cons]
    split
    · have := (List.drop_suffix (rest.tail.takeWhile (· ≠ 125)).length rest.tail).length_le
      simp only [List.length_tail] at *
      omega
    · omega
  · simp

/-- The text that stands in a buffer of 512 bytes. -/
def interpolate (h : host) (vars : List value) (input : Bytes) : Bytes :=
  interpolate_loop (getvar h vars) textLimit input

def command_exists (h : host) (effects : List effect) (name : Bytes) : Bool :=
  let path := ((h.getenv (ascii "PATH")).getD (ascii "/bin:/usr/bin")).take 4095
  ((path.splitOn 58).filter (· ≠ [])).any fun part =>
    h.access effects ((part ++ [47] ++ name).take textLimit)

def run_argv (h : host) (argv : List Bytes) (s : Script) : Int × Script :=
  if argv = [] then (0, s)
  else
    let result : Int :=
      match h.launch s.effects argv with
      | .exited status => status
      | .signalled => 128
      | .not_started => 127
    (result, { s with effects := s.effects ++ [.run argv] })

/-! ## Statements -/

/-- `while (p(l->token.kind)) lex(l)`. -/
def lex_while (p : kind → Bool) : Nat → lexer → Option lexer
  | 0, _ => none
  | fuel + 1, l => if p l.token.kind then lex_while p fuel (lex l) else some l

def is_newline (k : kind) : Bool := k = .K_NEWLINE

def skip_newlines (fuel : Nat) (s : Script) : Option Script := s.at <$> lex_while is_newline fuel s.l

/-- The token is a text: a string or a word. -/
def is_text (k : kind) : Bool := k = .K_STRING || k = .K_WORD

def ends_block (k : kind) : Bool := k = .K_EOF || k = .K_RBRACE

def skip_lines (fuel : Nat) (s : Script) : Option Script :=
  s.at <$> lex_while (fun k => !ends_block k) fuel s.l

def let_statement (h : host) (s : Script) (execute : Bool) : Int × Script :=
  if s.l.token.kind ≠ .K_WORD then (2, s.complain (ascii "nom de variable attendu"))
  else
    let name := s.l.token.text.take 63
    let s := s.lexed
    if s.l.token.kind ≠ .K_EQ then (2, s.complain (ascii "'=' attendu"))
    else
      let s := s.lexed
      if !is_text s.l.token.kind then (2, s.complain (ascii "valeur attendue"))
      else
        let text := interpolate h s.vars s.l.token.text
        let vars := if execute && s.vars.length < 128 then s.vars ++ [⟨name, text⟩] else s.vars
        (0, { s with vars }.lexed)

def print_statement (h : host) (s : Script) (execute : Bool) : Int × Script :=
  if !is_text s.l.token.kind then (2, s.complain (ascii "texte attendu"))
  else
    let text := interpolate h s.vars s.l.token.text
    let effects := if execute then s.effects ++ [.puts text] else s.effects
    (0, { s with effects }.lexed)

/-- The loop of `run` over its arguments. -/
def run_loop (h : host) : Nat → List Bytes → Script → Option (List Bytes × Script)
  | 0, _, _ => none
  | fuel + 1, args, s =>
    if is_text s.l.token.kind then
      let text := interpolate h s.vars s.l.token.text
      run_loop h fuel (if args.length < 63 then args ++ [text] else args) s.lexed
    else some (args, s)

def run_statement (h : host) (fuel : Nat) (s : Script) (execute : Bool) : Option (Int × Script) := do
  let (args, s) ← run_loop h fuel [] s
  if execute then return run_argv h args s else return (0, s)

/-- The condition of `require`, with `none` after a message. -/
def require_condition (h : host) (s : Script) : Option Bool × Script :=
  if s.l.token.kind ≠ .K_WORD ∨ s.l.token.text ≠ ascii "admin" then
    (none, s.complain (ascii "condition require inconnue"))
  else (some (decide (h.geteuid = 0)), s.lexed)

/-- The condition of `if`, with `none` after a message. -/
def exists_condition (h : host) (s : Script) : Option Bool × Script :=
  if s.l.token.kind ≠ .K_WORD ∨ s.l.token.text ≠ ascii "command.exists" then
    (none, s.complain (ascii "condition command.exists attendue"))
  else
    let s := s.lexed
    if s.l.token.kind ≠ .K_LP then (none, s.complain (ascii "'(' attendu"))
    else
      let s := s.lexed
      if !is_text s.l.token.kind then (none, s.complain (ascii "commande attendue"))
      else
        let condition := command_exists h s.effects s.l.token.text
        let s := s.lexed
        if s.l.token.kind ≠ .K_RP then (none, s.complain (ascii "')' attendu"))
        else (some condition, s.lexed)

def exit_statement (s : Script) (execute : Bool) : Int × Script :=
  if s.l.token.kind ≠ .K_WORD then (2, s.complain (ascii "code attendu"))
  else (if execute then atoi s.l.token.text else 0, s)

/-- The end of `block`, after its loop. -/
def close_block (r : Int × Script) : Int × Script :=
  (r.1, if r.2.l.token.kind = .K_RBRACE then r.2.lexed else r.2)

/-- What follows the condition of an `if` or a `require`: the brace and the block. -/
def guard_statement (block : Script → Bool → Option (Int × Script)) (fuel : Nat)
    (r : Option Bool × Script) (execute : Bool) : Option (Int × Script) :=
  match r.1 with
  | none => some (2, r.2)
  | some condition => do
    let s ← skip_newlines fuel r.2
    if s.l.token.kind ≠ .K_LBRACE then return (2, s.complain (ascii "'\x7b' attendu"))
    else block s.lexed (execute && condition)

/-- `statement` from the token after its keyword on. `block` runs the block of an `if` or a
`require`. -/
def keyword_statement (h : host) (block : Script → Bool → Option (Int × Script)) (fuel : Nat)
    (keyword : Bytes) (s : Script) (execute : Bool) : Option (Int × Script) :=
  if keyword = ascii "let" then some (let_statement h s execute)
  else if keyword = ascii "print" then some (print_statement h s execute)
  else if keyword = ascii "run" then run_statement h fuel s execute
  else if keyword = ascii "if" ∨ keyword = ascii "require" then
    guard_statement block fuel
      (if keyword = ascii "require" then require_condition h s else exists_condition h s) execute
  else if keyword = ascii "exit" then some (exit_statement s execute)
  else do
    let s ← skip_lines fuel (s.complain (ascii "instruction inconnue: " ++ keyword))
    return (2, s)

mutual

def statement (h : host) : Nat → Script → Bool → Option (Int × Script)
  | 0, _, _ => none
  | fuel + 1, s, execute => do
    let s ← skip_newlines fuel s
    if ends_block s.l.token.kind then return (0, s)
    else if s.l.token.kind ≠ .K_WORD then return (2, s.complain (ascii "mot attendu"))
    else
      keyword_statement h (fun s execute => close_block <$> block_loop h fuel s execute 0) fuel
        (s.l.token.text.take 63) s.lexed execute

/-- The loop of `block`. -/
def block_loop (h : host) : Nat → Script → Bool → Int → Option (Int × Script)
  | 0, _, _, _ => none
  | fuel + 1, s, execute, result =>
    if ends_block s.l.token.kind then some (result, s)
    else do
      let (r, s) ← statement h fuel s execute
      let s ← skip_newlines fuel s
      block_loop h fuel s execute (if r ≠ 0 ∧ execute then r else result)

end

def block (h : host) (fuel : Nat) (s : Script) (execute : Bool) : Option (Int × Script) :=
  close_block <$> block_loop h fuel s execute 0

/-- The lexer before the first token of a source text. -/
def lexer.start (src : Bytes) : lexer := { rest := src, line := 1, token := ⟨.K_EOF, [], 0⟩ }

/-- `main` after it has read the file: the result of the script, when it comes to one. -/
def run_script (h : host) (fuel : Nat) (src : Bytes) : Option (Int × Script) :=
  block h fuel { l := lex (.start src), vars := [], effects := [] } true

end mantle.script
