-- The shell of `shell/mantle-shell.c`: the tokens of a line, its commands, and
-- what it runs of them itself and in forked processes. A write outside of one
-- of its buffers is a fault.
import MantleOS.ScriptPass

open checked bytes ctext

namespace mantle.shell

/-! ## Tokens -/

def MAX_TOKENS : Nat := 128
def MAX_WORD : Nat := 4096

inductive token_kind
  | T_WORD
  | T_PIPE
  | T_IN
  | T_OUT
  | T_APPEND
  | T_SEMI
  | T_END
  deriving DecidableEq

structure token where
  kind : token_kind
  text : Bytes
  deriving DecidableEq

/-- What the shell process carries from line to line. -/
structure Shell where
  cwd : Bytes
  environ : List (Bytes × Bytes)
  last_status : Int
  deriving DecidableEq

def Shell.getenv (sh : Shell) (name : Bytes) : Option Bytes :=
  (sh.environ.find? (fun v => v.1 = name)).map Prod.snd

def isalnum (c : UInt8) : Bool :=
  (48 ≤ c && c ≤ 57) || (65 ≤ c && c ≤ 90) || (97 ≤ c && c ≤ 122)

/-- The value that stands for a name in `expand`. -/
def Shell.value (sh : Shell) (name : Bytes) : Bytes :=
  if name = [63] then (if sh.last_status = 0 then [48] else [49])
  else (sh.getenv name).getD []

/-- The name after a dollar and what follows it, with `none` for a dollar that stands for itself.
The buffer of the name has 256 bytes, and only the form with braces minds that. -/
def name_of (rest : Bytes) : Checked (Option (Bytes × Bytes)) :=
  if rest.head? = some 123 then
    let name := (rest.tail.takeWhile (· ≠ 125)).take 255
    let after := rest.tail.drop name.length
    .ok (some (name, if after.head? = some 125 then after.tail else after))
  else if rest.head? = some 63 then .ok (some ([63], rest.tail))
  else
    let name := rest.takeWhile (fun c => isalnum c || c = 95)
    if name = [] then .ok none
    else if name.length < 256 then .ok (some (name, rest.drop name.length))
    else .error (.bounds name.length 256)

theorem name_of_length {rest name after : Bytes} (h : name_of rest = .ok (some (name, after))) :
    after.length ≤ rest.length := by
  unfold name_of at h
  split at h
  · simp only [Except.ok.injEq, Option.some.injEq, Prod.mk.injEq] at h
    obtain ⟨-, rfl⟩ := h
    split <;> simp only [List.length_tail, List.length_drop] <;> omega
  · split at h
    · cases h
      simp
    · dsimp only at h
      split at h
      · cases h
      · split at h
        · cases h
          simp
        · cases h

/-- The text of `expand`, with the room that is left in the buffer. -/
def expand_loop (sh : Shell) (room : Nat) (input : Bytes) : Checked Bytes :=
  match input with
  | [] => .ok []
  | c :: rest =>
    if room = 0 then .ok []
    else if c ≠ 36 then do
      let text ← expand_loop sh (room - 1) rest
      return c :: text
    else
      match h : name_of rest with
      | .error fault => .error fault
      | .ok none => do
        let text ← expand_loop sh (room - 1) rest
        return 36 :: text
      | .ok (some (name, after)) => do
        let v := (sh.value name).take room
        let text ← expand_loop sh (room - v.length) after
        return v ++ text
termination_by input.length
decreasing_by
  · simp
  · simp
  · have := name_of_length h
    simp only [List.length_cons]
    omega

def expand (sh : Shell) (input : Bytes) : Checked Bytes := expand_loop sh (MAX_WORD - 1) input

/-- `raw[n] = c`. -/
def raw_store (n : Nat) : Checked Unit :=
  if n < MAX_WORD then .ok () else .error (.bounds n MAX_WORD)

/-- The bytes that end a word. -/
def ends_word (c : UInt8) : Bool := isspace c || c = 124 || c = 59 || c = 60 || c = 62

/-- The loop over a word that already has `n` bytes in `raw`: what it adds, and what follows the
word. A quoted part is read as in the lexer of the scripts, but a byte after a backslash outside
of quotes is stored without a look at the room. -/
def raw_loop (n : Nat) (rest : Bytes) : Checked (Bytes × Bytes) :=
  match rest with
  | [] => .ok ([], [])
  | c :: rest =>
    if ends_word c then .ok ([], c :: rest)
    else if c = 34 ∨ c = 39 then do
      let quoted := script.string_loop c (MAX_WORD - 2 - n) rest
      let after := if quoted.2.head? = some c then quoted.2.tail else quoted.2
      let (raw, after) ← raw_loop (n + quoted.1.length) after
      return (quoted.1 ++ raw, after)
    else
      match c, rest with
      | 92, d :: rest => do
        raw_store n
        let (raw, after) ← raw_loop (n + 1) rest
        return (d :: raw, after)
      | c, rest =>
        if n < MAX_WORD - 1 then do
          let (raw, after) ← raw_loop (n + 1) rest
          return (c :: raw, after)
        else raw_loop n rest
termination_by rest.length
decreasing_by
  · have := script.string_loop_length c (MAX_WORD - 2 - n) rest
    rw [List.length_cons]
    split
    · rw [List.length_tail]
      omega
    · omega
  · simp only [List.length_cons]
    omega
  · simp
  · simp

/-- The token and what follows it. -/
structure parser where
  token : token
  rest : Bytes
  deriving DecidableEq

def next (sh : Shell) (rest : Bytes) : Checked parser :=
  match rest.dropWhile (fun c => isspace c && c ≠ 10) with
  | [] => .ok ⟨⟨.T_END, []⟩, []⟩
  | c :: rest =>
    if c = 10 then .ok ⟨⟨.T_END, []⟩, c :: rest⟩
    else if c = 124 then .ok ⟨⟨.T_PIPE, []⟩, rest⟩
    else if c = 59 then .ok ⟨⟨.T_SEMI, []⟩, rest⟩
    else if c = 60 then .ok ⟨⟨.T_IN, []⟩, rest⟩
    else if c = 62 then
      if rest.head? = some 62 then .ok ⟨⟨.T_APPEND, []⟩, rest.tail⟩ else .ok ⟨⟨.T_OUT, []⟩, rest⟩
    else do
      let (raw, after) ← raw_loop 0 (c :: rest)
      raw_store raw.length
      let text ← expand sh raw
      return ⟨⟨.T_WORD, text⟩, after⟩

/-- One turn of the loop takes a byte at least, and goes on in what is left. -/
theorem raw_loop_turn {n : Nat} {c : UInt8} {rest raw after : Bytes} (hc : ends_word c = false)
    (h : raw_loop n (c :: rest) = .ok (raw, after)) :
    ∃ n' rest' raw', rest'.length ≤ rest.length ∧ raw_loop n' rest' = .ok (raw', after) := by
  unfold raw_loop at h
  rw [if_neg (by simp [hc])] at h
  split at h
  · obtain ⟨⟨raw', last⟩, hloop, h⟩ := bind_eq_ok.mp h
    cases h
    refine ⟨_, _, raw', ?_, hloop⟩
    have := script.string_loop_length c (MAX_WORD - 2 - n) rest
    split
    · rw [List.length_tail]
      omega
    · exact this
  · split at h
    · obtain ⟨_, -, h⟩ := bind_eq_ok.mp h
      obtain ⟨⟨raw', last⟩, hloop, h⟩ := bind_eq_ok.mp h
      cases h
      exact ⟨_, _, raw', by simp, hloop⟩
    · split at h
      · obtain ⟨⟨raw', last⟩, hloop, h⟩ := bind_eq_ok.mp h
        cases h
        exact ⟨_, _, raw', Nat.le_refl _, hloop⟩
      · exact ⟨_, _, raw, Nat.le_refl _, h⟩

theorem raw_loop_length {n : Nat} {rest raw after : Bytes}
    (h : raw_loop n rest = .ok (raw, after)) : after.length ≤ rest.length := by
  induction hk : rest.length using Nat.strong_induction_on generalizing n rest raw with
  | _ k ih =>
    cases rest with
    | nil =>
      unfold raw_loop at h
      cases h
      simp
    | cons c rest =>
      by_cases hc : ends_word c = true
      · unfold raw_loop at h
        rw [if_pos hc] at h
        cases h
        rw [hk]
      · rw [Bool.not_eq_true] at hc
        obtain ⟨n', rest', raw', hshort, hturn⟩ := raw_loop_turn hc h
        rw [List.length_cons] at hk
        have := ih rest'.length (by omega) hturn rfl
        omega

/-- The tokens other than the end take at least a byte of the line. -/
theorem next_length {sh : Shell} {rest : Bytes} {p : parser} (h : next sh rest = .ok p) :
    p.rest.length ≤ rest.length ∧ (p.token.kind ≠ .T_END → p.rest.length < rest.length) := by
  have hblank := (List.dropWhile_suffix (l := rest) (fun c => isspace c && c ≠ 10)).length_le
  unfold next at h
  split at h
  · cases h
    simp
  rename_i c rest' hrest
  rw [hrest, List.length_cons] at hblank
  split at h
  · cases h
    simp only [List.length_cons, ne_eq, not_true_eq_false, false_implies, and_true]
    omega
  rename_i hnl
  split at h
  · cases h
    exact ⟨by dsimp only; omega, fun _ => by dsimp only; omega⟩
  split at h
  · cases h
    exact ⟨by dsimp only; omega, fun _ => by dsimp only; omega⟩
  split at h
  · cases h
    exact ⟨by dsimp only; omega, fun _ => by dsimp only; omega⟩
  split at h
  · split at h
    · cases h
      have : rest'.tail.length ≤ rest'.length := by simp
      exact ⟨by dsimp only; omega, fun _ => by dsimp only; omega⟩
    · cases h
      exact ⟨by dsimp only; omega, fun _ => by dsimp only; omega⟩
  obtain ⟨⟨raw, after⟩, hraw, h⟩ := bind_eq_ok.mp h
  obtain ⟨_, -, h⟩ := bind_eq_ok.mp h
  obtain ⟨text, -, h⟩ := bind_eq_ok.mp h
  cases h
  have hhead : isspace c = false := by
    have hfirst := script.head_dropWhile hrest
    simpa [hnl] using hfirst
  have hword : ends_word c = false := by
    simp_all [ends_word]
  obtain ⟨n', rest'', raw', hshort, hturn⟩ := raw_loop_turn hword hraw
  have := raw_loop_length hturn
  exact ⟨by dsimp only; omega, fun _ => by dsimp only; omega⟩

/-! ## Commands -/

structure command where
  argv : List Bytes
  input : Option Bytes
  output : Option Bytes
  append : Bool
  deriving DecidableEq

/-- The words of a command. -/
def words (sh : Shell) (argv : List Bytes) (p : parser) : Checked (List Bytes × parser) :=
  if _ : p.token.kind = .T_WORD then
    match _ : next sh p.rest with
    | .error fault => .error fault
    | .ok q =>
      words sh (if argv.length < MAX_TOKENS - 1 then argv ++ [p.token.text] else argv) q
  else .ok (argv, p)
termination_by 2 * p.rest.length + if p.token.kind = .T_WORD then 1 else 0
decreasing_by
  rename_i hword hnext
  obtain ⟨hle, hlt⟩ := next_length hnext
  rw [if_pos hword]
  by_cases hq : q.token.kind = .T_WORD
  · have := hlt (by simp [hq])
    rw [if_pos hq]
    omega
  · rw [if_neg hq]
    omega

def is_redirection (k : token_kind) : Bool := k = .T_IN || k = .T_OUT || k = .T_APPEND

/-- The redirection of a command, with true for the `p.error` of one without its file. -/
def redirection (sh : Shell) (argv : List Bytes) (p : parser) : Checked (command × parser × Bool) :=
  let c : command := { argv, input := none, output := none, append := false }
  if is_redirection p.token.kind then do
    let file ← next sh p.rest
    if file.token.kind ≠ .T_WORD then return (c, file, true)
    else
      let after ← next sh file.rest
      if p.token.kind = .T_IN then return ({ c with input := some file.token.text }, after, false)
      else
        return ({ c with output := some file.token.text, append := p.token.kind = .T_APPEND }, after,
          false)
  else .ok (c, p, false)

/-- The loop over the commands, with the places that are left in `cmds`. -/
def parse_loop (sh : Shell) : Nat → List command → parser → Checked (List command × parser × Bool)
  | 0, cmds, p => .ok (cmds, p, false)
  | left + 1, cmds, p =>
    if p.token.kind = .T_END then .ok (cmds, p, false)
    else do
      let (argv, p) ← words sh [] p
      let (c, p, error) ← redirection sh argv p
      if error then return (cmds ++ [c], p, true)
      else if p.token.kind = .T_PIPE then
        let p ← next sh p.rest
        if p.token.kind = .T_END then return (cmds ++ [c], p, true)
        else parse_loop sh left (cmds ++ [c]) p
      else return (cmds ++ [c], p, false)

/-- The kinds of token at which the commands of a line may end. -/
def accepts (k : token_kind) : Bool := k = .T_PIPE || k = .T_END

/-- The commands of a line, with `none` for a syntax error. A line ends at its first NUL. -/
def parse (sh : Shell) (line : Bytes) : Checked (Option (List command)) := do
  let p ← next sh (cstring line)
  let (cmds, p, error) ← parse_loop sh 16 [] p
  if error || !accepts p.token.kind then return none else return some cmds

/-! ## Execution -/

/-- What the shell finds on its machine: where a `chdir` leads, whether `getcwd` has room, what
the calls of `pipe` and `fork` give one after the other on a line, and how a child ended. -/
structure Machine where
  chdir : Bytes → Bytes → Option Bytes
  getcwd : Bytes → Bool
  pipe : Nat → Option (Nat × Nat)
  fork : Nat → Option Nat
  wait : Nat → script.ending

/-- What the shell does for the command of an index: it runs a builtin itself, which leads from
one state to another, it exits, it prints a line, or it forks a child for the command. -/
inductive Event
  | builtin (index : Nat) (before after : Shell)
  | exited (index : Nat) (status : Int)
  | puts (index : Nat) (text : Bytes)
  | forked (index : Nat) (c : command) (in_fd out_fd : Nat)
  deriving DecidableEq

def builtin_names : List Bytes :=
  [ascii "cd", ascii "export", ascii "unset", ascii "pwd", ascii "exit", ascii "true", ascii "false"]

def Shell.setenv (sh : Shell) (name value : Bytes) : Shell :=
  if name = [] then sh
  else { sh with environ := sh.environ.filter (fun v => v.1 ≠ name) ++ [(name, value)] }

def Shell.unsetenv (sh : Shell) (name : Bytes) : Shell :=
  if name = [] ∨ 61 ∈ name then sh
  else { sh with environ := sh.environ.filter (fun v => v.1 ≠ name) }

/-- The arguments of `export`, which are cut at their `=`. -/
def export_loop (sh : Shell) : List Bytes → Shell × List Bytes
  | [] => (sh, [])
  | a :: rest =>
    let name := a.takeWhile (· ≠ 61)
    let sh := if 61 ∈ a then sh.setenv name (a.drop (name.length + 1)) else sh
    let (sh, args) := export_loop sh rest
    (sh, name :: args)

/-- How `builtin` comes back: with a result, the state and the arguments that it leaves and the
line that it prints, or not at all. -/
inductive builtin_end
  | returned (result : Int) (sh : Shell) (argv : List Bytes) (printed : Option Bytes)
  | exited (status : Int)

def builtin (m : Machine) (sh : Shell) (argv : List Bytes) : builtin_end :=
  match argv with
  | [] => .returned 0 sh argv none
  | name :: args =>
    if name = ascii "cd" then
      let d := if args ≠ [] then args.head? else sh.getenv (ascii "HOME")
      match m.chdir sh.cwd (d.getD (ascii "/")) with
      | some cwd => .returned 0 { sh with cwd } argv none
      | none => .returned (-1) sh argv none
    else if name = ascii "export" then
      let (after, cut) := export_loop sh args
      .returned 0 after (name :: cut) none
    else if name = ascii "unset" then .returned 0 (args.foldl Shell.unsetenv sh) argv none
    else if name = ascii "pwd" then
      if m.getcwd sh.cwd then .returned 0 sh argv (some sh.cwd) else .returned 1 sh argv none
    else if name = ascii "exit" then
      .exited (match args with | [] => 0 | a :: _ => script.atoi a)
    else if name = ascii "true" then .returned 0 sh argv none
    else if name = ascii "false" then .returned 1 sh argv none
    else .returned (-1) sh argv none

/-- The first word of the command names a builtin. -/
def is_builtin (c : command) : Bool := c.argv.head?.any (fun name => builtin_names.contains name)

/-- What one call of `execute` leaves: the state, what was done, and the value that it returns, or
the status of the `exit` that it never returns from. -/
structure Turn where
  sh : Shell
  events : List Event
  result : Except Int Int

/-- The status of a child as `waitpid` and its macros give it; without such a child the status
word stays 0. -/
def waited (m : Machine) (pid : Int) : Int :=
  match m.wait pid.toNat with
  | .exited status => status
  | .signalled => 128
  | .not_started => 0

/-- `execute` for the command of an index. Only on a line with one command it returns before its
fork, so that the fork of a command is the one with its index. -/
def execute (m : Machine) (index : Nat) (sh : Shell) (c : command) (in_fd out_fd : Nat)
    (background : Bool) : Turn :=
  match builtin m sh c.argv with
  | .exited status => { sh, events := [.exited index status], result := .error status }
  | .returned b after argv printed =>
    let own := if is_builtin c then
        .builtin index sh after :: (printed.toList.map (Event.puts index)) else []
    if 0 ≤ b ∧ in_fd = 0 ∧ out_fd = 1 ∧ background = false then
      { sh := after, events := own, result := .ok b }
    else
      match m.fork index with
      | none => { sh := after, events := own, result := .ok 127 }
      | some pid =>
        { sh := after, events := own ++ [.forked index { c with argv } in_fd out_fd]
          result := .ok (if background then pid else waited m pid) }

/-- How `run_line` ends: with a syntax error, with a status, or never, because the shell has
exited. -/
inductive outcome
  | refused
  | returned (status : Int)
  | exited (status : Int)
  deriving DecidableEq

/-- The loop over the commands, with what each call of `execute` returned. -/
def run_loop (m : Machine) (count : Nat) :
    Nat → Nat → Shell → List command → Shell × List Event × Except outcome (List Int)
  | _, _, sh, [] => (sh, [], .ok [])
  | index, in_fd, sh, c :: rest =>
    match if index + 1 < count then m.pipe index else some (in_fd, 1) with
    | none => (sh, [], .error (.returned 1))
    | some (read_fd, write_fd) =>
      let turn := execute m index sh c in_fd write_fd (1 < count)
      match turn.result with
      | .error status => (turn.sh, turn.events, .error (.exited status))
      | .ok child =>
        let (sh, events, children) := run_loop m count (index + 1) read_fd turn.sh rest
        (sh, turn.events ++ events, (child :: ·) <$> children)

/-- `run_line` after its syntax check. -/
def run_commands (m : Machine) (sh : Shell) (cmds : List command) : outcome × Shell × List Event :=
  match run_loop m cmds.length 0 0 sh cmds with
  | (sh, events, .error early) => (early, sh, events)
  | (sh, events, .ok children) =>
    let child := children.getLast?.getD 0
    let last := if 1 < cmds.length then waited m child else child
    (.returned last, { sh with last_status := last }, events)

def run_line (m : Machine) (sh : Shell) (line : Bytes) : Checked (outcome × Shell × List Event) := do
  let cmds ← parse sh line
  match cmds with
  | none => return (.refused, sh, [])
  | some cmds => return run_commands m sh cmds

end mantle.shell
