-- What a program of the grammar means, and the interpreter on every source text
-- that spells one: it runs the statements whose guards all hold, in order and
-- once each, and skips the others, with the tokens of each subtree in step.
import MantleOS.ScriptGrammar
import MantleOS.ScriptHalts

open bytes ctext checked

namespace mantle.script

/-! ## The meaning of a program -/

/-- What a program has done: its variables, its effects, and the statuses of its commands. -/
structure World where
  vars : List value
  effects : List effect
  statuses : List Int
  deriving DecidableEq

def ending.status : ending → Int
  | .exited status => status
  | .signalled => 128
  | .not_started => 127

namespace World

def store (h : host) (w : World) (name text : Bytes) : World :=
  { w with vars := w.vars ++ [⟨name, interpolate h w.vars text⟩] }

def print (h : host) (w : World) (text : Bytes) : World :=
  { w with effects := w.effects ++ [.puts (interpolate h w.vars text)] }

/-- A command with one argument for each token. -/
def run (h : host) (w : World) (tokens : List Bytes) : World :=
  let argv := tokens.map (interpolate h w.vars)
  { w with
    effects := w.effects ++ [.run argv]
    statuses := w.statuses ++ [(h.launch w.effects argv).status] }

end World

def Guard.holds (h : host) (w : World) : Guard → Bool
  | .if_exists command => command_exists h w.effects command.text
  | .require_admin => decide (h.geteuid = 0)

/-- The statements of a program in order, the body of a guard only when it holds. An `exit` ends
the program. -/
def eval (h : host) : Program → World → World
  | .done, w => w
  | .let_ name value rest, w => eval h rest (w.store h name value.text)
  | .print text rest, w => eval h rest (w.print h text.text)
  | .run command args rest, w => eval h rest (w.run h (command :: args.map Operand.text))
  | .guard g body rest, w => eval h rest (if g.holds h w then eval h body w else w)
  | .exit _ _, w => w

/-- The last status that is not 0, or 0. -/
def lastFailure (statuses : List Int) : Int := (statuses.filter (· ≠ 0)).getLast?.getD 0

namespace Program

def exits : Program → Bool
  | .done => false
  | .let_ _ _ rest => rest.exits
  | .print _ rest => rest.exits
  | .run _ _ rest => rest.exits
  | .guard _ body rest => body.exits || rest.exits
  | .exit _ _ => true

/-- The number of its `let` statements. -/
def lets : Program → Nat
  | .done => 0
  | .let_ _ _ rest => rest.lets + 1
  | .print _ rest => rest.lets
  | .run _ _ rest => rest.lets
  | .guard _ body rest => body.lets + rest.lets
  | .exit _ rest => rest.lets

/-- Names are under 64 bytes, and a `run` has at most 63 tokens after it. -/
def fits : Program → Bool
  | .done => true
  | .let_ name _ rest => name.length < 64 && rest.fits
  | .print _ rest => rest.fits
  | .run _ args rest => args.length + 1 ≤ 63 && rest.fits
  | .guard _ body rest => body.fits && rest.fits
  | .exit _ rest => rest.fits

end Program

theorem lastFailure_append (a b : List Int) :
    lastFailure (a ++ b) = if lastFailure b ≠ 0 then lastFailure b else lastFailure a := by
  unfold lastFailure
  rw [List.filter_append, List.getLast?_append]
  cases hlast : (b.filter (· ≠ 0)).getLast? with
  | none => simp
  | some r =>
    have hr : r ≠ 0 := by simpa using List.of_mem_filter (List.mem_of_getLast? hlast)
    simp [hr]

theorem lastFailure_snoc (a : List Int) (r : Int) :
    lastFailure (a ++ [r]) = if r ≠ 0 then r else lastFailure a := by
  have hone : lastFailure [r] = r := by
    by_cases hr : r = 0 <;> simp [lastFailure, hr]
  rw [lastFailure_append, hone]

/-- The statuses of before play no part. -/
theorem eval_statuses (h : host) (p : Program) (w : World) (before : List Int) :
    eval h p { w with statuses := before ++ w.statuses } =
      { eval h p w with statuses := before ++ (eval h p w).statuses } := by
  induction p generalizing w with
  | done => rfl
  | let_ name value rest ih => exact ih (w.store h name value.text)
  | print text rest ih => exact ih (w.print h text.text)
  | run command args rest ih =>
    have hrun := ih (w.run h (command :: args.map Operand.text))
    simpa [eval, World.run] using hrun
  | guard g body rest ihb ihr =>
    have hholds : g.holds h { w with statuses := before ++ w.statuses } = g.holds h w := by cases g <;> rfl
    simp only [eval, hholds]
    split
    · rw [ihb w]
      exact ihr (eval h body w)
    · exact ihr w
  | exit code rest => rfl

theorem eval_vars_length (h : host) (p : Program) (w : World) :
    (eval h p w).vars.length ≤ w.vars.length + p.lets := by
  induction p generalizing w with
  | done => simp [eval, Program.lets]
  | let_ name value rest ih =>
    have hrest := ih (w.store h name value.text)
    simp only [eval, Program.lets, World.store, List.length_append, List.length_singleton] at *
    omega
  | print text rest ih => exact ih (w.print h text.text)
  | run command args rest ih => exact ih (w.run h (command :: args.map Operand.text))
  | guard g body rest ihb ihr =>
    simp only [eval, Program.lets]
    split
    · have hbody := ihb w
      have hrest := ihr (eval h body w)
      omega
    · have hrest := ihr w
      omega
  | exit code rest => simp [eval]

/-! ## Newlines -/

/-- The state of the interpreter in a world. -/
def World.at (w : World) (l : lexer) : Script := ⟨l, w.vars, w.effects⟩

@[simp] theorem World.at_l (w : World) (l : lexer) : (w.at l).l = l := rfl

@[simp] theorem World.at_lexed (w : World) (l : lexer) : (w.at l).lexed = w.at (lex l) := rfl

theorem skip_newlines_none {s : Script} (hnewline : is_newline s.l.token.kind = false) :
    Settles (fun fuel => skip_newlines fuel s) s := by
  refine (Settles.some s).succ fun fuel => ?_
  simp [skip_newlines, lex_while, hnewline, Script.at]

theorem skip_newlines_one {s s' : Script} (hnewline : is_newline s.l.token.kind = true)
    (hrest : Settles (fun fuel => skip_newlines fuel s.lexed) s') :
    Settles (fun fuel => skip_newlines fuel s) s' := by
  refine hrest.succ fun fuel => ?_
  simp only [skip_newlines, lex_while, hnewline, if_true]
  rfl

/-- After its newlines the loop of a block comes to `r`. -/
def LoopRuns (h : host) (s : Script) (execute : Bool) (result : Int) (r : Int × Script) : Prop :=
  ∃ s', Settles (fun fuel => skip_newlines fuel s) s' ∧ is_newline s'.l.token.kind = false ∧
    Settles (fun fuel => block_loop h fuel s' execute result) r

variable {h : host} {s : Script} {execute : Bool} {result : Int} {r : Int × Script}

theorem LoopRuns.here (hnewline : is_newline s.l.token.kind = false)
    (hloop : Settles (fun fuel => block_loop h fuel s execute result) r) :
    LoopRuns h s execute result r := ⟨s, skip_newlines_none hnewline, hnewline, hloop⟩

theorem LoopRuns.newline (hnewline : is_newline s.l.token.kind = true)
    (hrest : LoopRuns h s.lexed execute result r) : LoopRuns h s execute result r := by
  obtain ⟨s', hskip, hend, hloop⟩ := hrest
  exact ⟨s', skip_newlines_one hnewline hskip, hend, hloop⟩

theorem block_loop_end (hend : ends_block s.l.token.kind = true) :
    Settles (fun fuel => block_loop h fuel s execute result) (result, s) :=
  (Settles.some _).succ fun fuel => by rw [block_loop, if_pos hend]

/-- A statement, and then the rest of the block. -/
theorem block_loop_statement {r1 : Int} {s1 : Script} (hend : ends_block s.l.token.kind = false)
    (hstatement : Settles (fun fuel => statement h fuel s execute) (r1, s1))
    (hrest : LoopRuns h s1 execute (if r1 ≠ 0 ∧ execute then r1 else result) r) :
    Settles (fun fuel => block_loop h fuel s execute result) r := by
  obtain ⟨s2, hskip, -, hloop⟩ := hrest
  have hafter : Settles (fun fuel => skip_newlines fuel s1 >>= fun s =>
      block_loop h fuel s execute (if r1 ≠ 0 ∧ execute then r1 else result)) r := hskip.bind hloop
  refine (hstatement.bind (g := fun x fuel => skip_newlines fuel x.2 >>= fun s =>
    block_loop h fuel s execute (if x.1 ≠ 0 ∧ execute then x.1 else result)) hafter).succ
      fun fuel => ?_
  rw [block_loop, if_neg (by simp [hend])]

theorem newline_goes_on {k : kind} (hk : is_newline k = true) : ends_block k = false := by
  cases k <;> simp_all [is_newline, ends_block]

/-- The statement after some newlines is the statement. -/
theorem statement_newlines (h : host) (execute : Bool) {s' : Script} (hskip : Settles (fun fuel => skip_newlines fuel s) s')
    (hnewline : is_newline s'.l.token.kind = false) :
    ∃ n, ∀ fuel, n ≤ fuel → statement h fuel s execute = statement h fuel s' execute := by
  obtain ⟨n, hn⟩ := hskip
  obtain ⟨k, hk⟩ := skip_newlines_none hnewline
  refine ⟨n + k + 1, fun fuel hfuel => ?_⟩
  obtain ⟨fuel, rfl⟩ : ∃ f, fuel = f + 1 := ⟨fuel - 1, by omega⟩
  rw [statement, statement]
  simp only [hn fuel (by omega), hk fuel (by omega)]

/-- A statement that starts here. -/
theorem statement_here (hnewline : is_newline s.l.token.kind = false)
    (hrest : Settles (fun fuel =>
      if ends_block s.l.token.kind then some (0, s)
      else if s.l.token.kind ≠ .K_WORD then some (2, s.complain (ascii "mot attendu"))
      else keyword_statement h (fun s execute => close_block <$> block_loop h fuel s execute 0) fuel
        (s.l.token.text.take 63) s.lexed execute) r) :
    Settles (fun fuel => statement h fuel s execute) r :=
  ((skip_newlines_none hnewline).bind hrest).succ fun fuel => by rw [statement]

theorem statement_end (h : host) (execute : Bool) (hnewline : is_newline s.l.token.kind = false)
    (hend : ends_block s.l.token.kind = true) :
    Settles (fun fuel => statement h fuel s execute) (0, s) := by
  apply statement_here hnewline
  simp only [hend, if_true]
  exact Settles.some (0, s)

/-- A block is entered before its newlines. -/
theorem LoopRuns.enter (hruns : LoopRuns h s execute result r) :
    Settles (fun fuel => block_loop h fuel s execute result) r := by
  obtain ⟨s', hskip, hend, hloop⟩ := hruns
  cases hnewline : is_newline s.l.token.kind with
  | false =>
    rw [hskip.unique (skip_newlines_none hnewline)] at hloop
    exact hloop
  | true =>
    have hgoes := newline_goes_on hnewline
    obtain ⟨n, hn⟩ := statement_newlines h execute hskip hend
    cases hend' : ends_block s'.l.token.kind with
    | true =>
      -- the block has nothing but newlines
      rw [hloop.unique (block_loop_end hend')]
      obtain ⟨k, hk⟩ := statement_end h execute hend hend'
      have hnothing : Settles (fun fuel => statement h fuel s execute) (0, s') :=
        ⟨n + k, fun fuel hfuel => (hn fuel (by omega)).trans (hk fuel (by omega))⟩
      refine block_loop_statement hgoes hnothing ?_
      rw [if_neg (by simp)]
      exact .here hend (block_loop_end hend')
    | false =>
      obtain ⟨k, hk⟩ := hloop
      refine ⟨n + k + 1, fun fuel hfuel => ?_⟩
      obtain ⟨fuel, rfl⟩ : ∃ f, fuel = f + 1 := ⟨fuel - 1, by omega⟩
      have hsame : block_loop h (fuel + 1) s' execute result = some r := hk (fuel + 1) (by omega)
      show block_loop h (fuel + 1) s execute result = some r
      rw [block_loop, if_neg (by simp [hend'])] at hsame
      rw [block_loop, if_neg (by simp [hgoes]), hn fuel (by omega)]
      exact hsame

/-! ## The statements -/

variable {w : World} {l : lexer} {k : List Lexeme}

theorem Faces.newline (hfaces : Faces l (mark .K_NEWLINE :: k)) : is_newline l.token.kind = true := by
  have hkind : l.token.kind = .K_NEWLINE := hfaces.1
  rw [hkind]
  rfl

/-- A statement starts with its keyword. -/
theorem statement_keyword {keyword : Bytes} (hfaces : Faces l (word keyword :: k))
    (hlength : keyword.length ≤ 63)
    (hrest : Settles (fun fuel => keyword_statement h
      (fun s execute => close_block <$> block_loop h fuel s execute 0) fuel keyword (w.at (lex l)) execute) r) :
    Settles (fun fuel => statement h fuel (w.at l) execute) r := by
  obtain ⟨hkind, htext, -⟩ := hfaces
  have hkind : l.token.kind = .K_WORD := hkind
  have htext : l.token.text.take 63 = keyword := by rw [htext]; exact List.take_of_length_le hlength
  apply statement_here
  · simp [hkind, is_newline]
  · simpa [hkind, htext, ends_block] using hrest

theorem Operand.is_text (o : Operand) : script.is_text o.lexeme.kind = true := by
  unfold Operand.lexeme
  cases o.quoted <;> rfl

theorem let_statement_runs (h : host) (w : World) (execute : Bool) {name : Bytes} (value : Operand)
    (hname : name.length < 64)
    (hroom : execute = true → w.vars.length < 128)
    (hfaces : Faces l (word name :: mark .K_EQ :: value.lexeme :: k)) :
    ∃ l', let_statement h (w.at l) execute =
        (0, (if execute then w.store h name value.text else w).at l') ∧ Faces l' k := by
  obtain ⟨hkind, htext, heq, -, hvalue, hvtext, hrest⟩ := hfaces
  have hkind : l.token.kind = .K_WORD := hkind
  have heq : (lex l).token.kind = .K_EQ := heq
  have hvalue : script.is_text (lex (lex l)).token.kind = true := by rw [hvalue]; exact value.is_text
  have htext : l.token.text.take 63 = name := by rw [htext]; exact List.take_of_length_le (by simp [word]; omega)
  refine ⟨lex (lex (lex l)), ?_, hrest⟩
  have hvtext : (lex (lex l)).token.text = value.text := hvtext
  cases execute with
  | true => simp [let_statement, hkind, heq, hvalue, htext, hvtext, hroom, World.at, World.store, Script.lexed]
  | false => simp [let_statement, hkind, heq, hvalue, World.at, Script.lexed]

theorem print_statement_runs (h : host) (w : World) (execute : Bool) {text : Operand} (hfaces : Faces l (text.lexeme :: k)) :
    ∃ l', print_statement h (w.at l) execute =
        (0, (if execute then w.print h text.text else w).at l') ∧ Faces l' k := by
  obtain ⟨hkind, htext, hrest⟩ := hfaces
  have hkind : script.is_text l.token.kind = true := by rw [hkind]; exact text.is_text
  have htext : l.token.text = text.text := htext
  refine ⟨lex l, ?_, hrest⟩
  cases execute with
  | true => simp [print_statement, hkind, htext, World.at, World.print, Script.lexed]
  | false => simp [print_statement, hkind, World.at, Script.lexed]

/-- Each token becomes one argument. -/
theorem run_loop_runs (h : host) (w : World) (args : List Operand) (acc : List Bytes)
    (hroom : acc.length + args.length ≤ 63)
    (hfaces : Faces l (args.map Operand.lexeme ++ mark .K_NEWLINE :: k)) :
    ∃ l', Settles (fun fuel => run_loop h fuel acc (w.at l))
        (acc ++ args.map (fun o => interpolate h w.vars o.text), w.at l') ∧
      Faces l' (mark .K_NEWLINE :: k) := by
  induction args generalizing acc l with
  | nil =>
    refine ⟨l, (Settles.some _).succ fun fuel => ?_, hfaces⟩
    have hkind : l.token.kind = .K_NEWLINE := hfaces.1
    simp [run_loop, hkind, script.is_text]
  | cons o args ih =>
    obtain ⟨hkind, htext, hrest⟩ := hfaces
    have hkind : script.is_text l.token.kind = true := by rw [hkind]; exact o.is_text
    have htext : l.token.text = o.text := htext
    rw [List.length_cons] at hroom
    obtain ⟨l', hsettles, hfaces'⟩ := ih (acc ++ [interpolate h w.vars o.text])
      (by rw [List.length_append, List.length_singleton]; omega) hrest
    refine ⟨l', ?_, hfaces'⟩
    rw [List.map_cons, ← List.singleton_append, ← List.append_assoc]
    refine hsettles.succ fun fuel => ?_
    rw [run_loop, World.at_l, if_pos hkind]
    dsimp only
    rw [if_pos (by omega), htext]
    rfl

theorem run_argv_runs {tokens : List Bytes} (htokens : tokens ≠ []) :
    run_argv h (tokens.map (interpolate h w.vars)) (w.at l) =
      ((h.launch w.effects (tokens.map (interpolate h w.vars))).status, (w.run h tokens).at l) := by
  unfold run_argv
  rw [if_neg (by simpa using htokens)]
  simp only [World.at, World.run]
  cases h.launch w.effects (tokens.map (interpolate h w.vars)) <;> rfl

theorem run_statement_runs (h : host) (w : World) (execute : Bool) {command : Bytes} {args : List Operand} (hroom : args.length + 1 ≤ 63)
    (hfaces : Faces l (word command :: (args.map Operand.lexeme ++ mark .K_NEWLINE :: k))) :
    ∃ l', Settles (fun fuel => run_statement h fuel (w.at l) execute)
        (if execute then
          ((h.launch w.effects ((command :: args.map Operand.text).map (interpolate h w.vars))).status,
            (w.run h (command :: args.map Operand.text)).at l')
        else (0, w.at l')) ∧
      Faces l' (mark .K_NEWLINE :: k) := by
  obtain ⟨l', hloop, hrest⟩ := run_loop_runs h w (⟨false, command⟩ :: args) []
    (by simp only [List.length_nil, List.length_cons]; omega) hfaces
  refine ⟨l', ?_, hrest⟩
  rw [List.nil_append] at hloop
  have hargs : (Operand.mk false command :: args).map (fun o => interpolate h w.vars o.text) =
      (command :: args.map Operand.text).map (interpolate h w.vars) := by simp
  cases execute with
  | true =>
    have hrun := hloop.bind (g := fun x _ => Option.some (run_argv h x.1 x.2)) (Settles.some _)
    rw [hargs, run_argv_runs (List.cons_ne_nil _ _)] at hrun
    exact hrun
  | false =>
    rw [if_neg Bool.false_ne_true]
    exact hloop.bind (Settles.some (0, w.at l'))

theorem newlines_run {n : Nat} (hfaces : Faces l (List.replicate n (mark .K_NEWLINE) ++ mark .K_LBRACE :: k)) :
    ∃ l', Settles (fun fuel => skip_newlines fuel (w.at l)) (w.at l') ∧ Faces l' (mark .K_LBRACE :: k) := by
  induction n generalizing l with
  | zero =>
    have hkind : l.token.kind = .K_LBRACE := hfaces.1
    exact ⟨l, skip_newlines_none (by simp [hkind, is_newline]), hfaces⟩
  | succ n ih =>
    obtain ⟨l', hskip, hrest⟩ := ih hfaces.2.2
    exact ⟨l', skip_newlines_one (Faces.newline hfaces) hskip, hrest⟩

/-- The brace and the block of a guard. -/
theorem guard_statement_runs (h : host) (w : World) (execute condition : Bool) {n : Nat}
    (hfaces : Faces l (List.replicate n (mark .K_NEWLINE) ++ mark .K_LBRACE :: k)) :
    ∃ l', Faces l' k ∧ ∀ r, Settles (fun fuel => block_loop h fuel (w.at l') (execute && condition) 0) r →
      Settles (fun fuel => guard_statement (fun s execute => close_block <$> block_loop h fuel s execute 0) fuel
        (some condition, w.at l) execute) (close_block r) := by
  obtain ⟨l1, hskip, hbrace, -, hrest⟩ := newlines_run (w := w) hfaces
  have hbrace : l1.token.kind = .K_LBRACE := hbrace
  refine ⟨lex l1, hrest, fun r hblock => ?_⟩
  refine hskip.bind ?_
  simpa [hbrace] using hblock.map close_block

theorem keyword_if (block : Script → Bool → Option (Int × Script)) (fuel : Nat) (s : Script) :
    keyword_statement h block fuel (ascii "if") s execute =
      guard_statement block fuel (exists_condition h s) execute := by
  rw [keyword_statement, if_neg (by decide), if_neg (by decide), if_neg (by decide),
    if_pos (.inl rfl), if_neg (by decide)]

theorem keyword_require (block : Script → Bool → Option (Int × Script)) (fuel : Nat) (s : Script) :
    keyword_statement h block fuel (ascii "require") s execute =
      guard_statement block fuel (require_condition h s) execute := by
  rw [keyword_statement, if_neg (by decide), if_neg (by decide), if_neg (by decide),
    if_pos (.inr rfl), if_pos rfl]

theorem exists_condition_runs {command : Operand} (hfaces : Faces l (word (ascii "command.exists") ::
      mark .K_LP :: command.lexeme :: mark .K_RP :: k)) :
    ∃ l', exists_condition h (w.at l) = (some (command_exists h w.effects command.text), w.at l') ∧
      Faces l' k := by
  obtain ⟨hkind, htext, hopen, -, htkind, hctext, hclose, -, hrest⟩ := hfaces
  have hkind : l.token.kind = .K_WORD := hkind
  have htext : l.token.text = ascii "command.exists" := htext
  have hopen : (lex l).token.kind = .K_LP := hopen
  have htkind : script.is_text (lex (lex l)).token.kind = true := by rw [htkind]; exact command.is_text
  have hctext : (lex (lex l)).token.text = command.text := hctext
  have hclose : (lex (lex (lex l))).token.kind = .K_RP := hclose
  refine ⟨lex (lex (lex (lex l))), ?_, hrest⟩
  simp [exists_condition, hkind, htext, hopen, htkind, hctext, hclose, World.at, Script.lexed]

theorem require_condition_runs (hfaces : Faces l (word (ascii "admin") :: k)) :
    ∃ l', require_condition h (w.at l) = (some (decide (h.geteuid = 0)), w.at l') ∧ Faces l' k := by
  obtain ⟨hkind, htext, hrest⟩ := hfaces
  have hkind : l.token.kind = .K_WORD := hkind
  have htext : l.token.text = ascii "admin" := htext
  exact ⟨lex l, by simp [require_condition, hkind, htext], hrest⟩

/-- The keyword and the condition of a guard. -/
theorem guard_runs (h : host) (w : World) (execute : Bool) {g : Guard} (hfaces : Faces l (g.lexemes ++ k)) :
    ∃ l', Faces l' k ∧ ∀ r, Settles (fun fuel => guard_statement
        (fun s execute => close_block <$> block_loop h fuel s execute 0) fuel
        (some (g.holds h w), w.at l') execute) r →
      Settles (fun fuel => statement h fuel (w.at l) execute) r := by
  cases g with
  | if_exists command =>
    obtain ⟨l', hcondition, hrest⟩ := exists_condition_runs (h := h) (w := w) hfaces.2.2
    refine ⟨l', hrest, fun r hguard => statement_keyword hfaces (by decide) ?_⟩
    simp only [keyword_if, hcondition]
    exact hguard
  | require_admin =>
    obtain ⟨l', hcondition, hrest⟩ := require_condition_runs (h := h) (w := w) hfaces.2.2
    refine ⟨l', hrest, fun r hguard => statement_keyword hfaces (by decide) ?_⟩
    simp only [keyword_require, hcondition]
    exact hguard

/-! ## The programs -/

/-- What is left of a program in a block with this flag. -/
def evalIf (h : host) (execute : Bool) (p : Program) (w : World) : World := if execute then eval h p w else w

theorem evalIf_statuses (h : host) (execute : Bool) (p : Program) (w : World) :
    evalIf h execute p w = { evalIf h execute p { w with statuses := [] } with
      statuses := w.statuses ++ (evalIf h execute p { w with statuses := [] }).statuses } := by
  cases execute with
  | false => simp [evalIf]
  | true => simpa [evalIf] using eval_statuses h p { w with statuses := [] } w.statuses

theorem evalIf_vars_length (h : host) (execute : Bool) (p : Program) (w : World) :
    (evalIf h execute p w).vars.length ≤ w.vars.length + p.lets := by
  cases execute with
  | false => simp [evalIf]
  | true => exact eval_vars_length h p w

theorem close_block_at {status : Int} (hclose : l.token.kind = .K_RBRACE) :
    close_block (status, w.at l) = (status, w.at (lex l)) := by
  simp [close_block, hclose]

theorem guard_word {g : Guard} (hfaces : Faces l (g.lexemes ++ k)) : l.token.kind = .K_WORD := by
  cases g <;> exact hfaces.1

/-- The end of a block, or of the file. -/
def Closes (k : List Lexeme) : Prop := k = [] ∨ ∃ ts, k = mark .K_RBRACE :: ts

theorem Closes.ends_block (hk : Closes k) (hfaces : Faces l k) : script.ends_block l.token.kind = true := by
  rcases hk with rfl | ⟨ts, rfl⟩
  · have hkind : l.token.kind = .K_EOF := hfaces
    simp [hkind, script.ends_block]
  · have hkind : l.token.kind = .K_RBRACE := hfaces.1
    simp [hkind, script.ends_block]

theorem not_newline_of_ends {k : kind} (hk : ends_block k = true) : is_newline k = false := by
  cases k <;> simp_all [is_newline, ends_block]

/-- A statement of the program, and then the rest of it. -/
theorem LoopRuns.statement {r1 : Int} {s1 : Script} (hkind : l.token.kind = .K_WORD)
    (hstatement : Settles (fun fuel => script.statement h fuel (w.at l) execute) (r1, s1))
    (hrest : LoopRuns h s1 execute (if r1 ≠ 0 ∧ execute then r1 else result) r) :
    LoopRuns h (w.at l) execute result r := by
  apply LoopRuns.here
  · simp [hkind, is_newline]
  · exact block_loop_statement (by simp [hkind, ends_block]) hstatement hrest

/-- What the loop of a block makes of a program: by the flag, its meaning or nothing. -/
def Means (h : host) (p : Program) (ts : List Lexeme) : Prop :=
  p.exits = false → p.fits = true → ∀ (w : World) (l : lexer) (k : List Lexeme) (execute : Bool),
    (execute = true → w.vars.length + p.lets ≤ 128) → Closes k → Faces l (ts ++ k) →
    ∃ l', LoopRuns h (w.at l) execute (lastFailure w.statuses)
        (lastFailure (evalIf h execute p w).statuses, (evalIf h execute p w).at l') ∧ Faces l' k

theorem let_means {name : Bytes} {value : Operand} {rest : Program} {ts : List Lexeme}
    (ih : Means h rest ts) : Means h (.let_ name value rest)
      (word (ascii "let") :: word name :: mark .K_EQ :: value.lexeme :: mark .K_NEWLINE :: ts) := by
  intro hexits hfits w l k execute hlets hk hfaces
  simp only [Program.fits, Bool.and_eq_true, decide_eq_true_eq] at hfits
  rw [Program.lets] at hlets
  obtain ⟨l1, hlet, hrest⟩ := let_statement_runs h w execute value hfits.1
    (fun hexec => by have := hlets hexec; omega) hfaces.2.2
  have hstatement : Settles (fun fuel => statement h fuel (w.at l) execute)
      (0, (if execute then w.store h name value.text else w).at l1) := by
    apply statement_keyword hfaces (by decide)
    simp only [keyword_statement, if_true, hlet]
    exact Settles.some _
  obtain ⟨l', hruns, hend⟩ := ih hexits hfits.2 (if execute then w.store h name value.text else w) (lex l1) k
    execute (fun hexec => by
      have := hlets hexec
      simp only [hexec, if_true, World.store, List.length_append, List.length_singleton]
      omega) hk hrest.2.2
  refine ⟨l', LoopRuns.statement hfaces.1 hstatement (LoopRuns.newline hrest.newline ?_), hend⟩
  cases execute <;> exact hruns

theorem print_means {text : Operand} {rest : Program} {ts : List Lexeme} (ih : Means h rest ts) :
    Means h (.print text rest) (word (ascii "print") :: text.lexeme :: mark .K_NEWLINE :: ts) := by
  intro hexits hfits w l k execute hlets hk hfaces
  obtain ⟨l1, hprint, hrest⟩ := print_statement_runs h w execute hfaces.2.2
  have hstatement : Settles (fun fuel => statement h fuel (w.at l) execute)
      (0, (if execute then w.print h text.text else w).at l1) := by
    apply statement_keyword hfaces (by decide)
    simp only [keyword_statement, (by decide : ascii "print" ≠ ascii "let"), if_false, if_true, hprint]
    exact Settles.some _
  obtain ⟨l', hruns, hend⟩ := ih hexits hfits (if execute then w.print h text.text else w) (lex l1) k execute
    (by cases execute <;> exact hlets) hk hrest.2.2
  refine ⟨l', LoopRuns.statement hfaces.1 hstatement (LoopRuns.newline hrest.newline ?_), hend⟩
  cases execute <;> exact hruns

theorem run_means {command : Bytes} {args : List Operand} {rest : Program} {ts : List Lexeme}
    (ih : Means h rest ts) : Means h (.run command args rest)
      (word (ascii "run") :: word command :: (args.map Operand.lexeme ++ mark .K_NEWLINE :: ts)) := by
  intro hexits hfits w l k execute hlets hk hfaces
  simp only [Program.fits, Bool.and_eq_true, decide_eq_true_eq] at hfits
  have hfaces' : Faces l (word (ascii "run") :: word command ::
      (args.map Operand.lexeme ++ mark .K_NEWLINE :: (ts ++ k))) := by simpa using hfaces
  obtain ⟨l1, hrun, hrest⟩ := run_statement_runs h w execute hfits.1 hfaces'.2.2
  have hkeyword : Settles (fun fuel => keyword_statement h
      (fun s execute => close_block <$> block_loop h fuel s execute 0) fuel (ascii "run") (w.at (lex l)) execute)
      (if execute then
        ((h.launch w.effects ((command :: args.map Operand.text).map (interpolate h w.vars))).status,
          (w.run h (command :: args.map Operand.text)).at l1)
      else (0, w.at l1)) := by
    simp only [keyword_statement, (by decide : ascii "run" ≠ ascii "let"),
      (by decide : ascii "run" ≠ ascii "print"), if_false, if_true]
    exact hrun
  have hstatement := statement_keyword hfaces' (by decide) hkeyword
  have hnewline := hrest.newline
  cases execute with
  | false =>
    obtain ⟨l', hruns, hend⟩ := ih hexits hfits.2 w (lex l1) k false (by simp) hk hrest.2.2
    exact ⟨l', LoopRuns.statement hfaces.1 hstatement (LoopRuns.newline hnewline hruns), hend⟩
  | true =>
    obtain ⟨l', hruns, hend⟩ := ih hexits hfits.2 (w.run h (command :: args.map Operand.text)) (lex l1) k true
      hlets hk hrest.2.2
    refine ⟨l', LoopRuns.statement hfaces.1 hstatement (LoopRuns.newline hnewline ?_), hend⟩
    have hresult : lastFailure (w.run h (command :: args.map Operand.text)).statuses =
        if (h.launch w.effects ((command :: args.map Operand.text).map (interpolate h w.vars))).status ≠ 0 ∧
            true = true
          then (h.launch w.effects ((command :: args.map Operand.text).map (interpolate h w.vars))).status
          else lastFailure w.statuses := by
      rw [World.run, lastFailure_snoc]
      simp only [and_true]
    rw [hresult] at hruns
    exact hruns

theorem guard_means {g : Guard} {n : Nat} {body rest : Program} {inner ts : List Lexeme}
    (ihb : Means h body inner) (ihr : Means h rest ts) : Means h (.guard g body rest)
      (g.lexemes ++ (List.replicate n (mark .K_NEWLINE) ++
        mark .K_LBRACE :: (inner ++ mark .K_RBRACE :: ts))) := by
  intro hexits hfits w l k execute hlets hk hfaces
  simp only [Program.exits, Bool.or_eq_false_iff] at hexits
  simp only [Program.fits, Bool.and_eq_true] at hfits
  rw [Program.lets] at hlets
  have hfaces' : Faces l (g.lexemes ++ (List.replicate n (mark .K_NEWLINE) ++
      mark .K_LBRACE :: (inner ++ mark .K_RBRACE :: (ts ++ k)))) := by simpa using hfaces
  obtain ⟨l1, hbrace, hguard⟩ := guard_runs h w execute hfaces'
  obtain ⟨l2, hinner, hblock⟩ := guard_statement_runs h w execute (g.holds h w) hbrace
  -- the block starts with the result 0
  obtain ⟨l3, hbody, hclose, -, hrest⟩ := ihb hexits.1 hfits.1 { w with statuses := [] } l2
    (mark .K_RBRACE :: (ts ++ k)) (execute && g.holds h w) (fun hflag => by
      have := hlets (Bool.and_eq_true_iff.mp hflag).1
      show w.vars.length + body.lets ≤ 128
      omega) (.inr ⟨_, rfl⟩) hinner
  have hclose : l3.token.kind = .K_RBRACE := hclose
  have hstatement := hguard _ (hblock _ hbody.enter)
  rw [close_block_at hclose] at hstatement
  have hworld := evalIf_statuses h (execute && g.holds h w) body w
  obtain ⟨l', hruns, hend⟩ := ihr hexits.2 hfits.2 (evalIf h (execute && g.holds h w) body w) (lex l3) k execute
    (fun hexec => by
      have := hlets hexec
      have := evalIf_vars_length h (execute && g.holds h w) body w
      omega) hk hrest
  refine ⟨l', LoopRuns.statement (guard_word hfaces') hstatement ?_, hend⟩
  have hat : (evalIf h (execute && g.holds h w) body { w with statuses := [] }).at (lex l3) =
      (evalIf h (execute && g.holds h w) body w).at (lex l3) := by
    rw [hworld]
    rfl
  have hresult : (if lastFailure (evalIf h (execute && g.holds h w) body { w with statuses := [] }).statuses ≠ 0 ∧
        execute then lastFailure (evalIf h (execute && g.holds h w) body { w with statuses := [] }).statuses
      else lastFailure w.statuses) = lastFailure (evalIf h (execute && g.holds h w) body w).statuses := by
    rw [hworld, lastFailure_append]
    cases execute with
    | false => simp [evalIf, lastFailure]
    | true => simp only [and_true]
  have heval : evalIf h execute (.guard g body rest) w =
      evalIf h execute rest (evalIf h (execute && g.holds h w) body w) := by
    cases execute <;> rfl
  rw [hat, hresult, heval]
  exact hruns

/-- By induction on the layout of the program. -/
theorem lines_mean (h : host) {p : Program} {ts : List Lexeme} (hlines : Lines p ts) : Means h p ts := by
  induction hlines with
  | done =>
    intro _ _ w l k execute _ hk hfaces
    have hend := hk.ends_block hfaces
    refine ⟨l, LoopRuns.here (not_newline_of_ends hend) ?_, hfaces⟩
    cases execute <;> exact block_loop_end hend
  | blank _ ih =>
    intro hexits hfits w l k execute hlets hk hfaces
    obtain ⟨l', hruns, hend⟩ := ih hexits hfits w (lex l) k execute hlets hk hfaces.2.2
    exact ⟨l', LoopRuns.newline hfaces.newline hruns, hend⟩
  | let_ name value _ ih => exact let_means ih
  | print text _ ih => exact print_means ih
  | run command args _ ih => exact run_means ih
  | guard g newlines _ _ ihb ihr => exact guard_means ihb ihr
  | exit code _ _ =>
    intro hexits
    cases hexits

/-! ## The law -/

/-- Every source text that spells a program of the grammar, without `exit` and within the limits of
the interpreter, is run to its end: the variables, the printed lines and the commands are those
of the meaning of the program, in its order, and the status is that of the last command that
failed, or 0. -/
theorem a_program_is_run_as_written (h : host) (p : Program) (ts : List Lexeme) (src : Bytes)
    (hlines : Lines p ts) (hsrc : Spelled ts src) (htexts : ∀ t ∈ ts, t.text.length < 512)
    (hfits : p.fits = true) (hlets : p.lets ≤ 128) (hexits : p.exits = false) :
    ∃ s, Settles (fun fuel => run_script h fuel src) (lastFailure (eval h p ⟨[], [], []⟩).statuses, s) ∧
      s.vars = (eval h p ⟨[], [], []⟩).vars ∧ s.effects = (eval h p ⟨[], [], []⟩).effects := by
  have hfaces : Faces (lex (.start src)) ts :=
    lex_spelled hsrc (fun t ht => Nat.le_of_lt_succ (htexts t ht)) rfl
  obtain ⟨l', hruns, hend⟩ := lines_mean h hlines hexits hfits ⟨[], [], []⟩ (lex (.start src)) [] true
    (fun _ => by simpa using hlets) (.inl rfl) (by rw [List.append_nil]; exact hfaces)
  have heof : l'.token.kind = .K_EOF := hend
  refine ⟨(eval h p ⟨[], [], []⟩).at l', ?_, rfl, rfl⟩
  have hblock := hruns.enter.map close_block
  have hclose : close_block (lastFailure (eval h p ⟨[], [], []⟩).statuses, (eval h p ⟨[], [], []⟩).at l') =
      (lastFailure (eval h p ⟨[], [], []⟩).statuses, (eval h p ⟨[], [], []⟩).at l') := by
    simp [close_block, heof]
  rw [evalIf, if_pos rfl, hclose] at hblock
  exact hblock

/-- A guard that holds, and a command that is not found. -/
theorem a_guarded_command_is_run_once :
    ∃ s, Settles (fun fuel => run_script someHost fuel (ascii "require admin \x7b\nrun a\n\x7d\n")) (127, s) ∧
      s.vars = [] ∧ s.effects = [.run [ascii "a"]] := by
  have hspelled : Spelled [word (ascii "require"), word (ascii "admin"), mark .K_LBRACE, mark .K_NEWLINE,
      word (ascii "run"), word (ascii "a"), mark .K_NEWLINE, mark .K_RBRACE, mark .K_NEWLINE]
      (ascii "require" ++ 32 :: (ascii "admin" ++ 32 :: 123 :: 10 ::
        (ascii "run" ++ 32 :: (ascii "a" ++ 10 :: 125 :: [10])))) := by
    refine .word (by decide) (by decide) (.blank 32 rfl ?_)
    refine .word (by decide) (by decide) (.blank 32 rfl (.mark 123 _ rfl (.newline ?_)))
    refine .word (by decide) (by decide) (.blank 32 rfl ?_)
    refine .word (by decide) (by decide) (.newline ?_)
    exact .mark 125 _ rfl (.newline .nil)
  have hlines : Lines (.guard .require_admin (.run (ascii "a") [] .done) .done)
      [word (ascii "require"), word (ascii "admin"), mark .K_LBRACE, mark .K_NEWLINE,
        word (ascii "run"), word (ascii "a"), mark .K_NEWLINE, mark .K_RBRACE, mark .K_NEWLINE] :=
    .guard .require_admin 0 (.blank (.run (ascii "a") [] .done)) (.blank .done)
  obtain ⟨s, hsettles, hvars, heffects⟩ := a_program_is_run_as_written someHost _ _
    (ascii "require admin \x7b\nrun a\n\x7d\n") hlines hspelled (by decide) (by decide) (by decide) (by decide)
  have hmeaning : eval someHost (.guard .require_admin (.run (ascii "a") [] .done) .done) ⟨[], [], []⟩ =
      ⟨[], [.run [ascii "a"]], [127]⟩ := by decide +kernel
  rw [hmeaning] at hsettles hvars heffects
  exact ⟨s, hsettles, hvars, heffects⟩

end mantle.script
