-- The interpreter of `mantle-script.c` as a machine that takes one token, or
-- ends one statement, with each step. The calls of `block` that are open are
-- its frames, and what it does along the way is its trace. Whatever the
-- interpreter returns, the machine comes to; runs that never end have steps too.
import MantleOS.ScriptHalts

open bytes ctext checked

namespace mantle.script

/-! ## The machine -/

/-- What a call of `block` keeps: its flag, and its result so far. -/
structure Frame where
  execute : Bool
  result : Int
  deriving DecidableEq

/-- `if (r && execute) result = r`. -/
def Frame.record (f : Frame) (r : Int) : Frame :=
  { f with result := if r ≠ 0 ∧ f.execute then r else f.result }

/-- Where the machine is in a statement, with what the statement has read. -/
inductive Place
  | start
  | letName
  | letEq (name : Bytes)
  | letValue (name : Bytes)
  | printText
  | runArgs (args : List Bytes)
  | ifWord
  | ifOpen
  | ifText
  | ifClose (condition : Bool)
  | requireWord
  | brace (condition : Bool)
  | exitCode
  | skip
  deriving DecidableEq

/-- What happens on the way, with the number of a token: that of the keyword of a statement, of a
brace, or of the token where the machine is. -/
inductive Event
  /-- A statement is reached, with the flag of its block. -/
  | reached (keyword : Nat) (text : Bytes) (execute : Bool)
  /-- A `let` stores its variable. -/
  | stored (keyword : Nat) (v : value)
  /-- A `print` prints its text. -/
  | printed (keyword : Nat) (text : Bytes)
  /-- A `run` has read its arguments, and launches them when its flag is set. -/
  | ran (keyword : Nat) (argv : List Bytes) (execute : Bool) (status : Int)
  /-- A condition is asked for. -/
  | asked (index : Nat) (answer : Bool)
  /-- The brace of a block is read, after its condition. -/
  | opened (index : Nat) (condition : Bool)
  /-- The recovery steps over a token, in a block with this flag. -/
  | skipped (index : Nat) (kind : kind) (execute : Bool)
  /-- A message is reported, in a block with this flag. -/
  | failed (index : Nat) (execute : Bool)
  /-- An `exit` is met, with the flag of its block. -/
  | exited (keyword : Nat) (execute : Bool)
  deriving DecidableEq

structure Machine where
  s : Script
  /-- The number of the current token. -/
  index : Nat
  place : Place
  /-- The number of the keyword of the current statement. -/
  keyword : Nat
  top : Frame
  below : List Frame
  trace : List Event

inductive Config
  | running (m : Machine)
  | done (result : Int) (s : Script) (trace : List Event)

namespace Machine

/-- The current token is taken. -/
@[simps]
def next (m : Machine) : Machine := { m with s := m.s.lexed, index := m.index + 1 }

@[simps]
def log (m : Machine) (e : Event) : Machine := { m with trace := m.trace ++ [e] }

@[simps]
def goto (m : Machine) (place : Place) : Machine := { m with place }

/-- The statement returns `r`. -/
@[simps]
def finish (m : Machine) (r : Int) : Machine := { m with place := .start, top := m.top.record r }

/-- A message is reported. -/
@[simps]
def complain (m : Machine) (text : Bytes) : Machine :=
  { m with s := m.s.complain text, trace := m.trace ++ [.failed m.index m.top.execute] }

/-- The statement reports a message and returns 2. -/
def fail (m : Machine) (text : Bytes) : Machine := (m.complain text).finish 2

/-- A call of `block` starts. -/
@[simps]
def push (m : Machine) (condition : Bool) : Machine :=
  { m with top := ⟨m.top.execute && condition, 0⟩, below := m.top :: m.below }

end Machine

/-- What comes after a keyword. -/
def placeAfter (keyword : Bytes) : Place :=
  if keyword = ascii "let" then .letName
  else if keyword = ascii "print" then .printText
  else if keyword = ascii "run" then .runArgs []
  else if keyword = ascii "if" then .ifWord
  else if keyword = ascii "require" then .requireWord
  else if keyword = ascii "exit" then .exitCode
  else .skip

/-- The keyword of a statement is taken. An unknown one is reported. -/
def Machine.reach (m : Machine) : Machine :=
  let text := m.s.l.token.text.take 63
  let after := { m.next.log (.reached m.index text m.top.execute) with
    place := placeAfter text, keyword := m.index }
  if placeAfter text = .skip then after.complain (ascii "instruction inconnue: " ++ text) else after

/-- The call of `block` on top returns, with `m` the machine after its last token. -/
def return_block (m : Machine) : Config :=
  match m.below with
  | [] => .done m.top.result m.s m.trace
  | f :: below => .running { m with top := f.record m.top.result, below }

/-- The current token at the start of a statement. -/
def start_step (m : Machine) : Config :=
  match m.s.l.token.kind with
  | .K_EOF => return_block m
  | .K_NEWLINE => .running m.next
  | .K_RBRACE => return_block m.next
  | .K_WORD => .running m.reach
  | _ => .running (m.fail (ascii "mot attendu"))

/-- The value of a `let`. -/
def store (h : host) (m : Machine) (name : Bytes) : Machine :=
  let v : value := ⟨name, interpolate h m.s.vars m.s.l.token.text⟩
  if m.top.execute && m.s.vars.length < 128 then
    { m with s := { m.s with vars := m.s.vars ++ [v] } }.log (.stored m.keyword v)
  else m

/-- The text of a `print`. -/
def print (h : host) (m : Machine) : Machine :=
  let text := interpolate h m.s.vars m.s.l.token.text
  if m.top.execute then
    { m with s := { m.s with effects := m.s.effects ++ [effect.puts text] } }.log (.printed m.keyword text)
  else m

/-- The end of a `run`. -/
def launch (h : host) (m : Machine) (args : List Bytes) : Machine :=
  let (r, s) := if m.top.execute then run_argv h args m.s else (0, m.s)
  ({ m with s }.log (.ran m.keyword args m.top.execute r)).finish r

/-- The current token inside of a statement. -/
def place_step (h : host) (m : Machine) : Machine :=
  let t := m.s.l.token
  match m.place with
  | .start => m
  | .letName =>
    if t.kind = .K_WORD then m.next.goto (.letEq (t.text.take 63))
    else m.fail (ascii "nom de variable attendu")
  | .letEq name =>
    if t.kind = .K_EQ then m.next.goto (.letValue name) else m.fail (ascii "'=' attendu")
  | .letValue name =>
    if is_text t.kind then (store h m name).next.goto .start else m.fail (ascii "valeur attendue")
  | .printText => if is_text t.kind then (print h m).next.goto .start else m.fail (ascii "texte attendu")
  | .runArgs args =>
    if is_text t.kind then
      let text := interpolate h m.s.vars t.text
      m.next.goto (.runArgs (if args.length < 63 then args ++ [text] else args))
    else launch h m args
  | .ifWord =>
    if t.kind = .K_WORD ∧ t.text = ascii "command.exists" then m.next.goto .ifOpen
    else m.fail (ascii "condition command.exists attendue")
  | .ifOpen => if t.kind = .K_LP then m.next.goto .ifText else m.fail (ascii "'(' attendu")
  | .ifText =>
    if is_text t.kind then
      let condition := command_exists h m.s.effects t.text
      (m.log (.asked m.index condition)).next.goto (.ifClose condition)
    else m.fail (ascii "commande attendue")
  | .ifClose condition =>
    if t.kind = .K_RP then m.next.goto (.brace condition) else m.fail (ascii "')' attendu")
  | .requireWord =>
    if t.kind = .K_WORD ∧ t.text = ascii "admin" then
      (m.log (.asked m.index (decide (h.geteuid = 0)))).next.goto (.brace (decide (h.geteuid = 0)))
    else m.fail (ascii "condition require inconnue")
  | .brace condition =>
    if t.kind = .K_NEWLINE then m.next
    else if t.kind = .K_LBRACE then
      ((m.log (.opened m.index condition)).push condition).next.goto .start
    else m.fail (ascii "'\x7b' attendu")
  | .exitCode =>
    if t.kind = .K_WORD then
      (m.log (.exited m.keyword m.top.execute)).finish (if m.top.execute then atoi t.text else 0)
    else m.fail (ascii "code attendu")
  | .skip =>
    if ends_block t.kind then m.finish 2 else (m.log (.skipped m.index t.kind m.top.execute)).next

def step (h : host) (m : Machine) : Config :=
  if m.place = .start then start_step m else .running (place_step h m)

/-- The machine after some steps; a machine that is done stays so. -/
def after (h : host) : Nat → Config → Config
  | 0, c => c
  | _ + 1, .done result s trace => .done result s trace
  | n + 1, .running m => after h n (step h m)

/-- The machine before the first statement of a source text. -/
def Machine.start (src : Bytes) : Machine :=
  { s := { l := lex (.start src), vars := [], effects := [] }, index := 0, place := .start
    keyword := 0, top := ⟨true, 0⟩, below := [], trace := [] }

theorem after_done (h : host) (n : Nat) (result : Int) (s : Script) (trace : List Event) :
    after h n (.done result s trace) = .done result s trace := by
  cases n <;> rfl

theorem after_add (h : host) (n k : Nat) (c : Config) : after h (n + k) c = after h k (after h n c) := by
  induction n generalizing c with
  | zero => rw [Nat.zero_add, after]
  | succ n ih =>
    cases c with
    | done result s trace => rw [after_done, after_done, after_done]
    | running m =>
      rw [Nat.add_right_comm]
      exact ih (step h m)

/-- What holds at the start, and is kept by each step of the run, holds after it. -/
theorem after_keeps {P : Config → Prop} {h : host} {c : Config} (hc : P c) {n : Nat}
    (hstep : ∀ k m, k < n → after h k c = .running m → P (.running m) → P (step h m)) :
    P (after h n c) := by
  induction n generalizing c with
  | zero => exact hc
  | succ n ih =>
    cases c with
    | done result s trace => exact hc
    | running m =>
      refine ih (hstep 0 m (Nat.succ_pos n) rfl hc) fun k m' hk hafter => ?_
      exact hstep (k + 1) m' (Nat.succ_lt_succ hk) hafter

namespace Config

def s : Config → Script
  | .running m => m.s
  | .done _ s _ => s

def trace : Config → List Event
  | .running m => m.trace
  | .done _ _ trace => trace

/-- The machine is done. -/
def isDone : Config → Bool
  | .running _ => false
  | .done _ _ _ => true

end Config

/-! ## The machine does what the interpreter does -/

/-- From `m` the machine comes to the start of a statement, with this script and these frames. -/
def Comes (h : host) (m : Machine) (s : Script) (top : Frame) (below : List Frame) : Prop :=
  ∃ n m', after h n (.running m) = .running m' ∧ m'.s = s ∧ m'.place = .start ∧ m'.top = top ∧
    m'.below = below

variable {h : host} {m : Machine}

theorem Comes.here (hp : m.place = .start) : Comes h m m.s m.top m.below :=
  ⟨0, m, rfl, rfl, hp, rfl, rfl⟩

theorem Comes.trans (m' : Machine) {s : Script} {top : Frame} {below : List Frame} {n : Nat}
    (hn : after h n (.running m) = .running m') (hrest : Comes h m' s top below) :
    Comes h m s top below := by
  obtain ⟨k, m'', hk, hend⟩ := hrest
  exact ⟨n + k, m'', by rw [after_add, hn, hk], hend⟩

theorem after_one (hp : m.place ≠ .start) : after h 1 (.running m) = .running (place_step h m) := by
  rw [after, after, step, if_neg hp]

/-- One step inside of a statement. -/
theorem Comes.via (m' : Machine) {s : Script} {top : Frame} {below : List Frame}
    (hp : m.place ≠ .start) (hstep : place_step h m = m') (hrest : Comes h m' s top below) :
    Comes h m s top below := by
  refine Comes.trans m' (n := 1) ?_ hrest
  rw [after_one hp, hstep]

/-- The step that ends a statement. -/
theorem Comes.last (m m' : Machine) (hp : m.place ≠ .start) (hstep : place_step h m = m')
    (hplace : m'.place = .start) : Comes h m m'.s m'.top m'.below :=
  Comes.via m' hp hstep (Comes.here hplace)

/-- A message ends the statement. -/
theorem Comes.fails {text : Bytes} (hp : m.place ≠ .start) (hstep : place_step h m = m.fail text) :
    Comes h m (m.s.complain text) (m.top.record 2) m.below :=
  Comes.last m (m.fail text) hp hstep rfl

/-- A statement that returns 0 leaves the frame as it is. -/
theorem Frame.record_zero (f : Frame) : f.record 0 = f := by simp [Frame.record]

/-- What the value of a `let` leaves of the machine. -/
theorem store_eq (h : host) (m : Machine) (name : Bytes) :
    (store h m name).s = { m.s with
        vars := if m.top.execute && m.s.vars.length < 128 then
            m.s.vars ++ [value.mk name (interpolate h m.s.vars m.s.l.token.text)]
          else m.s.vars } ∧
      (store h m name).top = m.top ∧ (store h m name).below = m.below := by
  unfold store
  dsimp only
  split <;> exact ⟨rfl, rfl, rfl⟩

theorem print_eq (h : host) (m : Machine) :
    (print h m).s = { m.s with
        effects := if m.top.execute then
            m.s.effects ++ [effect.puts (interpolate h m.s.vars m.s.l.token.text)]
          else m.s.effects } ∧
      (print h m).top = m.top ∧ (print h m).below = m.below := by
  unfold print
  dsimp only
  split <;> exact ⟨rfl, rfl, rfl⟩

theorem letValue_comes {name : Bytes} (hp : m.place = .letValue name) :
    Comes h m
      (if is_text m.s.l.token.kind then
        { m.s with
          vars := if m.top.execute && m.s.vars.length < 128 then
              m.s.vars ++ [value.mk name (interpolate h m.s.vars m.s.l.token.text)]
            else m.s.vars }.lexed
      else m.s.complain (ascii "valeur attendue"))
      (m.top.record (if is_text m.s.l.token.kind then 0 else 2)) m.below := by
  cases htext : is_text m.s.l.token.kind with
  | false => exact Comes.fails (by simp [hp]) (by simp [place_step, hp, htext])
  | true =>
    obtain ⟨hs, htop, hbelow⟩ := store_eq h m name
    have hlast := Comes.last (h := h) m ((store h m name).next.goto .start) (by simp [hp])
      (by simp [place_step, hp, htext]) rfl
    simpa [hs, htop, hbelow, Frame.record_zero] using hlast

theorem let_statement_comes (hp : m.place = .letName) :
    Comes h m (let_statement h m.s m.top.execute).2
      (m.top.record (let_statement h m.s m.top.execute).1) m.below := by
  unfold let_statement
  split
  · rename_i hword
    exact Comes.fails (by simp [hp]) (by simp [place_step, hp, hword])
  rename_i hword
  rw [not_not] at hword
  refine Comes.via (m.next.goto (.letEq (m.s.l.token.text.take 63))) (by simp [hp])
    (by simp [place_step, hp, hword]) ?_
  dsimp only
  split
  · rename_i heq
    exact Comes.fails (by simp) (by simp [place_step, heq])
  rename_i heq
  rw [not_not] at heq
  refine Comes.via (m.next.next.goto (.letValue (m.s.l.token.text.take 63))) (by simp)
    (by simp [place_step, heq, Machine.goto, Machine.next]) ?_
  have hvalue := letValue_comes (h := h) (m := m.next.next.goto (.letValue (m.s.l.token.text.take 63))) rfl
  cases htext : is_text m.s.lexed.lexed.l.token.kind <;> simpa [htext] using hvalue

theorem print_statement_comes (hp : m.place = .printText) :
    Comes h m (print_statement h m.s m.top.execute).2
      (m.top.record (print_statement h m.s m.top.execute).1) m.below := by
  unfold print_statement
  cases htext : is_text m.s.l.token.kind with
  | false => exact Comes.fails (by simp [hp]) (by simp [place_step, hp, htext])
  | true =>
    obtain ⟨hs, htop, hbelow⟩ := print_eq h m
    have hlast := Comes.last (h := h) m ((print h m).next.goto .start) (by simp [hp])
      (by simp [place_step, hp, htext]) rfl
    simpa [hs, htop, hbelow, Frame.record_zero] using hlast

theorem run_loop_comes {fuel : Nat} {args : List Bytes} {s' : Script} {args' : List Bytes}
    (hp : m.place = .runArgs args) (hrun : run_loop h fuel args m.s = some (args', s')) :
    Comes h m (if m.top.execute then (run_argv h args' s').2 else s')
      (m.top.record (if m.top.execute then (run_argv h args' s').1 else 0)) m.below := by
  induction fuel generalizing args m with
  | zero => cases hrun
  | succ fuel ih =>
    rw [run_loop] at hrun
    split at hrun
    · rename_i htext
      refine Comes.via (m.next.goto (.runArgs (if args.length < 63 then
        args ++ [interpolate h m.s.vars m.s.l.token.text] else args))) (by simp [hp])
        (by simp [place_step, hp, htext]) ?_
      exact ih rfl hrun
    · rename_i htext
      cases hrun
      have hlast := Comes.last (h := h) m (launch h m args') (by simp [hp])
        (by simp [place_step, hp, htext])
      cases hexec : m.top.execute with
      | true => simpa [launch, hexec] using hlast
      | false => simpa [launch, hexec] using hlast

theorem run_statement_comes {fuel : Nat} {s' : Script} {r : Int} (hp : m.place = .runArgs [])
    (hrun : run_statement h fuel m.s m.top.execute = some (r, s')) :
    Comes h m s' (m.top.record r) m.below := by
  obtain ⟨⟨args, s1⟩, hloop, hrest⟩ := Option.bind_eq_some_iff.mp hrun
  have hcomes := run_loop_comes hp hloop
  cases hexec : m.top.execute with
  | true =>
    rw [hexec] at hrest hcomes
    have hr := Option.some.inj hrest
    rw [if_pos rfl, if_pos rfl] at hcomes
    rwa [hr] at hcomes
  | false =>
    rw [hexec] at hrest hcomes
    cases hrest
    exact hcomes

theorem exit_statement_comes (hp : m.place = .exitCode) :
    Comes h m (exit_statement m.s m.top.execute).2
      (m.top.record (exit_statement m.s m.top.execute).1) m.below := by
  unfold exit_statement
  split
  · rename_i hword
    exact Comes.fails (by simp [hp]) (by simp [place_step, hp, hword])
  · rename_i hword
    rw [not_not] at hword
    exact Comes.last m ((m.log (.exited m.keyword m.top.execute)).finish
      (if m.top.execute then atoi m.s.l.token.text else 0)) (by simp [hp])
      (by simp [place_step, hp, hword]) rfl

/-- The recovery ends at the end of the block, and returns 2. -/
theorem skip_lines_comes {fuel : Nat} {l' : lexer} (hp : m.place = .skip)
    (hskip : lex_while (fun k => !ends_block k) fuel m.s.l = some l') :
    Comes h m (m.s.at l') (m.top.record 2) m.below := by
  induction fuel generalizing m with
  | zero => cases hskip
  | succ fuel ih =>
    rw [lex_while] at hskip
    split at hskip
    · rename_i hend
      refine Comes.via ((m.log (.skipped m.index m.s.l.token.kind m.top.execute)).next) (by simp [hp])
        (by simp [place_step, hp, (by simpa using hend : ends_block m.s.l.token.kind = false)]) ?_
      exact ih hp hskip
    · rename_i hend
      cases hskip
      exact Comes.last m (m.finish 2) (by simp [hp])
        (by simp [place_step, hp, (by simpa using hend : ends_block m.s.l.token.kind = true)]) rfl

/-! ## Blocks -/

/-- From `m` the machine comes to the brace after a condition. -/
def ComesToBrace (h : host) (m : Machine) (condition : Bool) (s : Script) : Prop :=
  ∃ n m', after h n (.running m) = .running m' ∧ m'.s = s ∧ m'.place = .brace condition ∧
    m'.top = m.top ∧ m'.below = m.below

/-- What a condition leads to: the brace, or a message. -/
def Asks (h : host) (m : Machine) (r : Option Bool × Script) : Prop :=
  match r.1 with
  | some condition => ComesToBrace h m condition r.2
  | none => Comes h m r.2 (m.top.record 2) m.below

/-- One step of a condition. -/
theorem Asks.via (m' : Machine) {r : Option Bool × Script} (hp : m.place ≠ .start)
    (hstep : place_step h m = m') (htop : m'.top = m.top) (hbelow : m'.below = m.below)
    (hrest : Asks h m' r) : Asks h m r := by
  obtain ⟨condition, s⟩ := r
  cases condition with
  | none =>
    have hcomes : Comes h m' s (m'.top.record 2) m'.below := hrest
    rw [htop, hbelow] at hcomes
    exact Comes.via m' hp hstep hcomes
  | some condition =>
    obtain ⟨n, m'', hn, hs, hplace, htop', hbelow'⟩ := hrest
    refine ⟨1 + n, m'', ?_, hs, hplace, htop'.trans htop, hbelow'.trans hbelow⟩
    rw [after_add, after_one hp, hstep, hn]

theorem require_condition_asks (hp : m.place = .requireWord) : Asks h m (require_condition h m.s) := by
  unfold require_condition
  split
  · rename_i hword
    exact Comes.fails (by simp [hp]) (by simp only [place_step, hp, if_neg (not_and_or.mpr hword)])
  · rename_i hword
    rw [not_or, not_not, not_not] at hword
    exact ⟨1, place_step h m, after_one (by simp [hp]), by simp [place_step, hp, hword],
      by simp [place_step, hp, hword], by simp [place_step, hp, hword], by simp [place_step, hp, hword]⟩

theorem exists_condition_asks (hp : m.place = .ifWord) : Asks h m (exists_condition h m.s) := by
  unfold exists_condition
  split
  · rename_i hword
    exact Comes.fails (by simp [hp]) (by simp only [place_step, hp, if_neg (not_and_or.mpr hword)])
  rename_i hword
  rw [not_or, not_not, not_not] at hword
  refine Asks.via (m.next.goto .ifOpen) (by simp [hp]) (by simp [place_step, hp, hword]) rfl rfl ?_
  dsimp only
  split
  · rename_i hopen
    exact Comes.fails (by simp) (by simp [place_step, hopen])
  rename_i hopen
  rw [not_not] at hopen
  refine Asks.via (m.next.next.goto .ifText) (by simp)
    (by simp [place_step, hopen, Machine.goto, Machine.next]) rfl rfl ?_
  split
  · rename_i htext
    exact Comes.fails (by simp) (by simp [place_step, (by simpa using htext :
      is_text m.s.lexed.lexed.l.token.kind = false)])
  rename_i htext
  have htext : is_text m.s.lexed.lexed.l.token.kind = true := by simpa using htext
  set condition := command_exists h m.s.lexed.lexed.effects m.s.lexed.lexed.l.token.text
  refine Asks.via ((((m.next.next.goto .ifText).log (.asked (m.index + 2) condition)).next).goto
    (.ifClose condition)) (by simp) (by simp [place_step, htext, condition]) rfl rfl ?_
  split
  · rename_i hclose
    exact Comes.fails (by simp) (by simp [place_step, hclose])
  · rename_i hclose
    rw [not_not] at hclose
    exact ⟨1, _, after_one (by simp), by simp [place_step, hclose], by simp [place_step, hclose],
      by simp [place_step, hclose], by simp [place_step, hclose]⟩

/-- What a call of `block` comes to, from the token after its brace on: the frame below takes its
result. -/
def BlockComes (h : host) (block : Script → Bool → Option (Int × Script)) : Prop :=
  ∀ (m : Machine) (f : Frame) (below : List Frame) (r : Int) (s' : Script),
    m.place = .start → m.top.result = 0 → m.below = f :: below →
    block m.s m.top.execute = some (r, s') → Comes h m s' (f.record r) below

/-- The newlines before a brace. -/
theorem newlines_to_brace {fuel : Nat} {l' : lexer} {condition : Bool}
    (hp : m.place = .brace condition) (hskip : lex_while is_newline fuel m.s.l = some l') :
    ComesToBrace h m condition (m.s.at l') ∧ is_newline l'.token.kind = false := by
  induction fuel generalizing m with
  | zero => cases hskip
  | succ fuel ih =>
    rw [lex_while] at hskip
    split at hskip
    · rename_i hnewline
      have hkind : m.s.l.token.kind = .K_NEWLINE := by simpa [is_newline] using hnewline
      obtain ⟨⟨n, m', hn, hs, hplace, htop, hbelow⟩, hend⟩ := ih (m := m.next) hp hskip
      refine ⟨⟨1 + n, m', ?_, hs, hplace, htop, hbelow⟩, hend⟩
      rw [after_add, after_one (by simp [hp])]
      simp only [place_step, hp, hkind, if_true]
      exact hn
    · rename_i hnewline
      cases hskip
      exact ⟨⟨0, m, rfl, rfl, hp, rfl, rfl⟩, by simpa using hnewline⟩

/-- The newlines before a statement. -/
theorem newlines_to_start {fuel : Nat} {l' : lexer} (hp : m.place = .start)
    (hskip : lex_while is_newline fuel m.s.l = some l') :
    Comes h m (m.s.at l') m.top m.below ∧ is_newline l'.token.kind = false := by
  induction fuel generalizing m with
  | zero => cases hskip
  | succ fuel ih =>
    rw [lex_while] at hskip
    split at hskip
    · rename_i hnewline
      have hkind : m.s.l.token.kind = .K_NEWLINE := by simpa [is_newline] using hnewline
      obtain ⟨hcomes, hend⟩ := ih (m := m.next) hp hskip
      refine ⟨Comes.trans m.next (n := 1) ?_ hcomes, hend⟩
      simp only [after, step, hp, if_true, start_step, hkind]
    · rename_i hnewline
      cases hskip
      exact ⟨Comes.here hp, by simpa using hnewline⟩

theorem guard_statement_comes {block : Script → Bool → Option (Int × Script)}
    (hblock : BlockComes h block) {fuel : Nat} {c : Option Bool × Script} {r : Int} {s' : Script}
    (hasks : Asks h m c) (hguard : guard_statement block fuel c m.top.execute = some (r, s')) :
    Comes h m s' (m.top.record r) m.below := by
  obtain ⟨condition, s⟩ := c
  cases condition with
  | none =>
    cases hguard
    exact hasks
  | some condition =>
    obtain ⟨n, m1, hn, rfl, hp1, htop1, hbelow1⟩ := hasks
    obtain ⟨s2, hskip, hrest⟩ := Option.bind_eq_some_iff.mp hguard
    obtain ⟨l', hl', rfl⟩ := Option.map_eq_some_iff.mp hskip
    obtain ⟨⟨k, m2, hk, hs2, hp2, htop2, hbelow2⟩, hend⟩ := newlines_to_brace (h := h) hp1 hl'
    refine Comes.trans m1 hn (Comes.trans m2 hk ?_)
    rw [← hs2] at hrest
    rw [← htop1, ← htop2, ← hbelow1, ← hbelow2]
    have hnewline : m2.s.l.token.kind ≠ .K_NEWLINE := by
      rw [hs2]
      simpa [is_newline, Script.at] using hend
    split at hrest
    · rename_i hno
      cases hrest
      exact Comes.fails (by simp [hp2]) (by simp [place_step, hp2, hnewline, hno])
    · rename_i hbrace
      rw [not_not] at hbrace
      refine Comes.via (((m2.log (.opened m2.index condition)).push condition).next.goto .start)
        (by simp [hp2]) (by simp [place_step, hp2, hbrace]) ?_
      refine hblock _ m2.top m2.below r s' rfl rfl rfl ?_
      rw [← htop1, ← htop2] at hrest
      exact hrest

/-- A statement from the token after its keyword on, with the message for an unknown one. -/
theorem keyword_statement_comes {block : Script → Bool → Option (Int × Script)}
    (hblock : BlockComes h block) {fuel : Nat} {keyword : Bytes} {r : Int} {s s' : Script}
    (hp : m.place = placeAfter keyword)
    (hs : m.s = if placeAfter keyword = .skip then
      s.complain (ascii "instruction inconnue: " ++ keyword) else s)
    (hrun : keyword_statement h block fuel keyword s m.top.execute = some (r, s')) :
    Comes h m s' (m.top.record r) m.below := by
  unfold keyword_statement at hrun
  unfold placeAfter at hp hs
  by_cases hlet : keyword = ascii "let"
  · simp only [hlet, if_true, reduceCtorEq, if_false] at hp hs hrun
    rw [← hs] at hrun
    have hcomes := let_statement_comes (h := h) hp
    rwa [Option.some.inj hrun] at hcomes
  rw [if_neg hlet] at hp hs hrun
  by_cases hprint : keyword = ascii "print"
  · simp only [hprint, if_true, reduceCtorEq, if_false] at hp hs hrun
    rw [← hs] at hrun
    have hcomes := print_statement_comes (h := h) hp
    rwa [Option.some.inj hrun] at hcomes
  rw [if_neg hprint] at hp hs hrun
  by_cases hrunk : keyword = ascii "run"
  · simp only [hrunk, if_true, reduceCtorEq, if_false] at hp hs hrun
    rw [← hs] at hrun
    exact run_statement_comes hp hrun
  rw [if_neg hrunk] at hp hs hrun
  by_cases hreq : keyword = ascii "require"
  · have hif : ¬ keyword = ascii "if" := by
      rw [hreq]
      decide
    rw [if_neg hif, if_pos hreq] at hp hs
    rw [if_pos (.inr hreq), if_pos hreq] at hrun
    simp only [reduceCtorEq, if_false] at hs
    rw [← hs] at hrun
    exact guard_statement_comes hblock (require_condition_asks hp) hrun
  by_cases hif : keyword = ascii "if"
  · rw [if_pos hif] at hp hs
    rw [if_pos (.inl hif), if_neg hreq] at hrun
    simp only [reduceCtorEq, if_false] at hs
    rw [← hs] at hrun
    exact guard_statement_comes hblock (exists_condition_asks hp) hrun
  rw [if_neg hif, if_neg hreq] at hp hs
  rw [if_neg (not_or.mpr ⟨hif, hreq⟩)] at hrun
  by_cases hexit : keyword = ascii "exit"
  · simp only [hexit, if_true, reduceCtorEq, if_false] at hp hs hrun
    rw [← hs] at hrun
    have hcomes := exit_statement_comes (h := h) hp
    rwa [Option.some.inj hrun] at hcomes
  rw [if_neg hexit] at hp hs hrun
  rw [if_pos rfl] at hs
  rw [← hs] at hrun
  obtain ⟨s1, hskip, hrest⟩ := Option.bind_eq_some_iff.mp hrun
  obtain ⟨l', hl', rfl⟩ := Option.map_eq_some_iff.mp hskip
  cases hrest
  exact skip_lines_comes hp hl'

theorem reach_step (hp : m.place = .start) (hword : m.s.l.token.kind = .K_WORD) :
    after h 1 (.running m) = .running m.reach := by
  simp only [after, step, hp, if_true, start_step, hword]

theorem reach_eq (m : Machine) :
    m.reach.place = placeAfter (m.s.l.token.text.take 63) ∧ m.reach.top = m.top ∧
      m.reach.below = m.below ∧
      m.reach.s = if placeAfter (m.s.l.token.text.take 63) = .skip then
          m.s.lexed.complain (ascii "instruction inconnue: " ++ m.s.l.token.text.take 63)
        else m.s.lexed := by
  unfold Machine.reach
  dsimp only
  split <;> exact ⟨rfl, rfl, rfl, rfl⟩

/-- A token that starts no statement is reported and left where it is. -/
theorem stuck_step (hp : m.place = .start) (hend : ¬ ends_block m.s.l.token.kind = true)
    (hnewline : is_newline m.s.l.token.kind = false) (hword : m.s.l.token.kind ≠ .K_WORD) :
    after h 1 (.running m) = .running (m.fail (ascii "mot attendu")) := by
  simp only [after, step, hp, if_true, start_step]
  cases hkind : m.s.l.token.kind <;> simp_all [ends_block, is_newline]

/-- The end of a block: its frame is gone, and the one below has its result. -/
theorem close_block_comes {s : Script} {execute : Bool} {r : Int} {f : Frame} {below : List Frame}
    (hcomes : Comes h m s ⟨execute, r⟩ (f :: below)) (hend : ends_block s.l.token.kind = true) :
    Comes h m (close_block (r, s)).2 (f.record (close_block (r, s)).1) below := by
  obtain ⟨n, m1, hn, rfl, hp, htop, hbelow⟩ := hcomes
  refine Comes.trans m1 hn ?_
  have hresult : m1.top.result = r := by rw [htop]
  by_cases hbrace : m1.s.l.token.kind = .K_RBRACE
  · refine ⟨1, { m1.next with top := f.record r, below }, ?_, by simp [close_block, hbrace], hp, rfl, rfl⟩
    simp [after, step, hp, start_step, hbrace, return_block, hbelow, hresult]
  · have heof : m1.s.l.token.kind = .K_EOF := by
      simp only [ends_block, Bool.or_eq_true, decide_eq_true_eq] at hend
      exact hend.resolve_right hbrace
    refine ⟨1, { m1 with top := f.record r, below }, ?_, by simp [close_block, hbrace], hp, rfl, rfl⟩
    simp [after, step, hp, start_step, heof, return_block, hbelow, hresult]

/-- What the interpreter comes to, the machine comes to: by induction on the fuel, for a
statement in any block and for a block over any frames. -/
theorem interpreter_comes (h : host) (fuel : Nat) :
    (∀ (m : Machine) (r : Int) (s' : Script), m.place = .start →
      statement h fuel m.s m.top.execute = some (r, s') → Comes h m s' (m.top.record r) m.below) ∧
    (∀ (m : Machine) (r : Int) (s' : Script), m.place = .start →
      block_loop h fuel m.s m.top.execute m.top.result = some (r, s') →
      Comes h m s' ⟨m.top.execute, r⟩ m.below ∧ ends_block s'.l.token.kind = true) := by
  induction fuel with
  | zero => exact ⟨fun m r s' _ hrun => by simp [statement] at hrun,
      fun m r s' _ hrun => by simp [block_loop] at hrun⟩
  | succ fuel ih =>
    obtain ⟨ihs, ihb⟩ := ih
    constructor
    · intro m r s' hp hrun
      rw [statement] at hrun
      obtain ⟨s1, hskip, hrest⟩ := Option.bind_eq_some_iff.mp hrun
      obtain ⟨l', hl', rfl⟩ := Option.map_eq_some_iff.mp hskip
      obtain ⟨⟨n, m1, hn, hs1, hp1, htop1, hbelow1⟩, hnewline⟩ := newlines_to_start (h := h) hp hl'
      refine Comes.trans m1 hn ?_
      have hnewline1 : is_newline m1.s.l.token.kind = false := by
        rw [hs1]
        exact hnewline
      rw [← hs1, ← htop1] at hrest
      rw [← htop1, ← hbelow1]
      split at hrest
      · cases hrest
        rw [Frame.record_zero]
        exact Comes.here hp1
      rename_i hend
      split at hrest
      · rename_i hword
        cases hrest
        exact ⟨1, m1.fail (ascii "mot attendu"), stuck_step hp1 hend hnewline1 hword, rfl, rfl, rfl, rfl⟩
      · rename_i hword
        rw [not_not] at hword
        obtain ⟨hplace, htop, hbelow, hs⟩ := reach_eq m1
        refine Comes.trans m1.reach (reach_step hp1 hword) ?_
        rw [← htop] at hrest
        rw [← htop, ← hbelow]
        refine keyword_statement_comes (fun m f below r s' hpm hzero hb hblock => ?_) hplace hs hrest
        obtain ⟨⟨r1, s1⟩, hloop, hclose⟩ := Option.map_eq_some_iff.mp hblock
        rw [← hzero] at hloop
        obtain ⟨hcomes, hends⟩ := ihb m r1 s1 hpm hloop
        rw [hb] at hcomes
        have hclosed := close_block_comes hcomes hends
        rwa [hclose] at hclosed
    · intro m r s' hp hrun
      rw [block_loop] at hrun
      split at hrun
      · rename_i hend
        cases hrun
        exact ⟨Comes.here hp, hend⟩
      · obtain ⟨⟨r1, s1⟩, hstatement, hrest⟩ := Option.bind_eq_some_iff.mp hrun
        obtain ⟨s2, hskip, hloop⟩ := Option.bind_eq_some_iff.mp hrest
        obtain ⟨l', hl', rfl⟩ := Option.map_eq_some_iff.mp hskip
        obtain ⟨n, m1, hn, rfl, hp1, htop1, hbelow1⟩ := ihs m r1 s1 hp hstatement
        obtain ⟨⟨k, m2, hk, hs2, hp2, htop2, hbelow2⟩, -⟩ := newlines_to_start (h := h) hp1 hl'
        have htop : m2.top = m.top.record r1 := htop2.trans htop1
        have hexec : m2.top.execute = m.top.execute := by rw [htop, Frame.record]
        have hres : m2.top.result = if r1 ≠ 0 ∧ m.top.execute then r1 else m.top.result := by
          rw [htop, Frame.record]
        obtain ⟨hcomes, hends⟩ := ihb m2 r s' hp2 (by rw [hs2, hexec, hres]; exact hloop)
        rw [hexec, hbelow2, hbelow1] at hcomes
        exact ⟨Comes.trans m1 hn (Comes.trans m2 hk hcomes), hends⟩

/-- A script that comes to an end: the machine is done there, with the same result. -/
theorem machine_done (h : host) {fuel : Nat} {src : Bytes} {r : Int} {s : Script}
    (hrun : run_script h fuel src = some (r, s)) :
    ∃ n trace, after h n (.running (.start src)) = .done r s trace := by
  obtain ⟨⟨r1, s1⟩, hloop, hclose⟩ := Option.map_eq_some_iff.mp hrun
  obtain ⟨⟨n, m, hn, rfl, hp, htop, hbelow⟩, hend⟩ :=
    (interpreter_comes h fuel).2 (.start src) r1 s1 rfl hloop
  have hbelow : m.below = [] := hbelow
  have hresult : m.top.result = r1 := by rw [htop]
  refine ⟨n + 1, m.trace, ?_⟩
  rw [after_add, hn]
  simp only [close_block, Prod.mk.injEq] at hclose
  obtain ⟨rfl, rfl⟩ := hclose
  by_cases hbrace : m.s.l.token.kind = .K_RBRACE
  · simp [after, step, hp, start_step, hbrace, return_block, hbelow, hresult]
  · have heof : m.s.l.token.kind = .K_EOF := by
      simp only [ends_block, Bool.or_eq_true, decide_eq_true_eq] at hend
      exact hend.resolve_right hbrace
    simp [after, step, hp, start_step, heof, return_block, hbelow, hresult]

end mantle.script
