-- How often the shell carries out each command of a line. `execute` runs a
-- builtin before it knows whether it will fork, so a builtin of a pipeline is
-- run twice; here is exactly when each command is carried out once.
import MantleOS.Shell

open checked bytes

namespace mantle.shell

/-! ## The commands of a line -/

/-- The tokens from the current one up to the end of the line. A word that does not fit its buffers
ends them too. -/
def tokens (sh : Shell) (p : parser) : List token :=
  if _ : p.token.kind = .T_END then []
  else
    match _ : next sh p.rest with
    | .error _ => [p.token]
    | .ok q => p.token :: tokens sh q
termination_by 2 * p.rest.length + if p.token.kind = .T_END then 0 else 1
decreasing_by
  rename_i hend hnext
  obtain ⟨hle, hlt⟩ := next_length hnext
  rw [if_neg hend]
  by_cases hq : q.token.kind = .T_END
  · rw [if_pos hq]
    omega
  · have := hlt hq
    rw [if_neg hq]
    omega

/-- The pipes from the current token on. -/
def pipes (sh : Shell) (p : parser) : Nat := (tokens sh p).countP (fun t => t.kind = .T_PIPE)

/-- The number of commands of a line: one more than its pipes, and none in an empty line. -/
def commandCount (sh : Shell) (line : Bytes) : Nat :=
  match next sh (cstring line) with
  | .error _ => 0
  | .ok p => if p.token.kind = .T_END then 0 else pipes sh p + 1

variable {sh : Shell}

theorem pipes_end {p : parser} (h : p.token.kind = .T_END) : pipes sh p = 0 := by
  rw [pipes, tokens, dif_pos h]
  rfl

theorem pipes_next {p q : parser} (hne : p.token.kind ≠ .T_END) (h : next sh p.rest = .ok q) :
    pipes sh p = (if p.token.kind = .T_PIPE then 1 else 0) + pipes sh q := by
  rw [pipes, tokens, dif_neg hne]
  split
  · rename_i fault hfault
    rw [h] at hfault
    cases hfault
  · rename_i q' hq
    rw [h, Except.ok.injEq] at hq
    subst hq
    rw [List.countP_cons, pipes, Nat.add_comm]
    simp

theorem pipes_pipe {p : parser} (h : p.token.kind = .T_PIPE) : 0 < pipes sh p := by
  rw [pipes, tokens, dif_neg (by simp [h])]
  split <;> simp [h]

theorem words_pipes {argv argv' : List Bytes} {p p' : parser}
    (h : words sh argv p = .ok (argv', p')) : pipes sh p = pipes sh p' := by
  fun_induction words sh argv p with
  | case1 argv p hword fault hfault => cases h
  | case2 argv p hword q hq ih =>
    rw [pipes_next (by simp [hword]) hq, if_neg (by simp [hword]), Nat.zero_add]
    exact ih h
  | case3 argv p hword =>
    cases h
    rfl

theorem redirection_pipes {argv : List Bytes} {p p' : parser} {c : command}
    (h : redirection sh argv p = .ok (c, p', false)) : pipes sh p = pipes sh p' := by
  unfold redirection at h
  split at h
  · rename_i hredirects
    have hne : p.token.kind ≠ .T_END := by
      intro hend
      simp [is_redirection, hend] at hredirects
    have hpipe : p.token.kind ≠ .T_PIPE := by
      intro hpipe
      simp [is_redirection, hpipe] at hredirects
    obtain ⟨file, hfile, h⟩ := bind_eq_ok.mp h
    split at h
    · cases h
    rename_i hword
    rw [not_not] at hword
    obtain ⟨after, hafter, h⟩ := bind_eq_ok.mp h
    have hlast : after = p' := by
      split at h <;> cases h <;> rfl
    rw [pipes_next hne hfile, if_neg hpipe, pipes_next (by simp [hword]) hafter,
      if_neg (by simp [hword]), hlast]
    omega
  · cases h
    rfl

/-- The loop over the commands reads them all, or stops at a pipe when `cmds` is full. -/
theorem parse_loop_count {left : Nat} {cmds cmds' : List command} {p p' : parser}
    (h : parse_loop sh left cmds p = .ok (cmds', p', false)) (ha : accepts p'.token.kind = true) :
    (cmds'.length = cmds.length + (if p.token.kind = .T_END then 0 else pipes sh p + 1) ∧
        cmds'.length ≤ cmds.length + left) ∨
      (cmds'.length = cmds.length + left ∧ left < pipes sh p) := by
  induction left generalizing cmds p with
  | zero =>
    cases h
    by_cases hend : p'.token.kind = .T_END
    · simp [hend]
    · have hpipe : p'.token.kind = .T_PIPE := by simpa [accepts, hend] using ha
      exact .inr ⟨rfl, pipes_pipe hpipe⟩
  | succ left ih =>
    unfold parse_loop at h
    by_cases hend : p.token.kind = .T_END
    · rw [if_pos hend] at h
      cases h
      exact .inl ⟨by simp [hend], by omega⟩
    rw [if_neg hend] at h
    obtain ⟨⟨argv, p1⟩, hwords, h⟩ := bind_eq_ok.mp h
    obtain ⟨⟨c, p2, error⟩, hred, h⟩ := bind_eq_ok.mp h
    cases error with
    | true => cases h
    | false =>
      have hpipes : pipes sh p = pipes sh p2 :=
        (words_pipes hwords).trans (redirection_pipes hred)
      simp only [Bool.false_eq_true, if_false] at h
      by_cases hpipe : p2.token.kind = .T_PIPE
      · rw [if_pos hpipe] at h
        obtain ⟨q, hq, h⟩ := bind_eq_ok.mp h
        by_cases hqend : q.token.kind = .T_END
        · rw [if_pos hqend] at h
          cases h
        rw [if_neg hqend] at h
        have hone := pipes_next (by simp [hpipe]) hq
        rw [if_pos hpipe] at hone
        have hrest := ih h
        rw [if_neg hqend, List.length_append, List.length_singleton] at hrest
        rw [if_neg hend]
        omega
      · rw [if_neg hpipe] at h
        cases h
        have hlast : p'.token.kind = .T_END := by simpa [accepts, hpipe] using ha
        rw [if_neg hend, hpipes, pipes_end hlast, List.length_append, List.length_singleton]
        omega

/-- `run_line` accepts a line: it has commands for it. -/
def Accepted (sh : Shell) (line : Bytes) (cmds : List command) : Prop :=
  parse sh line = .ok (some cmds)

/-- A line that is accepted has the commands that were read, or more than sixteen. -/
theorem commandCount_of_accepted {line : Bytes} {cmds : List command} (h : Accepted sh line cmds) :
    (commandCount sh line ≤ 16 ∧ cmds.length = commandCount sh line) ∨
      (16 < commandCount sh line ∧ cmds.length = 16) := by
  unfold Accepted parse at h
  obtain ⟨p, hp, h⟩ := bind_eq_ok.mp h
  obtain ⟨⟨cmds', p', error⟩, hloop, h⟩ := bind_eq_ok.mp h
  simp only at h
  split at h
  · cases h
  rename_i haccepts
  cases h
  simp only [Bool.or_eq_true, Bool.not_eq_true', not_or, Bool.not_eq_true, Bool.not_eq_false]
    at haccepts
  obtain ⟨rfl, haccepts⟩ := haccepts
  have hcount : commandCount sh line =
      if p.token.kind = .T_END then 0 else pipes sh p + 1 := by
    simp only [commandCount, hp]
  have := parse_loop_count hloop haccepts
  rw [← hcount] at this
  rw [List.length_nil] at this
  rcases this with ⟨hlen, hle⟩ | ⟨hlen, hlt⟩
  · exact .inl ⟨by omega, by omega⟩
  · have hne : p.token.kind ≠ .T_END := by
      intro hend
      rw [pipes_end hend] at hlt
      omega
    rw [if_neg hne] at hcount
    exact .inr ⟨by omega, by omega⟩

/-! ## How often a command is carried out -/

/-- The shell carries out the command of the index, as a builtin or in a child. -/
def carriesOut (i : Nat) : Event → Bool
  | .builtin index _ _ => index = i
  | .exited index _ => index = i
  | .puts _ _ => false
  | .forked index _ _ _ => index = i

/-- A builtin changes the state of the shell itself, or ends it. -/
def changesShell : Event → Prop
  | .builtin _ before after => before ≠ after
  | .exited _ _ => True
  | _ => False

/-- Each of the commands is carried out once, and no builtin of a pipeline changes the shell. -/
structure ExecutedOnce (count : Nat) (events : List Event) : Prop where
  once : ∀ i < count, events.countP (carriesOut i) = 1
  kept : 1 < count → ∀ e ∈ events, ¬ changesShell e

/-- Where `cd` goes. -/
def cdTarget (sh : Shell) (argv : List Bytes) : Bytes :=
  (if argv.tail ≠ [] then argv.tail.head? else sh.getenv (ascii "HOME")).getD (ascii "/")

/-- The command is a `cd` to a place where the shell cannot go. -/
def FailedCd (m : Machine) (sh : Shell) (c : command) : Prop :=
  c.argv.head? = some (ascii "cd") ∧ m.chdir sh.cwd (cdTarget sh c.argv) = none

/-- The builtin leaves the state of the shell as it is. -/
def Harmless (m : Machine) (sh : Shell) (c : command) : Prop :=
  match builtin m sh c.argv with
  | .returned _ after _ _ => after = sh
  | .exited _ => False

/-- What a single command needs to be carried out once: it has a word; when that is a builtin, it
is not a `cd` that fails, unless the fork after it fails too; and when it is not, its fork works. -/
def AloneOnce (m : Machine) (sh : Shell) (c : command) : Prop :=
  c.argv ≠ [] ∧ if is_builtin c then ¬ FailedCd m sh c ∨ m.fork 0 = none else m.fork 0 ≠ none

/-- What a command of a pipeline needs to be carried out once, and without a trace in the shell:
its pipe works, and it is not a builtin and its fork works, or it is a builtin without a trace and
its fork fails. -/
def PipedOnce (m : Machine) (sh : Shell) (count i : Nat) (c : command) : Prop :=
  (i + 1 < count → m.pipe i ≠ none) ∧
    if is_builtin c then m.fork i = none ∧ Harmless m sh c else m.fork i ≠ none

variable {m : Machine} {c : command}

/-- A command that is no builtin passes `builtin` without a trace. -/
theorem builtin_other (h : is_builtin c = false) :
    builtin m sh c.argv = .returned (if c.argv = [] then 0 else -1) sh c.argv none := by
  unfold builtin
  split
  · rename_i hnil
    rw [hnil]
    rfl
  · rename_i name args hargv
    simp only [is_builtin, hargv, List.head?_cons, Option.any_some, builtin_names,
      List.contains_eq_mem, decide_eq_false_iff_not, List.mem_cons, List.not_mem_nil, or_false,
      not_or] at h
    obtain ⟨h1, h2, h3, h4, h5, h6, h7⟩ := h
    rw [if_neg h1, if_neg h2, if_neg h3, if_neg h4, if_neg h5, if_neg h6, if_neg h7]
    simp [hargv]

theorem builtin_failedCd (h : FailedCd m sh c) :
    builtin m sh c.argv = .returned (-1) sh c.argv none := by
  obtain ⟨hhead, hchdir⟩ := h
  cases hargv : c.argv with
  | nil => simp [hargv] at hhead
  | cons name args =>
    rw [hargv, List.head?_cons, Option.some.injEq] at hhead
    rw [cdTarget, hargv, List.tail_cons] at hchdir
    simp only [builtin]
    rw [if_pos hhead, hchdir]

/-- A builtin that comes back has a negative result exactly when it is a `cd` that failed. -/
theorem builtin_result (h : is_builtin c = true) {b : Int} {after : Shell} {argv : List Bytes}
    {printed : Option Bytes} (hb : builtin m sh c.argv = .returned b after argv printed) :
    0 ≤ b ↔ ¬ FailedCd m sh c := by
  cases hargv : c.argv with
  | nil => simp [is_builtin, hargv] at h
  | cons name args =>
    simp only [builtin, hargv] at hb
    by_cases hcd : name = ascii "cd"
    · have hfailed : FailedCd m sh c ↔ m.chdir sh.cwd (cdTarget sh c.argv) = none := by
        simp [FailedCd, hargv, hcd]
      have htarget : cdTarget sh c.argv =
          (if args ≠ [] then args.head? else sh.getenv (ascii "HOME")).getD (ascii "/") := by
        rw [hargv]
        rfl
      rw [if_pos hcd, ← htarget] at hb
      rw [hfailed]
      split at hb
      · rename_i hchdir
        cases hb
        simp [hchdir]
      · rename_i hchdir
        cases hb
        simp [hchdir]
    · have hother : ¬ FailedCd m sh c := by
        rintro ⟨hhead, -⟩
        rw [hargv, List.head?_cons, Option.some.injEq] at hhead
        exact hcd hhead
      rw [if_neg hcd] at hb
      refine iff_of_true ?_ hother
      split at hb
      · cases hb
        decide
      split at hb
      · cases hb
        decide
      split at hb
      · split at hb <;> cases hb <;> decide
      split at hb
      · cases hb
      split at hb
      · cases hb
        decide
      split at hb
      · cases hb
        decide
      rename_i hexport hunset hpwd hexit htrue hfalse
      simp [is_builtin, hargv, builtin_names, hcd, hexport, hunset, hpwd, hexit, htrue, hfalse] at h

/-- `execute` comes to its fork. -/
def Forks (m : Machine) (sh : Shell) (c : command) (in_fd out_fd : Nat) (background : Bool) : Prop :=
  match builtin m sh c.argv with
  | .exited _ => False
  | .returned b _ _ _ => ¬ (0 ≤ b ∧ in_fd = 0 ∧ out_fd = 1 ∧ background = false)

/-- Only a builtin exits. -/
theorem is_builtin_of_exited {status : Int} (h : builtin m sh c.argv = .exited status) :
    is_builtin c = true := by
  by_contra hother
  rw [builtin_other (by simpa using hother)] at h
  cases h

/-- One call of `execute` does nothing for the other commands. -/
theorem execute_others {i j in_fd out_fd : Nat} {background : Bool} (hij : j ≠ i) :
    (execute m i sh c in_fd out_fd background).events.countP (carriesOut j) = 0 := by
  have hne : ¬ i = j := fun h => hij h.symm
  unfold execute
  split
  · simp [carriesOut, hne]
  · dsimp only
    cases is_builtin c <;> split <;> (try split) <;> simp [carriesOut, hne, List.countP_map,
      Function.comp_def]

/-- The builtin of a command is one of its events. -/
theorem own_count (c : command) (sh : Shell) (i : Nat) (after : Shell) (printed : Option Bytes) :
    (if is_builtin c then Event.builtin i sh after :: printed.toList.map (Event.puts i)
      else []).countP (carriesOut i) = if is_builtin c then 1 else 0 := by
  cases is_builtin c
  · rfl
  · cases printed <;> simp [carriesOut]

/-- It carries out its own command once when this is a builtin, and once more when it forks. -/
theorem execute_once_iff {i in_fd out_fd : Nat} {background : Bool} :
    (execute m i sh c in_fd out_fd background).events.countP (carriesOut i) = 1 ↔
      if is_builtin c then ¬ Forks m sh c in_fd out_fd background ∨ m.fork i = none
      else Forks m sh c in_fd out_fd background ∧ m.fork i ≠ none := by
  cases hb : builtin m sh c.argv with
  | exited status => simp [execute, Forks, hb, is_builtin_of_exited hb, carriesOut]
  | returned b after argv printed =>
    simp only [execute, Forks, hb]
    have hown := own_count c sh i after printed
    by_cases hearly : 0 ≤ b ∧ in_fd = 0 ∧ out_fd = 1 ∧ background = false
    · rw [if_pos hearly]
      dsimp only
      rw [hown]
      cases is_builtin c <;> simp [hearly]
    · rw [if_neg hearly]
      cases hfork : m.fork i with
      | none =>
        dsimp only
        rw [hown]
        cases is_builtin c <;> simp
      | some pid =>
        dsimp only
        rw [List.countP_append, hown]
        cases is_builtin c <;> simp [carriesOut, hearly]

/-- It changes the shell exactly when its command is a builtin that is not harmless. -/
theorem execute_keeps_iff {i in_fd out_fd : Nat} {background : Bool} :
    (∀ e ∈ (execute m i sh c in_fd out_fd background).events, ¬ changesShell e) ↔
      (is_builtin c = true → Harmless m sh c) := by
  cases hb : builtin m sh c.argv with
  | exited status => simp [execute, Harmless, hb, is_builtin_of_exited hb, changesShell]
  | returned b after argv printed =>
    have hown : (∀ e ∈ (if is_builtin c then
        Event.builtin i sh after :: printed.toList.map (Event.puts i) else []), ¬ changesShell e) ↔
        (is_builtin c = true → after = sh) := by
      cases is_builtin c
      · simp
      · cases printed <;> simp [changesShell, eq_comm]
    simp only [execute, Harmless, hb]
    split
    · exact hown
    · split
      · exact hown
      · rw [List.forall_mem_append, hown]
        simp [changesShell]

/-- A command that is no builtin is harmless. -/
theorem harmless_other (h : is_builtin c = false) : Harmless m sh c := by
  rw [Harmless, builtin_other h]

/-- After a harmless command the loop goes on in the same state. -/
theorem execute_harmless (i in_fd out_fd : Nat) (background : Bool) (h : Harmless m sh c) :
    (execute m i sh c in_fd out_fd background).sh = sh ∧
      ∃ child, (execute m i sh c in_fd out_fd background).result = .ok child := by
  cases hb : builtin m sh c.argv with
  | exited status => simp [Harmless, hb] at h
  | returned b after argv printed =>
    have hafter : after = sh := by simpa [Harmless, hb] using h
    simp only [execute, hb]
    split
    · exact ⟨hafter, _, rfl⟩
    · split
      · exact ⟨hafter, _, rfl⟩
      · exact ⟨hafter, _, rfl⟩

/-! ## A line with one command -/

theorem alone_once_iff :
    (execute m 0 sh c 0 1 false).events.countP (carriesOut 0) = 1 ↔ AloneOnce m sh c := by
  rw [execute_once_iff, AloneOnce]
  cases hb : is_builtin c with
  | false =>
    simp only [Forks, builtin_other hb, Bool.false_eq_true, if_false]
    by_cases hargv : c.argv = [] <;> simp [hargv]
  | true =>
    have hne : c.argv ≠ [] := by
      intro hnil
      simp [is_builtin, hnil] at hb
    simp only [if_true, hne, ne_eq, not_false_eq_true, true_and]
    suffices Forks m sh c 0 1 false ↔ FailedCd m sh c by rw [this]
    cases hend : builtin m sh c.argv with
    | exited status =>
      refine iff_of_false (by simp [Forks, hend]) fun hfailed => ?_
      rw [builtin_failedCd hfailed] at hend
      cases hend
    | returned b after argv printed =>
      have := builtin_result hb hend
      simp only [Forks, hend]
      simp [this]

/-! ## A pipeline -/

/-- What one call of `execute` in a pipeline does is right exactly when its fork is. -/
theorem piped_turn_iff (i in_fd out_fd : Nat) :
    ((execute m i sh c in_fd out_fd true).events.countP (carriesOut i) = 1 ∧
        ∀ e ∈ (execute m i sh c in_fd out_fd true).events, ¬ changesShell e) ↔
      if is_builtin c then m.fork i = none ∧ Harmless m sh c else m.fork i ≠ none := by
  rw [execute_once_iff, execute_keeps_iff]
  cases hb : is_builtin c with
  | false => simp [Forks, builtin_other hb]
  | true =>
    simp only [if_true, true_implies]
    refine ⟨fun ⟨hfork, hharmless⟩ => ⟨?_, hharmless⟩, fun ⟨hfork, hharmless⟩ => ⟨.inr hfork, hharmless⟩⟩
    rcases hfork with hearly | hfork
    · cases hend : builtin m sh c.argv with
      | exited status => simp [Harmless, hend] at hharmless
      | returned b after argv printed => simp [Forks, hend] at hearly
    · exact hfork

/-- The loop does nothing for the commands before and after its own. -/
theorem run_loop_others {count : Nat} {cmds : List command} {index in_fd j : Nat} {sh : Shell}
    (hj : j < index ∨ index + cmds.length ≤ j) :
    (run_loop m count index in_fd sh cmds).2.1.countP (carriesOut j) = 0 := by
  induction cmds generalizing index in_fd sh with
  | nil => rfl
  | cons c rest ih =>
    rw [List.length_cons] at hj
    rw [run_loop]
    split
    · rfl
    · dsimp only
      split
      · exact execute_others (by omega)
      · rw [List.countP_append, execute_others (by omega), ih (by omega)]

/-- The loop does for its first command what `execute` does for it. -/
theorem run_loop_first (sh : Shell) (c : command) (rest : List command)
    {count index in_fd read_fd write_fd : Nat}
    (hpipe : (if index + 1 < count then m.pipe index else some (in_fd, 1)) =
      some (read_fd, write_fd)) :
    ∃ later, (run_loop m count index in_fd sh (c :: rest)).2.1 =
        (execute m index sh c in_fd write_fd (1 < count)).events ++ later ∧
      later.countP (carriesOut index) = 0 := by
  simp only [run_loop, hpipe]
  split
  · exact ⟨[], by simp, rfl⟩
  · exact ⟨_, rfl, run_loop_others (.inl (Nat.lt_succ_self index))⟩

/-- After a harmless command the loop goes on in the same state. -/
theorem run_loop_harmless (rest : List command) {count index in_fd read_fd write_fd : Nat}
    (hpipe : (if index + 1 < count then m.pipe index else some (in_fd, 1)) =
      some (read_fd, write_fd)) (h : Harmless m sh c) :
    (run_loop m count index in_fd sh (c :: rest)).2.1 =
      (execute m index sh c in_fd write_fd (1 < count)).events ++
        (run_loop m count (index + 1) read_fd sh rest).2.1 := by
  obtain ⟨hsh, child, hchild⟩ := execute_harmless index in_fd write_fd (decide (1 < count)) h
  simp only [run_loop, hpipe, hchild, hsh]

/-- What holds of each command of a list, by its number: of the first, and of the rest. -/
theorem forall_getElem_cons {P : Nat → command → Prop} {c : command} {rest : List command}
    {index : Nat} : (∀ k c', (c :: rest)[k]? = some c' → P (index + k) c') ↔
      P index c ∧ ∀ k c', rest[k]? = some c' → P (index + 1 + k) c' := by
  constructor
  · intro h
    refine ⟨h 0 c rfl, fun k c' hk => ?_⟩
    rw [Nat.add_assoc, Nat.add_comm 1 k]
    exact h (k + 1) c' hk
  · rintro ⟨hfirst, hrest⟩ k c' hk
    cases k with
    | zero =>
      cases hk
      exact hfirst
    | succ k =>
      rw [Nat.add_comm k 1, ← Nat.add_assoc]
      exact hrest k c' hk

/-- From a command on, the loop carries out each once and without a trace exactly when each is
carried out so in the state that the loop has now. -/
theorem run_loop_once_iff (m : Machine) (sh : Shell) {count : Nat} (hcount : 1 < count)
    {cmds : List command} (index in_fd : Nat) (hlen : index + cmds.length = count) :
    ((∀ i, index ≤ i → i < count →
          (run_loop m count index in_fd sh cmds).2.1.countP (carriesOut i) = 1) ∧
        ∀ e ∈ (run_loop m count index in_fd sh cmds).2.1, ¬ changesShell e) ↔
      ∀ k c, cmds[k]? = some c → PipedOnce m sh count (index + k) c := by
  induction cmds generalizing index in_fd with
  | nil =>
    rw [List.length_nil, Nat.add_zero] at hlen
    simp only [run_loop, List.not_mem_nil, false_implies, implies_true, and_true,
      List.getElem?_nil, reduceCtorEq]
    exact iff_of_true (fun i h1 h2 => by omega) trivial
  | cons c rest ih =>
    rw [List.length_cons] at hlen
    rw [forall_getElem_cons]
    cases hpipe : if index + 1 < count then m.pipe index else some (in_fd, 1) with
    | none =>
      -- without its pipe the command is not reached
      have hlast : index + 1 < count ∧ m.pipe index = none := by
        split at hpipe
        · exact ⟨‹_›, hpipe⟩
        · cases hpipe
      refine iff_of_false (fun h => ?_) fun h => h.1.1 hlast.1 hlast.2
      have := h.1 index (Nat.le_refl _) (by omega)
      simp [run_loop, hpipe] at this
    | some fds =>
      obtain ⟨read_fd, write_fd⟩ := fds
      have hready : index + 1 < count → m.pipe index ≠ none := by
        intro hmore
        rw [if_pos hmore] at hpipe
        simp [hpipe]
      have hback : decide (1 < count) = true := decide_eq_true hcount
      obtain ⟨later, hevents, hlater⟩ := run_loop_first sh c rest hpipe
      by_cases hturn : if is_builtin c then m.fork index = none ∧ Harmless m sh c
          else m.fork index ≠ none
      · have hharmless : Harmless m sh c := by
          cases hb : is_builtin c with
          | false => exact harmless_other hb
          | true => exact (by simpa [hb] using hturn : m.fork index = none ∧ Harmless m sh c).2
        have hall := run_loop_harmless rest hpipe hharmless
        rw [hback] at hall
        obtain ⟨honce, hkept⟩ := (piped_turn_iff index in_fd write_fd).mpr hturn
        have hfirst : PipedOnce m sh count index c := ⟨hready, hturn⟩
        rw [and_iff_right hfirst, ← ih (index + 1) read_fd (by omega), hall]
        constructor
        · rintro ⟨hcounts, hall⟩
          refine ⟨fun i hi hlt => ?_, fun e he => hall e (List.mem_append_right _ he)⟩
          have := hcounts i (by omega) hlt
          rwa [List.countP_append, execute_others (by omega), Nat.zero_add] at this
        · rintro ⟨hcounts, hall⟩
          refine ⟨fun i hi hlt => ?_, List.forall_mem_append.mpr ⟨hkept, hall⟩⟩
          rw [List.countP_append]
          rcases Nat.lt_or_eq_of_le hi with hmore | rfl
          · rw [execute_others (by omega), hcounts i hmore hlt]
          · rw [honce, run_loop_others (.inl (Nat.lt_succ_self index))]
      · refine iff_of_false (fun h => hturn ?_) fun h => hturn h.1.2
        rw [hback] at hevents
        refine (piped_turn_iff index in_fd write_fd).mp ⟨?_, fun e he => h.2 e ?_⟩
        · have := h.1 index (Nat.le_refl _) (by omega)
          rwa [hevents, List.countP_append, hlater] at this
        · rw [hevents]
          exact List.mem_append_left _ he

/-! ## The law -/

/-- What the commands of a line need for each to be carried out once. -/
def OnceEach (m : Machine) (sh : Shell) (cmds : List command) : Prop :=
  match cmds with
  | [] => True
  | [c] => AloneOnce m sh c
  | c :: d :: rest => ∀ k e, (c :: d :: rest)[k]? = some e →
    PipedOnce m sh (c :: d :: rest).length k e

theorem run_commands_events (cmds : List command) :
    (run_commands m sh cmds).2.2 = (run_loop m cmds.length 0 0 sh cmds).2.1 := by
  unfold run_commands
  split <;> simp_all

/-- On a line of at most sixteen commands each is carried out once exactly under `OnceEach`. -/
theorem run_commands_once_iff (cmds : List command) :
    ExecutedOnce cmds.length (run_commands m sh cmds).2.2 ↔ OnceEach m sh cmds := by
  rw [run_commands_events]
  match cmds with
  | [] => exact iff_of_true ⟨fun i hi => absurd hi (Nat.not_lt_zero i), fun h => by simp at h⟩ trivial
  | [c] =>
    have hevents : (run_loop m 1 0 0 sh [c]).2.1 = (execute m 0 sh c 0 1 false).events := by
      simp only [run_loop, Nat.zero_add, Nat.lt_irrefl, if_false, decide_false]
      split
      · rfl
      · simp
    rw [List.length_singleton, hevents, OnceEach, ← alone_once_iff]
    constructor
    · intro h
      exact h.once 0 Nat.zero_lt_one
    · intro h
      refine ⟨fun i hi => ?_, fun h1 => absurd h1 (Nat.lt_irrefl 1)⟩
      obtain rfl : i = 0 := by omega
      exact h
  | c :: d :: rest =>
    have hmany : 1 < (c :: d :: rest).length := by simp
    have hloop := run_loop_once_iff m sh hmany 0 0 (Nat.zero_add _)
    simp only [Nat.zero_add, Nat.zero_le, true_implies] at hloop
    rw [OnceEach, ← hloop]
    exact ⟨fun h => ⟨h.once, h.kept hmany⟩, fun h => ⟨h.1, fun _ => h.2⟩⟩

/-- For every line that `run_line` accepts, in every state of the shell and on every machine: each
command of the line is carried out once, as a builtin of the shell or in one child, and no builtin
of a pipeline changes the shell, exactly when the line has at most sixteen commands and they meet
`OnceEach`. -/
theorem each_command_is_carried_out_once_iff (m : Machine) (sh : Shell) (line : Bytes)
    (cmds : List command) (h : Accepted sh line cmds) :
    (∃ out sh' events, run_line m sh line = .ok (out, sh', events) ∧
        ExecutedOnce (commandCount sh line) events) ↔
      commandCount sh line ≤ 16 ∧ OnceEach m sh cmds := by
  have hrun : run_line m sh line = .ok (run_commands m sh cmds) := by
    rw [run_line, show parse sh line = .ok (some cmds) from h]
    rfl
  have hevents : (∃ out sh' events, run_line m sh line = .ok (out, sh', events) ∧
      ExecutedOnce (commandCount sh line) events) ↔
      ExecutedOnce (commandCount sh line) (run_commands m sh cmds).2.2 := by
    rw [hrun]
    constructor
    · rintro ⟨out, sh', events, heq, honce⟩
      rw [Except.ok.inj heq]
      exact honce
    · intro honce
      exact ⟨_, _, _, rfl, honce⟩
  rw [hevents]
  rcases commandCount_of_accepted h with ⟨hle, hlen⟩ | ⟨hlt, hlen⟩
  · rw [← hlen, run_commands_once_iff, and_iff_right (by omega)]
  · -- what stands after the sixteenth command is dropped
    refine iff_of_false (fun honce => ?_) fun hcond => absurd hcond.1 (by omega)
    have := honce.once 16 hlt
    rw [run_commands_events, run_loop_others (.inr (by omega))] at this
    cases this

/-- A machine on which all calls work, with the directories `/` and `/tmp`. -/
def plainMachine : Machine :=
  { chdir := fun _ path => if path = ascii "/" ∨ path = ascii "/tmp" then some path else none
    getcwd := fun _ => true
    pipe := fun i => some (3 + 2 * i, 4 + 2 * i)
    fork := fun i => some (100 + i)
    wait := fun _ => .exited 0 }

def rootShell : Shell := { cwd := ascii "/", environ := [], last_status := 0 }

/-- The commands of a pipeline of two programs are carried out once each. -/
theorem two_programs_are_carried_out_once :
    ∃ out sh' events, run_line plainMachine rootShell (ascii "printf x | grep x") =
      .ok (out, sh', events) ∧
      ExecutedOnce (commandCount rootShell (ascii "printf x | grep x")) events := by
  refine (each_command_is_carried_out_once_iff plainMachine rootShell (ascii "printf x | grep x")
    [⟨[ascii "printf", ascii "x"], none, none, false⟩, ⟨[ascii "grep", ascii "x"], none, none, false⟩]
    (by unfold Accepted; decide +kernel)).mpr ⟨by decide +kernel, fun k c hk => ⟨fun _ => ?_, ?_⟩⟩
  · simp [plainMachine]
  · have hother : is_builtin c = false := by
      match k, hk with
      | 0, hk =>
        cases hk
        decide
      | 1, hk =>
        cases hk
        decide
    rw [hother]
    simp [plainMachine]

/-- The `cd` of a pipeline is run by the shell, which is then in another directory, and once more
in a child. A `cd` that fails is run twice too. -/
theorem a_piped_cd_is_carried_out_twice :
    Accepted rootShell (ascii "cd /tmp | cat")
      [⟨[ascii "cd", ascii "/tmp"], none, none, false⟩, ⟨[ascii "cat"], none, none, false⟩] ∧
    run_line plainMachine rootShell (ascii "cd /tmp | cat") =
      .ok (.returned 0, { rootShell with cwd := ascii "/tmp" },
        [.builtin 0 rootShell { rootShell with cwd := ascii "/tmp" },
          .forked 0 ⟨[ascii "cd", ascii "/tmp"], none, none, false⟩ 0 4,
          .forked 1 ⟨[ascii "cat"], none, none, false⟩ 3 1]) ∧
    run_line plainMachine rootShell (ascii "cd /none") =
      .ok (.returned 0, rootShell, [.builtin 0 rootShell rootShell,
        .forked 0 ⟨[ascii "cd", ascii "/none"], none, none, false⟩ 0 1]) ∧
    ¬ ∃ out sh' events, run_line plainMachine rootShell (ascii "cd /tmp | cat") =
      .ok (out, sh', events) ∧
      ExecutedOnce (commandCount rootShell (ascii "cd /tmp | cat")) events := by
  have hrun : run_line plainMachine rootShell (ascii "cd /tmp | cat") =
      .ok (.returned 0, { rootShell with cwd := ascii "/tmp" },
        [.builtin 0 rootShell { rootShell with cwd := ascii "/tmp" },
          .forked 0 ⟨[ascii "cd", ascii "/tmp"], none, none, false⟩ 0 4,
          .forked 1 ⟨[ascii "cat"], none, none, false⟩ 3 1]) := by decide +kernel
  refine ⟨by unfold Accepted; decide +kernel, hrun, by decide +kernel, ?_⟩
  rintro ⟨out, sh', events, heq, honce⟩
  rw [hrun] at heq
  cases heq
  have := honce.once 0 (by decide +kernel)
  revert this
  decide

end mantle.shell
