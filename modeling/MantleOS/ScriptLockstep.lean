-- Two runs of one script, on machines that answer its conditions alike and
-- differ in everything else. The runs stay in step: the values of variables,
-- of the environment and of commands never decide what is read or run next.
import MantleOS.ScriptTrace

open bytes ctext

namespace mantle.script

/-! ## The runs without their values -/

/-- The event without the texts that come from values, and without the status of a command. -/
def Event.erase : Event → Event
  | .stored keyword v => .stored keyword ⟨v.name, []⟩
  | .printed keyword _ => .printed keyword []
  | .ran keyword argv execute _ => .ran keyword (argv.map fun _ => []) execute 0
  | e => e

/-- The answer to a condition. -/
def Event.answer : Event → Option Bool
  | .asked _ answer => some answer
  | _ => none

/-- The answers that a run has had from `geteuid` and `command_exists`, in order. -/
def answers (trace : List Event) : List Bool := trace.filterMap Event.answer

theorem Event.answer_erase (e : Event) : e.erase.answer = e.answer := by
  cases e <;> rfl

theorem answers_map_erase (trace : List Event) : answers (trace.map Event.erase) = answers trace := by
  rw [answers, List.filterMap_map]
  exact List.filterMap_congr fun e _ => e.answer_erase

/-- Two machines at the same token of the same statement, in blocks with the same flags. -/
structure Lock (m1 m2 : Machine) : Prop where
  l : m1.s.l = m2.s.l
  vars : m1.s.vars.length = m2.s.vars.length
  index : m1.index = m2.index
  place : m1.place = m2.place ∨
    ∃ a1 a2, m1.place = .runArgs a1 ∧ m2.place = .runArgs a2 ∧ a1.length = a2.length
  keyword : m1.keyword = m2.keyword
  top : m1.top.execute = m2.top.execute
  below : m1.below.map Frame.execute = m2.below.map Frame.execute
  trace : m1.trace.map Event.erase = m2.trace.map Event.erase

def Locked : Config → Config → Prop
  | .running m1, .running m2 => Lock m1 m2
  | .done _ s1 trace1, .done _ s2 trace2 =>
    s1.l = s2.l ∧ trace1.map Event.erase = trace2.map Event.erase
  | _, _ => False

/-! ## One step -/

namespace Lock

variable {m1 m2 : Machine}

theorem next (hl : Lock m1 m2) : Lock m1.next m2.next :=
  { hl with l := congrArg lex hl.l, index := congrArg (· + 1) hl.index }

theorem log (hl : Lock m1 m2) {e1 e2 : Event} (he : e1.erase = e2.erase) :
    Lock (m1.log e1) (m2.log e2) :=
  { hl with trace := by simp [hl.trace, he] }

theorem goto (hl : Lock m1 m2) (place : Place) : Lock (m1.goto place) (m2.goto place) :=
  { hl with place := .inl rfl }

/-- The results may differ. -/
theorem finish (hl : Lock m1 m2) (r1 r2 : Int) : Lock (m1.finish r1) (m2.finish r2) :=
  { hl with place := .inl rfl }

theorem complain (hl : Lock m1 m2) (text : Bytes) : Lock (m1.complain text) (m2.complain text) :=
  { hl with trace := by simp [hl.trace, hl.index, hl.top] }

theorem fail (hl : Lock m1 m2) (text : Bytes) : Lock (m1.fail text) (m2.fail text) :=
  (hl.complain text).finish 2 2

theorem push (hl : Lock m1 m2) (condition : Bool) : Lock (m1.push condition) (m2.push condition) :=
  { hl with
    top := by simp [hl.top]
    below := by simp [hl.top, hl.below] }

theorem token (hl : Lock m1 m2) : m1.s.l.token = m2.s.l.token := by rw [hl.l]

theorem reach (hl : Lock m1 m2) : Lock m1.reach m2.reach := by
  unfold Machine.reach
  dsimp only
  rw [hl.token, hl.index, hl.top]
  have hreached : Lock
      { m1.next.log (.reached m2.index (m2.s.l.token.text.take 63) m2.top.execute) with
        place := placeAfter (m2.s.l.token.text.take 63), keyword := m2.index }
      { m2.next.log (.reached m2.index (m2.s.l.token.text.take 63) m2.top.execute) with
        place := placeAfter (m2.s.l.token.text.take 63), keyword := m2.index } :=
    { hl.next.log rfl with
      place := .inl rfl
      keyword := rfl }
  split
  · exact hreached.complain _
  · exact hreached

theorem store (h1 h2 : host) (name : Bytes) (hl : Lock m1 m2) :
    Lock (script.store h1 m1 name) (script.store h2 m2 name) := by
  unfold script.store
  dsimp only
  rw [hl.top, hl.vars]
  split
  · exact { hl with
      vars := by simp [hl.vars]
      trace := by simp [hl.trace, hl.keyword, Event.erase] }
  · exact hl

theorem print (h1 h2 : host) (hl : Lock m1 m2) : Lock (script.print h1 m1) (script.print h2 m2) := by
  unfold script.print
  dsimp only
  rw [hl.top]
  split
  · exact { hl with trace := by simp [hl.trace, hl.keyword, Event.erase] }
  · exact hl

/-- The commands may do anything: neither the source nor the variables change. -/
theorem launch (h1 h2 : host) {args1 args2 : List Bytes} (hlength : args1.length = args2.length)
    (hl : Lock m1 m2) : Lock (script.launch h1 m1 args1) (script.launch h2 m2 args2) := by
  have hrun : ∀ (h : host) (args : List Bytes) (s : Script),
      (run_argv h args s).2.l = s.l ∧ (run_argv h args s).2.vars = s.vars := by
    intro h args s
    unfold run_argv
    split <;> exact ⟨rfl, rfl⟩
  have hargs : args1.map (fun _ => ([] : Bytes)) = args2.map (fun _ => []) := by
    rw [List.map_const', List.map_const', hlength]
  unfold script.launch
  rw [hl.top]
  cases m2.top.execute with
  | false =>
    exact { hl with
      place := .inl rfl
      trace := by simp [hl.trace, hl.keyword, Event.erase, hargs] }
  | true =>
    exact { hl with
      l := by simp [hrun, hl.l]
      vars := by simp [hrun, hl.vars]
      place := .inl rfl
      trace := by simp [hl.trace, hl.keyword, Event.erase, hargs] }

end Lock

/-- The condition that a step asks for, with the machine's answer. -/
def query (h : host) (m : Machine) : Option Bool :=
  let t := m.s.l.token
  match m.place with
  | .ifText => if is_text t.kind then some (command_exists h m.s.effects t.text) else none
  | .requireWord =>
    if t.kind = .K_WORD ∧ t.text = ascii "admin" then some (decide (h.geteuid = 0)) else none
  | _ => none

theorem query_isSome (h1 h2 : host) {m1 m2 : Machine} (hl : Lock m1 m2) :
    (query h1 m1).isSome = (query h2 m2).isSome := by
  rcases hl.place with hplace | ⟨a1, a2, hp1, hp2, _⟩
  · unfold query
    rw [hplace, hl.token]
    cases m2.place with
    | ifText => dsimp only; split <;> rfl
    | requireWord => dsimp only; split <;> rfl
    | _ => rfl
  · simp [query, hp1, hp2]

theorem answers_log (trace : List Event) (e : Event) :
    answers (trace ++ [e]) = answers trace ++ e.answer.toList := by
  rw [answers, List.filterMap_append]
  cases hanswer : e.answer <;> simp [hanswer, answers]

theorem answers_place_step (h : host) (m : Machine) :
    answers (place_step h m).trace = answers m.trace ++ (query h m).toList := by
  unfold place_step query
  dsimp only
  cases m.place with
  | start => simp
  | letName => dsimp only; split <;> simp [Machine.fail, answers_log, Event.answer]
  | letEq name => dsimp only; split <;> simp [Machine.fail, answers_log, Event.answer]
  | letValue name =>
    dsimp only
    split
    · unfold store
      dsimp only
      split <;> simp [answers_log, Event.answer]
    · simp [Machine.fail, answers_log, Event.answer]
  | printText =>
    dsimp only
    split
    · unfold print
      dsimp only
      split <;> simp [answers_log, Event.answer]
    · simp [Machine.fail, answers_log, Event.answer]
  | runArgs args => dsimp only; split <;> simp [launch, answers_log, Event.answer]
  | ifWord => dsimp only; split <;> simp [Machine.fail, answers_log, Event.answer]
  | ifOpen => dsimp only; split <;> simp [Machine.fail, answers_log, Event.answer]
  | ifText =>
    dsimp only
    split
    · simp [answers_log, Event.answer]
    · simp [Machine.fail, answers_log, Event.answer]
  | ifClose condition => dsimp only; split <;> simp [Machine.fail, answers_log, Event.answer]
  | requireWord =>
    dsimp only
    split
    · simp [answers_log, Event.answer]
    · simp [Machine.fail, answers_log, Event.answer]
  | brace condition =>
    dsimp only
    split
    · simp
    · split <;> simp [Machine.fail, answers_log, Event.answer]
  | exitCode => dsimp only; split <;> simp [Machine.fail, answers_log, Event.answer]
  | skip => dsimp only; split <;> simp [answers_log, Event.answer]

/-- A step adds the answer to the condition that it asks for. -/
theorem answers_step (h : host) (m : Machine) :
    answers (step h m).trace = answers m.trace ++ (query h m).toList := by
  unfold step
  split
  · rename_i hp
    have hquery : query h m = none := by simp [query, hp]
    have hreturn : ∀ m : Machine, (return_block m).trace = m.trace := by
      intro m
      unfold return_block
      cases m.below <;> rfl
    rw [hquery, Option.toList_none, List.append_nil]
    unfold start_step
    cases m.s.l.token.kind with
    | K_EOF => rw [hreturn]
    | K_NEWLINE => rfl
    | K_RBRACE => rw [hreturn, Machine.next_trace]
    | K_WORD =>
      show answers m.reach.trace = _
      unfold Machine.reach
      dsimp only
      split
      · rw [Machine.complain_trace, answers_log]
        simp [answers_log, Event.answer]
      · simp [answers_log, Event.answer]
    | _ => simp [Config.trace, Machine.fail, answers_log, Event.answer]
  · exact answers_place_step h m

/-- The arguments of a `run`: their texts may differ, and their number does not. -/
theorem Lock.run_step (h1 h2 : host) {m1 m2 : Machine} (hl : Lock m1 m2) {a1 a2 : List Bytes}
    (hp1 : m1.place = .runArgs a1) (hp2 : m2.place = .runArgs a2) (hlength : a1.length = a2.length) :
    Lock (script.place_step h1 m1) (script.place_step h2 m2) := by
  unfold script.place_step
  dsimp only
  rw [hp1, hp2, hl.token]
  dsimp only
  split
  · refine { hl.next with place := .inr ⟨_, _, rfl, rfl, ?_⟩ }
    rw [hlength]
    split
    · rw [List.length_append, List.length_append, hlength]
      rfl
    · exact hlength
  · exact hl.launch h1 h2 hlength

/-- With the same answer, if a condition is asked for, both machines come to the same place. -/
theorem Lock.place_step {h1 h2 : host} {m1 m2 : Machine} (hl : Lock m1 m2)
    (hq : query h1 m1 = query h2 m2) : Lock (script.place_step h1 m1) (script.place_step h2 m2) := by
  rcases hl.place with hplace | ⟨a1, a2, hp1, hp2, hlength⟩
  swap
  · exact hl.run_step h1 h2 hp1 hp2 hlength
  by_cases hargs : ∃ args, m2.place = .runArgs args
  · obtain ⟨args, hp2⟩ := hargs
    exact hl.run_step h1 h2 (hplace.trans hp2) hp2 rfl
  rw [not_exists] at hargs
  unfold script.place_step
  dsimp only
  unfold query at hq
  rw [hplace, hl.token] at hq
  rw [hplace, hl.token]
  cases hp2 : m2.place with
  | start => exact hl
  | letName =>
    dsimp only
    split
    · exact hl.next.goto _
    · exact hl.fail _
  | letEq name =>
    dsimp only
    split
    · exact hl.next.goto _
    · exact hl.fail _
  | letValue name =>
    dsimp only
    split
    · exact (hl.store h1 h2 name).next.goto _
    · exact hl.fail _
  | printText =>
    dsimp only
    split
    · exact (hl.print h1 h2).next.goto _
    · exact hl.fail _
  | runArgs args => exact absurd hp2 (hargs args)
  | ifWord =>
    dsimp only
    split
    · exact hl.next.goto _
    · exact hl.fail _
  | ifOpen =>
    dsimp only
    split
    · exact hl.next.goto _
    · exact hl.fail _
  | ifText =>
    dsimp only
    split
    · rename_i htext
      simp only [hp2, htext, if_true, Option.some.injEq] at hq
      rw [hq, hl.index]
      exact (hl.log rfl).next.goto _
    · exact hl.fail _
  | ifClose condition =>
    dsimp only
    split
    · exact hl.next.goto _
    · exact hl.fail _
  | requireWord =>
    dsimp only
    split
    · rename_i hword
      simp only [hp2, hword, and_self, if_true, Option.some.injEq] at hq
      rw [hq, hl.index]
      exact (hl.log rfl).next.goto _
    · exact hl.fail _
  | brace condition =>
    dsimp only
    split
    · exact hl.next
    split
    · rw [hl.index]
      exact ((hl.log rfl).push condition).next.goto _
    · exact hl.fail _
  | exitCode =>
    dsimp only
    split
    · rw [hl.keyword, hl.top]
      exact (hl.log rfl).finish _ _
    · exact hl.fail _
  | skip =>
    dsimp only
    split
    · exact hl.finish 2 2
    · rw [hl.index, hl.top]
      exact (hl.log rfl).next

theorem Lock.return_block {m1 m2 : Machine} (hl : Lock m1 m2) :
    Locked (script.return_block m1) (script.return_block m2) := by
  have hbelow := hl.below
  unfold script.return_block
  cases h1 : m1.below with
  | nil =>
    have h2 : m2.below = [] := by
      rw [h1] at hbelow
      simpa using hbelow.symm
    rw [h2]
    exact ⟨hl.l, hl.trace⟩
  | cons f1 below1 =>
    rw [h1] at hbelow
    cases h2 : m2.below with
    | nil => simp [h2] at hbelow
    | cons f2 below2 =>
      rw [h2, List.map_cons, List.map_cons, List.cons.injEq] at hbelow
      exact { hl with
        top := hbelow.1
        below := hbelow.2 }

theorem Lock.start_iff {m1 m2 : Machine} (hl : Lock m1 m2) : m1.place = .start ↔ m2.place = .start := by
  rcases hl.place with hplace | ⟨a1, a2, hp1, hp2, _⟩
  · rw [hplace]
  · simp [hp1, hp2]

theorem Lock.step {h1 h2 : host} {m1 m2 : Machine} (hl : Lock m1 m2)
    (hq : query h1 m1 = query h2 m2) : Locked (script.step h1 m1) (script.step h2 m2) := by
  unfold script.step
  by_cases hp : m2.place = .start
  · rw [if_pos hp, if_pos (hl.start_iff.mpr hp)]
    unfold start_step
    rw [hl.token]
    cases m2.s.l.token.kind with
    | K_EOF => exact hl.return_block
    | K_NEWLINE => exact hl.next
    | K_RBRACE => exact hl.next.return_block
    | K_WORD => exact hl.reach
    | _ => exact hl.fail _
  · rw [if_neg hp, if_neg (fun h => hp (hl.start_iff.mp h))]
    exact hl.place_step hq

/-! ## Whole runs -/

/-- Later answers come after the earlier ones. -/
theorem answers_grow (h : host) (n : Nat) (c : Config) : answers c.trace <+: answers (after h n c).trace := by
  induction n generalizing c with
  | zero => exact List.prefix_refl _
  | succ n ih =>
    cases c with
    | done result s trace => exact List.prefix_refl _
    | running m =>
      have hstep : answers m.trace <+: answers (step h m).trace := by
        rw [answers_step]
        exact List.prefix_append _ _
      exact hstep.trans (ih (step h m))

/-- When both runs go on to the same answers, the next one is the same. -/
theorem query_eq {h1 h2 : host} {m1 m2 : Machine} (hl : Lock m1 m2) {n : Nat}
    (hanswers : answers (after h1 n (step h1 m1)).trace = answers (after h2 n (step h2 m2)).trace) :
    query h1 m1 = query h2 m2 := by
  have hsame : answers m1.trace = answers m2.trace := by
    rw [← answers_map_erase, hl.trace, answers_map_erase]
  have h1n := answers_grow h1 n (step h1 m1)
  have h2n := answers_grow h2 n (step h2 m2)
  rw [answers_step, hsame] at h1n
  rw [answers_step, ← hanswers] at h2n
  have hsome := query_isSome h1 h2 hl
  have hlength : (answers m2.trace ++ (query h1 m1).toList).length =
      (answers m2.trace ++ (query h2 m2).toList).length := by
    cases hq1 : query h1 m1 <;> cases hq2 : query h2 m2 <;> simp_all
  have hboth := (List.prefix_of_prefix_length_le h1n h2n (Nat.le_of_eq hlength)).eq_of_length hlength
  have htail := List.append_cancel_left hboth
  cases hq1 : query h1 m1 <;> cases hq2 : query h2 m2 <;> simp_all

/-- By induction on the steps, from any two machines in step. -/
theorem locked_after {h1 h2 : host} {c1 c2 : Config} (hl : Locked c1 c2) {n : Nat}
    (hanswers : answers (after h1 n c1).trace = answers (after h2 n c2).trace) {k : Nat} (hk : k ≤ n) :
    Locked (after h1 k c1) (after h2 k c2) := by
  induction k generalizing c1 c2 n with
  | zero => exact hl
  | succ k ih =>
    cases c1 with
    | done result1 s1 trace1 =>
      cases c2 with
      | done result2 s2 trace2 => exact hl
      | running m2 => exact hl.elim
    | running m1 =>
      cases c2 with
      | done result2 s2 trace2 => exact hl.elim
      | running m2 =>
        obtain ⟨n, rfl⟩ : ∃ n', n = n' + 1 := ⟨n - 1, by omega⟩
        exact ih (Lock.step hl (query_eq hl hanswers)) hanswers (by omega)

/-! ## The law -/

/-- Two runs of one source text, on any two machines that have given the same answers after `n`
steps. Up to there both are at the same token after each step, with the same statements
reached, the same flags, the same variables named and as many arguments to each `run`, and one
is done exactly when the other is. -/
theorem values_never_become_statements (h1 h2 : host) (src : Bytes) (n : Nat)
    (hanswers : answers (after h1 n (.running (.start src))).trace =
      answers (after h2 n (.running (.start src))).trace) (k : Nat) (hk : k ≤ n) :
    (after h1 k (.running (.start src))).trace.map Event.erase =
        (after h2 k (.running (.start src))).trace.map Event.erase ∧
      (after h1 k (.running (.start src))).s.l = (after h2 k (.running (.start src))).s.l ∧
      (after h1 k (.running (.start src))).isDone = (after h2 k (.running (.start src))).isDone := by
  have hstart : Locked (.running (.start src)) (.running (.start src)) :=
    ⟨rfl, rfl, rfl, .inl rfl, rfl, rfl, rfl, rfl⟩
  have hlocked := locked_after hstart hanswers hk
  revert hlocked
  cases after h1 k (.running (.start src)) with
  | running m1 =>
    cases after h2 k (.running (.start src)) with
    | running m2 => exact fun hl => ⟨hl.trace, hl.l, rfl⟩
    | done result2 s2 trace2 => exact fun hl => hl.elim
  | done result1 s1 trace1 =>
    cases after h2 k (.running (.start src)) with
    | running m2 => exact fun hl => hl.elim
    | done result2 s2 trace2 => exact fun hl => ⟨hl.2, hl.1, rfl⟩

/-- A variable of the environment that looks like the end of a block and a command after it. -/
def injectingHost : host :=
  { geteuid := 0, getenv := fun _ => some (ascii "x\n\x7d\nrun rm"), script_args := []
    before_args := fun _ => [], access := fun _ _ => false, launch := fun _ _ => .exited 1 }

/-- It stays one argument of one `run`, as the empty text does on a machine without it. -/
theorem an_injected_text_is_one_argument :
    let src := ascii "let a = '$\x7bX\x7d'\nrequire admin \x7b\nrun echo '$\x7ba\x7d'\n\x7d\n"
    let c1 := after someHost 20 (.running (.start src))
    let c2 := after injectingHost 20 (.running (.start src))
    c1.trace.filterMap Event.effect = [.run [ascii "echo", []]] ∧
      c2.trace.filterMap Event.effect = [.run [ascii "echo", ascii "x\n\x7d\nrun rm"]] ∧
      c1.trace.map Event.erase = c2.trace.map Event.erase ∧ c1.s.l = c2.s.l ∧ c1.isDone = c2.isDone :=
  ⟨by decide +kernel, by decide +kernel,
    values_never_become_statements someHost injectingHost _ 20 (by decide +kernel) 20 (Nat.le_refl _)⟩

end mantle.script
