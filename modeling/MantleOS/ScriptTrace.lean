-- What one step of the machine of `ScriptSteps.lean` can do inside of a
-- statement, and what its trace says: the variables, the printed lines and the
-- launched commands of a script are the events of its trace.
import MantleOS.ScriptSteps

open bytes ctext

namespace mantle.script

/-! ## What a step inside of a statement can do -/

/-- The token ends no block and opens none. -/
def plain (k : kind) : Bool := !ends_block k && k ≠ .K_LBRACE

theorem plain_of_text {k : kind} (hk : is_text k = true) : plain k = true := by
  cases k <;> simp_all [is_text, plain, ends_block]

inductive Moves (h : host) (m : Machine) : Machine → Prop
  /-- The token goes on with the statement. -/
  | takes (place : Place) : m.place ≠ .skip → place ≠ .start → place ≠ .skip →
      plain m.s.l.token.kind = true → Moves h m (m.next.goto place)
  | stores (name : Bytes) : m.place = .letValue name → plain m.s.l.token.kind = true →
      Moves h m ((store h m name).next.goto .start)
  | prints : m.place = .printText → plain m.s.l.token.kind = true →
      Moves h m ((print h m).next.goto .start)
  | launches (args : List Bytes) : m.place = .runArgs args → Moves h m (launch h m args)
  | asks (answer : Bool) (place : Place) : m.place ≠ .skip → place ≠ .start → place ≠ .skip →
      plain m.s.l.token.kind = true → Moves h m ((m.log (.asked m.index answer)).next.goto place)
  | opens (condition : Bool) : m.place = .brace condition → m.s.l.token.kind = .K_LBRACE →
      Moves h m (((m.log (.opened m.index condition)).push condition).next.goto .start)
  | fails (text : Bytes) : m.place ≠ .skip → Moves h m (m.fail text)
  | exits : m.place = .exitCode →
      Moves h m ((m.log (.exited m.keyword m.top.execute)).finish
        (if m.top.execute then atoi m.s.l.token.text else 0))
  | skips : m.place = .skip → ends_block m.s.l.token.kind = false →
      Moves h m (m.log (.skipped m.index m.s.l.token.kind m.top.execute)).next
  | recovers : m.place = .skip → ends_block m.s.l.token.kind = true → Moves h m (m.finish 2)

theorem place_step_moves (h : host) {m : Machine} (hp : m.place ≠ .start) :
    Moves h m (place_step h m) := by
  unfold place_step
  dsimp only
  cases hplace : m.place with
  | start => exact absurd hplace hp
  | letName =>
    dsimp only
    split
    · rename_i hword
      exact .takes _ (by simp [hplace]) (by simp) (by simp) (by simp [hword, plain, ends_block])
    · exact .fails _ (by simp [hplace])
  | letEq name =>
    dsimp only
    split
    · rename_i heq
      exact .takes _ (by simp [hplace]) (by simp) (by simp) (by simp [heq, plain, ends_block])
    · exact .fails _ (by simp [hplace])
  | letValue name =>
    dsimp only
    split
    · rename_i htext
      exact .stores name hplace (plain_of_text htext)
    · exact .fails _ (by simp [hplace])
  | printText =>
    dsimp only
    split
    · rename_i htext
      exact .prints hplace (plain_of_text htext)
    · exact .fails _ (by simp [hplace])
  | runArgs args =>
    dsimp only
    split
    · rename_i htext
      exact .takes _ (by simp [hplace]) (by simp) (by simp) (plain_of_text htext)
    · exact .launches args hplace
  | ifWord =>
    dsimp only
    split
    · rename_i hword
      exact .takes _ (by simp [hplace]) (by simp) (by simp) (by simp [hword.1, plain, ends_block])
    · exact .fails _ (by simp [hplace])
  | ifOpen =>
    dsimp only
    split
    · rename_i hopen
      exact .takes _ (by simp [hplace]) (by simp) (by simp) (by simp [hopen, plain, ends_block])
    · exact .fails _ (by simp [hplace])
  | ifText =>
    dsimp only
    split
    · rename_i htext
      exact .asks _ _ (by simp [hplace]) (by simp) (by simp) (plain_of_text htext)
    · exact .fails _ (by simp [hplace])
  | ifClose condition =>
    dsimp only
    split
    · rename_i hclose
      exact .takes _ (by simp [hplace]) (by simp) (by simp) (by simp [hclose, plain, ends_block])
    · exact .fails _ (by simp [hplace])
  | requireWord =>
    dsimp only
    split
    · rename_i hword
      exact .asks _ _ (by simp [hplace]) (by simp) (by simp) (by simp [hword.1, plain, ends_block])
    · exact .fails _ (by simp [hplace])
  | brace condition =>
    dsimp only
    split
    · rename_i hnewline
      have hgoto : m.next = m.next.goto (.brace condition) := by rw [← hplace]; rfl
      rw [hgoto]
      exact .takes _ (by simp [hplace]) (by simp) (by simp) (by simp [hnewline, plain, ends_block])
    split
    · rename_i hbrace
      exact .opens condition hplace hbrace
    · exact .fails _ (by simp [hplace])
  | exitCode =>
    dsimp only
    split
    · exact .exits hplace
    · exact .fails _ (by simp [hplace])
  | skip =>
    dsimp only
    split
    · rename_i hend
      exact .recovers hplace hend
    · rename_i hend
      exact .skips hplace (by simpa using hend)

/-! ## The trace tells what the script did -/

/-- The variable that an event stores. -/
def Event.value : Event → Option value
  | .stored _ v => some v
  | _ => none

/-- What an event does that can be seen from outside. A `run` without arguments launches
nothing. -/
def Event.effect : Event → Option effect
  | .printed _ text => some (.puts text)
  | .ran _ argv execute _ => if execute ∧ argv ≠ [] then some (.run argv) else none
  | _ => none

/-- A printed line or a launched command, and no message. -/
def effect.isWork : effect → Bool
  | .message _ _ => false
  | _ => true

/-- The variables and the effects of a script are those of its trace. -/
structure Told (s : Script) (trace : List Event) : Prop where
  vars : s.vars = trace.filterMap Event.value
  effects : s.effects.filter effect.isWork = trace.filterMap Event.effect

namespace Told

variable {s : Script} {trace : List Event}

/-- An event that stores nothing and does nothing. -/
theorem silent (ht : Told s trace) {e : Event} (hv : e.value = none) (he : e.effect = none) :
    Told s (trace ++ [e]) := by
  constructor
  · rw [ht.vars, List.filterMap_append]
    simp [hv]
  · rw [ht.effects, List.filterMap_append]
    simp [he]

theorem lexed (ht : Told s trace) : Told s.lexed trace := ⟨ht.vars, ht.effects⟩

theorem complain (ht : Told s trace) (text : Bytes) (index : Nat) (execute : Bool) :
    Told (s.complain text) (trace ++ [.failed index execute]) := by
  have hs : Told (s.complain text) trace := by
    refine ⟨ht.vars, ?_⟩
    rw [Script.complain, List.filter_append, ht.effects]
    simp [effect.isWork]
  exact hs.silent rfl rfl

theorem store (h : host) {m : Machine} (name : Bytes) (ht : Told m.s m.trace) :
    Told (script.store h m name).s (script.store h m name).trace := by
  unfold script.store
  dsimp only
  split
  · constructor
    · simp [ht.vars, List.filterMap_append, Event.value]
    · simp [ht.effects, List.filterMap_append, Event.effect]
  · exact ht

theorem print (h : host) {m : Machine} (ht : Told m.s m.trace) :
    Told (script.print h m).s (script.print h m).trace := by
  unfold script.print
  dsimp only
  split
  · constructor
    · simp [ht.vars, List.filterMap_append, Event.value]
    · simp [ht.effects, List.filterMap_append, Event.effect, effect.isWork]
  · exact ht

theorem launch (h : host) {m : Machine} (args : List Bytes) (ht : Told m.s m.trace) :
    Told (script.launch h m args).s (script.launch h m args).trace := by
  unfold script.launch
  cases hexec : m.top.execute with
  | false => exact silent ht rfl (by simp [Event.effect])
  | true =>
    by_cases hargs : args = []
    · simpa [run_argv, hargs] using silent ht (e := .ran m.keyword [] true 0) rfl (by simp [Event.effect])
    · constructor
      · simp [run_argv, hargs, ht.vars, List.filterMap_append, Event.value]
      · simp [run_argv, hargs, ht.effects, List.filterMap_append, Event.effect, effect.isWork]

theorem reach {m : Machine} (ht : Told m.s m.trace) : Told m.reach.s m.reach.trace := by
  have hreached := ht.lexed.silent (e := .reached m.index (m.s.l.token.text.take 63) m.top.execute) rfl rfl
  unfold Machine.reach
  dsimp only
  split
  · exact hreached.complain _ _ _
  · exact hreached

theorem moves {h : host} {m m' : Machine} (hm : Moves h m m') (ht : Told m.s m.trace) :
    Told m'.s m'.trace := by
  cases hm with
  | takes => exact ht.lexed
  | stores name => exact (ht.store h name).lexed
  | prints => exact (ht.print h).lexed
  | launches args => exact ht.launch h args
  | asks => exact (ht.silent rfl rfl).lexed
  | opens => exact (ht.silent rfl rfl).lexed
  | fails => exact ht.complain _ _ _
  | exits => exact ht.silent rfl rfl
  | skips => exact (ht.silent rfl rfl).lexed
  | recovers => exact ht

theorem return_block {m : Machine} (ht : Told m.s m.trace) :
    Told (script.return_block m).s (script.return_block m).trace := by
  unfold script.return_block
  cases m.below <;> exact ht

theorem step (h : host) {m : Machine} (ht : Told m.s m.trace) :
    Told (script.step h m).s (script.step h m).trace := by
  unfold script.step
  split
  · unfold start_step
    cases m.s.l.token.kind with
    | K_EOF => exact ht.return_block
    | K_NEWLINE => exact ht.lexed
    | K_RBRACE => exact return_block (m := m.next) ht.lexed
    | K_WORD => exact ht.reach
    | _ => exact ht.complain _ _ _
  · rename_i hp
    exact ht.moves (place_step_moves h hp)

end Told

/-- In every run the variables, the printed lines and the commands are those of the trace. -/
theorem trace_tells (h : host) (src : Bytes) (n : Nat) :
    Told (after h n (.running (.start src))).s (after h n (.running (.start src))).trace :=
  after_keeps (P := fun c => Told c.s c.trace) ⟨rfl, rfl⟩ fun _ _ _ _ => Told.step h

end mantle.script
