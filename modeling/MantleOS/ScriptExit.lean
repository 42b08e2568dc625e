-- What an executed `exit` does. It returns the value of its code and leaves the
-- code to be read as the next statement; its block goes on, and so do the blocks
-- around it. Here is exactly when the script ends there, with the code as its status.
import MantleOS.ScriptErrors
import MantleOS.ScriptMeaning

open bytes ctext

namespace mantle.script

/-! ## The tokens between two statements -/

/-- The tokens of a statement, or of a guard up to its `{`. -/
inductive Piece : List Lexeme → Prop
  | blank : Piece [mark .K_NEWLINE]
  | let_ (name : Bytes) (value : Operand) :
      Piece [word (ascii "let"), word name, mark .K_EQ, value.lexeme, mark .K_NEWLINE]
  | print (text : Operand) : Piece [word (ascii "print"), text.lexeme, mark .K_NEWLINE]
  | run (command : Bytes) (args : List Operand) :
      Piece (word (ascii "run") :: word command :: (args.map Operand.lexeme ++ [mark .K_NEWLINE]))
  | guard (g : Guard) (newlines : Nat) :
      Piece (g.lexemes ++ (List.replicate newlines (mark .K_NEWLINE) ++ [mark .K_LBRACE]))
  | exit (code : Bytes) : Piece [word (ascii "exit"), word code, mark .K_NEWLINE]

/-- What may be left of a program at the start of a statement: statements, and the ends of blocks. -/
inductive Boundary : List Lexeme → Prop
  | done : Boundary []
  | close {ts : List Lexeme} : Boundary ts → Boundary (mark .K_RBRACE :: ts)
  | piece {head ts : List Lexeme} : Piece head → Boundary ts → Boundary (head ++ ts)

theorem Boundary.newline {ts : List Lexeme} (h : Boundary ts) : Boundary (mark .K_NEWLINE :: ts) :=
  .piece .blank h

/-- By induction on the layout of the program. -/
theorem lines_boundary {p : Program} {ts k : List Lexeme} (hlines : Lines p ts) (hk : Boundary k) :
    Boundary (ts ++ k) := by
  induction hlines generalizing k with
  | done => exact hk
  | blank _ ih => exact (ih hk).newline
  | let_ name value _ ih =>
    have hlet := Boundary.piece (.let_ name value) (ih hk)
    exact hlet
  | print text _ ih =>
    have hprint := Boundary.piece (.print text) (ih hk)
    exact hprint
  | run command args _ ih =>
    have hrun := Boundary.piece (.run command args) (ih hk)
    simpa using hrun
  | guard g newlines _ _ ihb ihr =>
    have hguard := Boundary.piece (.guard g newlines) (ihb (.close (ihr hk)))
    simpa using hguard
  | exit code _ ih =>
    have hexit := Boundary.piece (.exit code) (ih hk)
    exact hexit

/-- A token that ends no block. -/
def inside (t : Lexeme) : Bool := !ends_block t.kind

theorem inside_operand (o : Operand) : inside o.lexeme = true := by
  unfold inside Operand.lexeme
  cases o.quoted <;> rfl

theorem inside_newlines (n : Nat) : (List.replicate n (mark .K_NEWLINE)).all inside = true := by
  rw [List.all_replicate]
  split <;> rfl

/-- No token of a statement ends a block. -/
theorem Piece.inside {head : List Lexeme} (h : Piece head) : head.all inside = true := by
  have hargs : ∀ args : List Operand, (args.map Operand.lexeme).all script.inside = true := by
    intro args
    simp [inside_operand]
  cases h with
  | blank => rfl
  | let_ name value => simp only [List.all_cons, inside_operand]; rfl
  | print text => simp only [List.all_cons, inside_operand]; rfl
  | run command args => simp only [List.all_cons, List.all_append, hargs]; rfl
  | guard g newlines =>
    simp only [List.all_append, inside_newlines]
    cases g with
    | if_exists command => simp only [Guard.lexemes, List.all_cons, inside_operand]; rfl
    | require_admin => rfl
  | exit code => rfl

/-- The end of a block stands between two statements. -/
theorem Boundary.of_append {all before ts : List Lexeme} {t : Lexeme} (h : Boundary all)
    (hsplit : all = before ++ t :: ts) :
    t.kind ≠ .K_EOF ∧ (t.kind = .K_RBRACE → Boundary (t :: ts)) := by
  induction h generalizing before with
  | done => simp at hsplit
  | close hts ih =>
    cases before with
    | nil =>
      cases hsplit
      exact ⟨by simp [mark], fun _ => .close hts⟩
    | cons b before =>
      cases hsplit
      exact ih rfl
  | @piece head rest hhead hrest ih =>
    rcases List.append_eq_append_iff.mp hsplit with ⟨more, hbefore, hmore⟩ | ⟨more, hinside, hmore⟩
    · exact ih hmore
    · cases more with
      | nil =>
        rw [List.nil_append] at hmore
        exact @ih [] hmore.symm
      | cons b more =>
        cases hmore
        have hplain := List.all_eq_true.mp hhead.inside t (by rw [hinside]; simp)
        unfold script.inside at hplain
        exact ⟨fun heof => by simp [heof, ends_block] at hplain, fun hclose => by simp [hclose, ends_block] at hplain⟩

/-! ## The machine is in step with the program -/

/-- What is left of a program at a place of the machine. The code of an `exit` is left at the start
of a statement; it may be a keyword, whose statement then meets the end of the line. -/
inductive Remains : Place → List Lexeme → Prop
  | start {ts : List Lexeme} : Boundary ts → Remains .start ts
  | code (code : Bytes) {ts : List Lexeme} : Boundary ts →
      Remains .start (word code :: mark .K_NEWLINE :: ts)
  | aborts (keyword : Bytes) {ts : List Lexeme} : placeAfter keyword ≠ .skip → Boundary ts →
      Remains (placeAfter keyword) (mark .K_NEWLINE :: ts)
  | letName (name : Bytes) (value : Operand) {ts : List Lexeme} : Boundary ts →
      Remains .letName (word name :: mark .K_EQ :: value.lexeme :: ts)
  | letEq (name : Bytes) (value : Operand) {ts : List Lexeme} : Boundary ts →
      Remains (.letEq name) (mark .K_EQ :: value.lexeme :: ts)
  | letValue (name : Bytes) (value : Operand) {ts : List Lexeme} : Boundary ts →
      Remains (.letValue name) (value.lexeme :: ts)
  | printText (text : Operand) {ts : List Lexeme} : Boundary ts → Remains .printText (text.lexeme :: ts)
  | runArgs (read : List Bytes) (args : List Operand) {ts : List Lexeme} : Boundary ts →
      Remains (.runArgs read) (args.map Operand.lexeme ++ mark .K_NEWLINE :: ts)
  | ifWord (command : Operand) (newlines : Nat) {ts : List Lexeme} : Boundary ts →
      Remains .ifWord (word (ascii "command.exists") :: mark .K_LP :: command.lexeme :: mark .K_RP ::
        (List.replicate newlines (mark .K_NEWLINE) ++ mark .K_LBRACE :: ts))
  | ifOpen (command : Operand) (newlines : Nat) {ts : List Lexeme} : Boundary ts →
      Remains .ifOpen (mark .K_LP :: command.lexeme :: mark .K_RP ::
        (List.replicate newlines (mark .K_NEWLINE) ++ mark .K_LBRACE :: ts))
  | ifText (command : Operand) (newlines : Nat) {ts : List Lexeme} : Boundary ts →
      Remains .ifText (command.lexeme :: mark .K_RP ::
        (List.replicate newlines (mark .K_NEWLINE) ++ mark .K_LBRACE :: ts))
  | ifClose (condition : Bool) (newlines : Nat) {ts : List Lexeme} : Boundary ts →
      Remains (.ifClose condition) (mark .K_RP ::
        (List.replicate newlines (mark .K_NEWLINE) ++ mark .K_LBRACE :: ts))
  | requireWord (newlines : Nat) {ts : List Lexeme} : Boundary ts →
      Remains .requireWord (word (ascii "admin") ::
        (List.replicate newlines (mark .K_NEWLINE) ++ mark .K_LBRACE :: ts))
  | brace (condition : Bool) (newlines : Nat) {ts : List Lexeme} : Boundary ts →
      Remains (.brace condition) (List.replicate newlines (mark .K_NEWLINE) ++ mark .K_LBRACE :: ts)
  | exitCode (code : Bytes) {ts : List Lexeme} : Boundary ts →
      Remains .exitCode (word code :: mark .K_NEWLINE :: ts)
  | skip (before : List Lexeme) {ts : List Lexeme} : Boundary (before ++ ts) → Remains .skip ts

/-- The machine faces what is left of a program. -/
def InStep (m : Machine) : Prop := ∃ ts, Remains m.place ts ∧ Faces m.s.l ts

section InStep

variable {h : host} {m : Machine} {ts : List Lexeme}

theorem InStep.at_start (hplace : m.place = .start) (hts : Boundary ts) (hfaces : Faces m.s.l ts) : InStep m :=
  ⟨ts, hplace ▸ .start hts, hfaces⟩

theorem InStep.fail (hts : Boundary ts) (hfaces : Faces m.s.l ts) (text : Bytes) : InStep (m.fail text) :=
  .at_start rfl hts hfaces

theorem placeAfter_cases (keyword : Bytes) :
    placeAfter keyword = .letName ∨ placeAfter keyword = .printText ∨ placeAfter keyword = .runArgs [] ∨
      placeAfter keyword = .ifWord ∨ placeAfter keyword = .requireWord ∨ placeAfter keyword = .exitCode ∨
      placeAfter keyword = .skip := by
  unfold placeAfter
  split_ifs <;> simp

theorem launch_l (h : host) (m : Machine) (args : List Bytes) : (launch h m args).s.l = m.s.l := by
  unfold launch
  cases m.top.execute with
  | true => exact run_argv_l h args m.s
  | false => rfl

/-- The statement of a code that is a keyword ends at the end of its line: a `run` without arguments,
or a message. -/
theorem aborts_step (h : host) {keyword : Bytes} (hplace : m.place = placeAfter keyword)
    (hkeyword : placeAfter keyword ≠ .skip) (hkind : m.s.l.token.kind = .K_NEWLINE) :
    (placeAfter keyword = .runArgs [] ∧ place_step h m = launch h m []) ∨
      ((∀ args, placeAfter keyword ≠ .runArgs args) ∧ ∃ text, place_step h m = m.fail text) := by
  rcases placeAfter_cases keyword with hk | hk | hk | hk | hk | hk | hk <;> rw [hk] at hplace ⊢
  · exact .inr ⟨by simp, _, by simp only [place_step, hplace, hkind, reduceCtorEq, if_false]; rfl⟩
  · exact .inr ⟨by simp, _, by simp only [place_step, hplace, hkind, is_text]; rfl⟩
  · exact .inl ⟨rfl, by simp only [place_step, hplace, hkind, is_text]; rfl⟩
  · exact .inr ⟨by simp, _, by simp only [place_step, hplace, hkind, reduceCtorEq, false_and, if_false]; rfl⟩
  · exact .inr ⟨by simp, _, by simp only [place_step, hplace, hkind, reduceCtorEq, false_and, if_false]; rfl⟩
  · exact .inr ⟨by simp, _, by simp only [place_step, hplace, hkind, reduceCtorEq, if_false]; rfl⟩
  · exact absurd hk hkeyword

theorem InStep.aborts {keyword : Bytes} (hplace : m.place = placeAfter keyword)
    (hkeyword : placeAfter keyword ≠ .skip) (hts : Boundary ts)
    (hfaces : Faces m.s.l (mark .K_NEWLINE :: ts)) : InStep (place_step h m) := by
  rcases aborts_step h hplace hkeyword hfaces.1 with ⟨-, hlaunch⟩ | ⟨-, text, hfail⟩
  · rw [hlaunch]
    refine .at_start rfl hts.newline ?_
    rw [launch_l]
    exact hfaces
  · rw [hfail]
    exact .fail hts.newline hfaces text

/-- By what is left at the place. -/
theorem InStep.place_step (h : host) (hs : InStep m) (hp : m.place ≠ .start) : InStep (place_step h m) := by
  obtain ⟨ts, hremains, hfaces⟩ := hs
  generalize hplace : m.place = place at hremains
  cases hremains with
  | start _ => exact absurd hplace hp
  | code _ _ => exact absurd hplace hp
  | aborts keyword hkeyword hts => exact .aborts hplace hkeyword hts hfaces
  | letName name value hts =>
    obtain ⟨hkind, htext, hrest⟩ := hfaces
    have hkind : m.s.l.token.kind = .K_WORD := hkind
    have hstep : script.place_step h m = m.next.goto (.letEq (m.s.l.token.text.take 63)) := by
      simp only [script.place_step, hplace, hkind, if_true]
    rw [hstep]
    exact ⟨_, .letEq _ value hts, hrest⟩
  | letEq name value hts =>
    obtain ⟨hkind, htext, hrest⟩ := hfaces
    have hkind : m.s.l.token.kind = .K_EQ := hkind
    have hstep : script.place_step h m = m.next.goto (.letValue name) := by
      simp only [script.place_step, hplace, hkind, if_true]
    rw [hstep]
    exact ⟨_, .letValue name value hts, hrest⟩
  | letValue name value hts =>
    obtain ⟨hkind, htext, hrest⟩ := hfaces
    have hkind : is_text m.s.l.token.kind = true := hkind ▸ value.is_text
    have hstep : script.place_step h m = (store h m name).next.goto .start := by
      simp only [script.place_step, hplace, hkind, if_true]
    rw [hstep]
    refine .at_start rfl hts ?_
    show Faces (lex (store h m name).s.l) _
    rw [(store_eq h m name).1]
    exact hrest
  | printText text hts =>
    obtain ⟨hkind, htext, hrest⟩ := hfaces
    have hkind : is_text m.s.l.token.kind = true := hkind ▸ text.is_text
    have hstep : script.place_step h m = (print h m).next.goto .start := by
      simp only [script.place_step, hplace, hkind, if_true]
    rw [hstep]
    refine .at_start rfl hts ?_
    show Faces (lex (print h m).s.l) _
    rw [(print_eq h m).1]
    exact hrest
  | runArgs read args hts =>
    cases args with
    | nil =>
      have hkind : m.s.l.token.kind = .K_NEWLINE := hfaces.1
      have hstep : script.place_step h m = launch h m read := by
        simp only [script.place_step, hplace, hkind, is_text]
        rfl
      rw [hstep]
      refine .at_start rfl hts.newline ?_
      rw [launch_l]
      exact hfaces
    | cons o args =>
      obtain ⟨hkind, htext, hrest⟩ := hfaces
      have hkind : is_text m.s.l.token.kind = true := hkind ▸ o.is_text
      simp only [script.place_step, hplace, hkind, if_true]
      exact ⟨_, .runArgs _ args hts, hrest⟩
  | ifWord command newlines hts =>
    obtain ⟨hkind, htext, hrest⟩ := hfaces
    have hword : m.s.l.token.kind = .K_WORD ∧ m.s.l.token.text = ascii "command.exists" := ⟨hkind, htext⟩
    have hstep : script.place_step h m = m.next.goto .ifOpen := by
      simp only [script.place_step, hplace, hword, and_self, if_true]
    rw [hstep]
    exact ⟨_, .ifOpen command newlines hts, hrest⟩
  | ifOpen command newlines hts =>
    obtain ⟨hkind, htext, hrest⟩ := hfaces
    have hkind : m.s.l.token.kind = .K_LP := hkind
    have hstep : script.place_step h m = m.next.goto .ifText := by
      simp only [script.place_step, hplace, hkind, if_true]
    rw [hstep]
    exact ⟨_, .ifText command newlines hts, hrest⟩
  | ifText command newlines hts =>
    obtain ⟨hkind, htext, hrest⟩ := hfaces
    have hkind : is_text m.s.l.token.kind = true := hkind ▸ command.is_text
    simp only [script.place_step, hplace, hkind, if_true]
    exact ⟨_, .ifClose _ newlines hts, hrest⟩
  | ifClose condition newlines hts =>
    obtain ⟨hkind, htext, hrest⟩ := hfaces
    have hkind : m.s.l.token.kind = .K_RP := hkind
    have hstep : script.place_step h m = m.next.goto (.brace condition) := by
      simp only [script.place_step, hplace, hkind, if_true]
    rw [hstep]
    exact ⟨_, .brace condition newlines hts, hrest⟩
  | requireWord newlines hts =>
    obtain ⟨hkind, htext, hrest⟩ := hfaces
    have hword : m.s.l.token.kind = .K_WORD ∧ m.s.l.token.text = ascii "admin" := ⟨hkind, htext⟩
    simp only [script.place_step, hplace, hword, and_self, if_true]
    exact ⟨_, .brace _ newlines hts, hrest⟩
  | brace condition newlines hts =>
    cases newlines with
    | zero =>
      obtain ⟨hkind, htext, hrest⟩ := hfaces
      have hkind : m.s.l.token.kind = .K_LBRACE := hkind
      simp only [script.place_step, hplace, hkind, reduceCtorEq, if_false, if_true]
      exact .at_start rfl hts hrest
    | succ newlines =>
      obtain ⟨hkind, htext, hrest⟩ := hfaces
      have hkind : m.s.l.token.kind = .K_NEWLINE := hkind
      have hstep : script.place_step h m = m.next := by
        simp only [script.place_step, hplace, hkind, if_true]
      rw [hstep]
      refine ⟨_, ?_, hrest⟩
      rw [Machine.next_place, hplace]
      exact .brace condition newlines hts
  | exitCode code hts =>
    have hkind : m.s.l.token.kind = .K_WORD := hfaces.1
    simp only [script.place_step, hplace, hkind, if_true]
    exact ⟨_, .code code hts, hfaces⟩
  | skip before hts =>
    cases ts with
    | nil =>
      have hkind : m.s.l.token.kind = .K_EOF := hfaces
      simp only [script.place_step, hplace, hkind, ends_block, decide_true, Bool.true_or, if_true]
      exact .at_start rfl .done hfaces
    | cons t ts =>
      obtain ⟨hkind, htext, hrest⟩ := hfaces
      obtain ⟨hne, hclose⟩ := hts.of_append rfl
      cases hend : ends_block t.kind with
      | true =>
        have hbrace : t.kind = .K_RBRACE := by simpa [ends_block, hne] using hend
        simp only [script.place_step, hplace, hkind, hend, if_true]
        exact .at_start rfl (hclose hbrace) ⟨hkind, htext, hrest⟩
      | false =>
        simp only [script.place_step, hplace, hkind, hend, Bool.false_eq_true, if_false]
        refine ⟨ts, ?_, hrest⟩
        rw [Machine.next_place, Machine.log_place, hplace]
        exact .skip (before ++ [t]) (by rwa [List.append_assoc])

theorem reach_l (m : Machine) : m.reach.s.l = lex m.s.l := by
  rw [(reach_eq m).2.2.2]
  split <;> rfl

/-- A keyword is taken. -/
theorem InStep.reach {keyword : Bytes} {place : Place} (hfaces : Faces m.s.l (word keyword :: ts))
    (hplace : placeAfter (keyword.take 63) = place) (hts : Remains place ts) : InStep m.reach := by
  obtain ⟨hkind, htext, hrest⟩ := hfaces
  have htext : m.s.l.token.text = keyword := htext
  refine ⟨ts, ?_, ?_⟩
  · rw [(reach_eq m).1, htext, hplace]
    exact hts
  · rw [reach_l]
    exact hrest

/-- The code of an `exit` is taken for a keyword. -/
theorem InStep.reach_code {code : Bytes} (hts : Boundary ts)
    (hfaces : Faces m.s.l (word code :: mark .K_NEWLINE :: ts)) : InStep m.reach := by
  by_cases hskip : placeAfter (code.take 63) = .skip
  · exact .reach hfaces hskip (.skip [] hts.newline)
  · exact .reach hfaces rfl (.aborts _ hskip hts)

/-- The configuration is done, or its machine is in step. -/
def Config.inStep : Config → Prop
  | .running m => InStep m
  | .done _ _ _ => True

theorem InStep.return_block (hs : InStep m) : (return_block m).inStep := by
  unfold script.return_block
  cases m.below with
  | nil => trivial
  | cons f below =>
    obtain ⟨ts, hremains, hfaces⟩ := hs
    exact ⟨ts, hremains, hfaces⟩

theorem InStep.reach_piece {head : List Lexeme} (hhead : Piece head) (hts : Boundary ts)
    (hfaces : Faces m.s.l (head ++ ts)) (hword : m.s.l.token.kind = .K_WORD) : InStep m.reach := by
  cases hhead with
  | blank =>
    have hkind : m.s.l.token.kind = .K_NEWLINE := hfaces.1
    rw [hkind] at hword
    cases hword
  | let_ name value => exact .reach hfaces (by decide) (.letName name value hts.newline)
  | print text => exact .reach hfaces (by decide) (.printText text hts.newline)
  | run command args =>
    have hremains := Remains.runArgs [] (⟨false, command⟩ :: args) hts
    have hfaces : Faces m.s.l (word (ascii "run") :: word command ::
        (args.map Operand.lexeme ++ mark .K_NEWLINE :: ts)) := by simpa using hfaces
    exact InStep.reach hfaces (by decide) hremains
  | guard g newlines =>
    cases g with
    | if_exists command =>
      rw [List.append_assoc, List.append_assoc] at hfaces
      exact .reach hfaces (by decide) (.ifWord command newlines hts)
    | require_admin =>
      rw [List.append_assoc, List.append_assoc] at hfaces
      exact .reach hfaces (by decide) (.requireWord newlines hts)
  | exit code => exact .reach hfaces (by decide) (.exitCode code hts)

theorem InStep.step (h : host) (hs : InStep m) : (step h m).inStep := by
  unfold script.step
  split
  · rename_i hplace
    have hs' := hs
    obtain ⟨ts, hremains, hfaces⟩ := hs
    rw [hplace] at hremains
    unfold start_step
    generalize hstart : Place.start = place at hremains
    cases hremains with
    | code code hts =>
      have hkind : m.s.l.token.kind = .K_WORD := hfaces.1
      rw [hkind]
      exact .reach_code hts hfaces
    | aborts keyword hkeyword hts =>
      have hcases := placeAfter_cases keyword
      rw [← hstart] at hcases
      simp at hcases
    | start hts =>
      cases hts with
      | done =>
        have hkind : m.s.l.token.kind = .K_EOF := hfaces
        rw [hkind]
        exact hs'.return_block
      | close hts =>
        obtain ⟨hkind, htext, hrest⟩ := hfaces
        have hkind : m.s.l.token.kind = .K_RBRACE := hkind
        rw [hkind]
        exact InStep.return_block (m := m.next) (.at_start hplace hts hrest)
      | @piece head rest hhead hts =>
        by_cases hword : m.s.l.token.kind = .K_WORD
        · rw [hword]
          exact .reach_piece hhead hts hfaces hword
        · have hblank : head = [mark .K_NEWLINE] := by
            cases hhead with
            | blank => rfl
            | guard g newlines => cases g <;> exact absurd hfaces.1 hword
            | let_ | print | run | exit => exact absurd hfaces.1 hword
          subst hblank
          obtain ⟨hkind, htext, hrest⟩ := hfaces
          have hkind : m.s.l.token.kind = .K_NEWLINE := hkind
          rw [hkind]
          exact .at_start hplace hts hrest
    | _ => cases hstart
  · rename_i hplace
    exact hs.place_step h hplace

/-- In every run of a program the machine is in step with it. -/
theorem inStep_after (h : host) {src : Bytes} {p : Program} {ts : List Lexeme} (hlines : Lines p ts)
    (hfaces : Faces (lex (.start src)) ts) (n : Nat) : (after h n (.running (.start src))).inStep := by
  have hstart : (Config.running (.start src)).inStep := by
    have hts := lines_boundary hlines .done
    rw [List.append_nil] at hts
    exact InStep.at_start rfl hts hfaces
  exact after_keeps (P := Config.inStep) hstart fun _ _ _ _ hm => hm.step h

end InStep

/-! ## The statements that are reached -/

/-- The number of the keyword of a statement that is reached. -/
def Event.reachedAt : Event → Option Nat
  | .reached keyword _ _ => some keyword
  | _ => none

/-- The tokens go on, and the trace, without a new statement. -/
structure Idles (m m' : Machine) : Prop where
  index : m.index ≤ m'.index
  trace : ∃ events, m'.trace = m.trace ++ events ∧ ∀ e ∈ events, e.reachedAt = none

theorem Idles.refl (m : Machine) : Idles m m := ⟨Nat.le_refl _, [], by simp, by simp⟩

theorem Idles.trans {m1 m2 m3 : Machine} (h12 : Idles m1 m2) (h23 : Idles m2 m3) : Idles m1 m3 := by
  obtain ⟨events, htrace, hnone⟩ := h12.trace
  obtain ⟨events', htrace', hnone'⟩ := h23.trace
  refine ⟨Nat.le_trans h12.index h23.index, events ++ events', by rw [htrace', htrace, List.append_assoc], ?_⟩
  intro e he
  rcases List.mem_append.mp he with he | he
  · exact hnone e he
  · exact hnone' e he

theorem Idles.quiet {m m' : Machine} (hindex : m.index ≤ m'.index) (htrace : m'.trace = m.trace) :
    Idles m m' := ⟨hindex, [], by simp [htrace], by simp⟩

theorem Idles.one {m m' : Machine} {e : Event} (hindex : m.index ≤ m'.index)
    (htrace : m'.trace = m.trace ++ [e]) (he : e.reachedAt = none) : Idles m m' :=
  ⟨hindex, [e], htrace, by simp [he]⟩

theorem Idles.fail (m : Machine) (text : Bytes) : Idles m (m.fail text) := .one (Nat.le_refl _) rfl rfl

theorem Idles.launch (h : host) (m : Machine) (args : List Bytes) : Idles m (launch h m args) :=
  .one (Nat.le_refl _) rfl rfl

/-- By the kinds of step inside of a statement. -/
theorem Moves.idles {h : host} {m m' : Machine} (hm : Moves h m m') : Idles m m' := by
  cases hm with
  | takes => exact .quiet (Nat.le_succ _) rfl
  | stores name =>
    have hstored : Idles m (store h m name) := by
      unfold store
      dsimp only
      split
      · exact .one (Nat.le_refl _) rfl rfl
      · exact .refl m
    exact hstored.trans (.quiet (Nat.le_succ _) rfl)
  | prints =>
    have hprinted : Idles m (print h m) := by
      unfold print
      dsimp only
      split
      · exact .one (Nat.le_refl _) rfl rfl
      · exact .refl m
    exact hprinted.trans (.quiet (Nat.le_succ _) rfl)
  | launches args => exact .launch h m args
  | asks => exact .one (Nat.le_succ _) rfl rfl
  | opens => exact .one (Nat.le_succ _) rfl rfl
  | fails text => exact .fail m text
  | exits => exact .one (Nat.le_refl _) rfl rfl
  | skips => exact .one (Nat.le_succ _) rfl rfl
  | recovers => exact .quiet (Nat.le_refl _) rfl

/-- A statement is reached with its own number. -/
theorem reach_trace (m : Machine) :
    m.reach.index = m.index + 1 ∧ ∃ events,
      m.reach.trace = m.trace ++ .reached m.index (m.s.l.token.text.take 63) m.top.execute :: events ∧
        ∀ e ∈ events, e.reachedAt = none := by
  unfold Machine.reach
  dsimp only
  split
  · exact ⟨rfl, [.failed (m.index + 1) m.top.execute], by simp, by simp [Event.reachedAt]⟩
  · exact ⟨rfl, [], by simp, by simp⟩

/-- The statements that were reached lie behind the machine. -/
def ReachedBefore (m : Machine) : Prop := ∀ e ∈ m.trace, ∀ i, e.reachedAt = some i → i < m.index

theorem ReachedBefore.idles {m m' : Machine} (hr : ReachedBefore m) (hi : Idles m m') : ReachedBefore m' := by
  obtain ⟨events, htrace, hnone⟩ := hi.trace
  intro e he i hreached
  rw [htrace] at he
  rcases List.mem_append.mp he with he | he
  · exact Nat.lt_of_lt_of_le (hr e he i hreached) hi.index
  · rw [hnone e he] at hreached
    cases hreached

theorem ReachedBefore.reach {m : Machine} (hr : ReachedBefore m) : ReachedBefore m.reach := by
  obtain ⟨hindex, events, htrace, hnone⟩ := reach_trace m
  intro e he i hreached
  rw [htrace] at he
  rw [hindex]
  rcases List.mem_append.mp he with he | he
  · exact Nat.lt_succ_of_lt (hr e he i hreached)
  · rcases List.mem_cons.mp he with rfl | he
    · rw [← Option.some.inj hreached]
      exact Nat.lt_succ_self _
    · rw [hnone e he] at hreached
      cases hreached

/-- What a step makes of the trace: it goes on at its end, and the statements lie behind it. -/
theorem step_trace (h : host) (m : Machine) :
    m.trace <+: (step h m).trace ∧
      (ReachedBefore m → ∀ m', step h m = .running m' → ReachedBefore m') := by
  have hidle : ∀ m', Idles m m' → m.trace <+: m'.trace := by
    intro m' hi
    obtain ⟨events, htrace, -⟩ := hi.trace
    exact ⟨events, htrace.symm⟩
  have hreturn : ∀ m1, Idles m m1 → m.trace <+: (return_block m1).trace ∧
      (ReachedBefore m → ∀ m', return_block m1 = .running m' → ReachedBefore m') := by
    intro m1 hi
    unfold return_block
    cases m1.below with
    | nil => exact ⟨hidle m1 hi, fun _ m' hm' => by cases hm'⟩
    | cons f below =>
      refine ⟨hidle m1 hi, fun hr m' hm' => ?_⟩
      cases hm'
      exact hr.idles ⟨hi.index, hi.trace⟩
  have hrunning : ∀ m1, Idles m m1 → m.trace <+: (Config.running m1).trace ∧
      (ReachedBefore m → ∀ m', Config.running m1 = .running m' → ReachedBefore m') := by
    intro m1 hi
    refine ⟨hidle m1 hi, fun hr m' hm' => ?_⟩
    cases hm'
    exact hr.idles hi
  unfold step
  split
  · unfold start_step
    cases m.s.l.token.kind with
    | K_EOF => exact hreturn m (.refl m)
    | K_RBRACE => exact hreturn m.next (.quiet (Nat.le_succ _) rfl)
    | K_NEWLINE => exact hrunning m.next (.quiet (Nat.le_succ _) rfl)
    | K_WORD =>
      obtain ⟨-, events, htrace, -⟩ := reach_trace m
      refine ⟨⟨_, htrace.symm⟩, fun hr m' hm' => ?_⟩
      cases hm'
      exact hr.reach
    | _ => exact hrunning _ (.fail m _)
  · rename_i hp
    exact hrunning _ (place_step_moves h hp).idles

theorem trace_grows (h : host) (n : Nat) (c : Config) : c.trace <+: (after h n c).trace := by
  have hkeeps := @after_keeps (fun c' => c.trace <+: c'.trace) h c (List.prefix_refl _) n
    fun _ m _ _ hm => hm.trans (step_trace h m).1
  exact hkeeps

theorem reachedBefore_after (h : host) (src : Bytes) (n : Nat) {m : Machine}
    (hm : after h n (.running (.start src)) = .running m) : ReachedBefore m := by
  have hkept : ∀ m, after h n (.running (.start src)) = .running m → ReachedBefore m := by
    refine after_keeps (P := fun c => ∀ m, c = .running m → ReachedBefore m) ?_ ?_
    · rintro m ⟨⟩
      simp [ReachedBefore, Machine.start]
    · intro k m _ _ hm m' hstep
      exact (step_trace h m).2 (hm m rfl) m' hstep
  exact hkept m hm

/-! ## The end of a script after its `exit` -/

/-- Before any other token so many blocks are closed, or the text ends. -/
def closes : List Lexeme → Nat → Bool
  | [], _ => true
  | t :: ts, blocks =>
    blocks = 0 ||
      if t.kind = .K_NEWLINE then closes ts blocks else t.kind = .K_RBRACE && closes ts (blocks - 1)

/-- The result of a script whose open blocks all end. -/
def outcome : Frame → List Frame → Int
  | f, [] => f.result
  | f, g :: below => outcome (g.record f.result) below

theorem closes_zero (ts : List Lexeme) : closes ts 0 = true := by
  cases ts <;> simp [closes]

theorem Boundary.head {t : Lexeme} {ts : List Lexeme} (h : Boundary (t :: ts)) :
    (t = mark .K_NEWLINE ∧ Boundary ts) ∨ (t = mark .K_RBRACE ∧ Boundary ts) ∨ t.kind = .K_WORD := by
  generalize hall : t :: ts = all at h
  cases h with
  | done => cases hall
  | close hts =>
    cases hall
    exact .inr (.inl ⟨rfl, hts⟩)
  | @piece head rest hhead hrest =>
    cases hhead with
    | blank =>
      cases hall
      exact .inl ⟨rfl, hrest⟩
    | guard g newlines => cases g <;> (cases hall; exact .inr (.inr rfl))
    | let_ | print | run | exit =>
      cases hall
      exact .inr (.inr rfl)

section Walk

variable {h : host} {m : Machine} {ts : List Lexeme}

/-- The blocks that are open at the end of the text end one after the other. -/
theorem end_walk (hplace : m.place = .start) (heof : m.s.l.token.kind = .K_EOF) :
    ∃ k s, after h k (.running m) = .done (outcome m.top m.below) s m.trace := by
  have hstep : step h m = return_block m := by
    rw [step, if_pos hplace, start_step, heof]
  generalize hbelow : m.below = below
  induction below generalizing m with
  | nil =>
    refine ⟨1, m.s, ?_⟩
    rw [after, hstep, return_block, hbelow]
    rfl
  | cons f below ih =>
    have hpop : step h { m with top := f.record m.top.result, below } =
        return_block { m with top := f.record m.top.result, below } := by
      rw [step, if_pos hplace, start_step, heof]
    obtain ⟨k, s, hk⟩ := @ih { m with top := f.record m.top.result, below } hplace heof hpop rfl
    refine ⟨k + 1, s, ?_⟩
    rw [after, hstep, return_block, hbelow]
    exact hk

/-- From the start of a statement the open blocks end and the script with them, or a statement is
reached in a block that is executed. -/
theorem close_walk (hplace : m.place = .start) (hts : Boundary ts) (hfaces : Faces m.s.l ts)
    (hflags : ∀ f ∈ m.top :: m.below, f.execute = true) :
    (closes ts (m.below.length + 1) = true →
      ∃ k s, after h k (.running m) = .done (outcome m.top m.below) s m.trace) ∧
    (closes ts (m.below.length + 1) = false →
      ∃ k m', after h k (.running m) = .running m' ∧ m'.place = .start ∧ m'.s.l.token.kind = .K_WORD ∧
        m'.top.execute = true ∧ m.index ≤ m'.index) := by
  induction ts generalizing m with
  | nil => exact ⟨fun _ => end_walk hplace hfaces, fun hno => by simp [closes] at hno⟩
  | cons t ts ih =>
    obtain ⟨hkind, htext, hrest⟩ := hfaces
    rcases hts.head with ⟨rfl, hts'⟩ | ⟨rfl, hts'⟩ | hword
    · have hkind : m.s.l.token.kind = .K_NEWLINE := hkind
      have hstep : step h m = .running m.next := by
        rw [step, if_pos hplace, start_step, hkind]
      obtain ⟨hends, hgoes⟩ := @ih m.next hplace hts' hrest hflags
      have hcloses : closes (mark .K_NEWLINE :: ts) (m.below.length + 1) = closes ts (m.below.length + 1) := by
        simp [closes, mark]
      rw [hcloses]
      constructor
      · intro hyes
        obtain ⟨k, s, hk⟩ := hends hyes
        exact ⟨k + 1, s, by rw [after, hstep]; exact hk⟩
      · intro hno
        obtain ⟨k, m', hk, hplace', hword, hexec, hindex⟩ := hgoes hno
        exact ⟨k + 1, m', by rw [after, hstep]; exact hk, hplace', hword, hexec, Nat.le_of_succ_le hindex⟩
    · have hkind : m.s.l.token.kind = .K_RBRACE := hkind
      have hstep : step h m = return_block m.next := by
        rw [step, if_pos hplace, start_step, hkind]
      have hcloses : closes (mark .K_RBRACE :: ts) (m.below.length + 1) = closes ts m.below.length := by
        simp [closes, mark]
      rw [hcloses]
      cases hbelow : m.below with
      | nil =>
        rw [return_block, Machine.next_below, hbelow] at hstep
        refine ⟨fun _ => ⟨1, m.next.s, by rw [after, hstep]; rfl⟩, fun hno => ?_⟩
        rw [List.length_nil, closes_zero] at hno
        cases hno
      | cons f below =>
        rw [return_block, Machine.next_below, hbelow] at hstep
        have hflags' : ∀ g ∈ f.record m.top.result :: below, g.execute = true := by
          intro g hg
          rw [hbelow] at hflags
          rcases List.mem_cons.mp hg with rfl | hg
          · exact hflags f (by simp)
          · exact hflags g (by simp [hg])
        obtain ⟨hends, hgoes⟩ :=
          @ih { m.next with top := f.record m.top.result, below } hplace hts' hrest hflags'
        constructor
        · intro hyes
          obtain ⟨k, s, hk⟩ := hends hyes
          exact ⟨k + 1, s, by rw [after, hstep]; exact hk⟩
        · intro hno
          obtain ⟨k, m', hk, hplace', hword, hexec, hindex⟩ := hgoes hno
          exact ⟨k + 1, m', by rw [after, hstep]; exact hk, hplace', hword, hexec, Nat.le_of_succ_le hindex⟩
    · have hcloses : closes (t :: ts) (m.below.length + 1) = false := by
        simp [closes, hword]
      rw [hcloses]
      refine ⟨fun hyes => absurd hyes (by simp), fun _ => ?_⟩
      refine ⟨0, m, rfl, hplace, hkind.trans hword, ?_, Nat.le_refl _⟩
      exact hflags m.top List.mem_cons_self

/-- The recovery after an unknown word goes to the next end of a block, and returns 2 there. -/
theorem skip_walk (hplace : m.place = .skip) {before : List Lexeme} (hts : Boundary (before ++ ts))
    (hfaces : Faces m.s.l ts) :
    ∃ k m', after h k (.running m) = .running m' ∧ m'.place = .start ∧
      Faces m'.s.l (ts.dropWhile (fun t => t.kind ≠ .K_RBRACE)) ∧
      Boundary (ts.dropWhile (fun t => t.kind ≠ .K_RBRACE)) ∧
      m'.top = m.top.record 2 ∧ m'.below = m.below ∧ Idles m m' := by
  induction ts generalizing m before with
  | nil =>
    have hkind : m.s.l.token.kind = .K_EOF := hfaces
    refine ⟨1, m.finish 2, ?_, rfl, hfaces, .done, rfl, rfl, .quiet (Nat.le_refl _) rfl⟩
    rw [after_one (by simp [hplace]), place_step, hplace]
    simp [hkind, ends_block]
  | cons t ts ih =>
    obtain ⟨hkind, htext, hrest⟩ := hfaces
    obtain ⟨hne, hclose⟩ := hts.of_append rfl
    by_cases hbrace : t.kind = .K_RBRACE
    · rw [List.dropWhile_cons_of_neg (by simp [hbrace])]
      refine ⟨1, m.finish 2, ?_, rfl, ⟨hkind, htext, hrest⟩, hclose hbrace, rfl, rfl, .quiet (Nat.le_refl _) rfl⟩
      rw [after_one (by simp [hplace]), place_step, hplace]
      simp [hkind, hbrace, ends_block]
    · rw [List.dropWhile_cons_of_pos (by simp [hbrace])]
      obtain ⟨k, m', hk, hrest'⟩ := @ih (m.log (.skipped m.index m.s.l.token.kind m.top.execute)).next
        hplace (before ++ [t]) (by rwa [List.append_assoc]) hrest
      obtain ⟨hplace', hfaces', hboundary, htop, hbelow, hidles⟩ := hrest'
      refine ⟨k + 1, m', ?_, hplace', hfaces', hboundary, htop, hbelow, ?_⟩
      · rw [after, step, if_neg (by simp [hplace]), place_step, hplace]
        simp only [hkind, ends_block, hne, hbrace, decide_false, Bool.or_false, Bool.false_eq_true, if_false]
        rw [hkind] at hk
        exact hk
      · exact Idles.trans (.one (Nat.le_succ _) rfl rfl) hidles

end Walk

/-! ## The law -/

/-- The machine executes an `exit`: it is at the code. -/
structure Exits (m : Machine) : Prop where
  place : m.place = .exitCode
  execute : m.top.execute = true
  word : m.s.l.token.kind = .K_WORD

/-- What an `exit` should do: the script executes no later statement, and its status is the value of
the code. -/
structure Stops (h : host) (m : Machine) : Prop where
  later : ∀ k i text, m.index < i → .reached i text true ∉ (after h k (.running m)).trace
  status : ∃ k s trace, after h k (.running m) = .done (atoi m.s.l.token.text) s trace

/-- When it does. An unknown word is skipped up to the next `}`, with the status 2: then the code is
2, and after that `}` the open blocks and the script end. The code `run` runs nothing: then no
status so far is another than 0, and the open blocks and the script end at once. Every other
keyword reports an error. -/
def ExitWorks (m : Machine) (ts : List Lexeme) : Prop :=
  match placeAfter (m.s.l.token.text.take 63) with
  | .skip =>
    atoi m.s.l.token.text = 2 ∧
      closes (ts.dropWhile (fun t => t.kind ≠ .K_RBRACE)) (m.below.length + 1) = true
  | .runArgs _ => (∀ f ∈ m.top :: m.below, f.result = 0) ∧ closes ts (m.below.length + 1) = true
  | _ => False

/-- After the end of the file comes the end of the file. -/
theorem lex_eof {l : lexer} (heof : (lex l).token.kind = .K_EOF) : (lex (lex l)).token.kind = .K_EOF := by
  -- the lexer calls itself after a comment, on a shorter text
  induction hn : l.rest.length using Nat.strong_induction_on generalizing l with
  | _ n ih =>
    cases hdrop : l.rest.dropWhile isblank with
    | nil =>
      rw [lex_of_end hdrop, lex_of_end (by rfl)]
    | cons c rest =>
      have hblank := (List.dropWhile_suffix (l := l.rest) isblank).length_le
      rw [hdrop, List.length_cons] at hblank
      rw [lex_of_head hdrop] at heof ⊢
      by_cases h0 : c = 0
      · have hhead : (c :: rest).dropWhile isblank = c :: rest := dropWhile_of_not_blank (by rw [h0]; rfl)
        rw [if_pos h0, lex_of_head hhead, if_pos h0]
      by_cases h10 : c = 10
      · rw [if_neg h0, if_pos h10] at heof
        cases heof
      rw [if_neg h0, if_neg h10] at heof ⊢
      by_cases h35 : c = 35
      · have hshort := (List.dropWhile_suffix (l := rest) (fun c => c ≠ 0 && c ≠ 10)).length_le
        rw [if_pos h35] at heof ⊢
        exact ih (rest.dropWhile (fun c => c ≠ 0 && c ≠ 10)).length (by omega) heof rfl
      rw [if_neg h35] at heof
      cases hpunct : punctuation c with
      | some k =>
        rw [hpunct] at heof
        have hk : k = .K_EOF := heof
        rw [hk] at hpunct
        unfold punctuation at hpunct
        split_ifs at hpunct <;> cases hpunct
      | none =>
        rw [hpunct] at heof
        dsimp only at heof
        split at heof <;> cases heof

theorem faces_lexerAt {src : Bytes} {tokens : List Lexeme} (hfaces : Faces (lex (.start src)) tokens) (i : Nat) :
    Faces (lexerAt src i) (tokens.drop i) := by
  induction i with
  | zero => exact hfaces
  | succ i ih =>
    by_cases hi : i < tokens.length
    · rw [List.drop_eq_getElem_cons hi] at ih
      exact ih.2.2
    · rw [List.drop_of_length_le (by omega)] at ih ⊢
      have heof : (lexerAt src i).token.kind = .K_EOF := ih
      cases i with
      | zero => exact lex_eof heof
      | succ i => exact lex_eof heof

/-- A lexer faces one list of tokens only. -/
theorem faces_unique {l : lexer} {a b : List Lexeme} (ha : Faces l a) (hb : Faces l b)
    (hka : ∀ t ∈ a, t.kind ≠ .K_EOF) (hkb : ∀ t ∈ b, t.kind ≠ .K_EOF) : a = b := by
  induction a generalizing l b with
  | nil =>
    cases b with
    | nil => rfl
    | cons t b => exact absurd (hb.1.symm.trans ha) (hkb t List.mem_cons_self)
  | cons t a ih =>
    cases b with
    | nil => exact absurd (ha.1.symm.trans hb) (hka t List.mem_cons_self)
    | cons t' b =>
      have hhead : t = t' := by
        cases t
        cases t'
        obtain ⟨hkind, htext, -⟩ := ha
        obtain ⟨hkind', htext', -⟩ := hb
        rw [Lexeme.mk.injEq]
        exact ⟨hkind.symm.trans hkind', htext.symm.trans htext'⟩
      rw [hhead, ih ha.2.2 hb.2.2 (fun t ht => hka t (List.mem_cons_of_mem _ ht))
        fun t ht => hkb t (List.mem_cons_of_mem _ ht)]

theorem Boundary.kinds {ts : List Lexeme} (h : Boundary ts) : ∀ t ∈ ts, t.kind ≠ .K_EOF := by
  intro t ht
  obtain ⟨before, after, rfl⟩ := List.append_of_mem ht
  exact (h.of_append rfl).1

/-- The result of a block that is executed is that of the block around it, when it is not 0. -/
theorem outcome_of_result {f : Frame} {below : List Frame} {r : Int} (hr : r ≠ 0) (hf : f.result = r)
    (hflags : ∀ g ∈ below, g.execute = true) : outcome f below = r := by
  induction below generalizing f with
  | nil => exact hf
  | cons g below ih =>
    refine ih ?_ fun g' hg' => hflags g' (List.mem_cons_of_mem _ hg')
    rw [Frame.record, hf, hflags g List.mem_cons_self]
    simp [hr]

theorem outcome_eq_zero_iff {f : Frame} {below : List Frame} (hflags : ∀ g ∈ below, g.execute = true) :
    outcome f below = 0 ↔ ∀ g ∈ f :: below, g.result = 0 := by
  induction below generalizing f with
  | nil => simp [outcome]
  | cons g below ih =>
    have hrecord := Frame.record_result g f.result
    rw [outcome, ih fun g' hg' => hflags g' (List.mem_cons_of_mem _ hg'), List.forall_mem_cons,
      List.forall_mem_cons, List.forall_mem_cons, ← and_assoc]
    apply and_congr_left'
    rw [hflags g List.mem_cons_self] at hrecord
    constructor
    · intro hzero
      by_contra hne
      exact hrecord.mpr (by tauto) hzero
    · intro hzero
      by_contra hne
      have := hrecord.mp hne
      tauto

section Law

variable {h : host} {m : Machine} {code : Bytes} {ts : List Lexeme}

/-- The code of an `exit` that is executed, at the start of the next statement. -/
def Machine.exited (m : Machine) (code : Bytes) : Machine :=
  (m.log (.exited m.keyword true)).finish (atoi code)

theorem Exits.step (he : Exits m) : step h m = .running (m.exited m.s.l.token.text) := by
  rw [script.step, if_neg (by simp [he.place]), place_step]
  simp only [he.place, he.word, if_true, he.execute]
  rfl

/-- What is left after the statement that the code is read as, and the frame on top then. -/
def leftBy (m : Machine) (code : Bytes) (ts : List Lexeme) : List Lexeme × Frame :=
  match placeAfter (code.take 63) with
  | .skip => (ts.dropWhile (fun t => t.kind ≠ .K_RBRACE), (m.top.record (atoi code)).record 2)
  | .runArgs _ => (mark .K_NEWLINE :: ts, m.top.record (atoi code))
  | _ => (mark .K_NEWLINE :: ts, (m.top.record (atoi code)).record 2)

/-- No statement after the code is reached before the machine. -/
theorem none_reached {m' : Machine} (hr : ReachedBefore m) (hi : Idles (m.exited code).reach m') :
    m.index < m'.index ∧ ∀ i text, m.index < i → .reached i text true ∉ m'.trace := by
  obtain ⟨hindex, events, htrace, hnone⟩ := reach_trace (m.exited code)
  obtain ⟨events', htrace', hnone'⟩ := hi.trace
  have hindex : (m.exited code).reach.index = m.index + 1 := hindex
  refine ⟨by have := hi.index; omega, fun i text hlt hmem => ?_⟩
  rw [htrace', htrace] at hmem
  have hexited : (m.exited code).trace = m.trace ++ [.exited m.keyword true] := rfl
  rw [hexited, List.mem_append, List.mem_append, List.mem_append, List.mem_singleton, List.mem_cons] at hmem
  rcases hmem with (((hmem | hmem) | (hmem | hmem)) | hmem)
  · exact absurd (hr _ hmem i rfl) (by omega)
  · cases hmem
  · rw [Event.reached.injEq] at hmem
    have hsame : i = m.index := hmem.1
    omega
  · cases hnone _ hmem
  · cases hnone' _ hmem

/-- An `exit` leaves its code to be read as a statement, which ends at the end of the line or at the
next end of a block. -/
theorem code_walk (he : Exits m) (hr : ReachedBefore m) (hts : Boundary ts)
    (hfaces : Faces m.s.l (word code :: mark .K_NEWLINE :: ts)) :
    ∃ k m', after h k (.running m) = .running m' ∧ m'.place = .start ∧
      Faces m'.s.l (leftBy m code ts).1 ∧ Boundary (leftBy m code ts).1 ∧
      m'.top = (leftBy m code ts).2 ∧ m'.below = m.below ∧ m.index < m'.index ∧
      ∀ i text, m.index < i → .reached i text true ∉ m'.trace := by
  have htext : m.s.l.token.text = code := hfaces.2.1
  have hword : (m.exited code).s.l.token.kind = .K_WORD := hfaces.1
  have htwo : after h 2 (.running m) = .running (m.exited code).reach := by
    have hreach : after h 1 (.running (m.exited code)) = .running (m.exited code).reach :=
      reach_step rfl hword
    rw [after, he.step, htext]
    exact hreach
  have hplace : (m.exited code).reach.place = placeAfter (code.take 63) := by
    rw [(reach_eq (m.exited code)).1]
    exact congrArg (fun text => placeAfter (text.take 63)) htext
  have htop : (m.exited code).reach.top = m.top.record (atoi code) := (reach_eq (m.exited code)).2.1
  have hbelow : (m.exited code).reach.below = m.below := (reach_eq (m.exited code)).2.2.1
  have hexec : (m.exited code).reach.top.execute = true := by
    rw [htop]
    exact he.execute
  have hrest : Faces (m.exited code).reach.s.l (mark .K_NEWLINE :: ts) := by
    rw [reach_l]
    exact hfaces.2.2
  by_cases hskip : placeAfter (code.take 63) = .skip
  · obtain ⟨k, m', hk, hstart, hfaces', hts', htop', hbelow', hidles⟩ :=
      @skip_walk h (m.exited code).reach _ (hplace.trans hskip) [] hts.newline hrest
    rw [List.dropWhile_cons_of_pos (by simp [mark])] at hfaces' hts'
    obtain ⟨hindex, hnone⟩ := none_reached hr hidles
    refine ⟨2 + k, m', by rw [after_add, htwo, hk], hstart, ?_, ?_, ?_, hbelow'.trans hbelow, hindex, hnone⟩
    · simpa only [leftBy, hskip] using hfaces'
    · simpa only [leftBy, hskip] using hts'
    · rw [htop', htop, leftBy, hskip]
  · have hne : (m.exited code).reach.place ≠ .start := by
      rw [hplace]
      rcases placeAfter_cases (code.take 63) with hk | hk | hk | hk | hk | hk | hk <;> simp [hk]
    have hthree : after h 3 (.running m) = .running (place_step h (m.exited code).reach) := by
      rw [show 3 = 2 + 1 from rfl, after_add, htwo, after_one hne]
    rcases aborts_step h hplace hskip hrest.1 with ⟨hrun, hlaunch⟩ | ⟨hrun, text, hfail⟩
    · obtain ⟨hindex, hnone⟩ := none_reached hr (Idles.launch h (m.exited code).reach [])
      rw [hlaunch] at hthree
      have hleft : leftBy m code ts = (mark .K_NEWLINE :: ts, m.top.record (atoi code)) := by
        rw [leftBy, hrun]
      rw [hleft]
      refine ⟨3, _, hthree, rfl, ?_, hts.newline, ?_, hbelow, hindex, hnone⟩
      · rw [launch_l]
        exact hrest
      · have hzero : (launch h (m.exited code).reach []).top = (m.exited code).reach.top.record 0 := by
          unfold launch
          cases (m.exited code).reach.top.execute <;> rfl
        rw [hzero, Frame.record_zero, htop]
    · obtain ⟨hindex, hnone⟩ := none_reached hr (Idles.fail (m.exited code).reach text)
      rw [hfail] at hthree
      have hleft : leftBy m code ts = (mark .K_NEWLINE :: ts, (m.top.record (atoi code)).record 2) := by
        unfold leftBy
        split
        · exact absurd ‹_› hskip
        · exact absurd ‹_› (hrun _)
        · rfl
      rw [hleft]
      refine ⟨3, _, hthree, rfl, hrest, hts.newline, ?_, hbelow, hindex, hnone⟩
      rw [← htop]
      rfl

/-- The keywords have the value 0 as codes. -/
theorem atoi_keyword (hkeyword : placeAfter (code.take 63) ≠ .skip) : atoi code = 0 := by
  have hshort : ∀ keyword : Bytes, keyword.length < 63 → code.take 63 = keyword → code = keyword := by
    intro keyword hlength htake
    have hlen : (code.take 63).length < 63 := by rw [htake]; exact hlength
    rw [List.length_take] at hlen
    rwa [List.take_of_length_le (by omega)] at htake
  by_cases hlet : code.take 63 = ascii "let"
  · rw [hshort _ (by decide) hlet]
    decide
  by_cases hprint : code.take 63 = ascii "print"
  · rw [hshort _ (by decide) hprint]
    decide
  by_cases hrun : code.take 63 = ascii "run"
  · rw [hshort _ (by decide) hrun]
    decide
  by_cases hif : code.take 63 = ascii "if"
  · rw [hshort _ (by decide) hif]
    decide
  by_cases hrequire : code.take 63 = ascii "require"
  · rw [hshort _ (by decide) hrequire]
    decide
  by_cases hexit : code.take 63 = ascii "exit"
  · rw [hshort _ (by decide) hexit]
    decide
  · exact absurd (by simp only [placeAfter, hlet, hprint, hrun, hif, hrequire, hexit, if_false]) hkeyword

/-- A 2 on top is what a script comes to whose blocks are executed. -/
theorem outcome_record_two {f : Frame} {below : List Frame}
    (hflags : ∀ g ∈ f :: below, g.execute = true) : outcome (f.record 2) below = 2 := by
  apply outcome_of_result (by decide)
  · simp [Frame.record, hflags f List.mem_cons_self]
  · exact fun g hg => hflags g (List.mem_cons_of_mem _ hg)

theorem leftBy_execute (m : Machine) (code : Bytes) (ts : List Lexeme) :
    (leftBy m code ts).2.execute = m.top.execute := by
  unfold leftBy
  split <;> rfl

/-- What the statement of the code leaves has the right end in exactly these cases. -/
theorem left_works_iff (htext : m.s.l.token.text = code) (hflags : ∀ f ∈ m.top :: m.below, f.execute = true) :
    (closes (leftBy m code ts).1 (m.below.length + 1) = true ∧
      outcome (leftBy m code ts).2 m.below = atoi code) ↔ ExitWorks m ts := by
  have hrecorded : ∀ g ∈ m.top.record (atoi code) :: m.below, g.execute = true := by
    rw [List.forall_mem_cons] at hflags ⊢
    exact hflags
  have hnewline : closes (mark .K_NEWLINE :: ts) (m.below.length + 1) = closes ts (m.below.length + 1) := by
    simp [closes, mark]
  unfold leftBy ExitWorks
  rw [htext]
  cases hplace : placeAfter (code.take 63) with
  | skip =>
    dsimp only
    rw [outcome_record_two hrecorded, eq_comm (a := (2 : Int)), and_comm]
  | runArgs args =>
    dsimp only
    have hzero : atoi code = 0 := atoi_keyword (by simp [hplace])
    rw [hnewline, hzero, Frame.record_zero,
      outcome_eq_zero_iff fun g hg => hflags g (List.mem_cons_of_mem _ hg), and_comm]
  | _ =>
    dsimp only
    have hzero : atoi code = 0 := atoi_keyword (by simp [hplace])
    rw [outcome_record_two hrecorded, hzero]
    simp

theorem done_unique {c : Config} {a b : Nat} {r1 r2 : Int} {s1 s2 : Script} {t1 t2 : List Event}
    (h1 : after h a c = .done r1 s1 t1) (h2 : after h b c = .done r2 s2 t2) : r1 = r2 := by
  have hboth := after_add h a b c
  rw [h1, after_done, Nat.add_comm, after_add, h2, after_done] at hboth
  cases hboth
  rfl

/-- For an executed `exit` with what follows it in a program. -/
theorem stops_iff (he : Exits m) (hr : ReachedBefore m) (hts : Boundary ts)
    (hfaces : Faces m.s.l (word code :: mark .K_NEWLINE :: ts))
    (hflags : ∀ f ∈ m.top :: m.below, f.execute = true) : Stops h m ↔ ExitWorks m ts := by
  have htext : m.s.l.token.text = code := hfaces.2.1
  obtain ⟨k, m', hk, hplace, hfaces', hts', htop, hbelow, hindex, hnone⟩ := code_walk (h := h) he hr hts hfaces
  have hflags' : ∀ f ∈ m'.top :: m'.below, f.execute = true := by
    rw [List.forall_mem_cons] at hflags ⊢
    rw [htop, hbelow, leftBy_execute]
    exact hflags
  obtain ⟨hends, hgoes⟩ := close_walk (h := h) hplace hts' hfaces' hflags'
  rw [hbelow] at hends hgoes
  rw [← left_works_iff htext hflags]
  constructor
  · intro hstops
    have hcloses : closes (leftBy m code ts).1 (m.below.length + 1) = true := by
      rw [← Bool.not_eq_false]
      intro hopen
      obtain ⟨n, m'', hn, hstart, hword, hexec, hle⟩ := hgoes hopen
      have hreached : after h (k + (n + 1)) (.running m) = .running m''.reach := by
        rw [after_add, hk, after_add, hn]
        exact reach_step hstart hword
      refine hstops.later (k + (n + 1)) m''.index (m''.s.l.token.text.take 63) (by omega) ?_
      obtain ⟨-, events, htrace, -⟩ := reach_trace m''
      rw [hreached]
      show _ ∈ m''.reach.trace
      rw [htrace, hexec]
      simp
    obtain ⟨n, s, hn⟩ := hends hcloses
    obtain ⟨n', s', trace', hn'⟩ := hstops.status
    have hdone : after h (k + n) (.running m) = .done (outcome m'.top m.below) s m'.trace := by
      rw [after_add, hk, hn]
    rw [htext] at hn'
    exact ⟨hcloses, by rw [← htop]; exact done_unique hdone hn'⟩
  · rintro ⟨hcloses, houtcome⟩
    obtain ⟨n, s, hn⟩ := hends hcloses
    have hdone : after h (k + n) (.running m) = .done (atoi code) s m'.trace := by
      rw [after_add, hk, hn, htop, houtcome]
    refine ⟨fun j i text hlt hmem => ?_, k + n, s, m'.trace, by rw [htext]; exact hdone⟩
    have hgrows := trace_grows h (k + n) (after h j (.running m))
    rw [← after_add, Nat.add_comm, after_add, hdone, after_done] at hgrows
    exact hnone i text hlt (hgrows.mem hmem)

/-- Where a program executes an `exit`, the rest of the line and of the program follow. -/
theorem exit_faces {src : Bytes} {p : Program} {tokens : List Lexeme} (hlines : Lines p tokens)
    (hread : Faces (lex (.start src)) tokens) {n : Nat} (hm : after h n (.running (.start src)) = .running m)
    (he : Exits m) :
    ∃ code, Boundary (tokens.drop (m.index + 2)) ∧
      Faces m.s.l (word code :: mark .K_NEWLINE :: tokens.drop (m.index + 2)) := by
  have hin := inStep_after h hlines hread n
  rw [hm] at hin
  obtain ⟨ts, hremains, hfaces⟩ := hin
  have hbefore := lines_boundary hlines .done
  rw [List.append_nil] at hbefore
  obtain ⟨code, after, hts, rfl⟩ :
      ∃ code after, Boundary after ∧ ts = word code :: mark .K_NEWLINE :: after := by
    generalize hplace : m.place = place at hremains
    rw [he.place] at hplace
    cases hremains with
    | exitCode code hts => exact ⟨code, _, hts, rfl⟩
    | aborts keyword hkeyword hts =>
      have hkind : m.s.l.token.kind = .K_NEWLINE := hfaces.1
      rw [he.word] at hkind
      cases hkind
    | _ => cases hplace
  have hhere : Faces m.s.l (tokens.drop m.index) := by
    rw [(placed_after h src n hm).l]
    exact faces_lexerAt hread m.index
  have hsame : tokens.drop m.index = word code :: mark .K_NEWLINE :: after := by
    apply faces_unique hhere hfaces
    · exact fun t ht => hbefore.kinds t (List.mem_of_mem_drop ht)
    · intro t ht
      rcases List.mem_cons.mp ht with rfl | ht
      · simp [word]
      · exact hts.newline.kinds t ht
  have hdrop : tokens.drop (m.index + 2) = after := by
    rw [← List.drop_drop, hsame]
    rfl
  rw [hdrop]
  exact ⟨code, hts, hfaces⟩

end Law

/-- In every run of a program of the grammar, for every executed `exit` of it: no later statement is
executed and the status is the code, exactly when `ExitWorks` holds of the machine at the code
and of the tokens after the line. -/
theorem an_exit_stops_the_script_iff (h : host) (p : Program) (tokens : List Lexeme) (src : Bytes)
    (hlines : Lines p tokens) (hread : Faces (lex (.start src)) tokens) (n : Nat) (m : Machine)
    (hm : after h n (.running (.start src)) = .running m) (hexit : Exits m) :
    Stops h m ↔ ExitWorks m (tokens.drop (m.index + 2)) := by
  obtain ⟨code, hts, hfaces⟩ := exit_faces hlines hread hm hexit
  have hflags : ∀ f ∈ m.top :: m.below, f.execute = true := by
    intro f hf
    exact (placed_after h src n hm).flags_true hexit.execute f.execute (List.mem_map_of_mem hf)
  exact stops_iff hexit (reachedBefore_after h src n hm) hts hfaces hflags

/-- The program of one `exit 2`. -/
theorem an_exit_with_two_stops_iff :
    let src := ascii "exit 2\n"
    let m := (Machine.start src).reach
    let tokens := [word (ascii "exit"), word (ascii "2"), mark .K_NEWLINE]
    after someHost 1 (.running (.start src)) = .running m ∧ Exits m ∧
      (Stops someHost m ↔ ExitWorks m (tokens.drop (m.index + 2))) := by
  intro src m tokens
  have hlines : Lines (.exit (ascii "2") .done) tokens := .exit (ascii "2") .done
  have hspelled : Spelled tokens (ascii "exit" ++ 32 :: (ascii "2" ++ [10])) :=
    .word (by decide) (by decide) (.blank 32 rfl (.word (by decide) (by decide) (.newline .nil)))
  have hread : Faces (lex (.start src)) tokens := lex_spelled hspelled (by decide) rfl
  have hm : after someHost 1 (.running (.start src)) = .running m := reach_step rfl hread.1
  have hexit : Exits m := by
    refine ⟨?_, (reach_eq (.start src)).2.1 ▸ rfl, ?_⟩
    · rw [(reach_eq (.start src)).1]
      decide +kernel
    · rw [reach_l]
      exact hread.2.2.1
  exact ⟨hm, hexit, an_exit_stops_the_script_iff someHost (.exit (ascii "2") .done) tokens src hlines hread 1 m hm
    hexit⟩

/-- A machine where every command exists and comes back with 0. -/
def trueHost : host := { someHost with access := fun _ _ => true, launch := fun _ _ => .exited 0 }

/-- The script of `tests/fixtures/boot.mt` ends with the status 2 and not with that of its `exit 0`. -/
theorem the_boot_script_ends_with_two :
    let src := ascii "#!/usr/bin/mantle\nlet result = \"boot-script\"\nif command.exists(\"true\") \x7b\n    run true\n\x7d\nprint \"$\x7bresult\x7d\"\nexit 0\n"
    (run_script trueHost 40 src).map Prod.fst = some 2 ∧
      ∃ n m, after trueHost n (.running (.start src)) = .running m ∧ Exits m ∧
        atoi m.s.l.token.text = 0 ∧ ¬ Stops trueHost m := by
  intro src
  have hstatus : (run_script trueHost 40 src).map Prod.fst = some 2 := by decide +kernel
  obtain ⟨⟨r, s⟩, hrun, hr⟩ := Option.map_eq_some_iff.mp hstatus
  have hr : r = 2 := hr
  obtain ⟨k, trace, hdone⟩ := machine_done trueHost hrun
  have hexit : (match after trueHost 23 (.running (.start src)) with
      | .running m => decide (m.place = .exitCode ∧ m.top.execute = true ∧ m.s.l.token.kind = .K_WORD ∧
          atoi m.s.l.token.text = 0)
      | .done _ _ _ => false) = true := by decide +kernel
  cases hm : after trueHost 23 (.running (.start src)) with
  | done r s trace =>
    rw [hm] at hexit
    cases hexit
  | running m =>
    rw [hm] at hexit
    obtain ⟨hplace, hexec, hword, hzero⟩ := of_decide_eq_true hexit
    refine ⟨hstatus, 23, m, hm, ⟨hplace, hexec, hword⟩, hzero, fun hstops => ?_⟩
    obtain ⟨j, s', trace', hj⟩ := hstops.status
    rw [hzero] at hj
    have hsame : r = 0 := done_unique hdone (b := 23 + j) (by rw [after_add, hm, hj])
    rw [hr] at hsame
    cases hsame

end mantle.script
