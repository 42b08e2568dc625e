-- When the interpreter of `mantle-script.c` comes to an end. What it has read
-- when it returns is what the pass over the tokens reads, and an accepted
-- pass takes a token with each statement.
import MantleOS.Checked
import MantleOS.ScriptPass

open bytes ctext checked

namespace mantle.script

/-! ## What a statement reads -/

/-- How many tokens stand before the end of the pass. -/
def ahead (l : lexer) : Nat := if l.token.kind = .K_EOF then 0 else (tokensFrom l).length

theorem ahead_lex {m : Mode} {depth : Nat} {l : lexer} (hne : l.token.kind ≠ .K_EOF)
    (hr : reads m depth (lex l) = true) : ahead (lex l) < ahead l := by
  rw [← accepted_tokensFrom] at hr
  rw [ahead, ahead, if_neg hne]
  have htokens := tokensFrom.eq_1 l
  split at htokens
  · rename_i heof
    rw [if_pos heof, htokens]
    simp
  split at htokens
  · rename_i heof hshort
    rw [if_neg heof, htokens, List.length_cons]
    omega
  · rw [htokens] at hr
    cases hr

/-- From `l` the code came to `l'`: the pass in `m` from `l` is that in `m'` from `l'`, and no
token was put back. -/
structure Follows (m m' : Mode) (l l' : lexer) : Prop where
  reads : ∀ depth, reads m depth l = reads m' depth l'
  ahead : ∀ depth, mantle.script.reads m depth l = true → ahead l' ≤ ahead l

theorem Follows.refl (m : Mode) (l : lexer) : Follows m m l l := ⟨fun _ => rfl, fun _ _ => Nat.le_refl _⟩

theorem Follows.trans {m1 m2 m3 : Mode} {l1 l2 l3 : lexer} (h1 : Follows m1 m2 l1 l2)
    (h2 : Follows m2 m3 l2 l3) : Follows m1 m3 l1 l3 := by
  refine ⟨fun depth => (h1.reads depth).trans (h2.reads depth), fun depth hr => ?_⟩
  have hr2 : mantle.script.reads m2 depth l2 = true := by rw [← h1.reads]; exact hr
  exact Nat.le_trans (h2.ahead depth hr2) (h1.ahead depth hr)

/-- The token does not go on with the statement, and the next statement starts there. -/
theorem Follows.falls {m : Mode} {l : lexer} (h : ∀ depth, takes m depth l.token = none) :
    Follows m .start l l := by
  refine ⟨fun depth => ?_, fun _ _ => Nat.le_refl _⟩
  have hnext : next m depth l.token = next .start depth l.token := by
    rw [next, h, next]
    rfl
  rw [reads_eq, reads_eq .start, hnext]

/-- A token that is read is never put back. -/
theorem ahead_lt_of_go {m m' : Mode} {depth depth' : Nat} {l : lexer}
    (h : next m depth l.token = .go m' depth') (hr : reads m depth l = true) :
    reads m' depth' (lex l) = true ∧ ahead (lex l) < ahead l := by
  have hne : l.token.kind ≠ .K_EOF := by
    intro heof
    rw [next_eof m depth heof] at h
    cases h
  rw [reads_eq, h] at hr
  exact ⟨hr, ahead_lex hne hr⟩

theorem Follows.step {m m' : Mode} {l : lexer} (h : ∀ depth, next m depth l.token = .go m' depth) :
    Follows m m' l (lex l) := by
  refine ⟨fun depth => ?_, fun depth hr => Nat.le_of_lt (ahead_lt_of_go (h depth) hr).2⟩
  rw [reads_eq, h]

theorem next_of_takes {m m' : Mode} {depth depth' : Nat} {t : token}
    (h : takes m depth t = some (m', depth')) : next m depth t = .go m' depth' := by
  rw [next, h]

/-- The token goes on with the statement. -/
theorem Follows.takes {m m' : Mode} {l : lexer} (h : ∀ depth, takes m depth l.token = some (m', depth)) :
    Follows m m' l (lex l) := .step fun depth => next_of_takes (h depth)

theorem lex_while_follows {p : kind → Bool} {m : Mode}
    (hp : ∀ depth t, p t.kind = true → next m depth t = .go m depth) {fuel : Nat} {l l' : lexer}
    (h : lex_while p fuel l = some l') : Follows m m l l' ∧ p l'.token.kind = false := by
  induction fuel generalizing l with
  | zero => cases h
  | succ fuel ih =>
    rw [lex_while] at h
    split at h
    · rename_i hl
      obtain ⟨hrest, hend⟩ := ih h
      exact ⟨(Follows.step fun depth => hp depth l.token hl).trans hrest, hend⟩
    · rename_i hl
      cases h
      exact ⟨.refl m _, by simpa using hl⟩

theorem newline_goes (depth : Nat) (t : token) (h : is_newline t.kind = true) :
    next .start depth t = .go .start depth ∧ next .brace depth t = .go .brace depth := by
  have hk : t.kind = .K_NEWLINE := by simpa [is_newline] using h
  simp [next, takes, starts, hk]

theorem skip_newlines_follows {m : Mode} (hm : m = .start ∨ m = .brace) {fuel : Nat}
    {s s' : Script} (h : skip_newlines fuel s = some s') :
    Follows m m s.l s'.l ∧ is_newline s'.l.token.kind = false := by
  obtain ⟨l, hl, rfl⟩ := Option.map_eq_some_iff.mp h
  apply lex_while_follows _ hl
  intro depth t ht
  rcases hm with rfl | rfl
  · exact (newline_goes depth t ht).1
  · exact (newline_goes depth t ht).2

theorem skip_lines_follows {fuel : Nat} {s s' : Script} (h : skip_lines fuel s = some s') :
    Follows .skip .start s.l s'.l := by
  obtain ⟨l, hl, rfl⟩ := Option.map_eq_some_iff.mp h
  obtain ⟨hskip, hend⟩ := @lex_while_follows (fun k => !ends_block k) .skip (fun depth t ht =>
    next_of_takes (by simp only [takes, ht, if_true])) _ _ _ hl
  exact hskip.trans (.falls fun depth => by simp only [takes, hend, Bool.false_eq_true, if_false])

theorem let_statement_follows (h : host) (s : Script) (execute : Bool) :
    Follows .letName .start s.l (let_statement h s execute).2.l := by
  unfold let_statement
  split
  · rename_i hword
    exact .falls fun depth => if_neg hword
  rename_i hword
  have h1 : Follows .letName .letEq s.l s.lexed.l := .takes fun depth => if_pos (by simpa using hword)
  simp only
  split
  · rename_i heq
    exact h1.trans (.falls fun depth => if_neg heq)
  rename_i heq
  have h2 : Follows .letEq .letValue s.lexed.l s.lexed.lexed.l :=
    .takes fun depth => if_pos (by simpa using heq)
  split
  · rename_i htext
    exact (h1.trans h2).trans (.falls fun depth => if_neg (by simpa using htext))
  · rename_i htext
    exact (h1.trans h2).trans (.takes fun depth => if_pos (by simpa using htext))

theorem print_statement_follows (h : host) (s : Script) (execute : Bool) :
    Follows .printText .start s.l (print_statement h s execute).2.l := by
  unfold print_statement
  split
  · rename_i htext
    exact .falls fun depth => if_neg (by simpa using htext)
  · rename_i htext
    exact .takes fun depth => if_pos (by simpa using htext)

theorem run_loop_follows (h : host) {fuel : Nat} {args args' : List Bytes} {s s' : Script}
    (hrun : run_loop h fuel args s = some (args', s')) : Follows .runArgs .start s.l s'.l := by
  induction fuel generalizing args s with
  | zero => cases hrun
  | succ fuel ih =>
    rw [run_loop] at hrun
    split at hrun
    · rename_i htext
      have hstep : Follows .runArgs .runArgs s.l s.lexed.l := .takes fun depth => if_pos htext
      exact hstep.trans (ih hrun)
    · rename_i htext
      cases hrun
      exact .falls fun depth => if_neg htext

theorem run_argv_l (h : host) (argv : List Bytes) (s : Script) : (run_argv h argv s).2.l = s.l := by
  unfold run_argv
  split <;> rfl

theorem run_statement_follows (h : host) {fuel : Nat} {s s' : Script} {execute : Bool} {r : Int}
    (hrun : run_statement h fuel s execute = some (r, s')) : Follows .runArgs .start s.l s'.l := by
  obtain ⟨⟨args, s1⟩, hloop, hrest⟩ := Option.bind_eq_some_iff.mp hrun
  have hfollows := run_loop_follows h hloop
  cases execute with
  | true =>
    have hs : s' = (run_argv h args s1).2 := congrArg Prod.snd (Option.some.inj hrest).symm
    rw [hs, run_argv_l]
    exact hfollows
  | false =>
    cases hrest
    exact hfollows

/-- Where a condition leads: to the brace, or with a message to the next statement. -/
def conditionMode : Option Bool → Mode
  | some _ => .brace
  | none => .start

theorem require_condition_follows (h : host) (s : Script) :
    Follows .requireWord (conditionMode (require_condition h s).1) s.l (require_condition h s).2.l := by
  unfold require_condition
  split
  · rename_i hword
    exact .falls fun depth => if_neg (not_and_or.mpr hword)
  · rename_i hword
    rw [not_or, not_not, not_not] at hword
    exact .takes fun depth => if_pos hword

theorem exists_condition_follows (h : host) (s : Script) :
    Follows .ifWord (conditionMode (exists_condition h s).1) s.l (exists_condition h s).2.l := by
  unfold exists_condition
  split
  · rename_i hword
    exact .falls fun depth => if_neg (not_and_or.mpr hword)
  rename_i hword
  rw [not_or, not_not, not_not] at hword
  have h1 : Follows .ifWord .ifOpen s.l s.lexed.l := .takes fun depth => if_pos hword
  simp only
  split
  · rename_i hopen
    exact h1.trans (.falls fun depth => if_neg hopen)
  rename_i hopen
  have h2 : Follows .ifOpen .ifText s.lexed.l s.lexed.lexed.l :=
    .takes fun depth => if_pos (by simpa using hopen)
  split
  · rename_i htext
    exact (h1.trans h2).trans (.falls fun depth => if_neg (by simpa using htext))
  rename_i htext
  have h3 : Follows .ifText .ifClose s.lexed.lexed.l s.lexed.lexed.lexed.l :=
    .takes fun depth => if_pos (by simpa using htext)
  split
  · rename_i hclose
    exact ((h1.trans h2).trans h3).trans (.falls fun depth => if_neg hclose)
  · rename_i hclose
    exact ((h1.trans h2).trans h3).trans (.takes fun depth => if_pos (by simpa using hclose))

theorem exit_statement_l (s : Script) (execute : Bool) : (exit_statement s execute).2.l = s.l := by
  unfold exit_statement
  split <;> rfl

/-- What a block reads: the pass goes on after it with one block less. -/
structure BlockFollows (l l' : lexer) : Prop where
  reads : ∀ depth, reads .start (depth + 1) l = reads .start depth l'
  ahead : ∀ depth, mantle.script.reads .start (depth + 1) l = true → ahead l' ≤ ahead l

/-- The brace and the block after it. -/
theorem follows_of_block {l l' : lexer} (hbrace : l.token.kind = .K_LBRACE)
    (hblock : BlockFollows (lex l) l') : Follows .brace .start l l' := by
  have hnext : ∀ depth, next .brace depth l.token = .go .start (depth + 1) :=
    fun depth => next_of_takes (by simp [takes, hbrace])
  refine ⟨fun depth => ?_, fun depth hr => ?_⟩
  · rw [reads_eq, hnext]
    exact hblock.reads depth
  · obtain ⟨hin, hlt⟩ := ahead_lt_of_go (hnext depth) hr
    have := hblock.ahead depth hin
    omega

/-- A guard reads its condition, the newlines, the brace and the block. -/
theorem guard_statement_follows {m : Mode} {block : Script → Bool → Option (Int × Script)}
    {fuel : Nat} {c : Option Bool × Script} {l : lexer} {s' : Script} {execute : Bool} {r : Int}
    (hblock : ∀ s execute r s', block s execute = some (r, s') → BlockFollows s.l s'.l)
    (hcondition : Follows m (conditionMode c.1) l c.2.l)
    (hguard : guard_statement block fuel c execute = some (r, s')) : Follows m .start l s'.l := by
  obtain ⟨condition, s⟩ := c
  cases condition with
  | none =>
    cases hguard
    exact hcondition
  | some condition =>
    obtain ⟨s1, hskip, hrest⟩ := Option.bind_eq_some_iff.mp hguard
    obtain ⟨hlines, hnewline⟩ := skip_newlines_follows (Or.inr rfl) hskip
    split at hrest
    · rename_i hno
      cases hrest
      refine (hcondition.trans hlines).trans (.falls fun depth => ?_)
      rw [is_newline, decide_eq_false_iff_not] at hnewline
      exact (if_neg hnewline).trans (if_neg hno)
    · rename_i hbrace
      rw [not_not] at hbrace
      exact (hcondition.trans hlines).trans (follows_of_block hbrace (hblock _ _ _ _ hrest))

theorem keyword_statement_follows (h : host) {block : Script → Bool → Option (Int × Script)}
    {fuel : Nat} {keyword : Bytes} {s s' : Script} {execute : Bool} {r : Int}
    (hblock : ∀ s execute r s', block s execute = some (r, s') → BlockFollows s.l s'.l)
    (hrun : keyword_statement h block fuel keyword s execute = some (r, s')) :
    Follows (modeAfter keyword) .start s.l s'.l := by
  unfold keyword_statement at hrun
  unfold modeAfter
  split at hrun
  · rename_i hk
    have hs : s' = (let_statement h s execute).2 := congrArg Prod.snd (Option.some.inj hrun).symm
    rw [if_pos hk, hs]
    exact let_statement_follows h s execute
  rename_i hlet
  rw [if_neg hlet]
  split at hrun
  · rename_i hk
    have hs : s' = (print_statement h s execute).2 := congrArg Prod.snd (Option.some.inj hrun).symm
    rw [if_pos hk, hs]
    exact print_statement_follows h s execute
  rename_i hprint
  rw [if_neg hprint]
  split at hrun
  · rename_i hk
    rw [if_pos hk]
    exact run_statement_follows h hrun
  rename_i hrunk
  rw [if_neg hrunk]
  split at hrun
  · rename_i hk
    by_cases hreq : keyword = ascii "require"
    · rw [if_pos hreq] at hrun
      rw [if_neg (by rw [hreq]; decide), if_pos hreq]
      exact guard_statement_follows hblock (require_condition_follows h s) hrun
    · have hif : keyword = ascii "if" := hk.resolve_right hreq
      rw [if_neg hreq] at hrun
      rw [if_pos hif]
      exact guard_statement_follows hblock (exists_condition_follows h s) hrun
  rename_i hguard
  rw [not_or] at hguard
  rw [if_neg hguard.1, if_neg hguard.2]
  split at hrun
  · rename_i hk
    have hs : s' = (exit_statement s execute).2 := congrArg Prod.snd (Option.some.inj hrun).symm
    rw [if_pos hk, hs, exit_statement_l]
    exact .refl .start s.l
  · rename_i hexit
    rw [if_neg hexit]
    obtain ⟨s1, hskip, hrest⟩ := Option.bind_eq_some_iff.mp hrun
    cases hrest
    have hlines := skip_lines_follows hskip
    exact hlines

theorem close_block_follows {l : lexer} {r : Int × Script} (h : Follows .start .start l r.2.l)
    (hend : ends_block r.2.l.token.kind = true) : BlockFollows l (close_block r).2.l := by
  by_cases hbrace : r.2.l.token.kind = .K_RBRACE
  · have hclose : (close_block r).2.l = lex r.2.l := by simp [close_block, hbrace, Script.lexed]
    have hnext : ∀ depth, next .start (depth + 1) r.2.l.token = .go .start depth := fun depth => by
      simp [next, takes, starts, hbrace]
    rw [hclose]
    refine ⟨fun depth => ?_, fun depth hr => ?_⟩
    · rw [h.reads, reads_eq, hnext]
    · have hle := h.ahead _ hr
      rw [h.reads] at hr
      have hlt := (ahead_lt_of_go (hnext depth) hr).2
      omega
  · have heof : r.2.l.token.kind = .K_EOF := by
      simp only [ends_block, Bool.or_eq_true, decide_eq_true_eq] at hend
      exact hend.resolve_right hbrace
    have hclose : (close_block r).2.l = r.2.l := by simp [close_block, hbrace]
    rw [hclose]
    refine ⟨fun depth => ?_, fun depth hr => h.ahead _ hr⟩
    rw [h.reads, reads_eq, reads_eq .start depth, next_eof _ _ heof, next_eof _ _ heof]

/-- What a statement reads: it keeps the pass, and it takes a token unless the block ends or
the pass is stuck. -/
structure StatementFollows (l l' : lexer) : Prop where
  follows : Follows .start .start l l'
  strict : ends_block l.token.kind = false → ∀ depth, reads .start depth l = true → ahead l' < ahead l

theorem skip_newlines_strict {fuel : Nat} {s s' : Script} (h : skip_newlines fuel s = some s')
    (hnewline : is_newline s.l.token.kind = true) {depth : Nat}
    (hr : reads .start depth s.l = true) : ahead s'.l < ahead s.l := by
  obtain ⟨l, hl, rfl⟩ := Option.map_eq_some_iff.mp h
  cases fuel with
  | zero => cases hl
  | succ fuel =>
    rw [lex_while, if_pos hnewline] at hl
    have hrest := (lex_while_follows (fun depth t ht => (newline_goes depth t ht).1) hl).1
    obtain ⟨hin, hlt⟩ := ahead_lt_of_go (newline_goes depth s.l.token hnewline).1 hr
    have hle := hrest.ahead depth hin
    simp only [Script.at]
    omega

theorem skip_newlines_id {fuel : Nat} {s s' : Script} (h : skip_newlines fuel s = some s')
    (hnewline : is_newline s.l.token.kind = false) : s' = s := by
  obtain ⟨l, hl, rfl⟩ := Option.map_eq_some_iff.mp h
  cases fuel with
  | zero => cases hl
  | succ fuel =>
    rw [lex_while, if_neg (by simp [hnewline])] at hl
    cases hl
    rfl

/-- A statement after its newlines. -/
theorem after_newlines_follows (h : host) {block : Script → Bool → Option (Int × Script)} {fuel : Nat}
    {s s' : Script} {execute : Bool} {r : Int}
    (hblock : ∀ s execute r s', block s execute = some (r, s') → BlockFollows s.l s'.l)
    (hnewline : is_newline s.l.token.kind = false)
    (hrun : (if ends_block s.l.token.kind then some (0, s)
      else if s.l.token.kind ≠ .K_WORD then some (2, s.complain (ascii "mot attendu"))
      else keyword_statement h block fuel (s.l.token.text.take 63) s.lexed execute) = some (r, s')) :
    StatementFollows s.l s'.l := by
  split at hrun
  · rename_i hend
    cases hrun
    exact ⟨.refl _ _, fun hno => absurd hend (by simp [hno])⟩
  rename_i hend
  split at hrun
  · rename_i hword
    cases hrun
    refine ⟨.refl _ _, fun _ depth hr => ?_⟩
    have hstuck : next .start depth s.l.token = .stuck := by
      rw [is_newline, decide_eq_false_iff_not] at hnewline
      simp only [ends_block, Bool.or_eq_true, decide_eq_true_eq, not_or] at hend
      cases hk : s.l.token.kind <;> simp_all [next, takes, starts]
    rw [reads_eq, hstuck] at hr
    cases hr
  · rename_i hword
    rw [not_not] at hword
    have hnext : ∀ depth, next .start depth s.l.token = .go (modeAfter (s.l.token.text.take 63)) depth :=
      fun depth => by simp [next, takes, starts, hword]
    have hrest := keyword_statement_follows h hblock hrun
    refine ⟨(Follows.step hnext).trans hrest, fun _ depth hr => ?_⟩
    obtain ⟨hin, hlt⟩ := ahead_lt_of_go (hnext depth) hr
    have hle := hrest.ahead depth hin
    simp only [Script.lexed] at hle
    omega

/-- Whatever the fuel: a statement and a loop over statements that come to an end have read
what the pass reads. -/
theorem interpreter_follows (h : host) (fuel : Nat) :
    (∀ s execute r s', statement h fuel s execute = some (r, s') → StatementFollows s.l s'.l) ∧
    (∀ s execute result r s', block_loop h fuel s execute result = some (r, s') →
      Follows .start .start s.l s'.l ∧ ends_block s'.l.token.kind = true) := by
  induction fuel with
  | zero => exact ⟨fun s execute r s' hrun => by simp [statement] at hrun,
      fun s execute result r s' hrun => by simp [block_loop] at hrun⟩
  | succ fuel ih =>
    obtain ⟨ihs, ihb⟩ := ih
    constructor
    · intro s execute r s' hrun
      rw [statement] at hrun
      obtain ⟨s1, hskip, hrest⟩ := Option.bind_eq_some_iff.mp hrun
      obtain ⟨hlines, hnewline⟩ := skip_newlines_follows (Or.inl rfl) hskip
      have hafter := after_newlines_follows h (fun s execute r s' hblock => by
        obtain ⟨r1, hloop, hclose⟩ := Option.map_eq_some_iff.mp hblock
        have hs : s' = (close_block r1).2 := (congrArg Prod.snd hclose).symm
        rw [hs]
        obtain ⟨hfollows, hend⟩ := ihb _ _ _ _ _ hloop
        exact close_block_follows hfollows hend) hnewline hrest
      refine ⟨hlines.trans hafter.follows, fun hend depth hr => ?_⟩
      cases hn : is_newline s.l.token.kind with
      | true =>
        have hlt := skip_newlines_strict hskip hn hr
        rw [hlines.reads] at hr
        have hle := hafter.follows.ahead depth hr
        omega
      | false =>
        rw [skip_newlines_id hskip hn] at hafter
        exact hafter.strict hend depth hr
    · intro s execute result r s' hrun
      rw [block_loop] at hrun
      split at hrun
      · rename_i hend
        cases hrun
        exact ⟨.refl _ _, hend⟩
      · obtain ⟨⟨r1, s1⟩, hstatement, hrest⟩ := Option.bind_eq_some_iff.mp hrun
        obtain ⟨s2, hskip, hloop⟩ := Option.bind_eq_some_iff.mp hrest
        obtain ⟨hfollows, hend⟩ := ihb _ _ _ _ _ hloop
        have hlines := (skip_newlines_follows (Or.inl rfl) hskip).1
        exact ⟨((ihs _ _ _ _ hstatement).follows.trans hlines).trans hfollows, hend⟩

/-- A script that comes to an end has been accepted. -/
theorem accepted_of_run (h : host) {fuel : Nat} {src : Bytes} {r : Int × Script}
    (hrun : run_script h fuel src = some r) : accepted .start 0 (tokensFrom (.start src)) = true := by
  obtain ⟨⟨r1, s1⟩, hloop, _⟩ := Option.map_eq_some_iff.mp hrun
  obtain ⟨hfollows, hend⟩ := (interpreter_follows h fuel).2 _ _ _ _ _ hloop
  rw [accepted_tokensFrom, hfollows.reads, reads_eq]
  simp only [ends_block, Bool.or_eq_true, decide_eq_true_eq] at hend
  rcases hend with hend | hend <;> simp [next, takes, starts, hend]

/-! ## An accepted script comes to an end -/

theorem lex_while_settles {p : kind → Bool} {m : Mode}
    (hp : ∀ depth t, p t.kind = true → next m depth t = .go m depth) {depth : Nat} {l : lexer}
    (hr : reads m depth l = true) : ∃ l', Settles (fun fuel => lex_while p fuel l) l' := by
  induction hn : ahead l using Nat.strong_induction_on generalizing l with
  | _ n ih =>
    cases hl : p l.token.kind with
    | true =>
      obtain ⟨hin, hlt⟩ := ahead_lt_of_go (hp depth l.token hl) hr
      obtain ⟨l', hl'⟩ := ih (ahead (lex l)) (by omega) hin rfl
      exact ⟨l', hl'.succ fun fuel => by simp only [lex_while, hl, if_true]⟩
    | false =>
      exact ⟨l, (Settles.some l).succ fun fuel => by simp [lex_while, hl]⟩

theorem skip_newlines_settles {m : Mode} (hm : m = .start ∨ m = .brace) {depth : Nat} {s : Script}
    (hr : reads m depth s.l = true) : ∃ s', Settles (fun fuel => skip_newlines fuel s) s' := by
  have hp : ∀ depth t, is_newline t.kind = true → next m depth t = .go m depth := by
    intro depth t ht
    rcases hm with rfl | rfl
    · exact (newline_goes depth t ht).1
    · exact (newline_goes depth t ht).2
  obtain ⟨l', hl'⟩ := lex_while_settles hp hr
  exact ⟨_, hl'.map s.at⟩

theorem skip_lines_settles {depth : Nat} {s : Script} (hr : reads .skip depth s.l = true) :
    ∃ s', Settles (fun fuel => skip_lines fuel s) s' := by
  obtain ⟨l', hl'⟩ := @lex_while_settles (fun k => !ends_block k) .skip (fun depth t ht =>
    next_of_takes (by simp only [takes, ht, if_true])) depth s.l hr
  exact ⟨_, hl'.map s.at⟩

theorem run_loop_settles (h : host) {depth : Nat} {s : Script} (args : List Bytes)
    (hr : reads .runArgs depth s.l = true) : ∃ r, Settles (fun fuel => run_loop h fuel args s) r := by
  induction hn : ahead s.l using Nat.strong_induction_on generalizing s args with
  | _ n ih =>
    cases htext : is_text s.l.token.kind with
    | true =>
      have hnext : next .runArgs depth s.l.token = .go .runArgs depth :=
        next_of_takes (by simp [takes, htext])
      obtain ⟨hin, hlt⟩ := ahead_lt_of_go hnext hr
      obtain ⟨r, hsettles⟩ := ih (ahead s.lexed.l) (by simp only [Script.lexed]; omega) (s := s.lexed)
        (if args.length < 63 then args ++ [interpolate h s.vars s.l.token.text] else args) hin rfl
      exact ⟨r, hsettles.succ fun fuel => by rw [run_loop, if_pos htext]⟩
    | false =>
      exact ⟨(args, s), (Settles.some _).succ fun fuel => by rw [run_loop, if_neg (by simp [htext])]⟩

theorem run_statement_settles (h : host) {depth : Nat} {s : Script} (execute : Bool)
    (hr : reads .runArgs depth s.l = true) :
    ∃ r, Settles (fun fuel => run_statement h fuel s execute) r := by
  obtain ⟨⟨args, s1⟩, hloop⟩ := run_loop_settles h [] hr
  cases execute with
  | true => exact ⟨_, hloop.bind (Settles.some (run_argv h args s1))⟩
  | false => exact ⟨_, hloop.bind (Settles.some (0, s1))⟩

section Settling

variable (h : host) {block : Nat → Script → Bool → Option (Int × Script)} {n : Nat}
  (hblock : ∀ s execute depth, ahead s.l < n → reads .start (depth + 1) s.l = true →
    ∃ r, Settles (fun fuel => block fuel s execute) r)

include hblock

theorem guard_statement_settles {m : Mode} {depth : Nat} {c : Option Bool × Script} {l : lexer}
    (execute : Bool) (hcondition : Follows m (conditionMode c.1) l c.2.l)
    (hr : reads m depth l = true) (hn : ahead l < n) :
    ∃ r, Settles (fun fuel => guard_statement (block fuel) fuel c execute) r := by
  obtain ⟨condition, s⟩ := c
  cases condition with
  | none => exact ⟨_, Settles.some (2, s)⟩
  | some condition =>
    have hle := hcondition.ahead depth hr
    rw [hcondition.reads] at hr
    obtain ⟨s1, hskip⟩ := skip_newlines_settles (Or.inr rfl) hr
    obtain ⟨fuel, hfuel⟩ := hskip
    have hlines := (skip_newlines_follows (m := .brace) (Or.inr rfl) (hfuel fuel (Nat.le_refl _))).1
    have hle1 := hlines.ahead depth hr
    have hr1 : reads .brace depth s1.l = true := by rw [← hlines.reads]; exact hr
    by_cases hbrace : s1.l.token.kind = .K_LBRACE
    · have hgo : next .brace depth s1.l.token = .go .start (depth + 1) :=
        next_of_takes (by simp [takes, hbrace])
      obtain ⟨hin, hlt⟩ := ahead_lt_of_go hgo hr1
      obtain ⟨r, hr2⟩ := hblock s1.lexed (execute && condition) depth
        (by simp only [Script.lexed]; omega) hin
      refine ⟨r, Settles.bind ⟨fuel, hfuel⟩ ?_⟩
      simpa [hbrace] using hr2
    · refine ⟨(2, s1.complain (ascii "'\x7b' attendu")), Settles.bind ⟨fuel, hfuel⟩ ?_⟩
      simpa [hbrace] using Settles.some (2, s1.complain (ascii "'\x7b' attendu"))

theorem keyword_statement_settles {depth : Nat} {keyword : Bytes} {s : Script} (execute : Bool)
    (hr : reads (modeAfter keyword) depth s.l = true) (hn : ahead s.l < n) :
    ∃ r, Settles (fun fuel => keyword_statement h (block fuel) fuel keyword s execute) r := by
  unfold keyword_statement
  unfold modeAfter at hr
  by_cases hlet : keyword = ascii "let"
  · simp only [if_pos hlet]
    exact ⟨_, Settles.some _⟩
  rw [if_neg hlet] at hr
  simp only [if_neg hlet]
  by_cases hprint : keyword = ascii "print"
  · simp only [if_pos hprint]
    exact ⟨_, Settles.some _⟩
  rw [if_neg hprint] at hr
  simp only [if_neg hprint]
  by_cases hrun : keyword = ascii "run"
  · rw [if_pos hrun] at hr
    simp only [if_pos hrun]
    exact run_statement_settles h execute hr
  rw [if_neg hrun] at hr
  simp only [if_neg hrun]
  by_cases hreq : keyword = ascii "require"
  · rw [if_neg (by rw [hreq]; decide), if_pos hreq] at hr
    simp only [if_pos hreq, if_pos (Or.inr hreq : keyword = ascii "if" ∨ keyword = ascii "require")]
    exact guard_statement_settles hblock execute (require_condition_follows h s) hr hn
  by_cases hif : keyword = ascii "if"
  · rw [if_pos hif] at hr
    simp only [if_neg hreq, if_pos (Or.inl hif : keyword = ascii "if" ∨ keyword = ascii "require")]
    exact guard_statement_settles hblock execute (exists_condition_follows h s) hr hn
  rw [if_neg hif, if_neg hreq] at hr
  simp only [if_neg (not_or.mpr ⟨hif, hreq⟩)]
  by_cases hexit : keyword = ascii "exit"
  · simp only [if_pos hexit]
    exact ⟨_, Settles.some _⟩
  rw [if_neg hexit] at hr
  simp only [if_neg hexit]
  obtain ⟨s1, hskip⟩ := skip_lines_settles (s := s.complain (ascii "instruction inconnue: " ++ keyword)) hr
  exact ⟨_, hskip.bind (Settles.some (2, s1))⟩

end Settling

/-- A statement settles when every block with fewer tokens ahead does. -/
theorem statement_settles (h : host) {n : Nat} (hloop : ∀ s execute depth, ahead s.l < n →
      reads .start depth s.l = true → ∃ r, Settles (fun fuel => block_loop h fuel s execute 0) r)
    {depth : Nat} {s : Script} (execute : Bool) (hr : reads .start depth s.l = true)
    (hn : ahead s.l ≤ n) : ∃ r, Settles (fun fuel => statement h fuel s execute) r := by
  obtain ⟨s1, hskip⟩ := skip_newlines_settles (Or.inl rfl) hr
  obtain ⟨fuel, hfuel⟩ := hskip
  have hlines := (skip_newlines_follows (m := .start) (Or.inl rfl) (hfuel fuel (Nat.le_refl _))).1
  have hle := hlines.ahead depth hr
  have hr1 : reads .start depth s1.l = true := by rw [← hlines.reads]; exact hr
  suffices hafter : ∃ r, Settles (fun fuel =>
      if ends_block s1.l.token.kind then some (0, s1)
      else if s1.l.token.kind ≠ .K_WORD then some (2, s1.complain (ascii "mot attendu"))
      else keyword_statement h (fun s execute => close_block <$> block_loop h fuel s execute 0) fuel
        (s1.l.token.text.take 63) s1.lexed execute) r by
    obtain ⟨r, hr2⟩ := hafter
    exact ⟨r, (Settles.bind ⟨fuel, hfuel⟩ hr2).succ fun fuel => by rw [statement]⟩
  by_cases hend : ends_block s1.l.token.kind = true
  · simp only [if_pos hend]
    exact ⟨_, Settles.some _⟩
  simp only [if_neg hend]
  by_cases hword : s1.l.token.kind = .K_WORD
  · have hgo : next .start depth s1.l.token = .go (modeAfter (s1.l.token.text.take 63)) depth := by
      simp [next, takes, starts, hword]
    obtain ⟨hin, hlt⟩ := ahead_lt_of_go hgo hr1
    simp only [ne_eq, hword, not_true_eq_false, if_false]
    apply keyword_statement_settles h _ execute hin (n := n)
    · simp only [Script.lexed]
      omega
    · intro s execute depth hs hreads
      obtain ⟨r, hsettles⟩ := hloop s execute (depth + 1) hs hreads
      exact ⟨_, hsettles.map close_block⟩
  · simp only [ne_eq, hword, not_false_eq_true, if_true]
    exact ⟨_, Settles.some _⟩

/-- By induction on the tokens ahead: each statement of an accepted pass takes one of them. -/
theorem block_loop_settles (h : host) {depth : Nat} {s : Script} (execute : Bool) (result : Int)
    (hr : reads .start depth s.l = true) :
    ∃ r, Settles (fun fuel => block_loop h fuel s execute result) r := by
  induction hn : ahead s.l using Nat.strong_induction_on generalizing s execute result depth with
  | _ n ih =>
    cases hend : ends_block s.l.token.kind with
    | true =>
      exact ⟨(result, s), (Settles.some _).succ fun fuel => by rw [block_loop, if_pos hend]⟩
    | false =>
      obtain ⟨⟨r1, s1⟩, hstatement⟩ := statement_settles h
        (fun s execute depth hs hreads => ih (ahead s.l) hs execute 0 hreads rfl) execute hr
        (Nat.le_of_eq hn)
      have hfollows : StatementFollows s.l s1.l := by
        obtain ⟨fuel, hfuel⟩ := hstatement
        exact (interpreter_follows h fuel).1 _ _ _ _ (hfuel fuel (Nat.le_refl _))
      have hlt := hfollows.strict hend depth hr
      have hr1 : reads .start depth s1.l = true := by rw [← hfollows.follows.reads]; exact hr
      obtain ⟨s2, hskip⟩ := skip_newlines_settles (Or.inl rfl) hr1
      have hlines : Follows .start .start s1.l s2.l := by
        obtain ⟨fuel, hfuel⟩ := hskip
        exact (skip_newlines_follows (Or.inl rfl) (hfuel fuel (Nat.le_refl _))).1
      have hle := hlines.ahead depth hr1
      have hr2 : reads .start depth s2.l = true := by rw [← hlines.reads]; exact hr1
      obtain ⟨r, hrest⟩ := ih (ahead s2.l) (by omega) execute
        (if r1 ≠ 0 ∧ execute then r1 else result) hr2 rfl
      have hafter : Settles (fun fuel => skip_newlines fuel s1 >>= fun s =>
          block_loop h fuel s execute (if r1 ≠ 0 ∧ execute then r1 else result)) r := hskip.bind hrest
      refine ⟨r, (hstatement.bind (g := fun x fuel => skip_newlines fuel x.2 >>= fun s =>
        block_loop h fuel s execute (if x.1 ≠ 0 ∧ execute then x.1 else result)) hafter).succ
          fun fuel => ?_⟩
      rw [block_loop, if_neg (by simp [hend])]

/-! ## The law -/

/-- The lexer consumes input or reports the end of the file exactly when no vertical tab and
no form feed stands before it. A script returns, whatever its commands do, exactly when the
pass over its tokens is accepted: it comes to the end of the file or to a `}` outside all
blocks, no statement starts with a string, a `{`, a `=`, a `(` or a `)`, and the lexer is
not blocked before. -/
theorem a_script_returns_iff (h : host) (src : Bytes) :
    (∀ l : lexer, ((lex l).token.kind = .K_EOF ∨ (lex l).rest.length < l.rest.length) ↔
      ¬ Blocks l.rest) ∧
    ((∃ fuel r, run_script h fuel src = some r) ↔
      accepted .start 0 (tokensFrom (.start src)) = true) := by
  refine ⟨lex_progress_iff, ?_, ?_⟩
  · rintro ⟨fuel, r, hrun⟩
    exact accepted_of_run h hrun
  · intro hacc
    rw [accepted_tokensFrom] at hacc
    obtain ⟨r, hsettles⟩ := block_loop_settles h
      (s := { l := lex (.start src), vars := [], effects := [] }) true 0 hacc
    obtain ⟨fuel, hfuel⟩ := hsettles.map close_block
    exact ⟨fuel, _, hfuel fuel (Nat.le_refl _)⟩

/-- A machine without commands. -/
def someHost : host :=
  { geteuid := 0, getenv := fun _ => none, script_args := [], before_args := fun _ => []
    access := fun _ _ => false, launch := fun _ _ => .not_started }

/-- The script of one brace never returns, and neither does the script of one vertical tab,
before which the lexer stays. -/
theorem a_script_of_one_brace_never_returns :
    (¬ ∃ fuel r, run_script someHost fuel (ascii "\x7b") = some r) ∧
    (¬ ∃ fuel r, run_script someHost fuel [11] = some r) ∧
    (lex (.start [11])).token.kind = .K_WORD ∧ (lex (.start [11])).rest = [11] := by
  have hbrace : accepted .start 0 (tokensFrom (.start (ascii "\x7b"))) = false := by decide +kernel
  have htab : accepted .start 0 (tokensFrom (.start [11])) = false := by decide +kernel
  refine ⟨?_, ?_, by decide +kernel, by decide +kernel⟩
  · rintro ⟨fuel, r, hrun⟩
    rw [accepted_of_run someHost hrun] at hbrace
    cases hbrace
  · rintro ⟨fuel, r, hrun⟩
    rw [accepted_of_run someHost hrun] at htab
    cases htab

end mantle.script
