-- The variables of a script over its whole run. `getvar` finds the oldest
-- variable of a name, and a full store takes no more; here is exactly when a
-- `let` is seen by every `${x}` after it, up to the next `let` of the name.
import MantleOS.Interpolate
import MantleOS.ScriptGrammar
import MantleOS.ScriptGuards

open bytes ctext

namespace mantle.script

/-! ## A `let` and its variable -/

/-- `${x}`. -/
def reference (x : Bytes) : Bytes := 36 :: 123 :: (x ++ [125])

/-- The machine is at the name of a `let x = ..` that will be executed, and the value is `v`. -/
structure Lets (h : host) (m : Machine) (x v : Bytes) : Prop where
  place : m.place = .letName
  execute : m.top.execute = true
  word : m.s.l.token.kind = .K_WORD
  name : m.s.l.token.text = x
  eq : (lex m.s.l).token.kind = .K_EQ
  text : is_text (lex (lex m.s.l)).token.kind = true
  value : interpolate h m.s.vars (lex (lex m.s.l)).token.text = v

def Config.lets (h : host) (x v : Bytes) : Config → Prop
  | .running m => Lets h m x v
  | .done _ _ _ => False

/-- The store takes the variable: it has none of this name, and room. -/
def Fresh (vars : List value) (name : Bytes) : Prop :=
  vars.length < 128 ∧ ∀ w ∈ vars, w.name ≠ name

/-- The store after a `let`. -/
def stored (vars : List value) (name text : Bytes) : List value :=
  if vars.length < 128 then vars ++ [⟨name, text⟩] else vars

theorem Lets.after {h : host} {m : Machine} {x v : Bytes} (hlets : Lets h m x v) :
    (after h 3 (.running m)).s.vars = stored m.s.vars (x.take 63) v := by
  obtain ⟨hplace, hexec, hword, hname, heq, htext, hvalue⟩ := hlets
  have h1 : step h m = .running (m.next.goto (.letEq (x.take 63))) := by
    rw [step, if_neg (by simp [hplace]), place_step]
    simp only [hplace, hword, hname, if_true]
  have h2 : step h (m.next.goto (.letEq (x.take 63))) = .running (m.next.next.goto (.letValue (x.take 63))) := by
    have heq : (m.next.goto (.letEq (x.take 63))).s.l.token.kind = .K_EQ := heq
    rw [step, if_neg (by simp), place_step]
    simp only [Machine.goto_place, heq, if_true]
    rfl
  have h3 : (step h (m.next.next.goto (.letValue (x.take 63)))).s.vars = stored m.s.vars (x.take 63) v := by
    have htext : is_text (m.next.next.goto (.letValue (x.take 63))).s.l.token.kind = true := htext
    have hvars := (store_eq h (m.next.next.goto (.letValue (x.take 63))) (x.take 63)).1
    rw [step, if_neg (by simp), place_step]
    simp only [Machine.goto_place, htext, if_true]
    show (store h (m.next.next.goto (.letValue (x.take 63))) (x.take 63)).s.vars = _
    rw [hvars]
    simp only [Machine.goto_top, Machine.next_top, hexec, Bool.true_and, decide_eq_true_eq]
    rw [stored, ← hvalue]
    rfl
  rw [script.after, h1, script.after, h2, script.after, script.after]
  exact h3

/-! ## The store only grows, at its end -/

/-- What may become of a store: it stays, or variables are added while there is room. -/
def Grows (vars vars' : List value) : Prop :=
  vars' = vars ∨ (vars.length < 128 ∧ vars <+: vars')

theorem Grows.trans {a b c : List value} (hab : Grows a b) (hbc : Grows b c) : Grows a c := by
  rcases hab with rfl | ⟨hroom, hstarts⟩
  · exact hbc
  · rcases hbc with rfl | ⟨-, hstarts'⟩
    · exact .inr ⟨hroom, hstarts⟩
    · exact .inr ⟨hroom, hstarts.trans hstarts'⟩

theorem grows_stored (vars : List value) (name text : Bytes) : Grows vars (stored vars name text) := by
  unfold stored
  split
  · rename_i hroom
    exact .inr ⟨hroom, List.prefix_append _ _⟩
  · exact .inl rfl

theorem run_argv_vars (h : host) (argv : List Bytes) (s : Script) : (run_argv h argv s).2.vars = s.vars := by
  unfold run_argv
  split <;> rfl

/-- By the kinds of step inside of a statement. -/
theorem Moves.grows {h : host} {m m' : Machine} (hm : Moves h m m') : Grows m.s.vars m'.s.vars := by
  cases hm with
  | stores name hplace hplain =>
    have hvars := (store_eq h m name).1
    show Grows m.s.vars (store h m name).s.vars
    rw [hvars]
    by_cases hexec : m.top.execute = true
    · have hgrows := grows_stored m.s.vars name (interpolate h m.s.vars m.s.l.token.text)
      unfold stored at hgrows
      simpa [hexec] using hgrows
    · exact .inl (by simp [hexec])
  | prints =>
    have hvars := (print_eq h m).1
    exact .inl (by show (print h m).s.vars = _; rw [hvars])
  | launches args =>
    left
    unfold launch
    cases m.top.execute with
    | true => exact run_argv_vars h args m.s
    | false => rfl
  | takes | asks | opens | fails | exits | skips | recovers => exact .inl rfl

theorem return_block_vars (m : Machine) : (return_block m).s.vars = m.s.vars := by
  unfold return_block
  cases m.below <;> rfl

theorem step_grows (h : host) (m : Machine) : Grows m.s.vars (step h m).s.vars := by
  unfold step
  split
  · left
    unfold start_step
    cases m.s.l.token.kind with
    | K_EOF => exact return_block_vars m
    | K_RBRACE => exact return_block_vars m.next
    | K_WORD =>
      show m.reach.s.vars = m.s.vars
      rw [(reach_eq m).2.2.2]
      split <;> rfl
    | _ => rfl
  · rename_i hp
    exact (place_step_moves h hp).grows

theorem after_grows (h : host) (n : Nat) (c : Config) : Grows c.s.vars (after h n c).s.vars := by
  have hkeeps := @after_keeps (fun c' => Grows c.s.vars c'.s.vars) h c (.inl rfl) n
    fun _ m _ _ hm => hm.trans (step_grows h m)
  exact hkeeps

/-! ## What `getvar` finds -/

/-- A variable of this name is there, or there will never be one. -/
def Fixed (vars : List value) (name : Bytes) : Prop :=
  128 ≤ vars.length ∨ ∃ w ∈ vars, w.name = name

theorem Grows.getvar {vars vars' : List value} (h : host) (hgrows : Grows vars vars') {name : Bytes}
    (hfixed : Fixed vars name) : getvar h vars' name = getvar h vars name := by
  rcases hgrows with rfl | ⟨hroom, more, rfl⟩
  · rfl
  · rcases hfixed with hfull | ⟨w, hw, hname⟩
    · omega
    · obtain ⟨v, hv⟩ : ∃ v, vars.find? (fun v => v.name = name) = some v := by
        rw [← Option.isSome_iff_exists, List.find?_isSome]
        exact ⟨w, hw, by simpa using hname⟩
      unfold script.getvar
      rw [List.find?_append, hv]
      rfl

theorem getvar_stored (h : host) {vars : List value} {name : Bytes} (hfresh : Fresh vars name) (text : Bytes) :
    getvar h (stored vars name text) name = some text := by
  have hnone : vars.find? (fun v => v.name = name) = none := by
    rw [List.find?_eq_none]
    intro w hw
    simpa using hfresh.2 w hw
  unfold getvar
  rw [stored, if_pos hfresh.1, List.find?_append, hnone]
  simp

/-- After a `let` the value of its name is fixed. -/
theorem fixed_stored (vars : List value) (name text : Bytes) : Fixed (stored vars name text) name := by
  unfold stored
  split
  · exact .inr ⟨⟨name, text⟩, by simp, rfl⟩
  · exact .inl (by omega)

theorem fixed_of_not_fresh {vars : List value} {name : Bytes} (h : ¬ Fresh vars name) : Fixed vars name := by
  by_contra hfixed
  rw [Fixed, not_or, not_exists] at hfixed
  exact h ⟨by omega, fun w hw hname => hfixed.2 w ⟨hw, hname⟩⟩

/-- A reference to a name without `}` is the value of the name. -/
theorem interpolate_reference (h : host) (vars : List value) {x : Bytes} (hx : 125 ∉ x) :
    interpolate h vars (reference x) = ((getvar h vars (x.take 63)).getD []).take textLimit := by
  have hkey : (x ++ [125]).takeWhile (· ≠ 125) = x := by
    rw [List.takeWhile_append_of_pos]
    · simp
    · intro c hc
      simpa using fun h125 : c = 125 => hx (h125 ▸ hc)
  have hloop := interpolate_loop_marker (getvar h vars) 510 (x ++ [125])
  rw [hkey] at hloop
  unfold interpolate reference textLimit
  rw [hloop, List.drop_left, List.head?_cons, if_pos rfl, List.tail_cons]
  generalize 510 + 1 - _ = room
  have hnil : interpolate_loop (getvar h vars) room [] = [] := by
    unfold interpolate_loop
    cases room <;> rfl
  rw [hnil, List.append_nil]

theorem punctuation_not_word {c : UInt8} {k : kind} (hc : punctuation c = some k) : k ≠ .K_WORD := by
  rintro rfl
  unfold punctuation at hc
  split_ifs at hc <;> cases hc

/-- The words of the lexer have only bytes of words. -/
theorem lex_word_bytes {l : lexer} (hword : (lex l).token.kind = .K_WORD) :
    ∀ b ∈ (lex l).token.text, word_byte b = true := by
  -- the lexer calls itself after a comment, on a shorter text
  induction hn : l.rest.length using Nat.strong_induction_on generalizing l with
  | _ n ih =>
    cases hdrop : l.rest.dropWhile isblank with
    | nil =>
      rw [lex_of_end hdrop] at hword
      cases hword
    | cons c rest =>
      have hblank := (List.dropWhile_suffix (l := l.rest) isblank).length_le
      rw [hdrop, List.length_cons] at hblank
      rw [lex_of_head hdrop] at hword ⊢
      split at hword
      · cases hword
      rename_i h0
      split at hword
      · cases hword
      rename_i h10
      rw [if_neg h0, if_neg h10]
      split at hword
      · rename_i hcomment
        have hshort := (List.dropWhile_suffix (l := rest) (fun c => c ≠ 0 && c ≠ 10)).length_le
        rw [if_pos hcomment]
        exact ih (rest.dropWhile (fun c => c ≠ 0 && c ≠ 10)).length (by omega) hword rfl
      rename_i h35
      rw [if_neg h35]
      cases hpunct : punctuation c with
      | some k =>
        rw [hpunct] at hword
        exact absurd hword (punctuation_not_word hpunct)
      | none =>
        rw [hpunct] at hword
        dsimp only at hword ⊢
        split at hword
        · cases hword
        · rename_i hquote
          rw [if_neg hquote]
          intro b hb
          exact List.mem_takeWhile_imp (List.mem_of_mem_take hb)

/-! ## The law -/

/-- In every run the name of a `let` is a word, and so no `}` is in it. -/
theorem lets_name {h : host} {src x v : Bytes} {n : Nat} {m : Machine}
    (hm : after h n (.running (.start src)) = .running m) (hlets : Lets h m x v) : 125 ∉ x := by
  have hplaced := placed_after h src n hm
  obtain ⟨l, hl⟩ : ∃ l, m.s.l = lex l := by
    rw [hplaced.l]
    cases m.index with
    | zero => exact ⟨_, rfl⟩
    | succ i => exact ⟨_, rfl⟩
  have hword := hlets.word
  rw [hl] at hword
  intro hin
  rw [← hlets.name, hl] at hin
  exact absurd (lex_word_bytes hword 125 hin) (by decide)

/-- What `${x}` stands for after a `let x = v`, and then for ever. -/
theorem reference_after {h : host} {src x v : Bytes} {n : Nat} {m : Machine}
    (hm : after h n (.running (.start src)) = .running m) (hlets : Lets h m x v) {k : Nat} (hk : 3 ≤ k) :
    interpolate h (after h (n + k) (.running (.start src))).s.vars (reference x) =
      interpolate h (stored m.s.vars (x.take 63) v) (reference x) := by
  obtain ⟨j, rfl⟩ := Nat.exists_eq_add_of_le hk
  have hname := lets_name hm hlets
  have hgrows := after_grows h j (after h 3 (.running m))
  rw [hlets.after] at hgrows
  rw [after_add, hm, after_add, interpolate_reference h _ hname, interpolate_reference h _ hname,
    hgrows.getvar h (fixed_stored _ _ _)]

/-- A `let` is seen by the references after it when the store takes its variable, or when they yield
its value anyway. -/
def Seen (h : host) (vars : List value) (x v : Bytes) : Prop :=
  Fresh vars (x.take 63) ∨ interpolate h vars (reference x) = v

theorem reference_stored {h : host} {src x v : Bytes} {n : Nat} {m : Machine}
    (hm : after h n (.running (.start src)) = .running m) (hlets : Lets h m x v) :
    interpolate h (stored m.s.vars (x.take 63) v) (reference x) = v ↔ Seen h m.s.vars x v := by
  have hname := lets_name hm hlets
  by_cases hfresh : Fresh m.s.vars (x.take 63)
  · have hlength : v.length ≤ textLimit := by
      rw [← hlets.value]
      exact interpolate_loop_length _ _ _
    rw [interpolate_reference h _ hname, getvar_stored h hfresh, Option.getD_some,
      List.take_of_length_le hlength]
    simp [Seen, hfresh]
  · have hsame := (grows_stored m.s.vars (x.take 63) v).getvar h (fixed_of_not_fresh hfresh)
    rw [interpolate_reference h _ hname, hsame, ← interpolate_reference h _ hname, Seen, or_iff_right hfresh]

/-- In every run: every `${x}` after a `let x = v`, up to the end of the next executed `let` of the
name, yields the value, exactly when at every executed `let` the store has room and no variable
of the name, cut to 63 bytes, or else `${x}` has the value already. -/
theorem every_let_is_seen_iff (h : host) (src : Bytes) :
    (∀ n x v, (after h n (.running (.start src))).lets h x v →
      ∀ k, 3 ≤ k → (∀ j v', 0 < j → j + 3 ≤ k → ¬ (after h (n + j) (.running (.start src))).lets h x v') →
        interpolate h (after h (n + k) (.running (.start src))).s.vars (reference x) = v) ↔
    ∀ n x v, (after h n (.running (.start src))).lets h x v →
      Seen h (after h n (.running (.start src))).s.vars x v := by
  constructor
  · intro hall n x v hlets
    have hthree := hall n x v hlets 3 (Nat.le_refl 3) (fun j v' hj hle => by omega)
    cases hm : after h n (.running (.start src)) with
    | done r s trace =>
      rw [hm] at hlets
      exact hlets.elim
    | running m =>
      rw [hm] at hlets
      rw [reference_after hm hlets (Nat.le_refl 3)] at hthree
      exact (reference_stored hm hlets).mp hthree
  · intro hseen n x v hlets k hk _
    have hat := hseen n x v hlets
    cases hm : after h n (.running (.start src)) with
    | done r s trace =>
      rw [hm] at hlets
      exact hlets.elim
    | running m =>
      rw [hm] at hlets hat
      rw [reference_after hm hlets hk]
      exact (reference_stored hm hlets).mpr hat

instance (h : host) (m : Machine) (x v : Bytes) : Decidable (Lets h m x v) :=
  decidable_of_iff
    (m.place = .letName ∧ m.top.execute = true ∧ m.s.l.token.kind = .K_WORD ∧ m.s.l.token.text = x ∧
      (lex m.s.l).token.kind = .K_EQ ∧ is_text (lex (lex m.s.l)).token.kind = true ∧
      interpolate h m.s.vars (lex (lex m.s.l)).token.text = v)
    ⟨fun ⟨h1, h2, h3, h4, h5, h6, h7⟩ => ⟨h1, h2, h3, h4, h5, h6, h7⟩,
      fun hlets => ⟨hlets.place, hlets.execute, hlets.word, hlets.name, hlets.eq, hlets.text, hlets.value⟩⟩

instance (h : host) (x v : Bytes) : DecidablePred (Config.lets h x v)
  | .running m => inferInstanceAs (Decidable (Lets h m x v))
  | .done _ _ _ => inferInstanceAs (Decidable False)

/-- The second `let` of a name is not seen. -/
theorem a_second_let_is_not_seen :
    let src := ascii "let a = \"1\"\nlet a = \"2\"\n"
    (after someHost 6 (.running (.start src))).lets someHost (ascii "a") (ascii "2") ∧
      interpolate someHost (after someHost 9 (.running (.start src))).s.vars (reference (ascii "a")) = ascii "1" ∧
      ¬ ∀ n x v, (after someHost n (.running (.start src))).lets someHost x v →
        ∀ k, 3 ≤ k →
          (∀ j v', 0 < j → j + 3 ≤ k → ¬ (after someHost (n + j) (.running (.start src))).lets someHost x v') →
          interpolate someHost (after someHost (n + k) (.running (.start src))).s.vars (reference x) = v := by
  intro src
  have hlets : (after someHost 6 (.running (.start src))).lets someHost (ascii "a") (ascii "2") := by
    decide +kernel
  have hfirst : interpolate someHost (after someHost 9 (.running (.start src))).s.vars (reference (ascii "a")) =
      ascii "1" := by decide +kernel
  refine ⟨hlets, hfirst, fun hall => ?_⟩
  have hsecond := hall 6 _ _ hlets 3 (Nat.le_refl 3) (fun j v' hj hle => by omega)
  rw [hfirst] at hsecond
  exact absurd hsecond (by decide)

end mantle.script
