-- The syntax of a line of the shell. `run_line` refuses a line that ends with
-- a pipe, but it takes an empty command in any other place, and it forgets what
-- stands behind sixteen commands when an empty one follows them.
import MantleOS.ShellBuffers

open checked bytes

namespace mantle.shell

/-! ## The lines that may be executed -/

/-- The kinds of the tokens of a text, and whether a word that does not fit the buffers ends them. -/
def kinds (sh : Shell) (rest : Bytes) : List token_kind × Bool :=
  match _ : next sh rest with
  | .error _ => ([], true)
  | .ok p =>
    if _ : p.token.kind = .T_END then ([], false)
    else (p.token.kind :: (kinds sh p.rest).1, (kinds sh p.rest).2)
termination_by rest.length
decreasing_by
  all_goals
    rename_i hnext hend
    exact (next_length hnext).2 hend

/-- The tokens between the pipes. -/
def pieces (ks : List token_kind) : List (List token_kind) := ks.splitOnP (· = .T_PIPE)

/-- What follows the words of a command: nothing, or a redirection with its file. -/
def redirects : List token_kind → Bool
  | [] => true
  | [r, file] => is_redirection r && file = .T_WORD
  | _ => false

/-- Words, if any, and then at most one redirection with its file. -/
def loose (piece : List token_kind) : Bool := redirects (piece.dropWhile (· = .T_WORD))

/-- A command has a word at least. -/
def isCommand (piece : List token_kind) : Bool := piece.head? = some .T_WORD && loose piece

/-- One to sixteen commands, with a pipe between each two. -/
def sentence (ks : List token_kind) : Bool := (pieces ks).length ≤ 16 && (pieces ks).all isCommand

/-- The line is executed as the shell is described: only as a sentence, and whatever else has a token
is refused, with nothing done. -/
def Obeys (m : Machine) (sh : Shell) (line : Bytes) : Prop :=
  let ks := (kinds sh (cstring line)).1
  ∃ out sh' events, run_line m sh line = .ok (out, sh', events) ∧
    (events ≠ [] → sentence ks = true) ∧
    (ks ≠ [] → sentence ks = false → out = .refused ∧ events = [])

/-! ## The lines that are executed -/

/-- What the parser lets pass besides: an empty command that is not the last one, or what stands
behind sixteen commands and one more pipe. -/
def Slack (ks : List token_kind) : Prop :=
  ((pieces ks).length ≤ 16 ∧ (∀ piece ∈ pieces ks, loose piece = true) ∧ (pieces ks).getLast? ≠ some [] ∧
      ∃ piece ∈ pieces ks, piece.head? ≠ some .T_WORD) ∨
    (17 < (pieces ks).length ∧ (∀ piece ∈ (pieces ks).take 16, loose piece = true) ∧
      (pieces ks)[16]? = some [])

/-- A command that may go on. -/
def unfinished (piece : List token_kind) : Bool :=
  match piece.dropWhile (· = .T_WORD) with
  | [r] => is_redirection r
  | more => redirects more

/-- The parser asks for another token behind these. -/
def Wanting (ks : List token_kind) : Prop :=
  ((pieces ks).length ≤ 16 ∧ (∀ piece ∈ (pieces ks).dropLast, loose piece = true) ∧
      ∀ last ∈ (pieces ks).getLast?, unfinished last = true) ∨
    ((pieces ks).length = 17 ∧ (∀ piece ∈ (pieces ks).take 16, loose piece = true) ∧
      (pieces ks)[16]? = some [])

/-- A word of the text does not fit the buffers of the tokenizer. -/
inductive Overruns (sh : Shell) : Bytes → Prop
  | here {rest : Bytes} : ¬ WordFits sh rest → Overruns sh rest
  | later {rest : Bytes} {p : parser} : next sh rest = .ok p → p.token.kind ≠ .T_END →
      Overruns sh p.rest → Overruns sh rest

/-! ## The parser on the kinds of the tokens -/

/-- What the reading of one command leaves of the tokens. -/
inductive Reading
  | overrun
  | refused
  | left (ks : List token_kind)

def reading (broken : Bool) (ks : List token_kind) : Reading :=
  match ks.dropWhile (· = .T_WORD) with
  | [] => if broken then .overrun else .left []
  | r :: more =>
    if is_redirection r then
      match more with
      | [] => if broken then .overrun else .refused
      | file :: more =>
        if file = .T_WORD then (if more = [] ∧ broken = true then .overrun else .left more) else .refused
    else .left (r :: more)

/-- How the parser ends. -/
inductive Verdict
  | overrun
  | refused
  | accepted
  deriving DecidableEq

/-- The loop over the commands, from a token on. -/
def verdict (broken : Bool) : Nat → List token_kind → Verdict
  | 0, ks => if ks.head? = some .T_PIPE then .accepted else .refused
  | left + 1, ks =>
    match reading broken ks with
    | .overrun => .overrun
    | .refused => .refused
    | .left [] => .accepted
    | .left (k :: more) =>
      if k = .T_PIPE then
        if more = [] then (if broken then .overrun else .refused) else verdict broken left more
      else .refused

/-- The kinds from the current token on. -/
def ahead (sh : Shell) (p : parser) : List token_kind × Bool :=
  if p.token.kind = .T_END then ([], false)
  else (p.token.kind :: (kinds sh p.rest).1, (kinds sh p.rest).2)

variable {sh : Shell}

theorem kinds_eq (rest : Bytes) :
    kinds sh rest =
      match next sh rest with
      | .error _ => ([], true)
      | .ok p => ahead sh p := by
  rw [kinds]
  split
  · rename_i fault h
    rw [h]
  · rename_i p h
    rw [h]
    dsimp only
    unfold ahead
    split <;> rfl

theorem ahead_cons {p : parser} {k : token_kind} {ks : List token_kind} {broken : Bool}
    (h : ahead sh p = (k :: ks, broken)) : p.token.kind = k ∧ k ≠ .T_END ∧ kinds sh p.rest = (ks, broken) := by
  unfold ahead at h
  split at h
  · cases h
  · rename_i hend
    cases h
    exact ⟨rfl, hend, rfl⟩

theorem ahead_nil {p : parser} {broken : Bool} (h : ahead sh p = ([], broken)) :
    p.token.kind = .T_END ∧ broken = false := by
  unfold ahead at h
  split at h
  · rename_i hend
    cases h
    exact ⟨hend, rfl⟩
  · cases h

/-- The token after the current one, or the write outside of its buffers. -/
theorem next_ahead {rest : Bytes} {ks : List token_kind} {broken : Bool} (h : kinds sh rest = (ks, broken)) :
    if ks = [] ∧ broken = true then ∃ fault, next sh rest = .error fault
    else ∃ q, next sh rest = .ok q ∧ ahead sh q = (ks, broken) := by
  rw [kinds_eq] at h
  cases hnext : next sh rest with
  | error fault =>
    rw [hnext] at h
    cases h
    exact ⟨fault, rfl⟩
  | ok q =>
    rw [hnext] at h
    have h : ahead sh q = (ks, broken) := h
    rw [if_neg]
    · exact ⟨q, rfl, h⟩
    · rintro ⟨rfl, rfl⟩
      cases (ahead_nil h).2

theorem words_reading {argv : List Bytes} {p : parser} {ks : List token_kind} {broken : Bool}
    (h : ahead sh p = (ks, broken)) :
    if ks.dropWhile (· = .T_WORD) = [] ∧ broken = true then ∃ fault, words sh argv p = .error fault
    else ∃ argv' q, words sh argv p = .ok (argv', q) ∧ ahead sh q = (ks.dropWhile (· = .T_WORD), broken) := by
  fun_induction words sh argv p generalizing ks with
  | case1 argv p hword fault hfault =>
    cases ks with
    | nil =>
      rw [(ahead_nil h).1] at hword
      cases hword
    | cons k ks =>
      obtain ⟨hk, -, hkinds⟩ := ahead_cons h
      have hnext := next_ahead hkinds
      split at hnext
      · rename_i hlast
        have hdrop : (k :: ks).dropWhile (· = .T_WORD) = [] := by
          rw [hlast.1, ← hk, hword]
          rfl
        rw [if_pos ⟨hdrop, hlast.2⟩]
        exact ⟨fault, rfl⟩
      · obtain ⟨q, hq, -⟩ := hnext
        rw [hfault] at hq
        cases hq
  | case2 argv p hword q hq ih =>
    cases ks with
    | nil =>
      rw [(ahead_nil h).1] at hword
      cases hword
    | cons k ks =>
      obtain ⟨hk, -, hkinds⟩ := ahead_cons h
      have hnext := next_ahead hkinds
      have hdrop : (k :: ks).dropWhile (· = .T_WORD) = ks.dropWhile (· = .T_WORD) := by
        rw [← hk, hword]
        rfl
      rw [hdrop]
      split at hnext
      · obtain ⟨fault, hfault⟩ := hnext
        rw [hq] at hfault
        cases hfault
      · obtain ⟨q', hq', hahead⟩ := hnext
        rw [hq] at hq'
        cases hq'
        exact ih hahead
  | case3 argv p hword =>
    have hdrop : ks.dropWhile (· = .T_WORD) = ks := by
      cases ks with
      | nil => rfl
      | cons k ks =>
        obtain ⟨hk, -, -⟩ := ahead_cons h
        exact List.dropWhile_cons_of_neg (by simpa [← hk] using hword)
    rw [hdrop, if_neg]
    · exact ⟨argv, p, rfl, h⟩
    · rintro ⟨rfl, rfl⟩
      cases (ahead_nil h).2

/-- Without a redirection the token stays. -/
theorem redirection_none (argv : List Bytes) {p : parser} (h : is_redirection p.token.kind = false) :
    redirection sh argv p = .ok ({ argv, input := none, output := none, append := false }, p, false) := by
  rw [redirection, h]
  rfl

/-- What the redirection behind the words reads. -/
theorem redirection_reading (argv : List Bytes) {p : parser} {r : token_kind} {more : List token_kind}
    {broken : Bool} (h : ahead sh p = (r :: more, broken)) (hr : is_redirection r = true) :
    match more with
    | [] => if broken = true then ∃ fault, redirection sh argv p = .error fault
        else ∃ c q, redirection sh argv p = .ok (c, q, true)
    | file :: more =>
      if file = .T_WORD then
        if more = [] ∧ broken = true then ∃ fault, redirection sh argv p = .error fault
        else ∃ c q, redirection sh argv p = .ok (c, q, false) ∧ ahead sh q = (more, broken)
      else ∃ c q, redirection sh argv p = .ok (c, q, true) := by
  obtain ⟨hkind, -, hkinds⟩ := ahead_cons h
  have hnext := next_ahead hkinds
  unfold redirection
  rw [hkind, if_pos hr]
  cases more with
  | nil =>
    cases broken with
    | true =>
      obtain ⟨fault, hfault⟩ : ∃ fault, next sh p.rest = .error fault := by simpa using hnext
      rw [hfault]
      exact ⟨fault, rfl⟩
    | false =>
      obtain ⟨file, hfile, hahead⟩ : ∃ q, next sh p.rest = .ok q ∧ ahead sh q = ([], false) := by
        simpa using hnext
      have hend : file.token.kind ≠ .T_WORD := by
        rw [(ahead_nil hahead).1]
        decide
      dsimp only
      rw [if_neg Bool.false_ne_true, hfile, ok_bind, if_pos hend]
      exact ⟨_, _, rfl⟩
  | cons file more =>
    rw [if_neg (by simp)] at hnext
    obtain ⟨q, hq, hahead⟩ := hnext
    obtain ⟨hfile, -, hafter⟩ := ahead_cons hahead
    rw [hq, ok_bind, hfile]
    dsimp only
    by_cases hword : file = .T_WORD
    · rw [if_pos hword, if_neg (show ¬ file ≠ .T_WORD from not_not.mpr hword)]
      have hnext := next_ahead hafter
      by_cases hlast : more = [] ∧ broken = true
      · rw [if_pos hlast] at hnext ⊢
        obtain ⟨fault, hfault⟩ := hnext
        rw [hfault]
        exact ⟨fault, rfl⟩
      · rw [if_neg hlast] at hnext ⊢
        obtain ⟨last, hlast', hahead'⟩ := hnext
        rw [hlast', ok_bind]
        split
        · exact ⟨_, _, rfl, hahead'⟩
        · exact ⟨_, _, rfl, hahead'⟩
    · rw [if_neg hword, if_pos hword]
      exact ⟨_, _, rfl⟩

/-- The loop over the words and the redirection behind them read what `reading` tells. -/
theorem command_reading {p : parser} {ks : List token_kind} {broken : Bool} (h : ahead sh p = (ks, broken)) :
    match reading broken ks with
    | .overrun => ∃ fault, (words sh [] p >>= fun r => redirection sh r.1 r.2) = .error fault
    | .refused => ∃ c q, (words sh [] p >>= fun r => redirection sh r.1 r.2) = .ok (c, q, true)
    | .left more => ∃ c q, (words sh [] p >>= fun r => redirection sh r.1 r.2) = .ok (c, q, false) ∧
        ahead sh q = (more, broken) := by
  have hwords := @words_reading sh [] p ks broken h
  unfold reading
  cases hmore : ks.dropWhile (· = .T_WORD) with
  | nil =>
    rw [hmore] at hwords
    cases broken with
    | true =>
      obtain ⟨fault, hfault⟩ : ∃ fault, words sh [] p = .error fault := by simpa using hwords
      rw [hfault]
      exact ⟨fault, rfl⟩
    | false =>
      obtain ⟨argv, q, hq, hahead⟩ : ∃ argv' q, words sh [] p = .ok (argv', q) ∧ ahead sh q = ([], false) := by
        simpa using hwords
      rw [hq, ok_bind]
      exact ⟨_, q, redirection_none argv (by rw [(ahead_nil hahead).1]; rfl), hahead⟩
  | cons r more =>
    rw [hmore, if_neg (by simp)] at hwords
    obtain ⟨argv, q, hq, hahead⟩ := hwords
    rw [hq, ok_bind]
    dsimp only
    by_cases hr : is_redirection r = true
    · have hred := redirection_reading argv hahead hr
      rw [if_pos hr]
      cases more with
      | nil =>
        dsimp only at hred ⊢
        cases broken with
        | true => simpa using hred
        | false => simpa using hred
      | cons file more =>
        dsimp only at hred ⊢
        by_cases hword : file = .T_WORD
        · rw [if_pos hword] at hred ⊢
          by_cases hlast : more = [] ∧ broken = true
          · rw [if_pos hlast] at hred ⊢
            exact hred
          · rw [if_neg hlast] at hred ⊢
            exact hred
        · rw [if_neg hword] at hred ⊢
          exact hred
    · rw [if_neg hr]
      obtain ⟨hkind, -, -⟩ := ahead_cons hahead
      exact ⟨_, q, redirection_none argv (by rw [hkind]; simpa using hr), hahead⟩

/-- While there are tokens, the parser is not at the end. -/
theorem ahead_not_end {p : parser} {ks : List token_kind} {broken : Bool} (h : ahead sh p = (ks, broken))
    (hks : ks ≠ []) : p.token.kind ≠ .T_END := by
  obtain ⟨k, ks, rfl⟩ := List.exists_cons_of_ne_nil hks
  obtain ⟨hk, hend, -⟩ := ahead_cons h
  rwa [hk]

/-- One turn of the loop over the commands: a command, and then what its last token says. -/
theorem parse_loop_succ {left : Nat} {cmds : List command} {p : parser} (hend : p.token.kind ≠ .T_END) :
    parse_loop sh (left + 1) cmds p =
      ((words sh [] p >>= fun r => redirection sh r.1 r.2) >>= fun r =>
        if r.2.2 then return (cmds ++ [r.1], r.2.1, true)
        else if r.2.1.token.kind = .T_PIPE then do
          let p ← next sh r.2.1.rest
          if p.token.kind = .T_END then return (cmds ++ [r.1], p, true)
          else parse_loop sh left (cmds ++ [r.1]) p
        else return (cmds ++ [r.1], r.2.1, false)) := by
  rw [parse_loop, if_neg hend, bind_assoc]

/-- No other token is one that a line may end at. -/
theorem not_accepted {k : token_kind} (hpipe : k ≠ .T_PIPE) (hend : k ≠ .T_END) :
    (false || !accepts k) = true := by
  rw [Bool.false_or, accepts]
  simp [hpipe, hend]

/-- The loop over the commands ends as `verdict` tells. -/
theorem parse_loop_verdict {left : Nat} {cmds : List command} {p : parser} {ks : List token_kind} {broken : Bool}
    (h : ahead sh p = (ks, broken)) (hks : ks ≠ []) :
    match verdict broken left ks with
    | .overrun => ∃ fault, parse_loop sh left cmds p = .error fault
    | .refused => ∃ cmds' q error, parse_loop sh left cmds p = .ok (cmds', q, error) ∧
        (error || !accepts q.token.kind) = true
    | .accepted => ∃ cmds' q, parse_loop sh left cmds p = .ok (cmds', q, false) ∧
        accepts q.token.kind = true := by
  induction left generalizing cmds p ks with
  | zero =>
    obtain ⟨k, ks, rfl⟩ := List.exists_cons_of_ne_nil hks
    obtain ⟨hk, hend, -⟩ := ahead_cons h
    unfold verdict
    by_cases hpipe : k = .T_PIPE
    · rw [List.head?_cons, if_pos (by rw [hpipe])]
      exact ⟨cmds, p, rfl, by rw [hk, hpipe]; rfl⟩
    · rw [List.head?_cons, if_neg (by simpa using hpipe)]
      exact ⟨cmds, p, false, rfl, by rw [hk]; exact not_accepted hpipe hend⟩
  | succ left ih =>
    have hcommand := command_reading h
    rw [parse_loop_succ (ahead_not_end h hks)]
    unfold verdict
    cases hreading : reading broken ks with
    | overrun =>
      rw [hreading] at hcommand
      obtain ⟨fault, hfault⟩ := hcommand
      rw [hfault]
      exact ⟨fault, rfl⟩
    | refused =>
      rw [hreading] at hcommand
      obtain ⟨c, q, hq⟩ := hcommand
      rw [hq]
      exact ⟨_, q, true, rfl, rfl⟩
    | left more =>
      rw [hreading] at hcommand
      obtain ⟨c, q, hq, hahead⟩ := hcommand
      rw [hq, ok_bind]
      cases more with
      | nil =>
        have hlast := (ahead_nil hahead).1
        dsimp only
        rw [if_neg Bool.false_ne_true, if_neg (by rw [hlast]; decide)]
        exact ⟨_, q, rfl, by rw [hlast]; rfl⟩
      | cons k more =>
        obtain ⟨hk, hkend, hkinds⟩ := ahead_cons hahead
        dsimp only
        rw [if_neg Bool.false_ne_true, hk]
        by_cases hpipe : k = .T_PIPE
        · rw [if_pos hpipe, if_pos hpipe]
          have hnext := next_ahead hkinds
          by_cases hmore : more = []
          · rw [if_pos hmore]
            cases broken with
            | true =>
              rw [if_pos ⟨hmore, rfl⟩] at hnext
              obtain ⟨fault, hfault⟩ := hnext
              rw [hfault]
              exact ⟨fault, rfl⟩
            | false =>
              rw [if_neg (by simp), hmore] at hnext
              obtain ⟨last, hlast, hahead'⟩ := hnext
              rw [hlast, ok_bind, if_pos (ahead_nil hahead').1]
              exact ⟨_, last, true, rfl, rfl⟩
          · rw [if_neg fun hlast => hmore hlast.1] at hnext
            obtain ⟨q', hq', hahead'⟩ := hnext
            rw [if_neg hmore, hq', ok_bind, if_neg (ahead_not_end hahead' hmore)]
            exact ih hahead' hmore
        · rw [if_neg hpipe, if_neg hpipe]
          exact ⟨_, q, false, rfl, by rw [hk]; exact not_accepted hpipe hkend⟩

/-! ## What the parser lets pass -/

/-- The first piece and the others. -/
theorem pieces_split (ks : List token_kind) :
    ∃ piece, .T_PIPE ∉ piece ∧
      ((ks = piece ∧ pieces ks = [piece]) ∨
        ∃ rest, ks = piece ++ .T_PIPE :: rest ∧ pieces ks = piece :: pieces rest) := by
  induction ks with
  | nil => exact ⟨[], by simp, .inl ⟨rfl, by simp [pieces]⟩⟩
  | cons k ks ih =>
    have hpieces : pieces (k :: ks) =
        if k = .T_PIPE then [] :: pieces ks else (pieces ks).modifyHead (k :: ·) := by
      unfold pieces
      rw [List.splitOnP_cons_eq_if_modifyHead]
      simp
    rw [hpieces]
    by_cases hk : k = .T_PIPE
    · rw [if_pos hk]
      exact ⟨[], by simp, .inr ⟨ks, by rw [hk]; rfl, rfl⟩⟩
    · rw [if_neg hk]
      obtain ⟨piece, hpipe, hrest⟩ := ih
      refine ⟨k :: piece, ?_, ?_⟩
      · rw [List.mem_cons, not_or]
        exact ⟨Ne.symm hk, hpipe⟩
      · rcases hrest with ⟨hks, hone⟩ | ⟨rest, hks, hmore⟩
        · exact .inl ⟨by rw [hks], by rw [hone]; rfl⟩
        · exact .inr ⟨rest, by rw [hks]; rfl, by rw [hmore]; rfl⟩

theorem pieces_ne_nil (ks : List token_kind) : pieces ks ≠ [] := List.splitOnP_ne_nil _ _

/-- The parser comes to its end, with all pieces that it reads loose. -/
def passes : Nat → List (List token_kind) → Prop
  | 0, piece :: rest => piece = [] ∧ rest ≠ []
  | _ + 1, [piece] => loose piece = true ∧ piece ≠ []
  | left + 1, piece :: rest => loose piece = true ∧ passes left rest
  | _, [] => False

/-- The parser asks for another token. -/
def wants : Nat → List (List token_kind) → Prop
  | 0, piece :: rest => piece = [] ∧ rest = []
  | _ + 1, [piece] => unfinished piece = true
  | left + 1, piece :: rest => loose piece = true ∧ wants left rest
  | _, [] => False

theorem passes_cons {left : Nat} {piece : List token_kind} {rest : List (List token_kind)} (hrest : rest ≠ []) :
    (passes (left + 1) (piece :: rest) ↔ loose piece = true ∧ passes left rest) ∧
      (wants (left + 1) (piece :: rest) ↔ loose piece = true ∧ wants left rest) := by
  obtain ⟨next, rest, rfl⟩ := List.exists_cons_of_ne_nil hrest
  exact ⟨by rw [passes]; simp, by rw [wants]; simp⟩

theorem dropWhile_words {piece rest : List token_kind} (hrest : ∀ k ∈ rest.head?, k = .T_PIPE) :
    (piece ++ rest).dropWhile (· = .T_WORD) = piece.dropWhile (· = .T_WORD) ++ rest := by
  induction piece with
  | nil =>
    cases rest with
    | nil => rfl
    | cons k rest =>
      rw [hrest k rfl]
      rfl
  | cons k piece ih =>
    by_cases hk : k = .T_WORD
    · simpa [hk] using ih
    · simp [hk]

/-- A loose piece is read up to its end. -/
theorem reading_loose {piece rest : List token_kind} (broken : Bool) (hloose : loose piece = true)
    (hrest : ∀ k ∈ rest.head?, k = .T_PIPE) :
    reading broken (piece ++ rest) = if rest = [] ∧ broken = true then .overrun else .left rest := by
  unfold reading
  rw [dropWhile_words hrest]
  unfold loose at hloose
  revert hloose
  generalize piece.dropWhile (· = .T_WORD) = more
  intro hloose
  match more, hloose with
  | [], _ =>
    cases rest with
    | nil => cases broken <;> rfl
    | cons k rest =>
      rw [hrest k rfl]
      rfl
  | [r, file], hloose =>
    simp only [redirects, Bool.and_eq_true, decide_eq_true_eq] at hloose
    simp [hloose]

theorem unfinished_of_loose {piece : List token_kind} (hloose : loose piece = true) : unfinished piece = true := by
  unfold loose at hloose
  unfold unfinished
  split
  · rename_i r hmore
    rw [hmore] at hloose
    cases hloose
  · exact hloose

/-- A piece that is not loose is read up to the token that does not fit, or up to its end when only
the file of a redirection is missing. -/
theorem reading_not_loose {piece rest : List token_kind} (broken : Bool) (hloose : loose piece = false)
    (hpipe : .T_PIPE ∉ piece) (hrest : ∀ k ∈ rest.head?, k = .T_PIPE) :
    if unfinished piece = true ∧ rest = [] ∧ broken = true then reading broken (piece ++ rest) = .overrun
    else reading broken (piece ++ rest) = .refused ∨
      ∃ k more, k ≠ .T_PIPE ∧ reading broken (piece ++ rest) = .left (k :: more) := by
  unfold reading unfinished
  rw [dropWhile_words hrest]
  unfold loose at hloose
  have hbytes : .T_PIPE ∉ piece.dropWhile (· = .T_WORD) := fun h => hpipe ((List.dropWhile_suffix _).mem h)
  revert hloose hbytes
  generalize piece.dropWhile (· = .T_WORD) = more
  intro hloose hbytes
  match more with
  | [] => cases hloose
  | [r] =>
    have hr : r ≠ .T_PIPE := by simpa [eq_comm] using hbytes
    dsimp only
    by_cases hred : is_redirection r = true
    · cases rest with
      | nil => cases broken <;> simp [hred]
      | cons k rest =>
        rw [if_neg (by simp), hrest k rfl]
        exact .inl (by simp [hred])
    · rw [if_neg fun h => hred h.1]
      exact .inr ⟨r, rest, hr, by simp [hred]⟩
  | [r, file] =>
    have hr : r ≠ .T_PIPE := by
      rintro rfl
      simp at hbytes
    dsimp only
    rw [if_neg fun h => Bool.false_ne_true (hloose.symm.trans h.1)]
    by_cases hred : is_redirection r = true
    · have hfile : file ≠ .T_WORD := by
        rintro rfl
        simp [redirects, hred] at hloose
      exact .inl (by simp [hred, hfile])
    · exact .inr ⟨r, file :: rest, hr, by simp [hred]⟩
  | r :: file :: x :: xs =>
    have hr : r ≠ .T_PIPE := by
      rintro rfl
      simp at hbytes
    have hx : x ≠ .T_PIPE := by
      rintro rfl
      simp at hbytes
    dsimp only
    rw [if_neg fun h => Bool.false_ne_true (hloose.symm.trans h.1)]
    by_cases hred : is_redirection r = true
    · by_cases hfile : file = .T_WORD
      · exact .inr ⟨x, xs ++ rest, hx, by simp [hred, hfile]⟩
      · exact .inl (by simp [hred, hfile])
    · exact .inr ⟨r, file :: x :: (xs ++ rest), hr, by simp [hred]⟩

/-- Behind the last pipe the parser asks for a token, and it does not end there. -/
theorem passes_end (left : Nat) : ¬ passes left (pieces []) ∧ wants left (pieces []) := by
  have hnil : pieces [] = [[]] := by simp [pieces]
  rw [hnil]
  cases left with
  | zero => simp [passes, wants]
  | succ left => simp [passes, wants, unfinished, redirects]

/-- The pieces decide how the parser ends. By induction on the places that are left. -/
theorem verdict_iff (broken : Bool) {left : Nat} {ks : List token_kind} (hks : ks ≠ []) :
    (verdict broken left ks = .accepted ↔
        passes left (pieces ks) ∧ ¬ (broken = true ∧ wants left (pieces ks))) ∧
      (verdict broken left ks = .overrun ↔ broken = true ∧ wants left (pieces ks)) := by
  induction left generalizing ks with
  | zero =>
    obtain ⟨piece, hpipe, ⟨hpiece, hone⟩ | ⟨rest, hsplit, hmore⟩⟩ := pieces_split ks
    · have hhead : ks.head? ≠ some .T_PIPE := by
        intro hhead
        rw [hpiece] at hhead
        exact hpipe (List.mem_of_mem_head? hhead)
      have hne : piece ≠ [] := hpiece ▸ hks
      rw [hone, verdict, if_neg hhead]
      simp [passes, wants, hne]
    · rw [hmore, verdict]
      simp only [passes, wants, pieces_ne_nil, ne_eq, not_false_eq_true, and_true, and_false, iff_false]
      cases piece with
      | nil => simp [hsplit]
      | cons k piece =>
        have hk : k ≠ .T_PIPE := by
          rintro rfl
          simp at hpipe
        simp [hsplit, hk]
  | succ left ih =>
    obtain ⟨piece, hpipe, ⟨hpiece, hone⟩ | ⟨rest, hsplit, hmore⟩⟩ := pieces_split ks
    · have hread : reading broken ks = reading broken (piece ++ []) := by
        rw [hpiece, List.append_nil]
      have hne : piece ≠ [] := hpiece ▸ hks
      rw [hone, verdict, hread]
      by_cases hloose : loose piece = true
      · rw [reading_loose broken hloose (by simp)]
        have hwants := unfinished_of_loose hloose
        cases broken <;> simp [passes, wants, hloose, hne, hwants]
      · rw [Bool.not_eq_true] at hloose
        have hreading := @reading_not_loose piece [] broken hloose hpipe (by simp)
        by_cases hlast : unfinished piece = true ∧ ([] : List token_kind) = [] ∧ broken = true
        · rw [if_pos hlast] at hreading
          rw [hreading]
          simp [passes, wants, hloose, hlast.1, hlast.2.2]
        · rw [if_neg hlast] at hreading
          have hno : ¬ (broken = true ∧ unfinished piece = true) := fun h => hlast ⟨h.2, rfl, h.1⟩
          rcases hreading with hreading | ⟨k, more, hk, hreading⟩
          · rw [hreading]
            simp [passes, wants, hloose, hno]
          · rw [hreading]
            dsimp only
            rw [if_neg hk]
            simp [passes, wants, hloose, hno]
    · obtain ⟨hpasses, hwants⟩ := @passes_cons left piece (pieces rest) (pieces_ne_nil rest)
      have hhead : ∀ k ∈ (.T_PIPE :: rest : List token_kind).head?, k = .T_PIPE := by
        simp
      rw [hmore, hpasses, hwants, verdict, hsplit]
      by_cases hloose : loose piece = true
      · rw [reading_loose broken hloose hhead, if_neg (by simp)]
        dsimp only
        rw [if_pos rfl, and_iff_right hloose, and_iff_right hloose]
        by_cases hrest : rest = []
        · rw [if_pos hrest, hrest]
          obtain ⟨hno, hyes⟩ := passes_end left
          cases broken <;> simp [hno, hyes]
        · rw [if_neg hrest]
          exact ih hrest
      · rw [Bool.not_eq_true] at hloose
        have hreading := reading_not_loose broken hloose hpipe hhead
        rw [if_neg (by simp)] at hreading
        rcases hreading with hreading | ⟨k, more, hk, hreading⟩
        · rw [hreading]
          simp [hloose]
        · rw [hreading]
          dsimp only
          rw [if_neg hk]
          simp [hloose]

/-! ## The same of all sixteen places -/

theorem passes_iff {left : Nat} {ps : List (List token_kind)} (hps : ps ≠ []) :
    passes left ps ↔
      (ps.length ≤ left ∧ (∀ piece ∈ ps, loose piece = true) ∧ ps.getLast? ≠ some []) ∨
        (left + 1 < ps.length ∧ (∀ piece ∈ ps.take left, loose piece = true) ∧ ps[left]? = some []) := by
  induction left generalizing ps with
  | zero =>
    obtain ⟨piece, rest, rfl⟩ := List.exists_cons_of_ne_nil hps
    simp [passes, List.length_pos_iff, and_comm]
  | succ left ih =>
    obtain ⟨piece, rest, rfl⟩ := List.exists_cons_of_ne_nil hps
    by_cases hrest : rest = []
    · subst hrest
      simp [passes]
    · rw [(passes_cons hrest).1, ih hrest]
      obtain ⟨next, rest, rfl⟩ := List.exists_cons_of_ne_nil hrest
      simp only [List.length_cons, List.forall_mem_cons, List.take_succ_cons, List.getLast?_cons_cons,
        List.getElem?_cons_succ, Nat.add_le_add_iff_right, Nat.add_lt_add_iff_right]
      tauto

theorem wants_iff {left : Nat} {ps : List (List token_kind)} (hps : ps ≠ []) :
    wants left ps ↔
      (ps.length ≤ left ∧ (∀ piece ∈ ps.dropLast, loose piece = true) ∧
          ∀ last ∈ ps.getLast?, unfinished last = true) ∨
        (ps.length = left + 1 ∧ (∀ piece ∈ ps.take left, loose piece = true) ∧ ps[left]? = some []) := by
  induction left generalizing ps with
  | zero =>
    obtain ⟨piece, rest, rfl⟩ := List.exists_cons_of_ne_nil hps
    simp [wants, and_comm]
  | succ left ih =>
    obtain ⟨piece, rest, rfl⟩ := List.exists_cons_of_ne_nil hps
    by_cases hrest : rest = []
    · subst hrest
      simp [wants]
    · rw [(passes_cons hrest).2, ih hrest]
      obtain ⟨next, rest, rfl⟩ := List.exists_cons_of_ne_nil hrest
      simp only [List.length_cons, List.forall_mem_cons, List.take_succ_cons, List.getLast?_cons_cons,
        List.dropLast_cons_cons, List.getElem?_cons_succ, Nat.add_le_add_iff_right, Nat.add_right_cancel_iff]
      tauto

/-- A sentence passes; what passes and is none is slack. -/
theorem passes_iff_sentence (ks : List token_kind) :
    (sentence ks = true → passes 16 (pieces ks)) ∧
      (passes 16 (pieces ks) ∧ sentence ks = false ↔ Slack ks) := by
  have hsentence : sentence ks = true ↔
      (pieces ks).length ≤ 16 ∧ ∀ piece ∈ pieces ks, piece.head? = some .T_WORD ∧ loose piece = true := by
    simp [sentence, isCommand]
  rw [passes_iff (pieces_ne_nil ks), Slack, ← Bool.not_eq_true, hsentence]
  constructor
  · rintro ⟨hlength, hall⟩
    refine .inl ⟨hlength, fun piece hpiece => (hall piece hpiece).2, fun hlast => ?_⟩
    have := (hall [] (List.mem_of_getLast? hlast)).1
    cases this
  · constructor
    · rintro ⟨⟨hlength, hloose, hlast⟩ | hslack, hno⟩
      · refine .inl ⟨hlength, hloose, hlast, ?_⟩
        by_contra hall
        simp only [not_exists, not_and, not_not] at hall
        exact hno ⟨hlength, fun piece hpiece => ⟨hall piece hpiece, hloose piece hpiece⟩⟩
      · exact .inr hslack
    · rintro (⟨hlength, hloose, hlast, piece, hpiece, hword⟩ | hslack)
      · exact ⟨.inl ⟨hlength, hloose, hlast⟩, fun h => hword (h.2 piece hpiece).1⟩
      · refine ⟨.inr hslack, fun h => ?_⟩
        have := hslack.1
        omega

/-! ## The law -/

theorem overruns_iff (sh : Shell) (rest : Bytes) : Overruns sh rest ↔ (kinds sh rest).2 = true := by
  constructor
  · intro hover
    induction hover with
    | here hword =>
      rename_i rest
      rw [kinds_eq]
      rw [← next_ok_iff] at hword
      cases hnext : next sh rest with
      | error fault => rfl
      | ok p => exact absurd ⟨p, hnext⟩ hword
    | later hnext hend _ ih =>
      rw [kinds_eq, hnext]
      dsimp only
      rw [ahead, if_neg hend]
      exact ih
  · intro hbroken
    induction hk : rest.length using Nat.strong_induction_on generalizing rest with
    | _ k ih =>
      rw [kinds_eq] at hbroken
      cases hnext : next sh rest with
      | error fault =>
        refine .here fun hfits => ?_
        obtain ⟨p, hp⟩ := (next_ok_iff sh rest).mpr hfits
        rw [hnext] at hp
        cases hp
      | ok p =>
        rw [hnext] at hbroken
        dsimp only at hbroken
        unfold ahead at hbroken
        split at hbroken
        · cases hbroken
        · rename_i hend
          have hshort := (next_length hnext).2 hend
          exact .later hnext hend (ih p.rest.length (by omega) p.rest hbroken rfl)

/-- A line that is executed is not refused. -/
theorem run_loop_not_refused (m : Machine) {count index in_fd : Nat} {sh : Shell} {cmds : List command} :
    (run_loop m count index in_fd sh cmds).2.2 ≠ .error .refused := by
  induction cmds generalizing index in_fd sh with
  | nil => simp [run_loop]
  | cons c rest ih =>
    rw [run_loop]
    split
    · simp
    · rename_i read_fd write_fd hpipe
      dsimp only
      split
      · simp
      · rename_i turn child hchild
        have hrest := @ih (index + 1) read_fd (execute m index sh c in_fd write_fd (1 < count)).sh
        revert hrest
        generalize run_loop m count (index + 1) read_fd
          (execute m index sh c in_fd write_fd (1 < count)).sh rest = r
        obtain ⟨sh', events, children⟩ := r
        cases children <;> simp

theorem run_commands_not_refused (m : Machine) (sh : Shell) (cmds : List command) :
    (run_commands m sh cmds).1 ≠ .refused := by
  have hloop := @run_loop_not_refused m cmds.length 0 0 sh cmds
  revert hloop
  unfold run_commands
  generalize run_loop m cmds.length 0 0 sh cmds = r
  obtain ⟨sh', events, children⟩ := r
  cases children <;> simp

/-- What `run_line` makes of a line with tokens. -/
theorem run_line_verdict (m : Machine) {line : Bytes} {ks : List token_kind} {broken : Bool}
    (h : kinds sh (cstring line) = (ks, broken)) (hks : ks ≠ []) :
    match verdict broken 16 ks with
    | .overrun => ∃ fault, run_line m sh line = .error fault
    | .refused => run_line m sh line = .ok (.refused, sh, [])
    | .accepted => ∃ cmds, run_line m sh line = .ok (run_commands m sh cmds) := by
  have hnext := next_ahead h
  rw [if_neg fun h => hks h.1] at hnext
  obtain ⟨p, hp, hahead⟩ := hnext
  have hloop := @parse_loop_verdict sh 16 [] p ks broken hahead hks
  unfold run_line parse
  rw [hp, ok_bind]
  cases hverdict : verdict broken 16 ks with
  | overrun =>
    rw [hverdict] at hloop
    obtain ⟨fault, hfault⟩ := hloop
    rw [hfault]
    exact ⟨fault, rfl⟩
  | refused =>
    rw [hverdict] at hloop
    obtain ⟨cmds, q, error, hq, hrefused⟩ := hloop
    rw [hq, ok_bind]
    dsimp only
    rw [if_pos hrefused]
    rfl
  | accepted =>
    rw [hverdict] at hloop
    obtain ⟨cmds, q, hq, haccepts⟩ := hloop
    rw [hq, ok_bind]
    dsimp only
    rw [haccepts]
    exact ⟨cmds, rfl⟩

/-- A line without a token. -/
theorem run_line_empty (m : Machine) {line : Bytes} {broken : Bool}
    (h : kinds sh (cstring line) = ([], broken)) :
    if broken = true then ∃ fault, run_line m sh line = .error fault
    else ∃ out sh', run_line m sh line = .ok (out, sh', []) := by
  have hnext := next_ahead h
  unfold run_line parse
  cases broken with
  | true =>
    obtain ⟨fault, hfault⟩ : ∃ fault, next sh (cstring line) = .error fault := by simpa using hnext
    rw [hfault]
    exact ⟨fault, rfl⟩
  | false =>
    obtain ⟨p, hp, hahead⟩ : ∃ q, next sh (cstring line) = .ok q ∧ ahead sh q = ([], false) := by
      simpa using hnext
    have hend := (ahead_nil hahead).1
    rw [hp, ok_bind, parse_loop, if_pos hend]
    simp [hend, accepts, run_commands, run_loop]

/-- For every machine, state and line: the line is executed only as a sentence and is refused
otherwise exactly when the parser meets no word that leaves the buffers, and the line is not one of
those that it lets pass besides. -/
theorem a_line_is_executed_as_a_sentence_iff (m : Machine) (sh : Shell) (line : Bytes) :
    Obeys m sh line ↔
      ¬ (Overruns sh (cstring line) ∧ Wanting (kinds sh (cstring line)).1) ∧
        ¬ Slack (kinds sh (cstring line)).1 := by
  have hwants := @wants_iff 16 _ (pieces_ne_nil (kinds sh (cstring line)).1)
  obtain ⟨hsentence, hslack⟩ := passes_iff_sentence (kinds sh (cstring line)).1
  rw [overruns_iff, Wanting, ← hwants, ← hslack, Obeys]
  clear hwants hslack
  obtain ⟨ks, broken, h⟩ : ∃ ks broken, kinds sh (cstring line) = (ks, broken) := ⟨_, _, rfl⟩
  rw [h] at hsentence ⊢
  dsimp only at hsentence ⊢
  by_cases hks : ks = []
  · subst hks
    have hrun := run_line_empty m h
    obtain ⟨hno, hyes⟩ := passes_end 16
    cases broken with
    | true =>
      obtain ⟨fault, hfault⟩ : ∃ fault, run_line m sh line = .error fault := by simpa using hrun
      simp [hfault, hyes]
    | false =>
      obtain ⟨out, sh', hok⟩ : ∃ out sh', run_line m sh line = .ok (out, sh', []) := by simpa using hrun
      simp [hok, hno]
  · have hrun := run_line_verdict m h hks
    obtain ⟨haccepted, hoverrun⟩ := @verdict_iff broken 16 ks hks
    cases hverdict : verdict broken 16 ks with
    | overrun =>
      rw [hverdict] at hrun hoverrun
      obtain ⟨fault, hfault⟩ := hrun
      refine iff_of_false ?_ fun hcond => hcond.1 (hoverrun.mp rfl)
      rintro ⟨out, sh', events, hok, -⟩
      rw [hfault] at hok
      cases hok
    | refused =>
      rw [hverdict] at hrun haccepted hoverrun
      have hfits : ¬ (broken = true ∧ wants 16 (pieces ks)) := fun hover => by
        cases hoverrun.mpr hover
      have hpasses : ¬ passes 16 (pieces ks) := fun hpass => by
        cases haccepted.mpr ⟨hpass, hfits⟩
      exact iff_of_true ⟨_, _, _, hrun, fun hevents => absurd rfl hevents, fun _ _ => ⟨rfl, rfl⟩⟩
        ⟨hfits, fun hslack => hpasses hslack.1⟩
    | accepted =>
      rw [hverdict] at hrun haccepted
      obtain ⟨hpasses, hfits⟩ := haccepted.mp rfl
      obtain ⟨cmds, hcmds⟩ := hrun
      rw [and_iff_right hfits]
      constructor
      · rintro ⟨out, sh', events, hok, -, hrefused⟩ ⟨-, hno⟩
        rw [hcmds] at hok
        have hout : (run_commands m sh cmds).1 = .refused := by
          rw [Except.ok.inj hok]
          exact (hrefused hks hno).1
        exact run_commands_not_refused m sh cmds hout
      · intro hslack
        have hyes : sentence ks = true := by
          by_contra hno
          exact hslack ⟨hpasses, by simpa using hno⟩
        exact ⟨_, _, _, hcmds, fun _ => hyes, fun _ hno => absurd hyes (by simp [hno])⟩

/-- The empty command before the pipe is executed too, in a child of its own. -/
theorem an_empty_command_is_executed : ¬ Obeys plainMachine rootShell (ascii "| cat") := by
  rintro ⟨out, sh', events, hrun, hevents, -⟩
  have hsentence : sentence (kinds rootShell (cstring (ascii "| cat"))).1 = false := by decide +kernel
  have hok : run_line plainMachine rootShell (ascii "| cat") =
      .ok (.returned 0, rootShell, [.forked 0 ⟨[], none, none, false⟩ 0 4, .forked 1 ⟨[ascii "cat"], none, none, false⟩ 3 1]) := by
    decide +kernel
  rw [hok] at hrun
  cases hrun
  rw [hevents (by simp)] at hsentence
  cases hsentence

end mantle.shell
