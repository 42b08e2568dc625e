-- The tokenizer of `shell/mantle-shell.c` with its buffers: `raw` of `next`,
-- `name` of `expand` and the text of the token. A call of `next` writes inside
-- of them exactly when its word is not escaped behind a full `raw` and holds
-- no bare name that is too long for `name`.
import MantleOS.ShellRuns

open checked bytes ctext

namespace mantle.shell

/-! ## The tokenizer with its buffers -/

/-- The loop over a quoted part: `raw`, how many bytes stand in it, and what is left of the line. -/
def quoted_into (q : UInt8) (raw : Bytes) (n : Nat) (rest : Bytes) : Checked (Bytes × Nat × Bytes) :=
  match rest with
  | [] => .ok (raw, n, [])
  | c :: rest =>
    if c = 0 ∨ c = q ∨ MAX_WORD - 2 ≤ n then .ok (raw, n, c :: rest)
    else
      match c, rest with
      | 92, d :: rest =>
        if d ≠ 0 then do
          let raw ← setAt raw n d
          quoted_into q raw (n + 1) rest
        else do
          let raw ← setAt raw n 92
          quoted_into q raw (n + 1) (d :: rest)
      | c, rest => do
        let raw ← setAt raw n c
        quoted_into q raw (n + 1) rest

theorem quoted_into_length {q : UInt8} {raw raw' rest after : Bytes} {n n' : Nat}
    (h : quoted_into q raw n rest = .ok (raw', n', after)) : after.length ≤ rest.length := by
  fun_induction quoted_into q raw n rest with
  | case1 => cases h; exact Nat.le_refl _
  | case2 => cases h; exact Nat.le_refl _
  | case3 raw n d rest hgo hd ih =>
    obtain ⟨raw1, -, h⟩ := bind_eq_ok.mp h
    have := ih raw1 h
    simp only [List.length_cons]
    omega
  | case4 raw n d rest hgo hd ih =>
    obtain ⟨raw1, -, h⟩ := bind_eq_ok.mp h
    have := ih raw1 h
    simp only [List.length_cons] at this ⊢
    omega
  | case5 raw n c rest hplain hgo ih =>
    obtain ⟨raw1, -, h⟩ := bind_eq_ok.mp h
    have := ih raw1 h
    simp only [List.length_cons]
    omega

/-- The loop over a word. -/
def word_into (raw : Bytes) (n : Nat) (rest : Bytes) : Checked (Bytes × Nat × Bytes) :=
  match rest with
  | [] => .ok (raw, n, [])
  | c :: rest =>
    if ends_word c then .ok (raw, n, c :: rest)
    else if c = 34 ∨ c = 39 then
      match _ : quoted_into c raw n rest with
      | .error fault => .error fault
      | .ok (raw, n, after) => word_into raw n (if after.head? = some c then after.tail else after)
    else
      match c, rest with
      | 92, d :: rest => do
        let raw ← setAt raw n d
        word_into raw (n + 1) rest
      | c, rest =>
        if n < MAX_WORD - 1 then do
          let raw ← setAt raw n c
          word_into raw (n + 1) rest
        else word_into raw n rest
termination_by rest.length
decreasing_by
  · rename_i hquoted
    have := quoted_into_length hquoted
    rw [List.length_cons]
    split
    · rw [List.length_tail]
      omega
    · omega
  · simp only [List.length_cons]
    omega
  · simp
  · simp

/-- The string that `char name[256]` holds. -/
def name_buffer (text : Bytes) : Checked Bytes := do
  let name ← spliceAt (List.replicate 256 0) 0 text
  let name ← setAt name text.length 0
  return cstring name

/-- The name after a dollar and what follows it, or `none` for a dollar that stands for itself. -/
def name_into (rest : Bytes) : Checked (Option (Bytes × Bytes)) :=
  if rest.head? = some 123 then do
    let text := (rest.tail.takeWhile (· ≠ 125)).take 255
    let after := rest.tail.drop text.length
    let name ← name_buffer text
    return some (name, if after.head? = some 125 then after.tail else after)
  else if rest.head? = some 63 then do
    let name ← name_buffer [63]
    return some (name, rest.tail)
  else
    let text := rest.takeWhile (fun c => isalnum c || c = 95)
    if text = [] then .ok none
    else do
      let name ← name_buffer text
      return some (name, rest.drop text.length)

theorem name_into_length {rest name after : Bytes} (h : name_into rest = .ok (some (name, after))) :
    after.length ≤ rest.length := by
  unfold name_into at h
  split at h
  · obtain ⟨name', -, h⟩ := bind_eq_ok.mp h
    cases h
    split <;> simp only [List.length_tail, List.length_drop] <;> omega
  · split at h
    · obtain ⟨name', -, h⟩ := bind_eq_ok.mp h
      cases h
      simp
    · dsimp only at h
      split at h
      · cases h
      · obtain ⟨name', -, h⟩ := bind_eq_ok.mp h
        cases h
        simp

/-- The loop of `expand`: `out`, and how many bytes stand in it. -/
def expand_from (sh : Shell) (cap : Nat) (out : Bytes) (n : Nat) (input : Bytes) : Checked (Bytes × Nat) :=
  match input with
  | [] => .ok (out, n)
  | c :: rest =>
    if cap ≤ n + 1 then .ok (out, n)
    else if c ≠ 36 then do
      let out ← setAt out n c
      expand_from sh cap out (n + 1) rest
    else
      match _ : name_into rest with
      | .error fault => .error fault
      | .ok none => do
        let out ← setAt out n 36
        expand_from sh cap out (n + 1) rest
      | .ok (some (name, after)) => do
        let v := sh.value name
        let l := if cap ≤ n + v.length then cap - n - 1 else v.length
        let out ← spliceAt out n (v.take l)
        expand_from sh cap out (n + l) after
termination_by input.length
decreasing_by
  · simp
  · simp
  · rename_i hname
    have := name_into_length hname
    simp only [List.length_cons]
    omega

/-- `expand(in, out, cap)`. -/
def expand_into (sh : Shell) (input out : Bytes) (cap : Nat) : Checked Bytes := do
  let (out, n) ← expand_from sh cap out 0 input
  setAt out n 0

/-- `next`: the kind of the token, its text as a buffer, and what is left of the line. -/
def next_into (sh : Shell) (text rest : Bytes) : Checked (token_kind × Bytes × Bytes) :=
  match rest.dropWhile (fun c => isspace c && c ≠ 10) with
  | [] => do
    let text ← setAt text 0 0
    return (.T_END, text, [])
  | c :: rest =>
    if c = 10 then do
      let text ← setAt text 0 0
      return (.T_END, text, c :: rest)
    else if c = 124 then .ok (.T_PIPE, text, rest)
    else if c = 59 then .ok (.T_SEMI, text, rest)
    else if c = 60 then .ok (.T_IN, text, rest)
    else if c = 62 then
      if rest.head? = some 62 then .ok (.T_APPEND, text, rest.tail) else .ok (.T_OUT, text, rest)
    else do
      let (raw, n, after) ← word_into (List.replicate MAX_WORD 0) 0 (c :: rest)
      let raw ← setAt raw n 0
      let text ← expand_into sh (cstring raw) text MAX_WORD
      return (.T_WORD, text, after)

/-! ## What a word leaves in `raw` -/

/-- The bytes that a word puts into `raw` while this room is left in it, and what stands behind them
in the line. -/
def fill (room : Nat) (rest : Bytes) : Bytes × Bytes :=
  match room, rest with
  | 0, rest => ([], rest)
  | _ + 1, [] => ([], [])
  | room + 1, c :: rest =>
    if ends_word c then ([], c :: rest)
    else if c = 34 ∨ c = 39 then
      let quoted := script.string_loop c room rest
      let after := if quoted.2.head? = some c then quoted.2.tail else quoted.2
      let filled := fill (room + 1 - quoted.1.length) after
      (quoted.1 ++ filled.1, filled.2)
    else
      match c, rest with
      | 92, d :: rest => (d :: (fill room rest).1, (fill room rest).2)
      | c, rest => (c :: (fill room rest).1, (fill room rest).2)
termination_by rest.length
decreasing_by
  · have := script.string_loop_length c room rest
    rw [List.length_cons]
    split
    · rw [List.length_tail]
      omega
    · omega
  · simp only [List.length_cons]
    omega
  · simp

/-- A backslash with a byte behind it stands in the rest of the word. -/
def Escapes (left : Bytes) : Prop :=
  ∃ before d after, left = before ++ 92 :: d :: after ∧ ∀ c ∈ before, ends_word c = false

theorem escapes_cons {c : UInt8} {rest : Bytes} (hc : ends_word c = false) (hplain : c = 92 → rest = []) :
    Escapes (c :: rest) ↔ Escapes rest := by
  constructor
  · rintro ⟨before, d, after, hsplit, hbefore⟩
    cases before with
    | nil =>
      rw [List.nil_append, List.cons.injEq] at hsplit
      rw [hplain hsplit.1] at hsplit
      cases hsplit.2
    | cons b before =>
      rw [List.cons_append, List.cons.injEq] at hsplit
      exact ⟨before, d, after, hsplit.2, fun x hx => hbefore x (List.mem_cons_of_mem _ hx)⟩
  · rintro ⟨before, d, after, rfl, hbefore⟩
    refine ⟨c :: before, d, after, rfl, fun x hx => ?_⟩
    rcases List.mem_cons.mp hx with rfl | hx
    · exact hc
    · exact hbefore x hx

theorem not_escapes_of_ends {c : UInt8} {rest : Bytes} (hc : ends_word c = true) : ¬ Escapes (c :: rest) := by
  rintro ⟨before, d, after, hsplit, hbefore⟩
  cases before with
  | nil =>
    rw [List.nil_append, List.cons.injEq] at hsplit
    rw [hsplit.1] at hc
    exact absurd hc (by decide)
  | cons b before =>
    rw [List.cons_append, List.cons.injEq] at hsplit
    rw [hsplit.1, hbefore b List.mem_cons_self] at hc
    cases hc

theorem bind_pair (x : Checked (Bytes × Bytes)) : (x >>= fun r => pure (r.1, r.2)) = x := bind_pure x

/-- Behind a full `raw` the loop stores escaped bytes only. -/
theorem raw_loop_full (left : Bytes) :
    (¬ Escapes left → ∃ after, raw_loop (MAX_WORD - 1) left = .ok ([], after)) ∧
      (Escapes left → ∀ raw after, raw_loop (MAX_WORD - 1) left = .ok (raw, after) → raw ≠ []) := by
  induction hk : left.length using Nat.strong_induction_on generalizing left with
  | _ k ih =>
    cases left with
    | nil =>
      refine ⟨fun _ => ⟨[], by rw [raw_loop]⟩, ?_⟩
      rintro ⟨before, d, after, hsplit, -⟩
      simp at hsplit
    | cons c rest =>
      rw [List.length_cons] at hk
      unfold raw_loop
      by_cases hends : ends_word c = true
      · rw [if_pos hends]
        exact ⟨fun _ => ⟨_, rfl⟩, fun hescapes => absurd hescapes (not_escapes_of_ends hends)⟩
      rw [if_neg hends]
      rw [Bool.not_eq_true] at hends
      by_cases hquote : c = 34 ∨ c = 39
      · -- the loop over the quoted part does not turn
        have hslash : c ≠ 92 := by rcases hquote with rfl | rfl <;> decide
        rw [if_pos hquote, escapes_cons hends fun hc => absurd hc hslash]
        simp only [show MAX_WORD - 2 - (MAX_WORD - 1) = 0 from rfl, script.string_loop, List.length_nil,
          Nat.add_zero, List.nil_append, bind_pair]
        by_cases hclosed : rest.head? = some c
        · obtain ⟨tail, rfl⟩ : ∃ tail, rest = c :: tail := List.head?_eq_some_iff.mp hclosed
          rw [if_pos hclosed, List.tail_cons, escapes_cons hends fun hc => absurd hc hslash]
          have hrest := ih tail.length (by rw [← hk, List.length_cons]; omega) tail rfl
          exact hrest
        · rw [if_neg hclosed]
          have hrest := ih rest.length (by omega) rest rfl
          exact hrest
      rw [if_neg hquote]
      split
      · rename_i d tail
        refine ⟨fun hno => absurd ⟨[], d, tail, rfl, by simp⟩ hno, fun _ raw after hloop => ?_⟩
        obtain ⟨_, -, hloop⟩ := bind_eq_ok.mp hloop
        obtain ⟨⟨raw', after'⟩, -, hloop⟩ := bind_eq_ok.mp hloop
        cases hloop
        exact List.cons_ne_nil _ _
      · rename_i hplain
        rw [if_neg (by decide), escapes_cons hends]
        · exact ih rest.length (by omega) rest rfl
        · intro hc
          cases rest with
          | nil => rfl
          | cons d tail => exact absurd rfl (hplain d tail hc)

/-- The loop over a word first fills `raw` and then goes on behind it. -/
theorem raw_loop_fill {n room : Nat} (rest : Bytes) (hroom : n + room = MAX_WORD - 1) :
    raw_loop n rest = do
      let r ← raw_loop (MAX_WORD - 1) (fill room rest).2
      return ((fill room rest).1 ++ r.1, r.2) := by
  fun_induction fill room rest generalizing n with
  | case1 rest =>
    rw [Nat.add_zero] at hroom
    rw [hroom]
    exact (bind_pair _).symm
  | case2 room =>
    rw [raw_loop, raw_loop]
    rfl
  | case3 room c rest hends =>
    unfold raw_loop
    rw [if_pos hends, if_pos hends]
    rfl
  | case4 room c rest hends hquote quoted after filled =>
    rename_i ih
    have hlength : quoted.1.length ≤ room := script.string_loop_text_length c room rest
    have hloop := @ih (n + quoted.1.length) (by omega)
    rw [raw_loop.eq_def]
    dsimp only
    rw [if_neg hends, if_pos hquote, show MAX_WORD - 2 - n = room by omega]
    change (do
      let r ← raw_loop (n + quoted.1.length) (if quoted.2.head? = some c then quoted.2.tail else quoted.2)
      return (quoted.1 ++ r.1, r.2)) = _
    simp only [after, dite_eq_ite] at hloop
    rw [hloop]
    simp only [bind_assoc, pure_bind, List.append_assoc, filled, after, dite_eq_ite]
  | case5 room d rest hends hquote ih =>
    have hroom' : n < MAX_WORD := by omega
    rw [raw_loop, if_neg hends, if_neg hquote, raw_store, if_pos hroom', ok_bind, ih (by omega)]
    simp only [bind_assoc, pure_bind, List.cons_append]
  | case6 room c rest hplain hends hquote ih =>
    have hroom' : n < MAX_WORD - 1 := by omega
    rw [raw_loop, if_neg hends, if_neg hquote, if_pos hroom', ih (by omega)]
    · simp only [bind_assoc, pure_bind, List.cons_append]
    · exact hplain

theorem fill_bytes (room : Nat) (rest : Bytes) : ∀ b ∈ (fill room rest).1, b ∈ rest := by
  fun_induction fill room rest with
  | case1 rest => simp
  | case2 room => simp
  | case3 room c rest hends => simp
  | case4 room c rest hends hquote quoted after filled ih =>
    have hbytes := script.string_loop_bytes c room rest
    have hafter : ∀ b ∈ after, b ∈ rest := by
      intro b hb
      apply hbytes.2
      simp only [after, dite_eq_ite] at hb
      split at hb
      · exact List.mem_of_mem_tail hb
      · exact hb
    intro b hb
    apply List.mem_cons_of_mem
    rcases List.mem_append.mp hb with hb | hb
    · exact hbytes.1 b hb
    · exact hafter b (ih b hb)
  | case5 room d rest hends hquote ih =>
    simp only [List.mem_cons]
    exact fun b hb => .inr (hb.imp_right (ih b))
  | case6 room c rest hplain hends hquote ih =>
    simp only [List.mem_cons]
    exact fun b hb => hb.imp_right (ih b)

/-- The loop stops with a full `raw`, or at the end of the word. -/
theorem fill_stops (room : Nat) (rest : Bytes) :
    (fill room rest).1.length ≤ room ∧
      (Escapes (fill room rest).2 → (fill room rest).1.length = room) := by
  fun_induction fill room rest with
  | case1 rest => simp
  | case2 room =>
    refine ⟨Nat.zero_le _, ?_⟩
    rintro ⟨before, d, after, hsplit, -⟩
    simp at hsplit
  | case3 room c rest hends =>
    exact ⟨Nat.zero_le _, fun hescapes => absurd hescapes (not_escapes_of_ends hends)⟩
  | case4 room c rest hends hquote quoted after filled ih =>
    have hlength : quoted.1.length ≤ room := script.string_loop_text_length c room rest
    have hfilled : filled.1.length ≤ room + 1 - quoted.1.length ∧
        (Escapes filled.2 → filled.1.length = room + 1 - quoted.1.length) := ih
    simp only [List.length_append]
    refine ⟨by omega, fun hescapes => ?_⟩
    have := hfilled.2 hescapes
    omega
  | case5 room d rest hends hquote ih =>
    simp only [List.length_cons]
    exact ⟨by omega, fun hescapes => by rw [ih.2 hescapes]⟩
  | case6 room c rest hplain hends hquote ih =>
    simp only [List.length_cons]
    exact ⟨by omega, fun hescapes => by rw [ih.2 hescapes]⟩

/-- What becomes of a word: it is stored and ended with a NUL inside of `raw` when no byte is escaped
behind the full `raw`, and only then. -/
theorem raw_word (w : Bytes) :
    (¬ Escapes (fill (MAX_WORD - 1) w).2 →
        ∃ after, raw_loop 0 w = .ok ((fill (MAX_WORD - 1) w).1, after)) ∧
      (Escapes (fill (MAX_WORD - 1) w).2 →
        ∀ raw after, raw_loop 0 w = .ok (raw, after) → MAX_WORD ≤ raw.length) := by
  have hloop := @raw_loop_fill 0 (MAX_WORD - 1) w (Nat.zero_add _)
  have hfull := raw_loop_full (fill (MAX_WORD - 1) w).2
  constructor
  · intro hno
    obtain ⟨after, hafter⟩ := hfull.1 hno
    refine ⟨after, ?_⟩
    rw [hloop, hafter, ok_bind, List.append_nil]
    rfl
  · intro hescapes raw after hraw
    rw [hloop] at hraw
    obtain ⟨⟨more, after'⟩, hmore, hraw⟩ := bind_eq_ok.mp hraw
    cases hraw
    have hne := List.length_pos_iff.mpr (hfull.2 hescapes more after' hmore)
    have hlength := (fill_stops (MAX_WORD - 1) w).2 hescapes
    have hsize : MAX_WORD = 4096 := rfl
    dsimp only
    rw [List.length_append, hlength]
    omega

/-! ## The buffers hold what the tokens tell -/

/-- The loop over a quoted part stores what `string_loop` reads, inside of `raw`. -/
theorem quoted_into_eq (q : UInt8) {raw : Bytes} {n : Nat} (rest : Bytes) (hraw : raw.length = MAX_WORD) :
    quoted_into q raw n rest =
      .ok (splice raw n (script.string_loop q (MAX_WORD - 2 - n) rest).1,
        n + (script.string_loop q (MAX_WORD - 2 - n) rest).1.length,
        (script.string_loop q (MAX_WORD - 2 - n) rest).2) := by
  have hsize : MAX_WORD = 4096 := rfl
  fun_induction quoted_into q raw n rest with
  | case1 raw n =>
    cases MAX_WORD - 2 - n <;> simp [script.string_loop, splice_nil]
  | case2 raw n c rest hstop =>
    rcases Nat.eq_zero_or_pos (MAX_WORD - 2 - n) with hroom | hroom
    · rw [hroom]
      simp [script.string_loop, splice_nil]
    · obtain ⟨room, hroom⟩ : ∃ room, MAX_WORD - 2 - n = room + 1 := ⟨MAX_WORD - 3 - n, by omega⟩
      have hstop : c = 0 ∨ c = q := by
        rcases hstop with h | h | h
        · exact .inl h
        · exact .inr h
        · omega
      rw [hroom, script.string_loop.eq_def]
      simp [hstop, splice_nil]
  | case3 raw n d rest hd hgo ih =>
    simp only [not_or] at hgo
    obtain ⟨hset, hlength, hthen⟩ := setAt_then (b := raw) (n := n) d (by omega)
    have hroom : MAX_WORD - 2 - n = MAX_WORD - 2 - (n + 1) + 1 := by omega
    rw [hset, ok_bind, ih _ (hlength.trans hraw), hthen, hroom,
      script.string_loop_escaped (Ne.symm hgo.2.1) hd, List.length_cons, Nat.add_right_comm, Nat.add_assoc]
  | case4 raw n d rest hd hgo ih =>
    simp only [not_or] at hgo
    obtain ⟨hset, hlength, hthen⟩ := setAt_then (b := raw) (n := n) 92 (by omega)
    have hroom : MAX_WORD - 2 - n = MAX_WORD - 2 - (n + 1) + 1 := by omega
    rw [hset, ok_bind, ih _ (hlength.trans hraw), hthen, hroom, script.string_loop_byte hgo.1 hgo.2.1,
      List.length_cons, Nat.add_right_comm, Nat.add_assoc]
    rintro ⟨-, d', more, hsplit, hd'⟩
    cases hsplit
    exact hd hd'
  | case5 raw n c rest hplain hgo ih =>
    simp only [not_or] at hgo
    obtain ⟨hset, hlength, hthen⟩ := setAt_then (b := raw) (n := n) c (by omega)
    have hroom : MAX_WORD - 2 - n = MAX_WORD - 2 - (n + 1) + 1 := by omega
    rw [hset, ok_bind, ih _ (hlength.trans hraw), hthen, hroom, script.string_loop_byte hgo.1 hgo.2.1,
      List.length_cons, Nat.add_right_comm, Nat.add_assoc]
    rintro ⟨hc, d', more, hsplit, -⟩
    exact hplain d' more hc hsplit

/-- What `word_into` leaves in `raw` is what `raw_loop` tells. -/
theorem word_into_eq {raw : Bytes} {n : Nat} (rest : Bytes) (hraw : raw.length = MAX_WORD) (hn : n ≤ MAX_WORD) :
    word_into raw n rest = do
      let r ← raw_loop n rest
      return (splice raw n r.1, n + r.1.length, r.2) := by
  have hsize : MAX_WORD = 4096 := rfl
  induction hk : rest.length using Nat.strong_induction_on generalizing raw n rest with
  | _ k ih =>
    cases rest with
    | nil =>
      rw [word_into, raw_loop, ok_bind]
      simp [splice_nil]
    | cons c rest =>
      rw [List.length_cons] at hk
      by_cases hends : ends_word c = true
      · unfold word_into raw_loop
        rw [if_pos hends, if_pos hends]
        simp [splice_nil]
      by_cases hquote : c = 34 ∨ c = 39
      · unfold word_into raw_loop
        rw [if_neg hends, if_neg hends, if_pos hquote, if_pos hquote]
        have hquoted := quoted_into_eq c (n := n) rest hraw
        have hlength := script.string_loop_text_length c (MAX_WORD - 2 - n) rest
        have hshort := script.string_loop_length c (MAX_WORD - 2 - n) rest
        generalize script.string_loop c (MAX_WORD - 2 - n) rest = quoted at hquoted hlength hshort ⊢
        obtain ⟨text, after⟩ := quoted
        dsimp only at hquoted hlength hshort ⊢
        split
        · rename_i fault hfault
          rw [hquoted] at hfault
          cases hfault
        · rename_i raw' n' after' hok
          rw [hquoted] at hok
          cases hok
          have hclose : (if after.head? = some c then after.tail else after).length < k := by
            split
            · rw [List.length_tail]
              omega
            · omega
          have hlen : (splice raw n text).length = MAX_WORD := by
            rw [splice_length (by omega), hraw]
          rw [ih _ hclose _ hlen (by omega) rfl]
          simp only [bind_assoc, pure_bind, splice_splice (show n ≤ raw.length by omega), List.length_append,
            Nat.add_assoc]
      by_cases hplain : ∀ d tail, c = 92 → rest = d :: tail → False
      · rw [word_into, raw_loop, if_neg hends, if_neg hends, if_neg hquote, if_neg hquote]
        · by_cases hroom : n < MAX_WORD - 1
          · obtain ⟨hset, hlength, hthen⟩ := setAt_then (b := raw) (n := n) c (by omega)
            rw [if_pos hroom, if_pos hroom, hset, ok_bind,
              ih rest.length (by omega) rest (hlength.trans hraw) (by omega) rfl]
            simp only [bind_assoc, pure_bind, hthen, List.length_cons, Nat.add_assoc, Nat.add_comm 1]
          · rw [if_neg hroom, if_neg hroom]
            exact ih rest.length (by omega) rest hraw hn rfl
        · exact hplain
        · exact hplain
      · simp only [not_forall, not_false_eq_true, exists_prop, and_true, exists_and_left] at hplain
        obtain ⟨rfl, d, tail, rfl⟩ := hplain
        rw [List.length_cons] at hk
        rw [word_into, raw_loop, if_neg hends, if_neg hends, if_neg hquote, if_neg hquote]
        by_cases hroom : n < MAX_WORD
        · obtain ⟨hset, hlength, hthen⟩ := setAt_then (b := raw) (n := n) d (by omega)
          rw [hset, ok_bind, ih tail.length (by omega) tail (hlength.trans hraw) (by omega) rfl, raw_store,
            if_pos hroom]
          simp only [ok_bind, bind_assoc, pure_bind, hthen, List.length_cons, Nat.add_assoc,
            Nat.add_comm 1]
        · rw [setAt, if_neg (by omega), raw_store, if_neg hroom, hraw]
          rfl

theorem name_buffer_eq {text : Bytes} (h0 : 0 ∉ text) :
    name_buffer text = if text.length < 256 then .ok text else .error (.bounds text.length 256) := by
  unfold name_buffer
  by_cases hfits : text.length < 256
  · obtain ⟨copied, hcopy, hset⟩ := @copy_string (List.replicate 256 0) text (by rwa [List.length_replicate])
    rw [if_pos hfits, hcopy, ok_bind, hset, ok_bind, pure_eq_ok, cstring_splice h0]
  · rw [if_neg hfits]
    by_cases hlast : text.length = 256
    · have hsize : 0 + text.length ≤ (List.replicate 256 (0 : UInt8)).length := by
        rw [List.length_replicate]
        omega
      have hlen := splice_length hsize
      rw [List.length_replicate] at hlen
      rw [spliceAt_eq hsize, ok_bind, setAt, if_neg (by omega), hlen]
      rfl
    · rw [spliceAt, List.length_replicate, if_neg (by omega), Nat.zero_add]
      rfl

theorem name_into_eq {rest : Bytes} (h0 : 0 ∉ rest) : name_into rest = name_of rest := by
  unfold name_into name_of
  by_cases hbrace : rest.head? = some 123
  · have htext : 0 ∉ (rest.tail.takeWhile (· ≠ 125)).take 255 := fun h =>
      h0 (List.mem_of_mem_tail ((List.takeWhile_prefix _).mem (List.mem_of_mem_take h)))
    have hlength := List.length_take_le 255 (rest.tail.takeWhile (· ≠ 125))
    rw [if_pos hbrace, if_pos hbrace]
    dsimp only
    rw [name_buffer_eq htext, if_pos (by omega), ok_bind]
    rfl
  · rw [if_neg hbrace, if_neg hbrace]
    by_cases hstatus : rest.head? = some 63
    · rw [if_pos hstatus, if_pos hstatus, name_buffer_eq (by decide), if_pos (by decide), ok_bind]
      rfl
    · rw [if_neg hstatus, if_neg hstatus]
      have htext : 0 ∉ rest.takeWhile (fun c => isalnum c || c = 95) := fun h =>
        h0 ((List.takeWhile_prefix _).mem h)
      dsimp only
      rw [name_buffer_eq htext]
      split
      · rfl
      · split <;> rfl

theorem expand_loop_length {sh : Shell} {room : Nat} {input text : Bytes}
    (h : expand_loop sh room input = .ok text) : text.length ≤ room := by
  fun_induction expand_loop sh room input generalizing text with
  | case1 room => cases h; simp
  | case2 c rest => cases h; simp
  | case3 room c rest hroom hc ih =>
    obtain ⟨more, hmore, h⟩ := bind_eq_ok.mp h
    cases h
    have := ih hmore
    rw [List.length_cons]
    omega
  | case4 room c rest hroom hc fault hname => cases h
  | case5 room c rest hroom hc hname ih =>
    obtain ⟨more, hmore, h⟩ := bind_eq_ok.mp h
    cases h
    have := ih hmore
    rw [List.length_cons]
    omega
  | case6 room c rest hroom hc name after hname v =>
    rename_i ih
    obtain ⟨more, hmore, h⟩ := bind_eq_ok.mp h
    cases h
    have := ih hmore
    have hv : v.length ≤ room := List.length_take_le _ _
    rw [List.length_append]
    omega

theorem name_of_bytes {rest name after : Bytes} (h : name_of rest = .ok (some (name, after))) :
    ∀ b ∈ after, b ∈ rest := by
  unfold name_of at h
  split at h
  · cases h
    intro b hb
    split at hb
    · exact List.mem_of_mem_tail (List.mem_of_mem_drop (List.mem_of_mem_tail hb))
    · exact List.mem_of_mem_tail (List.mem_of_mem_drop hb)
  · split at h
    · cases h
      exact fun b hb => List.mem_of_mem_tail hb
    · dsimp only at h
      split at h
      · cases h
      · split at h
        · cases h
          exact fun b hb => List.mem_of_mem_drop hb
        · cases h

/-- A turn of `expand_loop` at a dollar. -/
theorem expand_loop_dollar (sh : Shell) {room : Nat} {rest : Bytes} (hroom : room ≠ 0) :
    expand_loop sh room (36 :: rest) =
      match name_of rest with
      | .error fault => .error fault
      | .ok none => do
        let text ← expand_loop sh (room - 1) rest
        return 36 :: text
      | .ok (some (name, after)) => do
        let text ← expand_loop sh (room - ((sh.value name).take room).length) after
        return (sh.value name).take room ++ text := by
  rw [expand_loop, if_neg hroom, if_neg (by decide)]
  split <;> simp_all

/-- The same turn with the buffers. -/
theorem expand_from_dollar (sh : Shell) {cap n : Nat} {out rest : Bytes} (hroom : ¬ cap ≤ n + 1) :
    expand_from sh cap out n (36 :: rest) =
      match name_into rest with
      | .ok none => do
        let out ← setAt out n 36
        expand_from sh cap out (n + 1) rest
      | .ok (some (name, after)) => do
        let v := sh.value name
        let l := if cap ≤ n + v.length then cap - n - 1 else v.length
        let out ← spliceAt out n (v.take l)
        expand_from sh cap out (n + l) after
      | .error fault => .error fault := by
  rw [expand_from, if_neg hroom, if_neg (by decide)]
  split <;> simp_all

/-- What `expand_from` leaves in `out` is what `expand_loop` tells. -/
theorem expand_from_eq (sh : Shell) {cap n : Nat} {out input : Bytes} (h0 : 0 ∉ input) (hn : n < cap)
    (hout : out.length = cap) :
    expand_from sh cap out n input = do
      let text ← expand_loop sh (cap - 1 - n) input
      return (splice out n text, n + text.length) := by
  induction hk : input.length using Nat.strong_induction_on generalizing out n input with
  | _ k ih =>
    cases input with
    | nil =>
      rw [expand_from, expand_loop, ok_bind]
      simp [splice_nil]
    | cons c rest =>
      rw [List.length_cons] at hk
      rw [List.mem_cons, not_or] at h0
      by_cases hfull : cap ≤ n + 1
      · rw [expand_from, if_pos hfull, expand_loop, if_pos (show cap - 1 - n = 0 by omega)]
        simp [splice_nil]
      by_cases hc : c ≠ 36
      · rw [expand_from, if_neg hfull, expand_loop, if_neg (show ¬ cap - 1 - n = 0 by omega), if_pos hc, if_pos hc]
        obtain ⟨hset, hlength, hthen⟩ := setAt_then (b := out) (n := n) c (by omega)
        rw [hset, ok_bind, ih rest.length (by omega) h0.2 (by omega) (hlength.trans hout) rfl,
          show cap - 1 - n - 1 = cap - 1 - (n + 1) by omega]
        simp only [bind_assoc, pure_bind, hthen, List.length_cons, Nat.add_assoc, Nat.add_comm 1]
      rw [not_not] at hc
      subst hc
      have hdollar := @expand_loop_dollar sh (cap - 1 - n) rest (by omega)
      have hfrom := @expand_from_dollar sh cap n out rest hfull
      rw [name_into_eq h0.2] at hfrom
      rw [hdollar, hfrom]
      cases hname : name_of rest with
      | error fault => rfl
      | ok found =>
        cases found with
        | none =>
          dsimp only
          obtain ⟨hset, hlength, hthen⟩ := setAt_then (b := out) (n := n) 36 (by omega)
          rw [hset, ok_bind, ih rest.length (by omega) h0.2 (by omega) (hlength.trans hout) rfl,
            show cap - 1 - n - 1 = cap - 1 - (n + 1) by omega]
          simp only [bind_assoc, pure_bind, hthen, List.length_cons, Nat.add_assoc, Nat.add_comm 1]
        | some found =>
          obtain ⟨name, after⟩ := found
          dsimp only
          have hafter : 0 ∉ after := fun h => h0.2 (name_of_bytes hname 0 h)
          have hshort := name_of_length hname
          generalize sh.value name = v
          have hv : v.take (v.take (cap - 1 - n)).length = v.take (cap - 1 - n) :=
            (List.prefix_iff_eq_take.mp (List.take_prefix _ v)).symm
          have hlength := List.length_take_le (cap - 1 - n) v
          rw [cut_length (by omega), hv, spliceAt_eq (by omega), ok_bind,
            ih after.length (by omega) hafter (by omega) (by rw [splice_length (by omega), hout]) rfl,
            show cap - 1 - n - (v.take (cap - 1 - n)).length = cap - 1 - (n + (v.take (cap - 1 - n)).length) by omega]
          simp only [bind_assoc, pure_bind, splice_splice (show n ≤ out.length by omega), List.length_append,
            Nat.add_assoc]

/-- What the loop over a word stores is in `raw`. -/
theorem raw_loop_bound {n : Nat} {rest raw after : Bytes} (hn : n ≤ MAX_WORD)
    (h : raw_loop n rest = .ok (raw, after)) : n + raw.length ≤ MAX_WORD := by
  fun_induction raw_loop n rest generalizing raw after with
  | case1 n =>
    cases h
    exact hn
  | case2 n c rest hends =>
    cases h
    exact hn
  | case3 n c rest hends hquote quoted =>
    rename_i ih
    obtain ⟨⟨more, last⟩, hmore, h⟩ := bind_eq_ok.mp h
    cases h
    have hlength : quoted.1.length ≤ MAX_WORD - 2 - n := script.string_loop_text_length _ _ _
    have := ih (by omega) hmore
    rw [List.length_append]
    omega
  | case4 n d rest hends hquote ih =>
    obtain ⟨_, hstore, h⟩ := bind_eq_ok.mp h
    obtain ⟨⟨more, last⟩, hmore, h⟩ := bind_eq_ok.mp h
    cases h
    have hroom : n < MAX_WORD := by
      by_contra hroom
      rw [raw_store, if_neg hroom] at hstore
      cases hstore
    have := ih (by omega) hmore
    rw [List.length_cons]
    omega
  | case5 n c rest hplain hends hquote hroom ih =>
    obtain ⟨⟨more, last⟩, hmore, h⟩ := bind_eq_ok.mp h
    cases h
    have := ih (by omega) hmore
    rw [List.length_cons]
    omega
  | case6 n c rest hplain hends hquote hroom ih => exact ih hn h

/-- The bytes that end up in `raw` are bytes of the line. -/
theorem raw_bytes {w raw after : Bytes} (h : raw_loop 0 w = .ok (raw, after)) (hfits : raw.length < MAX_WORD) :
    ¬ Escapes (fill (MAX_WORD - 1) w).2 ∧ raw = (fill (MAX_WORD - 1) w).1 := by
  have hno : ¬ Escapes (fill (MAX_WORD - 1) w).2 := by
    intro hescapes
    exact absurd ((raw_word w).2 hescapes raw after h) (Nat.not_le_of_lt hfits)
  obtain ⟨after', hloop⟩ := (raw_word w).1 hno
  rw [h] at hloop
  cases hloop
  exact ⟨hno, rfl⟩

/-- How the buffer of a token holds it. -/
def kept (text : Bytes) (t : token) : Bytes :=
  match t.kind with
  | .T_WORD => splice text 0 (t.text ++ [0])
  | .T_END => splice text 0 [0]
  | _ => text

/-- `next_into` reads the token of `next`, and leaves it in its buffer. -/
theorem next_into_eq (sh : Shell) {text rest : Bytes} (htext : text.length = MAX_WORD) (h0 : 0 ∉ rest) :
    next_into sh text rest = do
      let p ← next sh rest
      return (p.token.kind, kept text p.token, p.rest) := by
  have hsize : MAX_WORD = 4096 := rfl
  obtain ⟨hend, -, -⟩ := setAt_then (b := text) (n := 0) 0 (by omega)
  have hw : ∀ b ∈ rest.dropWhile (fun c => isspace c && c ≠ 10), b ∈ rest :=
    fun b hb => (List.dropWhile_suffix _).mem hb
  unfold next_into next
  cases hdrop : rest.dropWhile (fun c => isspace c && c ≠ 10) with
  | nil =>
    rw [hend]
    rfl
  | cons c rest' =>
  rw [hdrop] at hw
  dsimp only
  by_cases h10 : c = 10
  · rw [if_pos h10, if_pos h10, hend]
    rfl
  rw [if_neg h10, if_neg h10]
  by_cases h124 : c = 124
  · rw [if_pos h124, if_pos h124]
    rfl
  rw [if_neg h124, if_neg h124]
  by_cases h59 : c = 59
  · rw [if_pos h59, if_pos h59]
    rfl
  rw [if_neg h59, if_neg h59]
  by_cases h60 : c = 60
  · rw [if_pos h60, if_pos h60]
    rfl
  rw [if_neg h60, if_neg h60]
  by_cases h62 : c = 62
  · rw [if_pos h62, if_pos h62]
    split <;> rfl
  rw [if_neg h62, if_neg h62, word_into_eq _ List.length_replicate (Nat.zero_le _)]
  cases hraw : raw_loop 0 (c :: rest') with
  | error fault => rfl
  | ok r =>
    obtain ⟨raw, after⟩ := r
    simp only [ok_bind, pure_bind, Nat.zero_add]
    by_cases hfits : raw.length < MAX_WORD
    · have hlen : (splice (List.replicate MAX_WORD 0) 0 raw).length = MAX_WORD := by
        rw [splice_length (by rw [List.length_replicate]; omega), List.length_replicate]
      have hraw0 : 0 ∉ raw := by
        rw [(raw_bytes hraw hfits).2]
        exact fun h => h0 (hw 0 (fill_bytes _ _ 0 h))
      rw [setAt_eq _ (by omega), raw_store, if_pos hfits, ok_bind, ok_bind, set_eq_splice _ (by omega)]
      have hjoin := @splice_splice (List.replicate MAX_WORD 0) raw [0] 0 (Nat.zero_le _)
      rw [Nat.zero_add] at hjoin
      rw [hjoin, cstring_splice hraw0, expand_into, expand_from_eq sh hraw0 (by decide) htext, expand,
        Nat.sub_zero]
      cases hexpand : expand_loop sh (MAX_WORD - 1) raw with
      | error fault => rfl
      | ok t =>
        have hlength := expand_loop_length hexpand
        have hout : (splice text 0 t).length = MAX_WORD := by
          rw [splice_length (by omega), htext]
        have hjoin := @splice_splice text t [0] 0 (Nat.zero_le _)
        rw [Nat.zero_add] at hjoin
        simp only [ok_bind, pure_bind, Nat.zero_add]
        rw [setAt_eq _ (by omega), ok_bind, set_eq_splice _ (by omega), hjoin]
        rfl
    · have hbound := raw_loop_bound (Nat.zero_le _) hraw
      have hlen : (splice (List.replicate MAX_WORD 0) 0 raw).length = MAX_WORD := by
        rw [splice_length (by rw [List.length_replicate]; omega), List.length_replicate]
      rw [setAt, hlen, if_neg hfits, raw_store, if_neg hfits]
      rfl

/-! ## The names of a word -/

/-- The name after a dollar, how many bytes a bare name puts into its buffer, and what follows the
name; or `none` for a dollar that stands for itself. -/
def dollar (rest : Bytes) : Option (Bytes × Nat × Bytes) :=
  if rest.head? = some 123 then
    let name := (rest.tail.takeWhile (· ≠ 125)).take 255
    let after := rest.tail.drop name.length
    some (name, 0, if after.head? = some 125 then after.tail else after)
  else if rest.head? = some 63 then some ([63], 0, rest.tail)
  else
    let name := rest.takeWhile (fun c => isalnum c || c = 95)
    if name = [] then none else some (name, name.length, rest.drop name.length)

/-- The buffer of the name decides what becomes of it. -/
theorem name_of_eq (rest : Bytes) :
    name_of rest =
      match dollar rest with
      | none => .ok none
      | some (name, bare, after) =>
        if bare < 256 then .ok (some (name, after)) else .error (.bounds bare 256) := by
  unfold name_of dollar
  split
  · rfl
  split
  · rfl
  dsimp only
  split <;> rfl

theorem dollar_length {rest name after : Bytes} {bare : Nat} (h : dollar rest = some (name, bare, after)) :
    after.length ≤ rest.length := by
  unfold dollar at h
  split at h
  · cases h
    split <;> simp only [List.length_tail, List.length_drop] <;> omega
  split at h
  · cases h
    simp
  dsimp only at h
  split at h
  · cases h
  · cases h
    simp

/-- The pieces of the text that a word expands to, each with the bytes of its bare name. -/
def expansions (sh : Shell) (raw : Bytes) : List (Bytes × Nat) :=
  match raw with
  | [] => []
  | c :: rest =>
    if c ≠ 36 then ([c], 0) :: expansions sh rest
    else
      match _ : dollar rest with
      | none => ([36], 0) :: expansions sh rest
      | some (name, bare, after) => (sh.value name, bare) :: expansions sh after
termination_by raw.length
decreasing_by
  · simp
  · simp
  · rename_i hdollar
    have := dollar_length hdollar
    simp only [List.length_cons]
    omega

/-- A bare name of 256 bytes or more stands behind as much text as the token has room for. -/
def NamesFit (room : Nat) (pieces : List (Bytes × Nat)) : Prop :=
  ∀ before text bare after, pieces = before ++ (text, bare) :: after → 256 ≤ bare →
    room ≤ (before.map (fun piece => piece.1.length)).sum

theorem namesFit_cons {room : Nat} {text : Bytes} {bare : Nat} {pieces : List (Bytes × Nat)} :
    NamesFit room ((text, bare) :: pieces) ↔
      (256 ≤ bare → room = 0) ∧ NamesFit (room - text.length) pieces := by
  constructor
  · intro hfit
    refine ⟨fun hbare => ?_, fun before t b after hsplit hb => ?_⟩
    · simpa using hfit [] text bare pieces rfl hbare
    · have := hfit ((text, bare) :: before) t b after (by rw [hsplit]; rfl) hb
      rw [List.map_cons, List.sum_cons] at this
      dsimp only at this
      omega
  · rintro ⟨hfirst, hrest⟩ before t b after hsplit hb
    cases before with
    | nil =>
      cases hsplit
      rw [hfirst hb]
      exact Nat.zero_le _
    | cons piece before =>
      rw [List.cons_append, List.cons.injEq] at hsplit
      obtain ⟨rfl, hsplit⟩ := hsplit
      have := hrest before t b after hsplit hb
      rw [List.map_cons, List.sum_cons]
      dsimp only
      omega

theorem namesFit_zero (pieces : List (Bytes × Nat)) : NamesFit 0 pieces :=
  fun _ _ _ _ _ _ => Nat.zero_le _

theorem bind_return_ok_iff {x : Checked Bytes} {f : Bytes → Bytes} :
    (∃ text, (do let t ← x; return f t) = .ok text) ↔ ∃ t, x = .ok t := by
  cases x with
  | error fault => exact iff_of_false (fun ⟨_, h⟩ => by cases h) (fun ⟨_, h⟩ => by cases h)
  | ok t => exact iff_of_true ⟨_, rfl⟩ ⟨t, rfl⟩

/-- `expand` meets no name that is too long before its text is full, or it writes outside of the name. -/
theorem expand_loop_ok_iff (sh : Shell) (room : Nat) (raw : Bytes) :
    (∃ text, expand_loop sh room raw = .ok text) ↔ NamesFit room (expansions sh raw) := by
  induction hk : raw.length using Nat.strong_induction_on generalizing room raw with
  | _ k ih =>
    cases raw with
    | nil =>
      rw [expand_loop, expansions]
      refine iff_of_true ⟨[], rfl⟩ fun before text bare after hsplit _ => ?_
      simp at hsplit
    | cons c rest =>
      rw [List.length_cons] at hk
      by_cases hroom : room = 0
      · rw [expand_loop, if_pos hroom, hroom]
        exact iff_of_true ⟨[], rfl⟩ (namesFit_zero _)
      by_cases hc : c ≠ 36
      · rw [expand_loop, if_neg hroom, if_pos hc, expansions, if_pos hc, namesFit_cons]
        rw [bind_return_ok_iff, ih rest.length (by omega) (room - 1) rest rfl, List.length_singleton]
        exact (and_iff_right (by simp)).symm
      rw [not_not] at hc
      subst hc
      rw [expand_loop_dollar sh hroom, name_of_eq, expansions, if_neg (by decide)]
      cases hdollar : dollar rest with
      | none =>
        dsimp only
        rw [bind_return_ok_iff, ih rest.length (by omega) (room - 1) rest rfl, namesFit_cons,
          List.length_singleton]
        exact (and_iff_right (by simp)).symm
      | some found =>
        obtain ⟨name, bare, after⟩ := found
        have hshort := dollar_length hdollar
        dsimp only
        rw [namesFit_cons]
        by_cases hbare : bare < 256
        · rw [if_pos hbare]
          dsimp only
          rw [bind_return_ok_iff, ih after.length (by omega) _ after rfl, and_iff_right (fun h => by omega),
            List.length_take]
          rcases Nat.le_total room (sh.value name).length with hfull | hspace
          · rw [Nat.min_eq_left hfull, Nat.sub_self, Nat.sub_eq_zero_of_le hfull]
          · rw [Nat.min_eq_right hspace]
        · rw [if_neg hbare]
          refine iff_of_false ?_ fun h => hroom (h.1 (Nat.le_of_not_lt hbare))
          rintro ⟨_, h⟩
          cases h

/-! ## The law -/

/-- The word at the front of a text fits the buffers of the tokenizer: behind the 4095 bytes that
fill `raw` no backslash has a byte after it, and a bare name of 256 bytes or more stands behind
4095 bytes of expanded text. -/
structure WordFits (sh : Shell) (rest : Bytes) : Prop where
  escapes : ¬ Escapes (fill (MAX_WORD - 1) (rest.dropWhile (fun c => isspace c && c ≠ 10))).2
  names : NamesFit (MAX_WORD - 1)
    (expansions sh (fill (MAX_WORD - 1) (rest.dropWhile (fun c => isspace c && c ≠ 10))).1)

/-- Where no word stands, nothing is stored. -/
theorem fits_of_ends (sh : Shell) {w : Bytes} (hw : ∀ c ∈ w.head?, ends_word c = true) :
    ¬ Escapes (fill (MAX_WORD - 1) w).2 ∧ NamesFit (MAX_WORD - 1) (expansions sh (fill (MAX_WORD - 1) w).1) := by
  have hnames : NamesFit (MAX_WORD - 1) (expansions sh []) := by
    rw [expansions]
    intro before text bare after hsplit _
    simp at hsplit
  have hsize : MAX_WORD - 1 = 4094 + 1 := rfl
  cases w with
  | nil =>
    rw [hsize, fill]
    refine ⟨?_, hnames⟩
    rintro ⟨before, d, after, hsplit, -⟩
    simp at hsplit
  | cons c rest =>
    have hc : ends_word c = true := hw c rfl
    rw [hsize, fill.eq_def]
    dsimp only
    rw [if_pos hc]
    exact ⟨not_escapes_of_ends hc, hnames⟩

/-- `next` writes inside of its buffers exactly when the word fits them. -/
theorem next_ok_iff (sh : Shell) (rest : Bytes) : (∃ p, next sh rest = .ok p) ↔ WordFits sh rest := by
  have hfields : WordFits sh rest ↔
      ¬ Escapes (fill (MAX_WORD - 1) (rest.dropWhile (fun c => isspace c && c ≠ 10))).2 ∧
        NamesFit (MAX_WORD - 1)
          (expansions sh (fill (MAX_WORD - 1) (rest.dropWhile (fun c => isspace c && c ≠ 10))).1) :=
    ⟨fun h => ⟨h.escapes, h.names⟩, fun h => ⟨h.1, h.2⟩⟩
  rw [hfields]
  unfold next
  cases rest.dropWhile (fun c => isspace c && c ≠ 10) with
  | nil => exact iff_of_true ⟨_, rfl⟩ (fits_of_ends sh (by simp))
  | cons c w =>
    have hends : ends_word c = true → ¬ Escapes (fill (MAX_WORD - 1) (c :: w)).2 ∧
        NamesFit (MAX_WORD - 1) (expansions sh (fill (MAX_WORD - 1) (c :: w)).1) :=
      fun hc => fits_of_ends sh (by simpa using hc)
    dsimp only
    split
    · rename_i hc
      exact iff_of_true ⟨_, rfl⟩ (hends (by rw [hc]; rfl))
    split
    · rename_i hc
      exact iff_of_true ⟨_, rfl⟩ (hends (by rw [hc]; rfl))
    split
    · rename_i hc
      exact iff_of_true ⟨_, rfl⟩ (hends (by rw [hc]; rfl))
    split
    · rename_i hc
      exact iff_of_true ⟨_, rfl⟩ (hends (by rw [hc]; rfl))
    split
    · rename_i hc
      refine iff_of_true ?_ (hends (by rw [hc]; rfl))
      split <;> exact ⟨_, rfl⟩
    rw [← expand_loop_ok_iff]
    constructor
    · rintro ⟨p, hp⟩
      obtain ⟨⟨raw, after⟩, hraw, hp⟩ := bind_eq_ok.mp hp
      obtain ⟨_, hstore, hp⟩ := bind_eq_ok.mp hp
      obtain ⟨text, htext, -⟩ := bind_eq_ok.mp hp
      have hfits : raw.length < MAX_WORD := by
        by_contra hfits
        rw [raw_store, if_neg hfits] at hstore
        cases hstore
      obtain ⟨hno, hfill⟩ := raw_bytes hraw hfits
      exact ⟨hno, text, hfill ▸ htext⟩
    · rintro ⟨hno, text, htext⟩
      obtain ⟨after, hraw⟩ := (raw_word (c :: w)).1 hno
      have hlength := (fill_stops (MAX_WORD - 1) (c :: w)).1
      have hsize : MAX_WORD = 4096 := rfl
      refine ⟨⟨⟨.T_WORD, text⟩, after⟩, ?_⟩
      rw [hraw, ok_bind]
      dsimp only
      rw [raw_store, if_pos (by omega), ok_bind, expand, htext]
      rfl

theorem next_into_ok_iff (sh : Shell) {text rest : Bytes} (htext : text.length = MAX_WORD) (h0 : 0 ∉ rest) :
    (∃ r, next_into sh text rest = .ok r) ↔ WordFits sh rest := by
  rw [next_into_eq sh htext h0, ← next_ok_iff]
  cases next sh rest with
  | error fault => exact iff_of_false (fun ⟨_, h⟩ => by cases h) (fun ⟨_, h⟩ => by cases h)
  | ok p => exact iff_of_true ⟨_, rfl⟩ ⟨p, rfl⟩

/-- For every line, every environment and every place where `next` is called in the line: all its
writes, and those of `expand`, are inside of their buffers exactly when the word there fits them. -/
theorem the_tokenizer_stays_inside_iff (sh : Shell) (line text : Bytes) (pos : Nat)
    (htext : text.length = MAX_WORD) :
    (∃ r, next_into sh text ((cstring line).drop pos) = .ok r) ↔ WordFits sh ((cstring line).drop pos) := by
  apply next_into_ok_iff sh htext
  exact fun h => notMem_cstring line (List.mem_of_mem_drop h)

/-- The second word of a usual line. -/
theorem a_usual_word_stays_inside :
    ∃ r, next_into rootShell (List.replicate MAX_WORD 0) ((cstring (ascii "cat \"$HOME/a b\" | wc")).drop 3) =
      .ok r := by
  apply (the_tokenizer_stays_inside_iff rootShell (ascii "cat \"$HOME/a b\" | wc") (List.replicate MAX_WORD 0) 3
    List.length_replicate).mpr
  apply (next_ok_iff _ _).mp
  exact ⟨⟨⟨.T_WORD, ascii "/a b"⟩, ascii " | wc"⟩, by decide +kernel⟩

/-- Plain bytes fill `raw` as they are. -/
theorem fill_plain {plain : Bytes} (hplain : ∀ c ∈ plain, ends_word c = false ∧ c ≠ 34 ∧ c ≠ 39 ∧ c ≠ 92)
    (room : Nat) (rest : Bytes) :
    fill (plain.length + room) (plain ++ rest) = (plain ++ (fill room rest).1, (fill room rest).2) := by
  induction plain with
  | nil => simp
  | cons c plain ih =>
    obtain ⟨hends, h34, h39, h92⟩ := hplain c List.mem_cons_self
    have hrest := ih fun c hc => hplain c (List.mem_cons_of_mem _ hc)
    rw [List.length_cons, Nat.add_right_comm, List.cons_append, fill, if_neg (by simp [hends]),
      if_neg (by simp [h34, h39]), hrest]
    · rfl
    · exact fun d more hc => absurd hc h92

theorem dropWhile_of_word {c : UInt8} {w : Bytes} (hw : w.head? = some c) (hc : isspace c = false) :
    w.dropWhile (fun c => isspace c && c ≠ 10) = w := by
  obtain ⟨rest, rfl⟩ := List.head?_eq_some_iff.mp hw
  exact List.dropWhile_cons_of_neg (by simp [hc])

/-- A backslash with a byte behind it leaves `raw` after 4095 other bytes, and a bare name of 256
bytes leaves `name`. -/
theorem long_words_leave_their_buffers :
    (¬ ∃ r, next_into rootShell (List.replicate MAX_WORD 0)
        ((cstring (List.replicate 4095 97 ++ [92, 98])).drop 0) = .ok r) ∧
      ¬ ∃ r, next_into rootShell (List.replicate MAX_WORD 0)
        ((cstring (36 :: List.replicate 256 97)).drop 0) = .ok r := by
  have hplain : ∀ n, ∀ c ∈ List.replicate n (97 : UInt8),
      ends_word c = false ∧ c ≠ 34 ∧ c ≠ 39 ∧ c ≠ 92 := by
    intro n c hc
    rw [List.eq_of_mem_replicate hc]
    decide
  constructor
  · have h0 : (0 : UInt8) ∉ List.replicate 4095 97 ++ [92, 98] := by
      rw [List.mem_append, List.mem_replicate]
      decide
    rw [cstring_of_notMem h0, List.drop_zero, next_into_ok_iff _ List.length_replicate h0]
    intro hfits
    have hescapes := hfits.escapes
    rw [dropWhile_of_word (c := 97) (by rw [List.replicate_succ]; rfl) (by decide)] at hescapes
    have hfill := fill_plain (hplain 4095) 0 [92, 98]
    rw [List.length_replicate] at hfill
    rw [show MAX_WORD - 1 = 4095 + 0 from rfl, hfill, fill] at hescapes
    exact hescapes ⟨[], 98, [], rfl, by simp⟩
  · have h0 : (0 : UInt8) ∉ 36 :: List.replicate 256 97 := by
      rw [List.mem_cons, List.mem_replicate]
      decide
    rw [cstring_of_notMem h0, List.drop_zero, next_into_ok_iff _ List.length_replicate h0]
    intro hfits
    have hnames := hfits.names
    rw [dropWhile_of_word rfl (by decide)] at hnames
    have hfill := @fill_plain (36 :: List.replicate 256 97) (by
      intro c hc
      rcases List.mem_cons.mp hc with rfl | hc
      · decide
      · exact hplain 256 c hc) 3838 []
    rw [List.append_nil, List.length_cons, List.length_replicate, fill] at hfill
    have hname : dollar (List.replicate 256 97) = some (List.replicate 256 97, 256, []) := by
      decide +kernel
    rw [show MAX_WORD - 1 = 256 + 1 + 3838 from rfl, hfill, List.append_nil, expansions, if_neg (by decide)] at hnames
    split at hnames
    · rename_i hnone
      rw [hname] at hnone
      cases hnone
    · rename_i name bare after hsome
      rw [hname] at hsome
      cases hsome
      exact absurd (namesFit_cons.mp hnames).1 (by decide)

end mantle.shell
