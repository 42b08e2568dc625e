-- `interpolate` of `scripting/mantle-script.c` with its indices and its buffers:
-- it writes inside of its buffer only, and leaves there the longest prefix that
-- fits of the text with every marker replaced.
import MantleOS.ScriptHalts

open checked bytes ctext

namespace mantle.script

/-! ## The function with its buffers -/

/-- `in[i]`, with the NUL at the end of the string. -/
def charAt (input : Bytes) (i : Nat) : UInt8 := input.getD i 0

/-- `while (in[j] && in[j] != '}') j++`. -/
def key_end (input : Bytes) (j : Nat) : Nat :=
  j + ((input.drop j).takeWhile (fun c => c ≠ 0 && c ≠ 125)).length

/-- The string that `char key[64]` holds. -/
def key_buffer (text : Bytes) : Checked Bytes := do
  let key ← spliceAt (List.replicate 64 0) 0 text
  let key ← setAt key text.length 0
  return cstring key

/-- The loop of `interpolate`: where it ends in `out`, and `out` then. -/
def interpolate_from (get : Bytes → Option Bytes) (input : Bytes) (cap i n : Nat) (out : Bytes) :
    Checked (Nat × Bytes) :=
  if _ : charAt input i ≠ 0 ∧ n + 1 < cap then
    if charAt input i = 36 ∧ charAt input (i + 1) = 123 then do
      let j := key_end input (i + 2)
      let k := if 63 < j - (i + 2) then 63 else j - (i + 2)
      let key ← key_buffer (slice input (i + 2) k)
      let v := (get key).getD []
      let z := if cap ≤ n + v.length then cap - n - 1 else v.length
      let out ← spliceAt out n (v.take z)
      interpolate_from get input cap ((if charAt input j = 125 then j else i) + 1) (n + z) out
    else do
      let out ← setAt out n (charAt input i)
      interpolate_from get input cap (i + 1) (n + 1) out
  else .ok (n, out)
termination_by input.length - i
decreasing_by
  all_goals
    rename_i hgo _
    have hi : i < input.length := by
      by_contra hi
      exact hgo.1 (by simp [charAt, List.getElem?_eq_none (Nat.le_of_not_lt hi)])
  · split
    · have : i + 2 ≤ key_end input (i + 2) := Nat.le_add_right _ _
      omega
    · omega
  · omega

/-- `interpolate(in, out, cap)`, with a write outside of `out` as a fault. -/
def interpolate_into (get : Bytes → Option Bytes) (input : Bytes) (cap : Nat) (out : Bytes) :
    Checked Bytes := do
  let (n, out) ← interpolate_from get input cap 0 0 out
  setAt out n 0

/-! ## The text with its markers replaced -/

/-- Every `${key}` is replaced by the value of its key, from left to right, and every other byte is
copied. The values are not read again. -/
def substituted (get : Bytes → Option Bytes) : Bytes → Bytes
  | [] => []
  | c :: rest =>
    if c = 36 ∧ rest.head? = some 123 ∧ 125 ∈ rest then
      let key := rest.tail.takeWhile (· ≠ 125)
      (get key).getD [] ++ substituted get (rest.tail.drop (key.length + 1))
    else c :: substituted get rest
termination_by input => input.length
decreasing_by
  · simp only [List.length_cons, List.length_drop, List.length_tail]
    omega
  · simp

/-- Every `${` is closed by a later `}`, with a key of at most 63 bytes. -/
def MarkersClose (input : Bytes) : Prop :=
  ∀ before after, input = before ++ 36 :: 123 :: after →
    125 ∈ after ∧ (after.takeWhile (· ≠ 125)).length ≤ 63

theorem MarkersClose.suffix {input rest : Bytes} (h : MarkersClose input) (hrest : rest <:+ input) :
    MarkersClose rest := by
  obtain ⟨start, rfl⟩ := hrest
  intro before after hsplit
  apply h (start ++ before)
  rw [hsplit, List.append_assoc]

/-! ## The loop reads the list from its index on -/

theorem charAt_zero_of_end {input : Bytes} {i : Nat} (h : input.drop i = []) : charAt input i = 0 := by
  rw [List.drop_eq_nil_iff] at h
  simp [charAt, List.getElem?_eq_none h]

theorem charAt_of_drop {input rest : Bytes} {c : UInt8} {i : Nat} (h : input.drop i = c :: rest) :
    charAt input i = c ∧ input.drop (i + 1) = rest := by
  have hget : input[i]? = some c := by
    rw [← List.head?_drop, h]
    rfl
  refine ⟨by simp [charAt, hget], ?_⟩
  rw [← List.drop_drop, h]
  rfl

/-- The byte at an index, as the head of what is left there. -/
theorem charAt_eq_iff {input : Bytes} {i : Nat} {c : UInt8} (hc : c ≠ 0) :
    charAt input i = c ↔ (input.drop i).head? = some c := by
  rw [List.head?_drop, charAt, List.getD_eq_getElem?_getD]
  cases input[i]? with
  | none => simp [Ne.symm hc]
  | some b => simp

theorem key_end_eq {input : Bytes} (h0 : 0 ∉ input) (j : Nat) :
    key_end input j = j + ((input.drop j).takeWhile (· ≠ 125)).length := by
  have hsame : ∀ s : Bytes, 0 ∉ s →
      s.takeWhile (fun c => c ≠ 0 && c ≠ 125) = s.takeWhile (· ≠ 125) := by
    intro s hs
    induction s with
    | nil => rfl
    | cons c s ih =>
      rw [List.mem_cons, not_or] at hs
      have hc : c ≠ 0 := Ne.symm hs.1
      simp only [List.takeWhile_cons, ih hs.2]
      simp [hc]
  rw [key_end, hsame _ fun h => h0 (List.mem_of_mem_drop h)]

theorem key_buffer_eq {text : Bytes} (hlength : text.length ≤ 63) (h0 : 0 ∉ text) :
    key_buffer text = .ok text := by
  unfold key_buffer
  obtain ⟨copied, hcopy, hset⟩ := @copy_string (List.replicate 64 0) text (by rw [List.length_replicate]; omega)
  rw [hcopy, ok_bind, hset, ok_bind, pure_eq_ok, cstring_splice h0]

/-- A turn that copies a byte. -/
theorem interpolate_from_byte {get : Bytes → Option Bytes} {input rest : Bytes} {c : UInt8} {cap i n : Nat}
    {out : Bytes} (hdrop : input.drop i = c :: rest) (hc : c ≠ 0) (hroom : n + 1 < cap)
    (hmarker : ¬ (c = 36 ∧ rest.head? = some 123)) (hout : out.length = cap) :
    interpolate_from get input cap i n out =
      interpolate_from get input cap (i + 1) (n + 1) (splice out n [c]) := by
  obtain ⟨hchar, hrest⟩ := charAt_of_drop hdrop
  have hno : ¬ (charAt input i = 36 ∧ charAt input (i + 1) = 123) := by
    rwa [charAt_eq_iff (by decide : (123 : UInt8) ≠ 0), hrest, hchar]
  rw [interpolate_from, dif_pos ⟨hchar ▸ hc, hroom⟩, if_neg hno, setAt_eq _ (by omega), ok_bind,
    set_eq_splice _ (by omega), hchar]

/-- A turn that replaces a marker, or the start of one that is not closed. -/
theorem interpolate_from_marker {get : Bytes → Option Bytes} {input tail : Bytes} {cap i n : Nat}
    {out : Bytes} (h0 : 0 ∉ input) (hdrop : input.drop i = 36 :: 123 :: tail) (hroom : n + 1 < cap)
    (hout : out.length = cap) :
    let key := tail.takeWhile (· ≠ 125)
    let v := ((get (key.take 63)).getD []).take (cap - 1 - n)
    interpolate_from get input cap i n out =
      interpolate_from get input cap
        ((if (tail.drop key.length).head? = some 125 then i + 2 + key.length else i) + 1) (n + v.length)
        (splice out n v) := by
  intro key v
  obtain ⟨hchar, hrest⟩ := charAt_of_drop hdrop
  obtain ⟨hbrace, htail⟩ := charAt_of_drop hrest
  have hj : key_end input (i + 2) = i + 2 + key.length := by
    rw [key_end_eq h0, htail]
  have hkey : slice input (i + 2) (if 63 < key.length then 63 else key.length) = key.take 63 := by
    have hstarts : key = tail.take key.length :=
      List.prefix_iff_eq_take.mp (List.takeWhile_prefix _)
    rw [slice, htail]
    split
    · rw [hstarts, List.take_take, Nat.min_eq_left (by omega)]
    · rw [← hstarts, List.take_of_length_le (by omega)]
  have hkey0 : 0 ∉ key.take 63 := by
    intro hm
    have hin : 0 ∈ input.drop (i + 2) :=
      htail.symm ▸ (List.takeWhile_prefix _).mem (List.mem_of_mem_take hm)
    exact h0 (List.mem_of_mem_drop hin)
  have hclosed : charAt input (i + 2 + key.length) = 125 ↔ (tail.drop key.length).head? = some 125 := by
    rw [charAt_eq_iff (by decide), ← List.drop_drop, htail]
  have hv : ∀ value : Bytes, value.take (value.take (cap - 1 - n)).length = value.take (cap - 1 - n) :=
    fun value => (List.prefix_iff_eq_take.mp (List.take_prefix _ value)).symm
  have hfits : n + v.length ≤ out.length := by
    have : v.length ≤ cap - 1 - n := List.length_take_le _ _
    omega
  rw [interpolate_from, dif_pos ⟨by simp [hchar], hroom⟩, if_pos ⟨hchar, hbrace⟩]
  simp only [hj, Nat.add_sub_cancel_left, hkey]
  rw [key_buffer_eq (List.length_take_le _ _) hkey0, ok_bind, cut_length (by omega), hv, spliceAt_eq hfits, ok_bind]
  simp only [hclosed]
  rfl

theorem interpolate_loop_length (get : Bytes → Option Bytes) (room : Nat) (input : Bytes) :
    (interpolate_loop get room input).length ≤ room := by
  fun_induction interpolate_loop get room input with
  | case1 input => simp
  | case2 room => simp
  | case3 room c rest hmarker key after v ih =>
    have hv : v.length ≤ room + 1 := List.length_take_le _ _
    rw [List.length_append]
    simp only [dite_eq_ite] at ih
    omega
  | case4 room c rest hmarker ih =>
    rw [List.length_cons]
    omega

/-- The text of a marker, and what is read after it. -/
theorem interpolate_loop_marker (get : Bytes → Option Bytes) (room : Nat) (tail : Bytes) :
    let key := tail.takeWhile (· ≠ 125)
    let v := ((get (key.take 63)).getD []).take (room + 1)
    interpolate_loop get (room + 1) (36 :: 123 :: tail) =
      v ++ interpolate_loop get (room + 1 - v.length)
        (if (tail.drop key.length).head? = some 125 then (tail.drop key.length).tail else 123 :: tail) := by
  intro key v
  have hmarker : (36 : UInt8) = 36 ∧ (123 :: tail).head? = some (123 : UInt8) := ⟨rfl, rfl⟩
  rw [interpolate_loop, if_pos hmarker]
  rfl

/-- The loop adds the text of the list that is left to its buffer, and stays inside of it. -/
theorem interpolate_from_eq (get : Bytes → Option Bytes) {input : Bytes} (h0 : 0 ∉ input) {cap i n : Nat}
    {out : Bytes} (hn : n < cap) (hout : out.length = cap) :
    interpolate_from get input cap i n out =
      .ok (n + (interpolate_loop get (cap - 1 - n) (input.drop i)).length,
        splice out n (interpolate_loop get (cap - 1 - n) (input.drop i))) := by
  induction hk : input.length - i using Nat.strong_induction_on generalizing i n out with
  | _ k ih =>
    cases hdrop : input.drop i with
    | nil =>
      rw [interpolate_from, dif_neg fun h => h.1 (charAt_zero_of_end hdrop)]
      unfold interpolate_loop
      cases cap - 1 - n <;> simp [splice_nil]
    | cons c rest =>
      have hi : i < input.length := by
        by_contra hi
        rw [List.drop_of_length_le (Nat.le_of_not_lt hi)] at hdrop
        cases hdrop
      have hc : c ≠ 0 := by
        rintro rfl
        exact h0 (List.mem_of_mem_drop (hdrop ▸ List.mem_cons_self : 0 ∈ input.drop i))
      by_cases hroom : n + 1 < cap
      · obtain ⟨room, hleft⟩ : ∃ room, cap - 1 - n = room + 1 := ⟨cap - n - 2, by omega⟩
        by_cases hmarker : c = 36 ∧ rest.head? = some 123
        · obtain ⟨rfl, hhead⟩ := hmarker
          obtain ⟨tail, rfl⟩ : ∃ tail, rest = 123 :: tail := List.head?_eq_some_iff.mp hhead
          rw [interpolate_from_marker h0 hdrop hroom hout, hleft, interpolate_loop_marker]
          generalize hkey : tail.takeWhile (· ≠ 125) = key
          generalize hv : ((get (key.take 63)).getD []).take (room + 1) = v
          generalize hnext : (if (tail.drop key.length).head? = some 125 then i + 2 + key.length else i) + 1 = next
          have hvlen : v.length ≤ room + 1 := hv ▸ List.length_take_le _ _
          have hwritten : (splice out n v).length = cap := by
            rw [splice_length (by omega), hout]
          have hlist : input.drop next =
              if (tail.drop key.length).head? = some 125 then (tail.drop key.length).tail else 123 :: tail := by
            obtain ⟨-, hrest⟩ := charAt_of_drop hdrop
            obtain ⟨-, htail⟩ := charAt_of_drop hrest
            rw [← hnext]
            split
            · rw [← htail, List.drop_drop, List.tail_drop]
            · exact hrest
          have hpast : i < next := by
            rw [← hnext]
            split <;> omega
          rw [ih (input.length - next) (by omega) (by omega) hwritten rfl, hlist,
            show cap - 1 - (n + v.length) = room + 1 - v.length by omega, splice_splice (by omega),
            List.length_append, Nat.add_assoc]
        · have hrest : input.drop (i + 1) = rest := (charAt_of_drop hdrop).2
          have hsplice : (splice out n [c]).length = cap := by
            rw [splice_length (by rw [List.length_singleton]; omega), hout]
          rw [interpolate_from_byte hdrop hc hroom hmarker hout, hleft, interpolate_loop, if_neg hmarker,
            ih (input.length - (i + 1)) (by omega) (by omega) hsplice rfl, hrest,
            show cap - 1 - (n + 1) = room by omega]
          have hjoin := @splice_splice out [c] (interpolate_loop get room rest) n (by omega)
          rw [List.length_singleton] at hjoin
          rw [hjoin, List.singleton_append, List.length_cons, Nat.add_right_comm, Nat.add_assoc]
      · -- the buffer is full
        rw [interpolate_from, dif_neg fun h => hroom h.2, show cap - 1 - n = 0 by omega, interpolate_loop]
        simp [splice_nil]

/-- `interpolate` leaves in its buffer the text that `interpolate_loop` tells, with a NUL after it,
and nothing else is written. -/
theorem interpolate_into_eq (get : Bytes → Option Bytes) {input : Bytes} (h0 : 0 ∉ input) {cap : Nat}
    {out : Bytes} (hcap : 1 ≤ cap) (hout : out.length = cap) :
    interpolate_into get input cap out =
      .ok (splice out 0 (interpolate_loop get (cap - 1) input ++ [0])) := by
  have hlength := interpolate_loop_length get (cap - 1) input
  have hloop := interpolate_from_eq get h0 (i := 0) (n := 0) (by omega) hout
  rw [List.drop_zero, Nat.sub_zero, Nat.zero_add] at hloop
  have hwritten : (splice out 0 (interpolate_loop get (cap - 1) input)).length = cap := by
    rw [splice_length (by omega), hout]
  have hjoin := @splice_splice out (interpolate_loop get (cap - 1) input) [0] 0 (Nat.zero_le _)
  rw [Nat.zero_add] at hjoin
  unfold interpolate_into
  rw [hloop, ok_bind]
  dsimp only
  rw [setAt_eq _ (by omega), set_eq_splice _ (by omega), hjoin]

/-! ## The longest prefix that fits -/

theorem takeWhile_of_closed {s : Bytes} (h : 125 ∈ s) :
    ∃ after, s.drop (s.takeWhile (· ≠ 125)).length = 125 :: after := by
  induction s with
  | nil => cases h
  | cons c s ih =>
    by_cases hc : c = 125
    · exact ⟨s, by simp [hc]⟩
    · obtain ⟨after, hafter⟩ := ih (List.mem_of_ne_of_mem (Ne.symm hc) h)
      exact ⟨after, by simpa [hc] using hafter⟩

/-- When all markers are closed, the loop reads as many bytes of the replaced text as fit. -/
theorem interpolate_loop_eq_take (get : Bytes → Option Bytes) (room : Nat) {input : Bytes}
    (h : MarkersClose input) : interpolate_loop get room input = (substituted get input).take room := by
  induction hk : input.length using Nat.strong_induction_on generalizing input room with
  | _ k ih =>
    cases room with
    | zero =>
      unfold interpolate_loop
      rw [List.take_zero]
    | succ room =>
      cases input with
      | nil =>
        unfold interpolate_loop substituted
        rfl
      | cons c rest =>
        rw [List.length_cons] at hk
        by_cases hmarker : c = 36 ∧ rest.head? = some 123
        · obtain ⟨rfl, hhead⟩ := hmarker
          obtain ⟨tail, rfl⟩ : ∃ tail, rest = 123 :: tail := List.head?_eq_some_iff.mp hhead
          obtain ⟨hclosed, hkey⟩ := h [] tail rfl
          obtain ⟨after, hafter⟩ := takeWhile_of_closed hclosed
          have hmarker : (36 : UInt8) = 36 ∧ (123 :: tail).head? = some (123 : UInt8) ∧ 125 ∈ 123 :: tail :=
            ⟨rfl, rfl, List.mem_cons_of_mem _ hclosed⟩
          rw [interpolate_loop_marker, substituted, if_pos hmarker, List.take_of_length_le hkey, hafter,
            List.head?_cons, if_pos rfl, List.tail_cons, List.tail_cons]
          dsimp only
          have hdrop : tail.drop ((tail.takeWhile (· ≠ 125)).length + 1) = after := by
            rw [← List.drop_drop, hafter]
            rfl
          have hsuffix : after <:+ 36 :: 123 :: tail := by
            refine List.IsSuffix.trans ?_ (List.suffix_append [36, 123] tail)
            exact hdrop ▸ List.drop_suffix _ _
          have hshort : after.length < k := by
            have := hdrop ▸ List.length_drop (i := (tail.takeWhile (· ≠ 125)).length + 1) (l := tail)
            rw [List.length_cons] at hk
            omega
          rw [hdrop, ih after.length hshort _ (h.suffix hsuffix) rfl, List.take_append]
          generalize (get (tail.takeWhile (· ≠ 125))).getD [] = value
          rw [List.length_take]
          congr 2
          omega
        · have hno : ¬ (c = 36 ∧ rest.head? = some 123 ∧ 125 ∈ rest) := fun hm => hmarker ⟨hm.1, hm.2.1⟩
          rw [interpolate_loop, substituted, if_neg hmarker, if_neg hno, List.take_succ_cons,
            ih rest.length (by omega) room (h.suffix (List.suffix_cons c rest)) rfl]

/-! ## The law -/

/-- For every input, store and size of the buffer: `interpolate` writes inside of its buffer only and
ends its text with a NUL; and when every marker is closed, with a key that fits `key`, the text is
as much of the replaced text as the buffer can hold. -/
theorem interpolate_fills_its_buffer (h : host) (vars : List value) (input : Bytes) (cap : Nat) (out : Bytes)
    (hinput : 0 ∉ input) (hcap : 1 ≤ cap) (hout : out.length = cap) :
    ∃ text, interpolate_into (getvar h vars) input cap out =
        .ok (text ++ 0 :: out.drop (text.length + 1)) ∧ text.length < cap ∧
      (MarkersClose input → text = (substituted (getvar h vars) input).take (cap - 1)) := by
  have hlength := interpolate_loop_length (getvar h vars) (cap - 1) input
  refine ⟨interpolate_loop (getvar h vars) (cap - 1) input, ?_, by omega, fun hclose => ?_⟩
  · rw [interpolate_into_eq (getvar h vars) hinput hcap hout]
    simp [splice]
  · exact interpolate_loop_eq_take (getvar h vars) (cap - 1) hclose

/-- A value that is cut in its middle by the end of the buffer. -/
theorem a_value_is_cut_at_the_end_of_the_buffer :
    ∃ text, interpolate_into (getvar someHost [⟨ascii "b", ascii "xyz"⟩]) (ascii "a$\x7bb\x7dc") 4 [9, 9, 9, 9] =
        .ok (text ++ 0 :: [9, 9, 9, 9].drop (text.length + 1)) ∧ text.length < 4 ∧
      (MarkersClose (ascii "a$\x7bb\x7dc") →
        text = (substituted (getvar someHost [⟨ascii "b", ascii "xyz"⟩]) (ascii "a$\x7bb\x7dc")).take (4 - 1)) :=
  interpolate_fills_its_buffer someHost _ _ 4 [9, 9, 9, 9] (by decide) (by decide) rfl

end mantle.script
