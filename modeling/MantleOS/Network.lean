-- `system/mantle-network.c`: whether the output of a command contains a text. Each
-- read from the pipe is searched alone, so the text is found exactly when no end of
-- a read cuts every place where it stands.
import MantleOS.CText

open checked bytes ctext

namespace mantle.network

/-! ## The search -/

/-- `char buf[512]`. -/
def buf_size : Nat := 512

/-- A way in which a pipe hands over an output: what each `read` takes of it. -/
structure Reads (output : Bytes) where
  chunks : List Bytes
  whole : chunks.flatten = output
  nonempty : ∀ chunk ∈ chunks, chunk ≠ []
  fits : ∀ chunk ∈ chunks, chunk.length < buf_size

/-- The loop of `output_contains`, over what the reads give. -/
def read_loop (needle buf : Bytes) (carry : Nat) (found : Bool) : List Bytes → Checked Bool
  | [] => .ok found
  | chunk :: rest => do
    let buf ← spliceAt buf carry chunk
    let buf ← setAt buf (carry + chunk.length) 0
    let found := if (strstr needle (cstring buf)).isSome then true else found
    read_loop needle buf 0 found rest

/-- What becomes of the command: how its output is read, and its status if it has exited. -/
inductive Child (output : Bytes)
  | no_pipe
  | no_child
  | ended (reads : Reads output) (exit_status : Option Nat)

/-- `output_contains(argv, needle)`, on what `buf` holds before. -/
def output_contains {output : Bytes} (needle buf : Bytes) : Child output → Checked Bool
  | .no_pipe => .ok false
  | .no_child => .ok false
  | .ended reads exit_status => do
    let found ← read_loop needle buf 0 false reads.chunks
    return found && exit_status = some 0

/-- The loop sets `found` exactly when the output contains the needle. -/
def FindsNeedle {output : Bytes} (needle buf : Bytes) (reads : Reads output) : Prop :=
  Yields (read_loop needle buf 0 false reads.chunks) fun found => (found = true ↔ needle <:+: output)

/-- Somewhere the needle stands with no end of a chunk inside it. -/
def Uncut (needle : Bytes) (chunks : List Bytes) : Prop :=
  ∃ a b, chunks.flatten = a ++ needle ++ b ∧ ∀ j,
    (chunks.take j).flatten.length ≤ a.length ∨ a.length + needle.length ≤ (chunks.take j).flatten.length

/-! ## What the loop finds -/

variable {needle : Bytes} {chunks : List Bytes}

theorem read_loop.spec {buf : Bytes} (found : Bool) (hbuf : buf.length = buf_size)
    (hfits : ∀ chunk ∈ chunks, chunk.length < buf_size) (h0 : ∀ chunk ∈ chunks, 0 ∉ chunk) :
    Yields (read_loop needle buf 0 found chunks) fun r =>
      (r = true ↔ found = true ∨ ∃ chunk ∈ chunks, needle <:+: chunk) := by
  induction chunks generalizing buf found with
  | nil => simp [read_loop]
  | cons chunk rest ih =>
    have hchunk : chunk.length < buf.length := hbuf ▸ hfits chunk List.mem_cons_self
    obtain ⟨copied, hcopy, hset⟩ := copy_string hchunk
    have hbuf' : (splice buf 0 (chunk ++ [0])).length = buf_size := by
      rw [splice_length (by rw [List.length_append, List.length_singleton]; omega), hbuf]
    rw [read_loop, hcopy, ok_bind, Nat.zero_add, hset, ok_bind, cstring_splice (h0 chunk List.mem_cons_self)]
    have hrest := ih (if (strstr needle chunk).isSome then true else found) hbuf'
      (fun c hc => hfits c (List.mem_cons_of_mem _ hc)) (fun c hc => h0 c (List.mem_cons_of_mem _ hc))
    apply hrest.mono
    intro r hr
    rw [hr, List.exists_mem_cons_iff, ← or_assoc, ← strstr_isSome_iff]
    cases (strstr needle chunk).isSome <;> simp

/-- A needle that no end of a chunk cuts is in one of them. By induction on the chunks: the
first holds it, or it is behind the first. -/
theorem mem_chunk_of_uncut (hne : needle ≠ []) (h : Uncut needle chunks) :
    ∃ chunk ∈ chunks, needle <:+: chunk := by
  induction chunks with
  | nil =>
    obtain ⟨a, b, hsplit, -⟩ := h
    rw [List.flatten_nil, eq_comm, List.append_eq_nil_iff, List.append_eq_nil_iff] at hsplit
    exact absurd hsplit.1.2 hne
  | cons chunk rest ih =>
    obtain ⟨a, b, hsplit, hcuts⟩ := h
    rw [List.flatten_cons] at hsplit
    have hfirst := hcuts 1
    rw [List.take_succ_cons, List.take_zero, List.flatten_singleton] at hfirst
    rcases hfirst with hbehind | hin
    · obtain ⟨a', ha⟩ : chunk <+: a := by
        apply List.prefix_of_prefix_length_le (List.prefix_append chunk rest.flatten) _ hbehind
        rw [hsplit, List.append_assoc]
        exact List.prefix_append a _
      rw [← ha, List.append_assoc, List.append_assoc, List.append_cancel_left_eq, ← List.append_assoc] at hsplit
      obtain ⟨found, hfound, hneedle⟩ := ih ⟨a', b, hsplit, fun j => by
        have hj := hcuts (j + 1)
        rw [List.take_succ_cons, List.flatten_cons, List.length_append, ← ha, List.length_append] at hj
        omega⟩
      exact ⟨found, List.mem_cons_of_mem _ hfound, hneedle⟩
    · refine ⟨chunk, List.mem_cons_self, ?_⟩
      have hstarts : a ++ needle <+: chunk := by
        apply @List.prefix_of_prefix_length_le _ _ _ (chunk ++ rest.flatten)
        · rw [hsplit]
          exact List.prefix_append _ b
        · exact List.prefix_append _ _
        · rwa [List.length_append]
      exact (List.suffix_append a needle).isInfix.trans hstarts.isInfix

/-- A needle in one of the chunks is not cut. -/
theorem uncut_of_mem_chunk {chunk : Bytes} (hchunk : chunk ∈ chunks) (h : needle <:+: chunk) :
    Uncut needle chunks := by
  obtain ⟨before, after, rfl⟩ := List.append_of_mem hchunk
  obtain ⟨a, b, rfl⟩ := h
  refine ⟨before.flatten ++ a, b ++ after.flatten, by simp, fun j => ?_⟩
  rcases Nat.lt_or_ge before.length j with hj | hj
  · obtain ⟨k, rfl⟩ := Nat.exists_eq_add_of_lt hj
    rw [Nat.add_assoc, List.take_length_add_append, List.take_succ_cons]
    right
    simp only [List.flatten_append, List.flatten_cons, List.length_append]
    omega
  · rw [List.take_append_of_le_length hj]
    left
    have hle := ((List.take_prefix j before).flatten).length_le
    rw [List.length_append]
    omega

theorem exists_chunk_iff_uncut {output : Bytes} (reads : Reads output) :
    (∃ chunk ∈ reads.chunks, needle <:+: chunk) ↔ output ≠ [] ∧ Uncut needle reads.chunks := by
  constructor
  · rintro ⟨chunk, hchunk, h⟩
    refine ⟨?_, uncut_of_mem_chunk hchunk h⟩
    intro hempty
    have hflat := reads.whole.trans hempty
    rw [List.flatten_eq_nil_iff] at hflat
    exact reads.nonempty chunk hchunk (hflat chunk hchunk)
  · rintro ⟨houtput, h⟩
    by_cases hne : needle = []
    · have hchunks : reads.chunks ≠ [] := by
        intro hnil
        have hflat := reads.whole
        rw [hnil, List.flatten_nil] at hflat
        exact houtput hflat.symm
      obtain ⟨chunk, hchunk⟩ := List.exists_mem_of_ne_nil _ hchunks
      exact ⟨chunk, hchunk, hne ▸ List.nil_infix⟩
    · exact mem_chunk_of_uncut hne h

/-- What the loop says of an output, whatever `buf` holds before. -/
theorem read_loop_reads {output buf : Bytes} (reads : Reads output) (hbuf : buf.length = buf_size)
    (h0 : 0 ∉ output) :
    Yields (read_loop needle buf 0 false reads.chunks) fun found =>
      (found = true ↔ ∃ chunk ∈ reads.chunks, needle <:+: chunk) := by
  have hbytes : ∀ chunk ∈ reads.chunks, 0 ∉ chunk := by
    intro chunk hchunk hzero
    apply h0
    rw [← reads.whole]
    exact (List.infix_of_mem_flatten hchunk).subset hzero
  have hloop := @read_loop.spec needle _ buf false hbuf reads.fits hbytes
  simpa using hloop

theorem infix_of_chunk {output : Bytes} (reads : Reads output)
    (h : ∃ chunk ∈ reads.chunks, needle <:+: chunk) : needle <:+: output := by
  obtain ⟨chunk, hchunk, hneedle⟩ := h
  rw [← reads.whole]
  exact hneedle.trans (List.infix_of_mem_flatten hchunk)

theorem finds_needle_iff {output buf : Bytes} (reads : Reads output) (hbuf : buf.length = buf_size)
    (h0 : 0 ∉ output) :
    FindsNeedle needle buf reads ↔ ¬ needle <:+: output ∨ ∃ chunk ∈ reads.chunks, needle <:+: chunk := by
  obtain ⟨found, hloop, hfound⟩ := @read_loop_reads needle _ buf reads hbuf h0
  have hthere := @infix_of_chunk needle _ reads
  unfold FindsNeedle
  rw [hloop, yields_ok, hfound]
  constructor
  · intro hiff
    by_cases hin : needle <:+: output
    · exact .inr (hiff.mpr hin)
    · exact .inl hin
  · rintro (hout | hsome)
    · exact ⟨hthere, fun hin => absurd hin hout⟩
    · exact ⟨hthere, fun _ => hsome⟩

/-! ## The laws -/

/-- **An answer is never yes by mistake.** The command has exited with 0, and the text is in
its output. -/
theorem a_yes_is_right {output : Bytes} (child : Child output) (needle buf : Bytes)
    (hbuf : buf.length = buf_size) (h0 : 0 ∉ output) (h : output_contains needle buf child = .ok true) :
    needle <:+: output ∧ ∃ reads, child = .ended reads (some 0) := by
  cases child with
  | no_pipe => cases h
  | no_child => cases h
  | ended reads exit_status =>
    obtain ⟨found, hloop, hfound⟩ := @read_loop_reads needle _ buf reads hbuf h0
    rw [output_contains, hloop, ok_bind, pure_eq_ok, Except.ok.injEq, Bool.and_eq_true, decide_eq_true_eq] at h
    exact ⟨infix_of_chunk reads (hfound.mp h.1), reads, by rw [h.2]⟩

/-- **The text is found exactly where no end of a read cuts it,** or where it is not. -/
theorem the_needle_is_found_iff {output : Bytes} (reads : Reads output) (needle buf : Bytes)
    (hbuf : buf.length = buf_size) (h0 : 0 ∉ output) :
    FindsNeedle needle buf reads ↔
      ¬ needle <:+: output ∨ output ≠ [] ∧ Uncut needle reads.chunks := by
  rw [finds_needle_iff reads hbuf h0, exists_chunk_iff_uncut]

/-- What `ip route` prints, in one read. -/
def routes : Reads (ascii "default via 10.0.2.2") where
  chunks := [ascii "default via 10.0.2.2"]
  whole := List.flatten_singleton
  nonempty := fun chunk hchunk => List.mem_singleton.mp hchunk ▸ List.cons_ne_nil _ _
  fits := by
    intro chunk hchunk
    rw [List.mem_singleton.mp hchunk]
    decide

theorem a_route_in_one_read_is_found : FindsNeedle (ascii "default") (List.replicate buf_size 0) routes := by
  apply (the_needle_is_found_iff routes _ _ List.length_replicate (by decide)).mpr
  refine .inr ⟨List.cons_ne_nil _ _, [], ascii " via 10.0.2.2", by decide, fun j => ?_⟩
  cases j with
  | zero => exact .inl (Nat.le_refl 0)
  | succ j => exact .inr (by rw [routes, List.take_succ_cons, List.take_nil]; decide)

/-- What `ip addr` prints, with the end of a read inside the text that `main` looks for. -/
def addresses : Reads (ascii "inet 10.0.2.15/24") where
  chunks := [ascii "inet", ascii " 10.0.2.15/24"]
  whole := by decide
  nonempty := by decide
  fits := by decide

theorem a_cut_address_is_missed : ¬ FindsNeedle (ascii "inet ") (List.replicate buf_size 0) addresses := by
  rw [finds_needle_iff addresses List.length_replicate (by decide)]
  decide

/-- An output that comes byte by byte. -/
def byte_by_byte (output : Bytes) : Reads output where
  chunks := output.map fun b => [b]
  whole := by
    rw [← List.flatMap_def]
    exact List.flatMap_singleton' output
  nonempty := by simp
  fits := by
    intro chunk hchunk
    obtain ⟨b, -, rfl⟩ := List.mem_map.mp hchunk
    exact Nat.lt_of_sub_eq_succ rfl

/-- **The answer depends on the reads for every text of two bytes.** A text is looked for in
vain in some way to read an output where it stands, unless it is a byte or nothing. -/
theorem every_way_to_read_finds_the_needle_iff {output buf : Bytes} (needle : Bytes)
    (hbuf : buf.length = buf_size) (h0 : 0 ∉ output) :
    (∀ reads : Reads output, FindsNeedle needle buf reads) ↔
      ¬ needle <:+: output ∨ output ≠ [] ∧ needle.length ≤ 1 := by
  constructor
  · intro hall
    have hslow := hall (byte_by_byte output)
    rw [finds_needle_iff _ hbuf h0] at hslow
    rcases hslow with hout | ⟨chunk, hchunk, hneedle⟩
    · exact .inl hout
    · obtain ⟨b, hb, rfl⟩ := List.mem_map.mp hchunk
      exact .inr ⟨List.ne_nil_of_mem hb, hneedle.length_le⟩
  · intro h reads
    rw [finds_needle_iff _ hbuf h0, exists_chunk_iff_uncut]
    by_cases hin : needle <:+: output
    · obtain ⟨houtput, hshort⟩ := h.resolve_left (not_not_intro hin)
      obtain ⟨a, b, hsplit⟩ := hin
      -- no end of a read is inside one byte
      refine .inr ⟨houtput, a, b, by rw [reads.whole, hsplit], fun j => ?_⟩
      omega
    · exact .inl hin

end mantle.network
