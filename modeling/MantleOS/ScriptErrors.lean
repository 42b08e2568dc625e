-- Which source texts the interpreter of `mantle-script.c` reports as ill formed.
-- The status of a script tells whether an executed block came to a token that
-- cannot stand there, and nothing else that is wrong with its text.
import MantleOS.ScriptGrammar
import MantleOS.ScriptGuards

open bytes ctext

namespace mantle.script

/-! ## The errors that are reported -/

/-- The token cannot stand at this place of a statement. At the start of one these are the unknown
words, and all that is no word, no newline and no end of a block. -/
def misplaced (place : Place) (t : token) : Bool :=
  match place with
  | .start =>
    if t.kind = .K_WORD then placeAfter (t.text.take 63) = .skip
    else !(ends_block t.kind || is_newline t.kind)
  | .letName => t.kind ≠ .K_WORD
  | .letEq _ => t.kind ≠ .K_EQ
  | .letValue _ => !is_text t.kind
  | .printText => !is_text t.kind
  | .runArgs _ => false
  | .ifWord => ¬ (t.kind = .K_WORD ∧ t.text = ascii "command.exists")
  | .ifOpen => t.kind ≠ .K_LP
  | .ifText => !is_text t.kind
  | .ifClose _ => t.kind ≠ .K_RP
  | .requireWord => ¬ (t.kind = .K_WORD ∧ t.text = ascii "admin")
  | .brace _ => !(is_newline t.kind || t.kind = .K_LBRACE)
  | .exitCode => t.kind ≠ .K_WORD
  | .skip => false

/-- The machine is in a block that is executed, at a token that cannot stand there. -/
def Machine.errs (m : Machine) : Prop := m.top.execute = true ∧ misplaced m.place m.s.l.token = true

/-- A message was reported in a block that is executed. -/
def FailedIn (trace : List Event) : Prop := ∃ i, .failed i true ∈ trace

@[simp] theorem failedIn_append (trace : List Event) (e : Event) :
    FailedIn (trace ++ [e]) ↔ FailedIn trace ∨ ∃ i, e = .failed i true := by
  simp only [FailedIn, List.mem_append, List.mem_singleton, exists_or]
  constructor <;> (rintro (h | ⟨i, hi⟩) <;> [exact .inl h; exact .inr ⟨i, hi.symm⟩])

@[simp] theorem failedIn_fail (m : Machine) (text : Bytes) :
    FailedIn (m.fail text).trace ↔ FailedIn m.trace ∨ m.top.execute = true := by
  simp [Machine.fail]

theorem failedIn_store (h : host) (m : Machine) (name : Bytes) :
    FailedIn (store h m name).trace ↔ FailedIn m.trace := by
  unfold store
  dsimp only
  split <;> simp

theorem failedIn_print (h : host) (m : Machine) : FailedIn (print h m).trace ↔ FailedIn m.trace := by
  unfold print
  dsimp only
  split <;> simp

/-- A message is reported exactly for a token that cannot stand where it is. -/
theorem failedIn_place_step (h : host) {m : Machine} (hp : m.place ≠ .start) :
    FailedIn (place_step h m).trace ↔ FailedIn m.trace ∨ m.errs := by
  unfold place_step Machine.errs misplaced
  cases hplace : m.place with
  | start => exact absurd hplace hp
  | letName => dsimp only; split <;> simp_all
  | letEq name => dsimp only; split <;> simp_all
  | letValue name => dsimp only; split <;> simp_all [failedIn_store]
  | printText => dsimp only; split <;> simp_all [failedIn_print]
  | runArgs args => dsimp only; split <;> simp_all [launch]
  | ifWord => dsimp only; split <;> simp_all
  | ifOpen => dsimp only; split <;> simp_all
  | ifText => dsimp only; split <;> simp_all
  | ifClose condition => dsimp only; split <;> simp_all
  | requireWord => dsimp only; split <;> simp_all
  | brace condition =>
    dsimp only
    split
    · simp_all [is_newline]
    · split <;> simp_all [is_newline]
  | exitCode => dsimp only; split <;> simp_all
  | skip => dsimp only; split <;> simp_all

theorem failedIn_reach {m : Machine} (hp : m.place = .start) (hword : m.s.l.token.kind = .K_WORD) :
    FailedIn m.reach.trace ↔ FailedIn m.trace ∨ m.errs := by
  unfold Machine.reach Machine.errs misplaced
  rw [hp]
  dsimp only
  rw [if_pos hword]
  split
  · rename_i hskip
    rw [Machine.complain_trace, failedIn_append]
    simp [hskip]
  · rename_i hskip
    simp [hskip]

theorem return_block_trace (m : Machine) : (return_block m).trace = m.trace := by
  unfold return_block
  cases m.below <;> rfl

theorem failedIn_step (h : host) (m : Machine) :
    FailedIn (step h m).trace ↔ FailedIn m.trace ∨ m.errs := by
  unfold step
  split
  · rename_i hp
    have herrs : m.errs ↔ m.top.execute = true ∧ misplaced .start m.s.l.token = true := by
      rw [Machine.errs, hp]
    unfold start_step
    cases hkind : m.s.l.token.kind with
    | K_EOF => simp [return_block_trace, herrs, misplaced, hkind, ends_block]
    | K_NEWLINE => simp [Config.trace, herrs, misplaced, hkind, is_newline]
    | K_RBRACE => simp [return_block_trace, herrs, misplaced, hkind, ends_block]
    | K_WORD => exact failedIn_reach hp hkind
    | _ => simp [Config.trace, herrs, misplaced, hkind, ends_block, is_newline]
  · rename_i hp
    exact failedIn_place_step h hp

/-- A message was reported exactly when the run came to a token that cannot stand where it is. -/
theorem failedIn_after (h : host) (c : Config) (n : Nat) :
    FailedIn (after h n c).trace ↔
      FailedIn c.trace ∨ ∃ k m, k < n ∧ after h k c = .running m ∧ m.errs := by
  induction n generalizing c with
  | zero => simp [after]
  | succ n ih =>
    cases c with
    | done result s trace =>
      constructor
      · exact .inl
      · rintro (hfailed | ⟨k, m, _, hafter, _⟩)
        · exact hfailed
        · rw [after_done] at hafter
          cases hafter
    | running m =>
      rw [after, ih (step h m), failedIn_step]
      constructor
      · rintro ((hfailed | herrs) | ⟨k, m', hk, hafter, herrs⟩)
        · exact .inl hfailed
        · exact .inr ⟨0, m, Nat.succ_pos n, rfl, herrs⟩
        · exact .inr ⟨k + 1, m', Nat.succ_lt_succ hk, hafter, herrs⟩
      · rintro (hfailed | ⟨k, m', hk, hafter, herrs⟩)
        · exact .inl (.inl hfailed)
        · cases k with
          | zero =>
            cases hafter
            exact .inl (.inr herrs)
          | succ k => exact .inr ⟨k, m', Nat.lt_of_succ_lt_succ hk, hafter, herrs⟩

/-! ## The status tells them -/

/-- No `exit` is executed, and all executed commands come back with 0. -/
structure Blameless (trace : List Event) : Prop where
  exits : ∀ keyword, .exited keyword true ∉ trace
  runs : ∀ keyword argv status, .ran keyword argv true status ∈ trace → status = 0

theorem Blameless.of_append {trace events : List Event} (hb : Blameless (trace ++ events)) :
    Blameless trace :=
  ⟨fun keyword hmem => hb.exits keyword (List.mem_append_left _ hmem),
    fun keyword argv status hmem => hb.runs keyword argv status (List.mem_append_left _ hmem)⟩

/-- An open block has a result that is not 0. -/
def Machine.blamed (m : Machine) : Prop := ∃ f ∈ m.top :: m.below, f.result ≠ 0

/-- The recovery has reported a message, and its status is to come. -/
def Machine.recovering (m : Machine) : Prop := m.place = .skip ∧ m.top.execute = true

/-- A block that is not executed has the result 0. While no command has failed and no `exit` was
executed, an open block has another result, or is about to, exactly when a message was
reported. -/
structure Tallied (m : Machine) : Prop where
  idle : ∀ f ∈ m.top :: m.below, f.execute = false → f.result = 0
  tally : Blameless m.trace → (m.blamed ∨ m.recovering ↔ FailedIn m.trace)

theorem Frame.record_result (f : Frame) (r : Int) :
    (f.record r).result ≠ 0 ↔ f.result ≠ 0 ∨ (r ≠ 0 ∧ f.execute = true) := by
  unfold Frame.record
  by_cases hr : r ≠ 0 ∧ f.execute = true
  · simp [hr]
  · rw [if_neg hr, or_iff_left hr]

/-- The blocks stay as they are, and nothing is reported. -/
theorem Tallied.same {m m' : Machine} (ht : Tallied m) (htop : m'.top = m.top) (hbelow : m'.below = m.below)
    (htrace : ∃ events, m'.trace = m.trace ++ events ∧ (FailedIn m'.trace ↔ FailedIn m.trace))
    (hskip : m'.place = .skip ↔ m.place = .skip) : Tallied m' := by
  obtain ⟨events, htrace, hfailed⟩ := htrace
  refine ⟨by rw [htop, hbelow]; exact ht.idle, fun hb => ?_⟩
  rw [hfailed, Machine.blamed, Machine.recovering, htop, hbelow, hskip]
  rw [htrace] at hb
  exact ht.tally hb.of_append

/-- The statement returns `r`. -/
theorem Tallied.returns {m m' : Machine} (ht : Tallied m) (r : Int) (htop : m'.top = m.top.record r)
    (hbelow : m'.below = m.below) (hplace : m'.place = .start)
    (htally : Blameless m'.trace →
      (m.blamed ∨ (r ≠ 0 ∧ m.top.execute = true) ↔ FailedIn m'.trace)) : Tallied m' := by
  constructor
  · intro f hf hidle
    rw [htop, hbelow] at hf
    rcases List.mem_cons.mp hf with rfl | hold
    · have hzero := ht.idle m.top List.mem_cons_self hidle
      by_contra hresult
      rcases (Frame.record_result m.top r).mp hresult with hresult | ⟨_, hexec⟩
      · exact hresult hzero
      · have hidle : m.top.execute = false := hidle
        rw [hexec] at hidle
        cases hidle
    · exact ht.idle f (List.mem_cons_of_mem _ hold) hidle
  · intro hb
    have hrecovering : ¬ m'.recovering := by
      rintro ⟨hskip, _⟩
      rw [hplace] at hskip
      cases hskip
    rw [or_iff_left hrecovering, ← htally hb, Machine.blamed, Machine.blamed, htop, hbelow]
    simp only [List.exists_mem_cons_iff, Frame.record_result]
    exact or_right_comm

/-- Outside of the recovery the blocks alone tell. -/
theorem Tallied.blamed_iff {m : Machine} (ht : Tallied m) (hb : Blameless m.trace) (hskip : m.place ≠ .skip) :
    m.blamed ↔ FailedIn m.trace := by
  rw [← ht.tally hb, or_iff_left]
  exact fun hrecovering => hskip hrecovering.1

theorem Tallied.fail {m : Machine} (ht : Tallied m) (hskip : m.place ≠ .skip) (text : Bytes) :
    Tallied (m.fail text) := by
  refine ht.returns 2 rfl rfl rfl fun hb => ?_
  have hb : Blameless (m.trace ++ [.failed m.index m.top.execute]) := hb
  rw [failedIn_fail, ht.blamed_iff hb.of_append hskip]
  simp

theorem Tallied.launch {m : Machine} (h : host) (args : List Bytes) (ht : Tallied m)
    (hskip : m.place ≠ .skip) : Tallied (script.launch h m args) := by
  unfold script.launch
  dsimp only
  generalize hr : (if m.top.execute = true then run_argv h args m.s else (0, m.s)) = rs
  refine ht.returns rs.1 rfl rfl rfl fun hb => ?_
  have hb : Blameless (m.trace ++ [.ran m.keyword args m.top.execute rs.1]) := hb
  have hzero : ¬ (rs.1 ≠ 0 ∧ m.top.execute = true) := by
    rintro ⟨hne, hexec⟩
    rw [hexec] at hb
    exact hne (hb.runs _ _ _ (List.mem_append_right _ (List.mem_singleton_self _)))
  rw [or_iff_left hzero, ht.blamed_iff hb.of_append hskip]
  simp

theorem Tallied.moves {h : host} {m m' : Machine} (hm : Moves h m m') (ht : Tallied m) : Tallied m' := by
  cases hm with
  | takes place hskip _ hskip' =>
    exact ht.same rfl rfl ⟨[], by simp, Iff.rfl⟩ (by simp [hskip, hskip'])
  | stores name hplace =>
    obtain ⟨-, htop, hbelow⟩ := store_eq h m name
    have hin : m.inStatement := ⟨by simp [hplace], by simp [hplace]⟩
    obtain ⟨events, htrace, -⟩ := (reads_store h name hin).1.trace
    exact ht.same htop hbelow ⟨events, htrace, failedIn_store h m name⟩ (by simp [hplace])
  | prints hplace =>
    obtain ⟨-, htop, hbelow⟩ := print_eq h m
    have hin : m.inStatement := ⟨by simp [hplace], by simp [hplace]⟩
    obtain ⟨events, htrace, -⟩ := (reads_print h hin).1.trace
    exact ht.same htop hbelow ⟨events, htrace, failedIn_print h m⟩ (by simp [hplace])
  | launches args hplace => exact ht.launch h args (by simp [hplace])
  | asks answer place hskip _ hskip' =>
    exact ht.same rfl rfl ⟨[_], rfl, by simp⟩ (by simp [hskip, hskip'])
  | opens condition hplace =>
    constructor
    · intro f hf hidle
      rcases List.mem_cons.mp hf with rfl | hold
      · rfl
      · exact ht.idle f hold hidle
    · intro hb
      have hb : Blameless (m.trace ++ [.opened m.index condition]) := hb
      have hblamed := ht.blamed_iff hb.of_append (by simp [hplace])
      simpa [Machine.blamed, Machine.recovering] using hblamed
  | fails text hskip => exact ht.fail hskip text
  | exits hplace =>
    refine ht.returns _ rfl rfl rfl fun hb => ?_
    have hb : Blameless (m.trace ++ [.exited m.keyword m.top.execute]) := hb
    have hexec : ¬ m.top.execute = true := by
      intro hexec
      rw [hexec] at hb
      exact hb.exits _ (List.mem_append_right _ (List.mem_singleton_self _))
    rw [or_iff_left (fun hr => hexec hr.2), ht.blamed_iff hb.of_append (by simp [hplace])]
    simp
  | skips hplace => exact ht.same rfl rfl ⟨[_], rfl, by simp⟩ (by simp)
  | recovers hplace =>
    refine ht.returns 2 rfl rfl rfl fun hb => ?_
    have hrecovering : m.recovering ↔ m.top.execute = true := by simp [Machine.recovering, hplace]
    have htally := ht.tally hb
    rw [hrecovering] at htally
    simpa using htally

theorem Tallied.reach {m : Machine} (ht : Tallied m) (hp : m.place = .start) : Tallied m.reach := by
  unfold Machine.reach
  dsimp only
  split
  · rename_i hskip
    refine ⟨ht.idle, fun hb => ?_⟩
    rw [Machine.complain_trace, failedIn_append] at *
    have hblamed := ht.blamed_iff hb.of_append.of_append (by simp [hp])
    simpa [Machine.blamed, Machine.recovering, hskip] using or_congr_left hblamed
  · rename_i hskip
    exact ht.same rfl rfl ⟨[_], rfl, by simp⟩ (by simp [hskip, hp])

/-- A result that is not 0 goes on to the block around it, which is executed too. -/
theorem Tallied.popped {src : Bytes} {m : Machine} {f : Frame} {below : List Frame} (hp : Placed src m)
    (ht : Tallied m) (hplace : m.place = .start) (hbelow : m.below = f :: below) :
    Tallied (m.popped f below) := by
  have hexec : m.top.result ≠ 0 → f.execute = true := by
    intro hresult
    have htop : m.top.execute = true := by
      by_contra hno
      exact hresult (ht.idle m.top List.mem_cons_self (by simpa using hno))
    exact hp.flags_true htop _ (by simp [Machine.flags, hbelow])
  have hframes : ∀ g ∈ f :: below, g.execute = false → g.result = 0 := fun g hg =>
    ht.idle g (List.mem_cons_of_mem _ (by rw [hbelow]; exact hg))
  constructor
  · intro g hg hidle
    rcases List.mem_cons.mp hg with rfl | hold
    · by_contra hresult
      rcases (Frame.record_result f m.top.result).mp hresult with hresult | ⟨_, hfexec⟩
      · exact hresult (hframes f List.mem_cons_self hidle)
      · have hidle : f.execute = false := hidle
        rw [hfexec] at hidle
        cases hidle
    · exact hframes g (List.mem_cons_of_mem _ hold) hidle
  · intro hb
    have hblamed := ht.blamed_iff hb (by simp [hplace])
    have hcarried : (m.top.result ≠ 0 ∧ f.execute = true) ↔ m.top.result ≠ 0 :=
      and_iff_left_of_imp hexec
    have hrecovering : ¬ (m.popped f below).recovering := by
      rintro ⟨hskip, _⟩
      rw [Machine.popped, hplace] at hskip
      cases hskip
    show _ ↔ FailedIn m.trace
    rw [or_iff_left hrecovering, ← hblamed, Machine.blamed, Machine.blamed, hbelow]
    simp only [Machine.popped, List.exists_mem_cons_iff, Frame.record_result, hcarried]
    rw [or_comm (a := f.result ≠ 0), or_assoc]

/-- The result of a machine that is done tells whether a message was reported. -/
def Config.tallied (src : Bytes) : Config → Prop
  | .running m => Placed src m ∧ Tallied m
  | .done result _ trace => Blameless trace → (result ≠ 0 ↔ FailedIn trace)

theorem return_block_tallied {src : Bytes} {m : Machine} (hp : Placed src m) (ht : Tallied m)
    (hplace : m.place = .start) : (return_block m).tallied src := by
  unfold return_block
  cases hbelow : m.below with
  | nil =>
    intro hb
    rw [← ht.blamed_iff hb (by simp [hplace]), Machine.blamed, hbelow]
    simp
  | cons f below => exact ⟨hp.popped hplace hbelow, ht.popped hp hplace hbelow⟩

theorem step_tallied {src : Bytes} (h : host) {m : Machine} (hp : Placed src m) (ht : Tallied m) :
    (step h m).tallied src := by
  unfold step
  by_cases hplace : m.place = .start
  · rw [if_pos hplace]
    unfold start_step
    have hnext : Tallied m.next := ht.same rfl rfl ⟨[], by simp, Iff.rfl⟩ Iff.rfl
    cases hkind : m.s.l.token.kind with
    | K_EOF => exact return_block_tallied hp ht hplace
    | K_RBRACE => exact return_block_tallied (hp.next hplace) hnext hplace
    | K_NEWLINE => exact ⟨hp.next hplace, hnext⟩
    | K_WORD => exact ⟨hp.reads (reach_reads hkind), ht.reach hplace⟩
    | _ =>
      exact ⟨hp.reads (.stays (.fail m _) rfl rfl rfl), ht.fail (by simp [hplace]) _⟩
  · rw [if_neg hplace]
    have hmoves := place_step_moves h hplace
    exact ⟨hp.reads (hmoves.reads hplace), ht.moves hmoves⟩

/-- The status of a script, when no `exit` is executed and all its commands come back with 0: it is
not 0 exactly when the run came, in a block that is executed, to a token that cannot stand
there. -/
theorem status_tells (h : host) {src : Bytes} {n : Nat} {r : Int} {s : Script} {trace : List Event}
    (hdone : after h n (.running (.start src)) = .done r s trace) (hb : Blameless trace) :
    r ≠ 0 ↔ ∃ k m, after h k (.running (.start src)) = .running m ∧ m.errs := by
  have hstart : (Config.running (.start src)).tallied src := by
    refine ⟨startWith_placed src [], ⟨?_, fun _ => ?_⟩⟩
    · intro f hf _
      rw [List.mem_singleton.mp hf]
      rfl
    · simp [Machine.blamed, Machine.recovering, Machine.start, FailedIn]
  have htallied : (after h n (.running (.start src))).tallied src :=
    after_keeps hstart fun k m _ _ hm => step_tallied h hm.1 hm.2
  have hfailed := failedIn_after h (.running (.start src)) n
  rw [hdone] at htallied hfailed
  rw [htallied hb]
  have hnone : ¬ FailedIn (Config.running (.start src)).trace := by simp [FailedIn, Config.trace, Machine.start]
  refine hfailed.trans ((or_iff_right hnone).trans ?_)
  constructor
  · rintro ⟨k, m, _, hafter, herrs⟩
    exact ⟨k, m, hafter, herrs⟩
  · rintro ⟨k, m, hafter, herrs⟩
    refine ⟨k, m, ?_, hafter, herrs⟩
    by_contra hle
    obtain ⟨j, rfl⟩ := Nat.exists_eq_add_of_le (Nat.le_of_not_lt hle)
    rw [after_add, hdone, after_done] at hafter
    cases hafter

/-! ## The law -/

/-- A source text of the grammar. -/
def Sentence (src : Bytes) : Prop := ∃ p ts, Lines p ts ∧ Spelled ts src

/-- A script that returns has done what its machine has in its trace. When it has executed no `exit`
and all its commands came back with 0, the status keeps an ill-formed text from passing exactly
when the text is well formed, or when the run came, in a block that is executed, to a token
that cannot stand where it is. -/
theorem an_ill_formed_text_is_reported_iff (h : host) {fuel : Nat} {src : Bytes} {r : Int} {s : Script}
    (hrun : run_script h fuel src = some (r, s)) :
    ∃ n trace, after h n (.running (.start src)) = .done r s trace ∧
      ((∀ keyword, .exited keyword true ∉ trace) →
        (∀ keyword argv status, .ran keyword argv true status ∈ trace → status = 0) →
        ((¬ Sentence src → r ≠ 0) ↔
          Sentence src ∨ ∃ k m, after h k (.running (.start src)) = .running m ∧ m.errs)) := by
  obtain ⟨n, trace, hdone⟩ := machine_done h hrun
  refine ⟨n, trace, hdone, fun hexits hruns => ?_⟩
  rw [← status_tells h hdone ⟨hexits, hruns⟩]
  exact or_iff_not_imp_left.symm

/-- An unknown word is no sentence, and the status is 2. -/
theorem an_unknown_word_is_reported :
    ∃ s, run_script someHost 10 (ascii "foo\n") = some (2, s) ∧
      ∃ n trace, after someHost n (.running (.start (ascii "foo\n"))) = .done 2 s trace ∧
        ((∀ keyword, .exited keyword true ∉ trace) →
          (∀ keyword argv status, .ran keyword argv true status ∈ trace → status = 0) →
          ((¬ Sentence (ascii "foo\n") → (2 : Int) ≠ 0) ↔
            Sentence (ascii "foo\n") ∨
              ∃ k m, after someHost k (.running (.start (ascii "foo\n"))) = .running m ∧ m.errs)) := by
  have hstatus : (run_script someHost 10 (ascii "foo\n")).map Prod.fst = some 2 := by decide +kernel
  obtain ⟨⟨r, s⟩, hrun, rfl⟩ := Option.map_eq_some_iff.mp hstatus
  exact ⟨s, hrun, an_ill_formed_text_is_reported_iff someHost hrun⟩

/-- The script of `tests/fixtures/invalid.mt`, whose block is never closed: it is no sentence, it
executes neither a command nor an `exit`, and its status is 0. -/
theorem the_invalid_script_passes :
    let src := ascii "#!/usr/bin/mantle\nif command.exists(\"true\") \x7b\n"
    ¬ Sentence src ∧ (run_script someHost 20 src).map Prod.fst = some 0 ∧
      (after someHost 20 (.running (.start src))).isDone = true ∧
      (after someHost 20 (.running (.start src))).trace =
        [.reached 1 (ascii "if") true, .asked 4 false, .opened 6 false] := by
  intro src
  refine ⟨?_, by decide +kernel, by decide +kernel, by decide +kernel⟩
  rintro ⟨p, ts, hlines, hspelled⟩
  have hread : lexemes 20 (lex (.start src)) = some [mark .K_NEWLINE, word (ascii "if"),
      word (ascii "command.exists"), mark .K_LP, ⟨.K_STRING, ascii "true"⟩, mark .K_RP, mark .K_LBRACE,
      mark .K_NEWLINE] := by decide +kernel
  have hts := spelled_lexemes hspelled (by decide +kernel) hread
  have hbalanced := lines_balanced hlines
  rw [hts] at hbalanced
  exact absurd hbalanced (by decide)

end mantle.script
