-- The laws of the user shell: whatever is typed, its console is that of the
-- session, and it never leaves the few calls that a line without a blank can
-- reach.
import MantleOS.UserShell

open checked bytes regions

namespace mantle.user

open rootfs elf syscall

/-! ## The session, key by key -/

variable {names : List Bytes} {s : Session} {codes : List UInt8}

theorem Session.after_append (names : List Bytes) (s : Session) (codes more : List UInt8) :
    s.after names (codes ++ more) = (s.after names codes).after names more := List.foldl_append

/-- Keys after the end change nothing. -/
theorem Session.after_ended (codes : List UInt8) (h : s.ending.isSome = true) :
    s.after names codes = s := by
  induction codes with
  | nil => rfl
  | cons scan codes ih =>
    have hfeed : s.feed names scan = s := by
      unfold Session.feed
      rw [if_pos h]
    change (s.feed names scan).after names codes = s
    rw [hfeed, ih]

/-- A session with a text before its own. -/
def Session.behind (before : Bytes) (s : Session) : Session := { s with text := before ++ s.text }

theorem Session.feed_behind (before : Bytes) (s : Session) (scan : UInt8) :
    (s.behind before).feed names scan = (s.feed names scan).behind before := by
  obtain ⟨line, text, ending⟩ := s
  unfold Session.feed Session.behind
  dsimp only
  split
  · rfl
  cases decoded scan with
  | none => rfl
  | some c =>
    dsimp only
    split
    · unfold Session.execute
      cases reply names (stripped (line ++ [c])) with
      | prints text' =>
        dsimp only
        rw [List.append_assoc]
      | ends ending => rfl
    · dsimp only

theorem Session.after_behind (before : Bytes) (s : Session) (codes : List UInt8) :
    (s.behind before).after names codes = (s.after names codes).behind before := by
  induction codes generalizing s with
  | nil => rfl
  | cons scan codes ih =>
    change ((s.behind before).feed names scan).after names codes = _
    rw [Session.feed_behind, ih]
    rfl

section Typed

variable {key : UInt8 → Option UInt8} {scan c : UInt8} {left : Nat}

theorem typed_none (h : key scan = none) :
    typed key (left + 1) (scan :: codes) = (typed key (left + 1) codes).push scan [] := by
  rw [typed, h]

theorem typed_newline (h : key scan = some 10) : typed key (left + 1) (scan :: codes) =
    { codes := [scan], text := [10], rest := codes, ended := true } := by
  rw [typed, h]
  rfl

theorem typed_character (h : key scan = some c) (hc : c ≠ 10) :
    typed key (left + 1) (scan :: codes) = (typed key left codes).push scan [c] := by
  rw [typed, h]
  exact if_neg hc

/-- A read that waits has taken all codes. -/
theorem typed_waits (h : (typed key left codes).ended = false) : (typed key left codes).rest = [] := by
  induction codes generalizing left with
  | nil =>
    cases left with
    | zero => cases h
    | succ left => rfl
  | cons scan codes ih =>
    cases left with
    | zero => cases h
    | succ left =>
      cases hkey : key scan with
      | none =>
        rw [typed_none hkey] at *
        exact ih h
      | some c =>
        by_cases hc : c = 10
        · subst hc
          rw [typed_newline hkey] at h
          cases h
        · rw [typed_character hkey hc] at *
          exact ih h

/-- A read takes a code at least, when it has ended. -/
theorem typed_codes_ne_nil (h : (typed key (left + 1) codes).ended = true) :
    (typed key (left + 1) codes).codes ≠ [] := by
  cases codes with
  | nil => cases h
  | cons scan codes =>
    cases hkey : key scan with
    | none =>
      rw [typed_none hkey]
      exact List.cons_ne_nil _ _
    | some c =>
      by_cases hc : c = 10
      · subst hc
        rw [typed_newline hkey]
        exact List.cons_ne_nil _ _
      · rw [typed_character hkey hc]
        exact List.cons_ne_nil _ _

end Typed

/-- The codes that a read takes: a read that has ended gives a line to execute, and one that waits
leaves its characters on the line. -/
theorem Session.after_typed (left : Nat) (line text : Bytes) (codes : List UInt8)
    (hleft : line.length + (left + 1) = 127) :
    Session.after names { line, text, ending := none } (typed decoded (left + 1) codes).codes =
      if (typed decoded (left + 1) codes).ended then
        Session.execute names { line := [], text, ending := none }
          (stripped (line ++ (typed decoded (left + 1) codes).text))
      else { line := line ++ (typed decoded (left + 1) codes).text, text, ending := none } := by
  induction codes generalizing left line with
  | nil =>
    change Session.mk line text none = Session.mk (line ++ []) text none
    rw [List.append_nil]
  | cons scan codes ih =>
    have hstep : ∀ more, Session.after names { line, text, ending := none } (scan :: more) =
        Session.after names (Session.feed names { line, text, ending := none } scan) more :=
      fun _ => rfl
    unfold Session.feed at hstep
    dsimp only [Option.isSome_none] at hstep
    rw [if_neg (by decide)] at hstep
    cases hkey : decoded scan with
    | none =>
      rw [hkey] at hstep
      rw [typed_none hkey]
      exact (hstep _).trans (ih left line hleft)
    | some c =>
      rw [hkey] at hstep
      dsimp only at hstep
      by_cases hc : c = 10
      · subst hc
        rw [if_pos (Or.inl rfl)] at hstep
        rw [typed_newline hkey]
        exact hstep []
      · rw [typed_character hkey hc]
        cases left with
        | zero =>
          rw [if_pos (Or.inr (by omega))] at hstep
          rw [typed_zero]
          exact hstep []
        | succ left =>
          have hmore : ¬ (c = 10 ∨ line.length + 1 = 127) := by
            rintro (h | h)
            · exact hc h
            · omega
          rw [if_neg hmore] at hstep
          have hrest := ih left (line ++ [c]) (by
            rw [List.length_append, List.length_singleton]
            omega)
          rw [List.append_assoc] at hrest
          exact (hstep _).trans hrest

/-- No key gives a NUL or a blank. -/
theorem decoded_plain {scan c : UInt8} (h : decoded scan = some c) : c ≠ 0 ∧ c ≠ 32 := by
  have hmap : (0 : UInt8) ∉ keymap := by decide
  refine ⟨?_, fun hc => decoded_ne_blank scan (hc ▸ h)⟩
  rintro rfl
  unfold decoded at h
  split at h
  · cases h
  split at h
  · cases h
  split at h
  · cases h
  · obtain ⟨hget, -⟩ := Option.filter_eq_some_iff.mp h
    exact hmap (List.mem_of_getElem? hget)

theorem typed_plain {left : Nat} {c : UInt8} (h : c ∈ (typed decoded left codes).text) :
    c ≠ 0 ∧ c ≠ 32 := by
  obtain ⟨scan, -, hscan⟩ := mem_typed_text.mp h
  exact decoded_plain hscan

/-! ## The program -/

variable {layout : Layout} {p : ShellPlacement} {t t' : Task} {line : Bytes}

/-- The literals of the shell stand apart from its arrays, the arrays are in the window, and `line`
is on writable pages. -/
structure Laid (p : ShellPlacement) (user : UserSpace) : Prop where
  standing : ∀ s ∈ shellLiterals, IsString user.memory (p.literal s) s
  apart : ∀ s ∈ shellLiterals, ∀ b ∈ p.buffers, Region.Apart ⟨p.literal s, s.length + 1⟩ b
  inWindow : ∀ b ∈ p.buffers, user_range b.start b.size = true
  writable : ∀ i < 128, paging.writable (user.pages (pageOf (p.line + i))) = true

/-- The shell between two commands: the marker of the first call is out, a root file system is
mounted, and another program has exited before. -/
structure Ready (p : ShellPlacement) (t : Task) : Prop where
  laid : Laid p t.kernel.user
  root : ∃ blob, Accepts blob.content ∧ t.kernel.rootfs = mountedState blob
  cwd : t.kernel.process.cwd = rootDirectory
  finished : t.kernel.hello_finished = true
  seen : t.kernel.user_marker_seen = true

theorem Laid.kept {user user' : UserSpace} (h : Laid p user)
    (hmemory : KeepsOutside p.buffers user.memory user'.memory) (hpages : user'.pages = user.pages) :
    Laid p user' := by
  refine ⟨?_, h.apart, h.inWindow, ?_⟩
  · intro s hs
    exact hmemory.isString (h.standing s hs) (h.apart s hs)
  · rw [hpages]
    exact h.writable

theorem Ready.went {text : Bytes} {calls : List Service} {taken : List UInt8} (h : Ready p t)
    (hwent : Went p.buffers t t' text calls taken) : Ready p t' := by
  constructor
  · exact h.laid.kept hwent.memory hwent.pages
  · rw [hwent.rootfs]
    exact h.root
  · rw [hwent.process]
    exact h.cwd
  · rw [hwent.finished]
    exact h.finished
  · exact hwent.seen h.seen

theorem Ready.good (h : Ready p t) : Good t.kernel.rootfs := by
  obtain ⟨blob, ha, hroot⟩ := h.root
  exact Or.inr ⟨blob, ha, hroot⟩

theorem output.spec {buffers : List Region} {address : Nat} {s : Bytes}
    (hseen : t.kernel.user_marker_seen = true) (h : IsString t.kernel.user.memory address s) :
    ∃ t', output layout p address t = .ok (.next () t') ∧ Went buffers t t' s [.sys_write] [] := by
  obtain ⟨t1, hwrite, -, hwent⟩ := @mantle_write.spec layout p.toPlacement buffers t address s h
  rw [greeting_of_seen hseen, List.nil_append] at hwent
  refine ⟨t1, ?_, hwent⟩
  unfold output
  rw [bind_next (inspect_next (mantle_strlen.spec h)), bind_next hwrite]
  rfl

theorem output_line.spec {address : Nat} {s : Bytes} (hready : Ready p t)
    (h : IsString t.kernel.user.memory address s) :
    ∃ t', output_line layout p address t = .ok (.next () t') ∧
      Went p.buffers t t' (s ++ [10]) [.sys_write, .sys_write] [] := by
  obtain ⟨t1, h1, w1⟩ := @output.spec layout p t p.buffers _ _ hready.seen h
  have hready1 := hready.went w1
  have hnewline := hready1.laid.standing (ascii "\n") (by decide)
  obtain ⟨t2, h2, w2⟩ := @output.spec layout p t1 p.buffers _ _ hready1.seen hnewline
  refine ⟨t2, ?_, w1.trans w2⟩
  unfold output_line
  rw [bind_next h1]
  exact h2

/-- A store of the program into its line. -/
theorem store_line (hready : Ready p t) {i : Nat} (hi : i < 128) (x : UInt8) :
    store (p.line + i) x t = .ok (.next ()
      { t with kernel := t.kernel.withMemory (t.kernel.user.memory.put (p.line + i - USER_BASE) x) }) ∧
      Went p.buffers t
        { t with kernel := t.kernel.withMemory (t.kernel.user.memory.put (p.line + i - USER_BASE) x) }
        [] [] [] := by
  have hrange := hready.laid.inWindow ⟨p.line, 128⟩ List.mem_cons_self
  have hbase := (user_range_iff.mp hrange).1
  constructor
  · unfold store
    rw [if_pos (hready.laid.writable i hi), Window.store_eq x (holdsAll_of_user_range hrange i hi)]
    rfl
  · have hsame : t.kernel.user.memory.SameOutside
        (t.kernel.user.memory.put (p.line + i - USER_BASE) x) p.line 128 :=
      Window.SameOutside.put _ x (le_trans hbase (by dsimp only; omega)) ⟨by omega, by omega⟩
    constructor
    · exact (List.append_nil _).symm
    · exact (List.append_nil _).symm
    · exact (List.nil_append _).symm
    · rfl
    · rfl
    · rfl
    · exact id
    · rfl
    · exact keepsOutside_of_same hsame List.mem_cons_self (Nat.le_refl _)

theorem stripped_concat (line : Bytes) (c : UInt8) :
    stripped (line ++ [c]) = if c = 10 ∨ c = 13 then stripped line else line ++ [c] := by
  unfold stripped
  rw [List.rdropWhile_concat]
  simp

/-- The loop leaves the line without its end. -/
theorem strip_loop.spec (hready : Ready p t) (h : IsString t.kernel.user.memory p.line line) :
    ∃ t', strip_loop p line.length t = .ok (.next () t') ∧ Went p.buffers t t' [] [] [] ∧
      IsString t'.kernel.user.memory p.line (stripped line) := by
  induction line using List.reverseRecOn generalizing t with
  | nil => exact ⟨t, rfl, .refl _ t, h⟩
  | append_singleton line c ih =>
    have hshort := h.short
    have hfits := h.fits
    rw [List.length_append, List.length_singleton] at *
    have hbyte : t.kernel.user.memory.byte (p.line + line.length) = c := by
      have hlt : line.length < (line ++ [c]).length := by
        rw [List.length_append, List.length_singleton]
        omega
      rw [byte_of_isString h hlt]
      simp
    have hheld := h.held line.length (by rw [List.length_append]; omega)
    have hload : inspect (fun memory => memory.load (p.line + line.length)) t = .ok (.next c t) := by
      apply inspect_next
      rw [Window.load_eq hheld, hbyte]
    rw [strip_loop, bind_next hload, stripped_concat]
    split
    · obtain ⟨hstore, hwent⟩ := store_line hready (show line.length < 128 by
        unfold MAX_PATH at hshort
        omega) 0
      rw [bind_next hstore]
      have hline : IsString (t.kernel.user.memory.put (p.line + line.length - USER_BASE) 0) p.line
          line := by
        have hbase := h.inWindow.1
        have hnul := h.noNul
        rw [List.mem_append, not_or] at hnul
        refine ⟨by omega, h.inWindow, by omega, ?_, hnul.1⟩
        rw [Window.bytesAt_concat, Window.put_byte _ _ (by omega) (by omega), if_pos rfl]
        have htake := Window.bytesAt_take t.kernel.user.memory p.line
          (show line.length ≤ (line ++ [c]).length + 1 by
            rw [List.length_append]
            omega)
        rw [h.bytes, List.append_assoc, List.take_left' rfl] at htake
        refine congrArg (· ++ [0]) (Eq.trans ?_ htake.symm)
        apply List.map_congr_left
        intro i hi
        rw [List.mem_range] at hi
        exact (Window.put_byte _ _ (by omega) (by omega)).trans (if_neg (by omega))
      obtain ⟨t', hloop, hwent', hstripped⟩ := ih (hready.went hwent) hline
      exact ⟨t', hloop, hwent.trans hwent', hstripped⟩
    · exact ⟨t, rfl, .refl _ t, h⟩

/-! ## The commands -/

/-- The calls that a line without a blank can lead to. -/
def shellCalls : List Service :=
  [.sys_read, .sys_write, .sys_exec, .sys_getcwd, .sys_exit, .sys_readdir, .sys_uname]

theorem pwd_spec (hready : Ready p t) :
    ∃ t', (do
        let length ← mantle_getcwd layout p.toPlacement p.cwd 64
        if 0 ≤ length then output_line layout p p.cwd else return ()) t = .ok (.next () t') ∧
      Went p.buffers t t' (ascii "/\n") [.sys_getcwd, .sys_write, .sys_write] [] := by
  have hbuffer : ⟨p.cwd, 64⟩ ∈ p.buffers := List.mem_cons_of_mem _ List.mem_cons_self
  obtain ⟨t1, h1, w1, hcwd⟩ := @mantle_getcwd.spec layout p.toPlacement p.buffers t p.cwd 64 64
    hready.seen hready.cwd (by decide) (hready.laid.inWindow _ hbuffer) hbuffer (Nat.le_refl _)
  obtain ⟨t2, h2, w2⟩ := @output_line.spec layout p t1 _ _ (hready.went w1) hcwd
  refine ⟨t2, ?_, w1.trans w2⟩
  rw [bind_next h1, if_pos (by decide)]
  exact h2

theorem uname_spec (hready : Ready p t) :
    ∃ t', (do
        let length ← mantle_uname layout p.toPlacement p.name 32
        if 0 ≤ length then output_line layout p p.name else return ()) t = .ok (.next () t') ∧
      Went p.buffers t t' (ascii "MantleOS x86_64\n") [.sys_uname, .sys_write, .sys_write] [] := by
  have hbuffer : ⟨p.name, 32⟩ ∈ p.buffers := by
    unfold ShellPlacement.buffers
    simp
  obtain ⟨t1, h1, w1, hname⟩ := @mantle_uname.spec layout p.toPlacement p.buffers t p.name 32 32
    hready.seen (by decide) (hready.laid.inWindow _ hbuffer) hbuffer (Nat.le_refl _)
  obtain ⟨t2, h2, w2⟩ := @output_line.spec layout p t1 _ _ (hready.went w1) hname
  refine ⟨t2, ?_, w1.trans w2⟩
  rw [bind_next h1, if_pos (by decide)]
  exact h2

theorem ls_spec (hready : Ready p t) :
    ∃ t' calls, (do
        let length ← mantle_readdir layout p.toPlacement (p.literal (ascii "/")) p.entries 128
        if 0 ≤ length then output layout p p.entries
        else output_line layout p (p.literal unavailable)) t = .ok (.next () t') ∧
      Went p.buffers t t' (listing (listed t.kernel.rootfs)) calls [] ∧ ∀ c ∈ calls, c ∈ shellCalls := by
  have hbuffer : ⟨p.entries, 128⟩ ∈ p.buffers := by
    unfold ShellPlacement.buffers
    simp
  obtain ⟨blob, ha, hroot⟩ := hready.root
  obtain ⟨t1, h1, w1, htext⟩ := @mantle_readdir.spec layout p.toPlacement p.buffers t p.entries 128 128
    (p.literal (ascii "/")) blob hready.seen hroot ha (hready.laid.standing _ (by decide))
    (hready.laid.inWindow _ hbuffer) (Nat.le_refl _) hbuffer (Nat.le_refl _)
  have hready1 := hready.went w1
  rw [bind_next h1]
  unfold listing listingResult
  cases hlisting : listingText (listed t.kernel.rootfs) 128 with
  | none =>
    obtain ⟨t2, h2, w2⟩ := @output_line.spec layout p t1 _ _ hready1
      (hready1.laid.standing unavailable (by decide))
    exact ⟨t2, _, h2, w1.trans w2, by decide⟩
  | some text =>
    obtain ⟨t2, h2, w2⟩ := @output.spec layout p t1 p.buffers _ _ hready1.seen (htext text hlisting)
    refine ⟨t2, _, ?_, w1.trans w2, by decide⟩
    dsimp only
    rw [if_pos (Int.natCast_nonneg _)]
    exact h2

theorem is_cd.spec {memory : Window USER_BASE userSize} {address : Nat}
    (h : IsString memory address line) (hblank : 32 ∉ line) : is_cd address memory = .ok false := by
  have htext := text_of_isString h
  unfold is_cd
  cases line with
  | nil =>
    rw [htext.load_nil]
    rfl
  | cons c line =>
    obtain ⟨hc, -, htext⟩ := htext.load_cons
    rw [hc, ok_bind]
    split
    · rfl
    cases line with
    | nil =>
      rw [htext.load_nil]
      rfl
    | cons d line =>
      obtain ⟨hd, -, htext⟩ := htext.load_cons
      rw [hd, ok_bind]
      split
      · rfl
      rw [Nat.add_assoc] at htext
      cases line with
      | nil =>
        rw [htext.load_nil]
        rfl
      | cons e line =>
        obtain ⟨he, -, -⟩ := htext.load_cons
        have hne : e ≠ 32 := by
          rintro rfl
          exact hblank (by simp)
        rw [he, ok_bind, decide_eq_false hne]
        rfl

theorem line_is_next {text : Bytes} (hready : Ready p t) (h : IsString t.kernel.user.memory p.line line)
    (htext : text ∈ shellLiterals) : line_is p text t = .ok (.next (decide (line = text)) t) :=
  inspect_next (mantle_streq.spec h (hready.laid.standing text htext))

/-- What a piece of the shell comes to when it does what the reply says. -/
def Does (layout : Layout) (p : ShellPlacement) (data : Bytes) (t : Task) : Reply → Comes Unit → Prop
  | .prints text, .next _ t' =>
    ∃ calls, Went p.buffers t t' text calls [] ∧ ∀ c ∈ calls, c ∈ shellCalls
  | .ends .exit, .halted t' =>
    t'.kernel.console = t.kernel.console ++ ascii "MANTLE_USERSPACE_EXIT\n" ∧
      t'.calls = t.calls ++ [.sys_exit] ∧ t'.kernel.process.cwd = t.kernel.process.cwd
  | .ends .hello, .entered t' frame =>
    ∃ t0, Went p.buffers t t0 [] [] [] ∧ HandsTo layout t0 t' frame data .sys_exec ∧
      t'.kernel.hello_finished = t0.kernel.hello_finished
  | _, _ => False

section Does

variable {data text : Bytes} {r : Reply} {c : Comes Unit}

theorem Does.prints (h : Does layout p data t (.prints text) c) :
    ∃ t' calls, c = .next () t' ∧ Went p.buffers t t' text calls [] ∧ ∀ c ∈ calls, c ∈ shellCalls := by
  cases c with
  | next _ t' =>
    obtain ⟨calls, hwent, hcalls⟩ := h
    exact ⟨t', calls, rfl, hwent, hcalls⟩
  | _ => exact False.elim h

theorem Does.exits (h : Does layout p data t (.ends .exit) c) :
    ∃ t', c = .halted t' ∧
      t'.kernel.console = t.kernel.console ++ ascii "MANTLE_USERSPACE_EXIT\n" ∧
      t'.calls = t.calls ++ [.sys_exit] ∧ t'.kernel.process.cwd = t.kernel.process.cwd := by
  cases c with
  | halted t' => exact ⟨t', rfl, h⟩
  | _ => exact False.elim h

theorem Does.enters (h : Does layout p data t (.ends .hello) c) :
    ∃ t' frame t0, c = .entered t' frame ∧ Went p.buffers t t0 [] [] [] ∧
      HandsTo layout t0 t' frame data .sys_exec ∧
      t'.kernel.hello_finished = t0.kernel.hello_finished := by
  cases c with
  | entered t' frame =>
    obtain ⟨t0, h0, hhands, hfinished⟩ := h
    exact ⟨t', frame, t0, rfl, h0, hhands, hfinished⟩
  | _ => exact False.elim h

theorem Does.went (hwent : Went p.buffers t t' [] [] []) (h : Does layout p data t' r c) :
    Does layout p data t r c := by
  cases r with
  | prints text =>
    obtain ⟨t1, calls, rfl, h1, hcalls⟩ := h.prints
    exact ⟨calls, hwent.trans h1, hcalls⟩
  | ends ending =>
    cases ending with
    | exit =>
      obtain ⟨t1, rfl, hconsole, hcalls, hcwd⟩ := h.exits
      refine ⟨?_, ?_, ?_⟩
      · rw [hconsole, hwent.console, List.append_nil]
      · rw [hcalls, hwent.calls, List.append_nil]
      · rw [hcwd, hwent.process]
    | hello =>
      obtain ⟨t1, frame, t0, rfl, h0, hhands, hfinished⟩ := h.enters
      exact ⟨t0, hwent.trans h0, hhands, hfinished⟩

end Does

/-- The commands after `exit`, on a line without a blank. -/
theorem other_commands.spec {data : Bytes} (hready : Ready p t)
    (h : IsString t.kernel.user.memory p.line line) (hblank : 32 ∉ line) (hline : line ≠ [])
    (hexit : line ≠ ascii "exit") (hloads : Loads t.kernel.rootfs (ascii "/bin/hello") data) :
    ∃ c, other_commands layout p t = .ok c ∧
      Does layout p data t (reply (listed t.kernel.rootfs) line) c := by
  have hne : ∀ {text : Bytes}, 32 ∈ text → decide (line = text) = false := by
    intro text htext
    rw [decide_eq_false_iff_not]
    rintro rfl
    exact hblank htext
  unfold other_commands reply
  rw [if_neg hline, if_neg hexit, bind_next (line_is_next hready h (by decide))]
  by_cases hpwd : line = ascii "pwd"
  · rw [if_pos (decide_eq_true hpwd), if_pos hpwd]
    obtain ⟨t1, h1, w1⟩ := @pwd_spec layout p t hready
    exact ⟨_, h1, _, w1, by decide⟩
  rw [if_neg (by simpa using hpwd), if_neg hpwd, bind_next (line_is_next hready h (by decide)),
    hne (by decide), if_neg (by decide), bind_next (line_is_next hready h (by decide))]
  by_cases hls : line = ascii "ls"
  · rw [if_pos (decide_eq_true hls), if_pos hls]
    obtain ⟨t1, calls, h1, w1, hcalls⟩ := @ls_spec layout p t hready
    exact ⟨_, h1, calls, w1, hcalls⟩
  rw [if_neg (by simpa using hls), if_neg hls, bind_next (line_is_next hready h (by decide))]
  by_cases huname : line = ascii "uname"
  · rw [if_pos (decide_eq_true huname), if_pos huname]
    obtain ⟨t1, h1, w1⟩ := @uname_spec layout p t hready
    exact ⟨_, h1, _, w1, by decide⟩
  rw [if_neg (by simpa using huname), if_neg huname, bind_next (line_is_next hready h (by decide)),
    hne (by decide), if_neg (by decide), bind_next (line_is_next hready h (by decide))]
  by_cases hhello : line = ascii "/bin/hello"
  · rw [if_pos (decide_eq_true hhello), if_pos hhello]
    obtain ⟨t1, frame, h1, hhands, hfinished⟩ := @mantle_exec.spec layout p.toPlacement t _ _ data
      hready.good (hready.laid.standing (ascii "/bin/hello") (by decide)) hloads
    exact ⟨_, bind_entered h1, t, .refl _ t, hhands, hfinished⟩
  rw [if_neg (by simpa using hhello), if_neg hhello, bind_next (inspect_next (is_cd.spec h hblank)),
    if_neg (by decide)]
  obtain ⟨t1, h1, w1⟩ := @output_line.spec layout p t _ _ hready
    (hready.laid.standing notFound (by decide))
  exact ⟨_, h1, _, w1, by decide⟩

/-- A line without a blank is carried out as its reply says. -/
theorem execute_line.spec {data : Bytes} (hready : Ready p t)
    (h : IsString t.kernel.user.memory p.line line) (hblank : 32 ∉ line)
    (hloads : Loads t.kernel.rootfs (ascii "/bin/hello") data) :
    ∃ c, execute_line layout p t = .ok c ∧
      Does layout p data t (reply (listed t.kernel.rootfs) (stripped line)) c := by
  obtain ⟨t1, hstrip, hwent, hline⟩ := strip_loop.spec hready h
  have hready1 := hready.went hwent
  have hblank1 : 32 ∉ stripped line := fun hin =>
    hblank ((List.rdropWhile_prefix _ _).subset hin)
  unfold execute_line
  rw [bind_next (inspect_next (mantle_strlen.spec h)), bind_next hstrip,
    bind_next (line_is_next hready1 hline (by decide)), ← hwent.rootfs]
  by_cases hempty : stripped line = []
  · rw [if_pos (decide_eq_true hempty)]
    unfold reply
    rw [if_pos hempty]
    exact ⟨_, rfl, [], hwent, nofun⟩
  rw [if_neg (by simpa using hempty), bind_next (line_is_next hready1 hline (by decide))]
  by_cases hexit : stripped line = ascii "exit"
  · rw [if_pos (decide_eq_true hexit)]
    unfold reply
    rw [if_neg hempty, if_pos hexit]
    obtain ⟨t2, h2, hconsole, hcalls, hcwd⟩ := @mantle_exit.halts layout p.toPlacement t1 0
      hready1.good hready1.finished
    rw [greeting_of_seen hready1.seen, List.nil_append] at hconsole
    exact ⟨_, bind_halted h2, Does.went hwent ⟨hconsole, hcalls, hcwd⟩⟩
  · rw [if_neg (by simpa using hexit)]
    obtain ⟨c, hc, hdoes⟩ := @other_commands.spec layout p t1 _ data hready1 hline hblank1 hempty hexit
      (by rwa [hwent.rootfs])
    exact ⟨c, hc, hdoes.went hwent⟩

/-! ## The loop -/

/-- What the kernel prints when the session ends. -/
def Session.farewell (s : Session) : Bytes :=
  if s.ending = some .exit then ascii "MANTLE_USERSPACE_EXIT\n" else []

/-- The machine waits exactly when the session has not ended, it has halted when `exit` was typed,
and it goes on in `/bin/hello` when that was typed. -/
def EndsAs (layout : Layout) (data : Bytes) (t : Task) : Option Ending → Comes Nat → Prop
  | none, .waiting _ => True
  | some .exit, .halted _ => True
  | some .hello, .entered t' frame =>
    ∃ t0, HandsTo layout t0 t' frame data .sys_exec ∧ t0.kernel.rootfs = t.kernel.rootfs ∧
      t'.kernel.hello_finished = true
  | _, _ => False

/-- What the machine has done when it waits or stops is what the session says. -/
structure Answers (layout : Layout) (data : Bytes) (t : Task) (s : Session) (c : Comes Nat) : Prop where
  console : c.task.kernel.console = t.kernel.console ++ (s.text ++ s.farewell)
  calls : ∃ calls, c.task.calls = t.calls ++ calls ∧ ∀ c ∈ calls, c ∈ shellCalls
  cwd : c.task.kernel.process.cwd = t.kernel.process.cwd
  ends : EndsAs layout data t s.ending c

section EndsAs

variable {data : Bytes} {ending : Option Ending} {c : Comes Nat}

theorem EndsAs.waits (h : EndsAs layout data t none c) : ∃ t', c = .waiting t' := by
  cases c with
  | waiting t' => exact ⟨t', rfl⟩
  | _ => exact False.elim h

theorem EndsAs.halts (h : EndsAs layout data t (some .exit) c) : ∃ t', c = .halted t' := by
  cases c with
  | halted t' => exact ⟨t', rfl⟩
  | _ => exact False.elim h

theorem EndsAs.enters (h : EndsAs layout data t (some .hello) c) :
    ∃ t' frame t0, c = .entered t' frame ∧ HandsTo layout t0 t' frame data .sys_exec ∧
      t0.kernel.rootfs = t.kernel.rootfs ∧ t'.kernel.hello_finished = true := by
  cases c with
  | entered t' frame =>
    obtain ⟨t0, hhands, hroot, hfinished⟩ := h
    exact ⟨t', frame, t0, rfl, hhands, hroot, hfinished⟩
  | _ => exact False.elim h

theorem EndsAs.rooted (hroot : t'.kernel.rootfs = t.kernel.rootfs)
    (h : EndsAs layout data t' ending c) : EndsAs layout data t ending c := by
  cases ending with
  | none =>
    obtain ⟨t1, rfl⟩ := h.waits
    trivial
  | some ending =>
    cases ending with
    | exit =>
      obtain ⟨t1, rfl⟩ := h.halts
      trivial
    | hello =>
      obtain ⟨t1, frame, t0, rfl, hhands, h0, hfinished⟩ := h.enters
      exact ⟨t0, hhands, h0.trans hroot, hfinished⟩

end EndsAs

/-- A session that goes on after what has been done already. -/
theorem Answers.behind {data text : Bytes} {s : Session} {c : Comes Nat} {calls : List Service}
    {taken : List UInt8} (hwent : Went p.buffers t t' text calls taken)
    (hcalls : ∀ c ∈ calls, c ∈ shellCalls) (h : Answers layout data t' s c) :
    Answers layout data t (s.behind text) c := by
  obtain ⟨more, hmore, hin⟩ := h.calls
  constructor
  · rw [h.console, hwent.console]
    unfold Session.behind Session.farewell
    simp only [List.append_assoc]
  · refine ⟨calls ++ more, ?_, ?_⟩
    · rw [hmore, hwent.calls, List.append_assoc]
    · intro c hc
      rcases List.mem_append.mp hc with hc | hc
      · exact hcalls c hc
      · exact hin c hc
  · rw [h.cwd, hwent.process]
  · exact h.ends.rooted hwent.rootfs

/-- The prompt and the read of a turn, up to the line with its NUL. -/
theorem turn_reads {data : Bytes} (hready : Ready p t)
    (hloads : Loads t.kernel.rootfs (ascii "/bin/hello") data) :
    ∃ t1, Went p.buffers t t1 prompt [.sys_write, .sys_read]
        (typed decoded 127 t.kernel.keyboard).codes ∧
      t1.kernel.keyboard = (typed decoded 127 t.kernel.keyboard).rest ∧
      if (typed decoded 127 t.kernel.keyboard).ended then
        ∃ c, shell_turn layout p t = (do
            let c ← .ok c
            c.andThen fun _ => (pure none : User (Option Nat))) ∧
          Does layout p data t1 (reply (listed t.kernel.rootfs)
            (stripped (typed decoded 127 t.kernel.keyboard).text)) c
      else shell_turn layout p t = .ok (.waiting t1) := by
  have hbuffer : ⟨p.line, 128⟩ ∈ p.buffers := List.mem_cons_self
  have hrange := hready.laid.inWindow _ hbuffer
  obtain ⟨hbase, hend⟩ := user_range_iff.mp hrange
  dsimp only at hbase hend
  have hrange' : user_range p.line 127 = true := by
    rw [user_range_iff]
    omega
  obtain ⟨t1, h1, w1⟩ := @output.spec layout p t p.buffers _ _ hready.seen
    (hready.laid.standing prompt (by decide))
  have hready1 := hready.went w1
  obtain ⟨t2, h2, w2, hkeys, hbytes⟩ := @mantle_read.spec layout p.toPlacement p.buffers t1 p.line 127
    128 hready1.seen (by decide) hrange' hbuffer (by decide)
  have hready2 := hready1.went w2
  have hkeyboard : t1.kernel.keyboard = t.kernel.keyboard := (List.nil_append _).symm.trans w1.keys.symm
  rw [hkeyboard] at h2 w2 hkeys hbytes
  have hshort := typed_text_length decoded 127 t.kernel.keyboard
  have hplain := @typed_plain t.kernel.keyboard 127
  generalize typed decoded 127 t.kernel.keyboard = r at *
  unfold shell_turn
  rw [bind_next h1]
  cases hended : r.ended with
  | false =>
    rw [hended, if_neg (by decide)] at h2
    refine ⟨t2, w1.trans w2, hkeys, ?_⟩
    rw [if_neg (by decide)]
    exact bind_waiting h2
  | true =>
    rw [hended, if_pos rfl] at h2
    obtain ⟨hstore, w3⟩ := store_line hready2 (show r.text.length < 128 by omega) 0
    have hready3 := hready2.went w3
    have hline : IsString (t2.kernel.user.memory.put (p.line + r.text.length - USER_BASE) 0) p.line
        r.text := by
      refine ⟨by unfold MAX_PATH; omega, ⟨hbase, by unfold USER_LIMIT; omega⟩,
        by unfold USER_LIMIT; omega, ?_, fun h0 => (hplain h0).1 rfl⟩
      have hbase' : USER_BASE ≤ p.line := hbase
      rw [Window.bytesAt_concat, Window.put_byte _ _ (by omega) (by omega), if_pos rfl]
      refine congrArg (· ++ [0]) (Eq.trans ?_ hbytes)
      apply List.map_congr_left
      intro i hi
      rw [List.mem_range] at hi
      exact (Window.put_byte _ _ (by omega) (by omega)).trans (if_neg (by omega))
    have hroot2 := w2.rootfs.trans w1.rootfs
    obtain ⟨c, hc, hdoes⟩ := @execute_line.spec layout p _ _ data hready3 hline
      (fun h32 => (hplain h32).2 rfl) (by
        rw [w3.rootfs, hroot2]
        exact hloads)
    rw [w3.rootfs, hroot2] at hdoes
    have w23 := w2.trans w3
    rw [List.append_nil r.codes] at w23
    refine ⟨_, w1.trans w23, hkeys, ?_⟩
    rw [if_pos rfl]
    refine ⟨c, ?_, hdoes⟩
    have hpos : ¬ ((r.text.length : Int) < 0) := by omega
    have hlow : (r.text.length : Int) < 128 := by omega
    rw [bind_next h2, if_neg hpos, if_pos hlow, Int.toNat_natCast, bind_next hstore, ← hc]
    rfl

section Forever

variable {α : Type} {body : User (Option α)} {frame : mantle_syscall_frame}

theorem forever_goes {x : Checked (Comes α)} (h : body t = .ok (.next none t'))
    (hrest : Settles (fun fuel => forever body fuel t') x) :
    Settles (fun fuel => forever body fuel t) x := by
  apply hrest.succ
  intro fuel
  rw [forever, followedBy, h]

theorem forever_stops {x : Option (Checked (Comes α))} {c : Checked (Comes α)}
    (h : followedBy body (fun _ _ => x) t = some c)
    (hstop : ∀ value t', body t ≠ .ok (.next value t')) :
    Settles (fun fuel => forever body fuel t) c := by
  refine ⟨1, fun fuel hfuel => ?_⟩
  obtain ⟨fuel, rfl⟩ := Nat.exists_eq_succ_of_ne_zero (by omega : fuel ≠ 0)
  change forever body (fuel + 1) t = some c
  rw [forever, ← h]
  unfold followedBy
  cases hbody : body t with
  | error fault => rfl
  | ok c' =>
    cases c' with
    | next value t' => exact absurd hbody (hstop value t')
    | entered t' frame => rfl
    | waiting t' => rfl
    | halted t' => rfl

end Forever

/-- The loop from a prompt on. -/
theorem shell_loop {data : Bytes} (t : Task) (hready : Ready p t)
    (hloads : Loads t.kernel.rootfs (ascii "/bin/hello") data) :
    ∃ c, Settles (fun fuel => forever (shell_turn layout p) fuel t) (.ok c) ∧
      Answers layout data t (Session.start.after (listed t.kernel.rootfs) t.kernel.keyboard) c := by
  induction hn : t.kernel.keyboard.length using Nat.strong_induction_on generalizing t with
  | _ n ih =>
    obtain ⟨t1, w1, hkeys, hturn⟩ := @turn_reads layout p t data hready hloads
    have hsession := @Session.after_typed (listed t.kernel.rootfs) 126 [] prompt t.kernel.keyboard rfl
    have hwaits := @typed_waits t.kernel.keyboard decoded 127
    have hsome := @typed_codes_ne_nil t.kernel.keyboard decoded 126
    have hcodes := w1.keys
    rw [hkeys] at hcodes
    have hcalls1 : ∀ c ∈ ([.sys_write, .sys_read] : List Service), c ∈ shellCalls := by decide
    generalize typed decoded 127 t.kernel.keyboard = r at *
    cases hended : r.ended with
    | false =>
      rw [hended, if_neg (by decide)] at hturn hsession
      have hall : t.kernel.keyboard = r.codes := by
        rw [hcodes, hwaits hended, List.append_nil]
      refine ⟨.waiting t1, forever_stops (x := none) ?_ ?_, ?_⟩
      · rw [followedBy, hturn]
      · rw [hturn]
        exact fun _ _ => nofun
      · unfold Session.start
        rw [hall, hsession]
        refine ⟨?_, ⟨_, w1.calls, hcalls1⟩, congrArg _ w1.process, trivial⟩
        change t1.kernel.console = t.kernel.console ++ (prompt ++ [])
        rw [w1.console, List.append_nil]
    | true =>
      rw [hended, if_pos rfl] at hturn hsession
      obtain ⟨c, hrun, hdoes⟩ := hturn
      have hafter : Session.start.after (listed t.kernel.rootfs) t.kernel.keyboard =
          (Session.execute (listed t.kernel.rootfs) Session.start (stripped r.text)).after
            (listed t.kernel.rootfs) r.rest := by
        rw [hcodes, Session.after_append]
        exact congrArg (fun s => Session.after _ s r.rest) hsession
      rw [hafter]
      unfold Session.execute
      cases hreply : reply (listed t.kernel.rootfs) (stripped r.text) with
      | prints text =>
        rw [hreply] at hdoes
        obtain ⟨t2, calls, rfl, w2, hcalls2⟩ := hdoes.prints
        have w12 := w1.trans w2
        have hready2 := hready.went w12
        have hlt : t2.kernel.keyboard.length < n := by
          have hlen := congrArg List.length w12.keys
          have hpos := List.length_pos_of_ne_nil (hsome hended)
          rw [List.length_append, List.length_append] at hlen
          omega
        obtain ⟨c', hsettles, hanswers⟩ := ih _ hlt t2 hready2 (by
          rw [w12.rootfs]
          exact hloads) rfl
        refine ⟨c', forever_goes hrun hsettles, ?_⟩
        have hrest : t2.kernel.keyboard = r.rest := by
          rw [← hkeys]
          exact w2.keys.symm
        rw [hrest, w12.rootfs] at hanswers
        have hbehind := hanswers.behind w12 (by
          intro c hc
          rcases List.mem_append.mp hc with hc | hc
          · exact hcalls1 c hc
          · exact hcalls2 c hc)
        rw [← Session.after_behind] at hbehind
        have hstart : Session.start.behind (prompt ++ text) =
            { line := [], text := Session.start.text ++ (text ++ prompt), ending := none } := by
          unfold Session.behind Session.start
          rw [List.append_assoc]
        rwa [hstart] at hbehind
      | ends ending =>
        rw [hreply] at hdoes
        dsimp only
        rw [Session.after_ended _ rfl]
        cases ending with
        | exit =>
          obtain ⟨t2, rfl, hconsole, hcalls, hcwd⟩ := hdoes.exits
          have hstopped : shell_turn layout p t = .ok (.halted t2) := hrun
          refine ⟨.halted t2, forever_stops (x := none) ?_ ?_, ?_⟩
          · rw [followedBy, hstopped]
          · rw [hstopped]
            exact fun _ _ => nofun
          · refine ⟨?_, ⟨[.sys_write, .sys_read, .sys_exit], ?_, by decide⟩, ?_, trivial⟩
            · change t2.kernel.console = t.kernel.console ++ (prompt ++ ascii "MANTLE_USERSPACE_EXIT\n")
              rw [hconsole, w1.console, List.append_assoc]
            · change t2.calls = _
              rw [hcalls, w1.calls, List.append_assoc]
              rfl
            · change t2.kernel.process.cwd = _
              rw [hcwd, w1.process]
        | hello =>
          obtain ⟨t2, frame, t0, rfl, w0, hhands, hfinished⟩ := hdoes.enters
          have hstopped : shell_turn layout p t = .ok (.entered t2 frame) := hrun
          have w10 := w1.trans w0
          refine ⟨.entered t2 frame, forever_stops (x := none) ?_ ?_, ?_⟩
          · rw [followedBy, hstopped]
          · rw [hstopped]
            exact fun _ _ => nofun
          · have hready0 := hready.went w10
            refine ⟨?_, ⟨[.sys_write, .sys_read, .sys_exec], ?_, by decide⟩, ?_,
              t0, hhands, w10.rootfs, hfinished.trans hready0.finished⟩
            · change t2.kernel.console = t.kernel.console ++ (prompt ++ [])
              rw [hhands.console, greeting_of_seen hready0.seen, w10.console, List.append_nil,
                List.append_nil]
            · change t2.calls = _
              rw [hhands.calls, w10.calls, List.append_nil, List.append_assoc]
              rfl
            · change t2.kernel.process.cwd = _
              rw [hhands.cwd, w10.process]

end mantle.user
