-- The laws of the descriptors of a line. Between two turns of its loop the
-- shell holds one end of one pipe besides its own files, and each child starts
-- with the two ends that are meant for it. It also keeps one that is not.
import MantleOS.Pipeline

open checked bytes filetable pipes

namespace mantle.shell

/-! ## The children of `execute` -/

/-- A descriptor that is moved leaves its place for the new one. -/
theorem move_file {t : Files} {old new : Nat} {a : pipes.File plain_file}
    (hold : t.file old = some a) (hnew : new < t.limit) (k : Nat) :
    (move t old new).file k = if k = old then none else if k = new then some a else t.file k := by
  unfold move
  rw [Table.dup2_open hold hnew, Option.getD_some, Table.close_file, Table.set_file]

theorem move_limit {t : Files} {old new : Nat} : (move t old new).limit = t.limit := by
  unfold move
  rw [Table.close_limit]
  unfold Table.dup2
  split
  · rfl
  · split <;> rfl

/-- A redirection puts its file in the place of an open descriptor and changes nothing else. -/
theorem redirect_file {opens : Bytes → open_mode → Bool} {t u : Files} {path : Bytes}
    {mode : open_mode} {fd : Nat} (hfd : t.file fd ≠ none)
    (h : redirect opens t path mode fd = .ok u) :
    u.limit = t.limit ∧
      ∀ k, u.file k = if k = fd then some (.other (.opened path mode)) else t.file k := by
  unfold redirect at h
  split at h
  · split at h
    · cases h
    · rename_i f opened hinstall
      cases h
      obtain ⟨hfree, _, _, hlimit, hfile⟩ := Table.install_eq_some hinstall
      have hne : f ≠ fd := by
        intro heq
        rw [heq] at hfree
        exact hfd hfree
      have hlt : fd < opened.limit := by
        obtain ⟨a, ha⟩ := Option.ne_none_iff_exists'.mp hfd
        rw [hlimit]
        exact Table.open_below ha
      have hnew : opened.file f = some (.other (.opened path mode)) := by rw [hfile, if_pos rfl]
      refine ⟨by rw [move_limit, hlimit], fun k => ?_⟩
      rw [move_file hnew hlt]
      by_cases hf : k = f
      · rw [if_pos hf, hf, if_neg hne, hfree]
      · rw [if_neg hf, hfile, if_neg hf]
  · cases h

theorem redirect_error {opens : Bytes → open_mode → Bool} {t : Files} {path : Bytes}
    {mode : open_mode} {fd : Nat} {status : Int} (h : redirect opens t path mode fd = .error status) :
    status = 126 ∧ (opens path mode = false ∨ ∀ k < t.limit, t.file k ≠ none) := by
  unfold redirect at h
  split at h
  · split at h
    · rename_i hinstall
      cases h
      exact ⟨rfl, .inr (Table.install_eq_none.mp hinstall)⟩
    · cases h
  · rename_i hopens
    cases h
    exact ⟨rfl, .inl (by simpa using hopens)⟩

/-! ## Between two turns -/

/-- The files of a shell that can run a line: its standard input and output are open, and the pipes
from the first one of the line on are not yet made. -/
structure Ready (first : Nat) (t : Files) : Prop where
  stdin : t.file 0 ≠ none
  stdout : t.file 1 ≠ none
  fresh : ∀ fd k, first ≤ k → t.file fd ≠ some (.read_end k) ∧ t.file fd ≠ some (.write_end k)

/-- The files of the shell at the command of an index: its own, and the read end of the pipe before
that command. -/
def held (first index in_fd : Nat) (own : Files) (fd : Nat) : Option (pipes.File plain_file) :=
  if 0 < index ∧ fd = in_fd then some (.read_end (first + (index - 1))) else own.file fd

structure Between (own : Files) (first index in_fd : Nat) (t : Files) : Prop where
  limit_eq : t.limit = own.limit
  at_stdin : index = 0 → in_fd = 0
  free : 0 < index → own.file in_fd = none
  file_eq : ∀ fd, t.file fd = held first index in_fd own fd

theorem Between.start (own : Files) (first : Nat) : Between own first 0 0 own where
  limit_eq := rfl
  at_stdin := fun _ => rfl
  free := by simp
  file_eq := by simp [held]

theorem Ready.free_descriptor {first fd : Nat} {own : Files} (h : Ready first own)
    (hfd : own.file fd = none) : 2 ≤ fd := by
  by_contra hlt
  obtain rfl | rfl : fd = 0 ∨ fd = 1 := by omega
  · exact h.stdin hfd
  · exact h.stdout hfd

variable {m : Machine} {opens : Bytes → open_mode → Bool} {first count index in_fd : Nat}
  {own t : Files}

/-- The last command of a line gets no pipe. -/
theorem open_pipe_last (h : ¬ index + 1 < count) :
    open_pipe m first count index in_fd t = some (in_fd, 1, t) := by
  rw [open_pipe, if_neg h]

/-- The two new descriptors of a command that is not the last one. -/
structure Piped (own : Files) (first index in_fd read_fd write_fd : Nat) (t : Files) : Prop where
  limit_eq : t.limit = own.limit
  read_free : own.file read_fd = none
  write_free : own.file write_fd = none
  write_lt : write_fd < own.limit
  ends_ne : read_fd ≠ write_fd
  in_ne : 0 < index → read_fd ≠ in_fd ∧ write_fd ≠ in_fd
  file_eq : ∀ fd, t.file fd =
    if fd = write_fd then some (.write_end (first + index))
    else if fd = read_fd then some (.read_end (first + index))
    else held first index in_fd own fd

theorem Between.piped {read_fd write_fd : Nat} {opened : Files}
    (hb : Between own first index in_fd t) (hmore : index + 1 < count)
    (h : open_pipe m first count index in_fd t = some (read_fd, write_fd, opened)) :
    Piped own first index in_fd read_fd write_fd opened := by
  rw [open_pipe, if_pos hmore] at h
  split at h
  · obtain ⟨hr, hw, hlt, hlimit, _, hsame, hfile⟩ := Table.pipe_eq_some h
    have hfree : ∀ fd, t.file fd = none → own.file fd = none ∧ (0 < index → fd ≠ in_fd) := by
      intro fd hfd
      rw [hb.file_eq, held] at hfd
      split at hfd
      · cases hfd
      · rename_i hcond
        exact ⟨hfd, fun hpos heq => hcond ⟨hpos, heq⟩⟩
    obtain ⟨hr_own, hr_in⟩ := hfree read_fd hr
    obtain ⟨hw_own, hw_in⟩ := hfree write_fd hw
    exact {
      limit_eq := by rw [hsame, hb.limit_eq]
      read_free := hr_own
      write_free := hw_own
      write_lt := by rw [← hb.limit_eq]; exact hlimit
      ends_ne := by omega
      in_ne := fun hpos => ⟨hr_in hpos, hw_in hpos⟩
      file_eq := fun fd => by rw [hfile, hb.file_eq] }
  · cases h

/-- After a command with a pipe the shell keeps the read end and gives up the rest. -/
theorem Piped.close_ends {read_fd write_fd : Nat} {opened : Files} (hready : Ready first own)
    (hb : Between own first index in_fd t) (hmore : index + 1 < count)
    (h : Piped own first index in_fd read_fd write_fd opened) :
    Between own first (index + 1) read_fd (close_ends count index in_fd write_fd opened) := by
  have hfile : ∀ fd, (shell.close_ends count index in_fd write_fd opened).file fd =
      if fd = write_fd then none else if in_fd ≠ 0 ∧ fd = in_fd then none else opened.file fd := by
    intro fd
    unfold shell.close_ends
    rw [if_pos hmore, Table.close_file]
    by_cases hin : in_fd = 0
    · simp [hin]
    · simp [hin]
  refine ⟨?_, by simp, fun _ => h.read_free, fun fd => ?_⟩
  · unfold shell.close_ends
    rw [if_pos hmore, Table.close_limit]
    split
    · rw [Table.close_limit, h.limit_eq]
    · exact h.limit_eq
  · rw [hfile, held]
    simp only [Nat.zero_lt_succ, true_and, Nat.add_sub_cancel]
    by_cases hw : fd = write_fd
    · subst hw
      rw [if_pos rfl, if_neg (Ne.symm h.ends_ne), h.write_free]
    rw [if_neg hw]
    by_cases hin : in_fd ≠ 0 ∧ fd = in_fd
    · obtain ⟨hpos, rfl⟩ := hin
      have hindex : 0 < index := by
        by_contra hzero
        exact hpos (hb.at_stdin (by omega))
      rw [if_pos ⟨hpos, rfl⟩, if_neg (Ne.symm (h.in_ne hindex).1), hb.free hindex]
    · rw [if_neg hin, h.file_eq, if_neg hw]
      by_cases hr : fd = read_fd
      · rw [if_pos hr, if_pos hr]
      · rw [if_neg hr, if_neg hr, held, if_neg]
        rintro ⟨hindex, rfl⟩
        exact hin ⟨fun hzero => hready.stdin (by rw [← hzero]; exact hb.free hindex), rfl⟩

/-- After the last command the shell has its own files again. -/
theorem Between.close_ends (hready : Ready first own) (hb : Between own first index in_fd t)
    (hlast : ¬ index + 1 < count) : close_ends count index in_fd 1 t = own := by
  unfold shell.close_ends
  rw [if_neg hlast]
  apply Table.ext_file
  · split
    · rw [Table.close_limit, hb.limit_eq]
    · exact hb.limit_eq
  · intro fd
    by_cases hindex : 0 < index
    · have hin : in_fd ≠ 0 := fun hzero => hready.stdin (by rw [← hzero]; exact hb.free hindex)
      rw [if_pos hin, Table.close_file, hb.file_eq, held]
      by_cases hfd : fd = in_fd
      · rw [if_pos hfd, hfd, hb.free hindex]
      · rw [if_neg hfd, if_neg (by simp [hfd])]
    · rw [if_neg (by simp [hb.at_stdin (by omega)]), hb.file_eq, held, if_neg (by simp [hindex])]

/-! ## The files of a child -/

/-- What the command of an index is to read as its standard input. -/
def stdin_of (own : Files) (first index : Nat) (c : command) : Option (pipes.File plain_file) :=
  match c.input with
  | some path => some (.other (.opened path .O_RDONLY))
  | none => if 0 < index then some (.read_end (first + (index - 1))) else own.file 0

/-- What the command of an index is to have as its standard output. -/
def stdout_of (own : Files) (first count index : Nat) (c : command) :
    Option (pipes.File plain_file) :=
  match c.output with
  | some path => some (.other (.opened path (append_mode c.append)))
  | none => if index + 1 < count then some (.write_end (first + index)) else own.file 1

/-- The files with which a command starts: the two that are meant for it, those of the shell, and
when a command follows, the read end of the pipe to it. -/
structure Wired (own : Files) (first count index : Nat) (c : command) (t : Files) : Prop where
  limit_eq : t.limit = own.limit
  stdin : t.file 0 = stdin_of own first index c
  stdout : t.file 1 = stdout_of own first count index c
  alone : ¬ index + 1 < count → ∀ fd, 2 ≤ fd → t.file fd = own.file fd
  leak : index + 1 < count → ∃ leak, own.file leak = none ∧
    ∀ fd, 2 ≤ fd → t.file fd =
      if fd = leak then some (.read_end (first + index)) else own.file fd

/-- The files of a child before its redirections. -/
def plumbed (own : Files) (first count index read_fd : Nat) (fd : Nat) :
    Option (pipes.File plain_file) :=
  if fd = 0 ∧ 0 < index then some (.read_end (first + (index - 1)))
  else if fd = 1 ∧ index + 1 < count then some (.write_end (first + index))
  else if fd = read_fd ∧ index + 1 < count then some (.read_end (first + index))
  else own.file fd

/-- The first two moves of a child. -/
def take_ends (t : Files) (in_fd out_fd : Nat) : Files :=
  let t := if in_fd ≠ 0 then move t in_fd 0 else t
  if out_fd ≠ 1 then move t out_fd 1 else t

theorem take_ends_limit (t : Files) (in_fd out_fd : Nat) :
    (take_ends t in_fd out_fd).limit = t.limit := by
  unfold take_ends
  dsimp only
  split <;> split <;> simp only [move_limit]

theorem Piped.take_ends {read_fd write_fd : Nat} {opened : Files} (hready : Ready first own)
    (hb : Between own first index in_fd t) (hmore : index + 1 < count)
    (h : Piped own first index in_fd read_fd write_fd opened) (fd : Nat) :
    (take_ends opened in_fd write_fd).file fd = plumbed own first count index read_fd fd := by
  have hlimit : 1 < opened.limit := by
    obtain ⟨a, ha⟩ := Option.ne_none_iff_exists'.mp hready.stdout
    rw [h.limit_eq]
    exact Table.open_below ha
  have hwrite := hready.free_descriptor h.write_free
  have hread := hready.free_descriptor h.read_free
  have hin : ∀ k, (if in_fd ≠ 0 then move opened in_fd 0 else opened).file k =
      if k = 0 ∧ 0 < index then some (.read_end (first + (index - 1)))
      else if k = in_fd ∧ 0 < index then none else opened.file k := by
    intro k
    by_cases hindex : 0 < index
    · have hin2 := hready.free_descriptor (hb.free hindex)
      have hopen : opened.file in_fd = some (.read_end (first + (index - 1))) := by
        rw [h.file_eq, if_neg (Ne.symm (h.in_ne hindex).2), if_neg (Ne.symm (h.in_ne hindex).1),
          held, if_pos ⟨hindex, rfl⟩]
      rw [if_pos (by omega), move_file hopen (by omega)]
      simp only [hindex, and_true]
      by_cases hk : k = in_fd
      · rw [if_pos hk, if_neg (by omega), if_pos hk]
      · rw [if_neg hk, if_neg hk]
    · have hzero : in_fd = 0 := hb.at_stdin (by omega)
      simp [hzero, hindex]
  have hwrite_open : (if in_fd ≠ 0 then move opened in_fd 0 else opened).file write_fd =
      some (.write_end (first + index)) := by
    rw [hin, if_neg (by omega), if_neg, h.file_eq, if_pos rfl]
    rintro ⟨heq, hindex⟩
    exact (h.in_ne hindex).2 heq
  have hlimit' : 1 < (if in_fd ≠ 0 then move opened in_fd 0 else opened).limit := by
    split
    · rw [move_limit]
      exact hlimit
    · exact hlimit
  unfold shell.take_ends plumbed
  rw [if_pos (show write_fd ≠ 1 by omega), move_file hwrite_open hlimit', hin]
  simp only [hmore, and_true]
  by_cases hw : fd = write_fd
  · subst hw
    rw [if_pos rfl, if_neg (by omega), if_neg (by omega), if_neg (Ne.symm h.ends_ne), h.write_free]
  rw [if_neg hw]
  by_cases h1 : fd = 1
  · rw [if_pos h1, if_neg (by omega), if_pos h1]
  rw [if_neg h1, if_neg h1]
  by_cases h0 : fd = 0 ∧ 0 < index
  · rw [if_pos h0, if_pos h0]
  rw [if_neg h0, if_neg h0]
  by_cases hheld : fd = in_fd ∧ 0 < index
  · obtain ⟨rfl, hindex⟩ := hheld
    rw [if_pos ⟨rfl, hindex⟩, if_neg (Ne.symm (h.in_ne hindex).1), hb.free hindex]
  · rw [if_neg hheld, h.file_eq, if_neg hw]
    by_cases hr : fd = read_fd
    · rw [if_pos hr, if_pos hr]
    · rw [if_neg hr, if_neg hr, held, if_neg]
      rintro ⟨hindex, heq⟩
      exact hheld ⟨heq, hindex⟩

theorem Between.take_ends (hready : Ready first own) (hb : Between own first index in_fd t)
    (hlast : ¬ index + 1 < count) (read_fd fd : Nat) :
    (take_ends t in_fd 1).file fd = plumbed own first count index read_fd fd := by
  unfold shell.take_ends plumbed
  simp only [hlast, and_false, if_false, ne_eq, not_true_eq_false]
  by_cases hindex : 0 < index
  · have hin2 := hready.free_descriptor (hb.free hindex)
    have hopen : t.file in_fd = some (.read_end (first + (index - 1))) := by
      rw [hb.file_eq, held, if_pos ⟨hindex, rfl⟩]
    have hlimit : 0 < t.limit := by
      have := Table.open_below hopen
      omega
    rw [if_pos (show ¬ in_fd = 0 by omega), move_file hopen hlimit]
    simp only [hindex, and_true]
    by_cases hk : fd = in_fd
    · rw [if_pos hk, if_neg (show ¬ fd = 0 by omega), hk, hb.free hindex]
    · rw [if_neg hk, hb.file_eq, held, if_neg (show ¬ (0 < index ∧ fd = in_fd) from fun h => hk h.2)]
  · have hzero : in_fd = 0 := hb.at_stdin (by omega)
    rw [if_neg (by simp [hzero]), if_neg (by simp [hindex]), hb.file_eq, held,
      if_neg (by simp [hindex])]

theorem child_files_eq (opens : Bytes → open_mode → Bool) (t : Files) (c : command)
    (in_fd out_fd : Nat) :
    child_files opens t c in_fd out_fd =
      ((match c.input with
        | some path => redirect opens (take_ends t in_fd out_fd) path .O_RDONLY 0
        | none => .ok (take_ends t in_fd out_fd)) >>= fun t =>
      match c.output with
      | some path => redirect opens t path (append_mode c.append) 1
      | none => .ok t) := by
  unfold child_files
  cases c.input <;> rfl

/-- Why a child ends before its command starts: a file of its redirections does not open, or the
table of its files is full. -/
def Hindered (opens : Bytes → open_mode → Bool) (own : Files) (c : command) : Prop :=
  (∃ path, c.input = some path ∧ opens path .O_RDONLY = false) ∨
  (∃ path, c.output = some path ∧ opens path (append_mode c.append) = false) ∨
  own.limit ≤ own.count + 1

/-- What `child_files` may come to for the command of an index. -/
def ChildSpec (opens : Bytes → open_mode → Bool) (own : Files) (first count index : Nat)
    (c : command) : Except Int Files → Prop
  | .ok files => Wired own first count index c files
  | .error status => status = 126 ∧ Hindered opens own c

variable {c : command}

/-- A table that is full after the first two moves was full but for one descriptor. -/
theorem full_of_plumbed {read_fd : Nat} {u : Files} (hlimit : u.limit = own.limit)
    (hready : Ready first own)
    (hu : ∀ fd, 2 ≤ fd → u.file fd = plumbed own first count index read_fd fd)
    (hfull : ∀ k < u.limit, u.file k ≠ none) : own.limit ≤ own.count + 1 := by
  apply Table.limit_le_count read_fd
  intro k hk hne hnone
  have h2 := hready.free_descriptor hnone
  apply hfull k (by omega)
  rw [hu k h2, plumbed, if_neg (by omega), if_neg (by omega), if_neg (by simp [hne]), hnone]

theorem plumbed_child {read_fd : Nat} {u : Files} (hready : Ready first own)
    (hread : index + 1 < count → own.file read_fd = none) (hlimit : u.limit = own.limit)
    (hu : ∀ fd, u.file fd = plumbed own first count index read_fd fd) :
    ChildSpec opens own first count index c
      ((match c.input with
        | some path => redirect opens u path .O_RDONLY 0
        | none => .ok u) >>= fun t =>
      match c.output with
      | some path => redirect opens t path (append_mode c.append) 1
      | none => .ok t) := by
  have hopen0 : u.file 0 ≠ none := by
    rw [hu, plumbed]
    split
    · simp
    · rw [if_neg (by simp)]
      split
      · simp
      · exact hready.stdin
  have hopen1 : u.file 1 ≠ none := by
    rw [hu, plumbed, if_neg (by simp)]
    split
    · simp
    · split
      · simp
      · exact hready.stdout
  -- The input comes first, and leaves all but descriptor 0 as it was.
  have hinput : ∀ r, (match c.input with
      | some path => redirect opens u path .O_RDONLY 0
      | none => .ok u) = r →
      match r with
      | .ok t => t.limit = u.limit ∧ t.file 0 = stdin_of own first index c ∧
          ∀ fd, fd ≠ 0 → t.file fd = u.file fd
      | .error status => status = 126 ∧ Hindered opens own c := by
    rintro r rfl
    cases hc : c.input with
    | none =>
      refine ⟨rfl, ?_, fun _ _ => rfl⟩
      rw [hu, plumbed, stdin_of, hc]
      simp only [true_and]
      split
      · rfl
      · rw [if_neg (by simp), if_neg]
        rintro ⟨hzero, hmore⟩
        exact hready.stdin (hzero ▸ hread hmore)
    | some path =>
      dsimp only
      cases hr : redirect opens u path .O_RDONLY 0 with
      | ok t =>
        obtain ⟨hsame, hfile⟩ := redirect_file hopen0 hr
        refine ⟨hsame, ?_, fun fd hfd => by rw [hfile, if_neg hfd]⟩
        rw [hfile, if_pos rfl, stdin_of, hc]
      | error status =>
        obtain ⟨hstatus, hcause⟩ := redirect_error hr
        refine ⟨hstatus, ?_⟩
        obtain hopens | hfull := hcause
        · exact .inl ⟨path, hc, hopens⟩
        · exact .inr (.inr (full_of_plumbed hlimit hready (fun fd _ => hu fd) hfull))
  generalize hfirst : (match c.input with
    | some path => redirect opens u path .O_RDONLY 0
    | none => .ok u) = r at *
  have hspec := hinput r rfl
  cases r with
  | error status => exact hspec
  | ok t =>
    obtain ⟨hsame, hstdin, hrest⟩ := hspec
    rw [ok_bind]
    have hplumbed : ∀ fd, 2 ≤ fd → t.file fd = plumbed own first count index read_fd fd := by
      intro fd hfd
      rw [hrest fd (by omega), hu]
    -- What the output leaves is what the law says.
    have hwired : ∀ v : Files, v.limit = own.limit → v.file 0 = t.file 0 →
        v.file 1 = stdout_of own first count index c →
        (∀ fd, 2 ≤ fd → v.file fd = t.file fd) → Wired own first count index c v := by
      intro v hvlimit hv0 hv1 hv
      refine ⟨hvlimit, by rw [hv0, hstdin], hv1, ?_, ?_⟩
      · intro hlast fd hfd
        rw [hv fd hfd, hplumbed fd hfd, plumbed, if_neg (by omega), if_neg (by omega),
          if_neg (by simp [hlast])]
      · intro hmore
        refine ⟨read_fd, hread hmore, fun fd hfd => ?_⟩
        rw [hv fd hfd, hplumbed fd hfd, plumbed, if_neg (by omega), if_neg (by omega)]
        simp only [hmore, and_true]
    cases hc : c.output with
    | none =>
      refine hwired t (by rw [hsame, hlimit]) rfl ?_ fun _ _ => rfl
      rw [hrest 1 (by omega), hu, plumbed, stdout_of, hc, if_neg (by simp)]
      simp only [true_and]
      split
      · rfl
      · rw [if_neg]
        rintro ⟨hone, hmore⟩
        exact hready.stdout (hone ▸ hread hmore)
    | some path =>
      dsimp only
      cases hr : redirect opens t path (append_mode c.append) 1 with
      | ok v =>
        obtain ⟨hvlimit, hfile⟩ := redirect_file (by rw [hrest 1 (by omega)]; exact hopen1) hr
        refine hwired v (by rw [hvlimit, hsame, hlimit]) ?_ ?_ ?_
        · rw [hfile, if_neg (by omega)]
        · rw [hfile, if_pos rfl, stdout_of, hc]
        · intro fd hfd
          rw [hfile, if_neg (by omega)]
      | error status =>
        obtain ⟨hstatus, hcause⟩ := redirect_error hr
        refine ⟨hstatus, ?_⟩
        obtain hopens | hfull := hcause
        · exact .inr (.inl ⟨path, hc, hopens⟩)
        · exact .inr (.inr (full_of_plumbed (by rw [hsame, hlimit]) hready hplumbed hfull))

/-! ## The turns of the loop -/

/-- The files of the shell after the turn of an index. -/
def After (own : Files) (first count index : Nat) (t : Files) : Prop :=
  if index + 1 < count then ∃ in_fd, Between own first (index + 1) in_fd t else t = own

/-- What the turn of an index comes to for its command. -/
structure TurnSpec (opens : Bytes → open_mode → Bool) (own : Files) (first count index : Nat)
    (c : command) (turned : Turned) : Prop where
  files : After own first count index turned.files
  child : ∀ child, turned.child = some child → child.index = index ∧
    (∃ argv, child.c = { c with argv }) ∧
    ChildSpec opens own first count index child.c child.files

theorem execute_child {sh : Shell} {out_fd : Nat} {background : Bool} {child : Child}
    (h : (execute m index sh c in_fd out_fd background).events.findSome? (child_of opens t) =
      some child) :
    child.index = index ∧ ∃ argv, child.c = { c with argv } ∧
      child.files = child_files opens t child.c in_fd out_fd := by
  obtain ⟨event, hevent, hchild⟩ := List.exists_of_findSome?_eq_some h
  have hforked : ∃ argv, event = .forked index { c with argv } in_fd out_fd := by
    unfold execute at hevent
    split at hevent
    · simp only [List.mem_singleton] at hevent
      subst hevent
      cases hchild
    · rename_i b after argv printed _
      have hown : ∀ own : List Event, (own = if is_builtin c then
          Event.builtin index sh after :: (printed.toList.map (Event.puts index)) else []) →
          event ∉ own := by
        rintro own rfl hmem
        split at hmem
        · simp only [List.mem_cons, List.mem_map, Option.mem_toList] at hmem
          obtain rfl | ⟨text, _, rfl⟩ := hmem <;> cases hchild
        · cases hmem
      dsimp only at hevent
      split at hevent
      · exact absurd hevent (hown _ rfl)
      · split at hevent
        · exact absurd hevent (hown _ rfl)
        · rw [List.mem_append, List.mem_singleton] at hevent
          obtain hmem | rfl := hevent
          · exact absurd hmem (hown _ rfl)
          · exact ⟨argv, rfl⟩
  obtain ⟨argv, rfl⟩ := hforked
  cases hchild
  exact ⟨rfl, argv, rfl, rfl⟩

/-- One turn, from the files between two turns to the files between the next two. -/
theorem turn_spec (opens : Bytes → open_mode → Bool) (sh : Shell) (c : command) (background : Bool)
    {read_fd write_fd : Nat} {opened : Files} (hready : Ready first own) (hb : Between own first index in_fd t)
    (hopen : open_pipe m first count index in_fd t = some (read_fd, write_fd, opened)) :
    TurnSpec opens own first count index c
        { read_fd, write_fd
          child := (execute m index sh c in_fd write_fd background).events.findSome?
            (child_of opens opened)
          files := close_ends count index in_fd write_fd opened } ∧
      (index + 1 < count →
        Between own first (index + 1) read_fd (close_ends count index in_fd write_fd opened)) := by
  have hchild : ∀ (hlimit : opened.limit = own.limit)
      (hread : index + 1 < count → own.file read_fd = none)
      (hu : ∀ fd, (take_ends opened in_fd write_fd).file fd =
        plumbed own first count index read_fd fd) child,
      (execute m index sh c in_fd write_fd background).events.findSome? (child_of opens opened) =
        some child → child.index = index ∧ (∃ argv, child.c = { c with argv }) ∧
        ChildSpec opens own first count index child.c child.files := by
    intro hlimit hread hu child h
    obtain ⟨hindex, argv, hc, hfiles⟩ := execute_child h
    refine ⟨hindex, ⟨argv, hc⟩, ?_⟩
    rw [hfiles, child_files_eq]
    exact plumbed_child hready hread (by rw [take_ends_limit, hlimit]) hu
  by_cases hmore : index + 1 < count
  · have hpiped := hb.piped hmore hopen
    have hclose := hpiped.close_ends hready hb hmore
    refine ⟨⟨?_, hchild hpiped.limit_eq (fun _ => hpiped.read_free)
      (hpiped.take_ends hready hb hmore)⟩, fun _ => hclose⟩
    rw [After, if_pos hmore]
    exact ⟨read_fd, hclose⟩
  · rw [open_pipe_last hmore] at hopen
    cases hopen
    refine ⟨⟨?_, hchild hb.limit_eq (fun h => absurd h hmore) (hb.take_ends hready hmore _)⟩,
      fun h => absurd h hmore⟩
    rw [After, if_neg hmore]
    exact hb.close_ends hready hmore

/-- Every turn of the loop does what the law of a turn says. -/
theorem plumb_loop_turns {sh : Shell} {cmds : List command} (hready : Ready first own)
    (hb : cmds ≠ [] → Between own first index in_fd t) (hcount : index + cmds.length = count)
    (k : Nat) (turned : Turned)
    (h : (plumb_loop m opens first count index in_fd sh t cmds).turns[k]? = some turned) :
    ∃ c, cmds[k]? = some c ∧ TurnSpec opens own first count (index + k) c turned := by
  induction cmds generalizing index in_fd sh t k with
  | nil => cases h
  | cons c rest ih =>
    unfold plumb_loop at h
    cases hopen : open_pipe m first count index in_fd t with
    | none =>
      rw [hopen] at h
      cases h
    | some ends =>
      obtain ⟨read_fd, write_fd, opened⟩ := ends
      rw [hopen] at h
      obtain ⟨hspec, hnext⟩ := turn_spec opens sh c (1 < count) hready (hb (by simp)) hopen
      dsimp only at h
      cases hresult : (execute m index sh c in_fd write_fd (1 < count)).result with
      | error status =>
        rw [hresult] at h
        cases k with
        | zero =>
          cases h
          exact ⟨c, rfl, hspec⟩
        | succ k => cases h
      | ok status =>
        rw [hresult] at h
        cases k with
        | zero =>
          cases h
          exact ⟨c, rfl, hspec⟩
        | succ k =>
          rw [List.length_cons] at hcount
          obtain ⟨d, hd, hturn⟩ := ih (fun hrest => hnext (by
            have := List.length_pos_iff.mpr hrest
            omega)) (by omega) k h
          refine ⟨d, hd, ?_⟩
          rw [show index + (k + 1) = index + 1 + k by omega]
          exact hturn

/-- The files of a shell on a console. -/
def console (limit : Nat) : Files where
  file := fun fd => if fd < 3 ∧ fd < limit then some (.other (.given fd)) else none
  limit := limit
  closed_above := by
    intro fd hfd
    rw [if_neg (by omega)]

theorem console_ready {limit : Nat} (h : 2 < limit) : Ready 0 (console limit) := by
  refine ⟨?_, ?_, fun fd k _ => ?_⟩
  · simp only [console]
    rw [if_pos (by omega)]
    simp
  · simp only [console]
    rw [if_pos (by omega)]
    simp
  · simp only [console]
    split <;> simp

def program (name : String) : command :=
  { argv := [ascii name], input := none, output := none, append := false }

/-- The line `yes | head` on a console. -/
def yes_head : Plumbed :=
  plumb plainMachine (fun _ _ => true) 0 rootShell (console 8) [program "yes", program "head"]

/-- The files that the loop leaves, by how it ends. -/
def FilesSpec (own : Files) (first index : Nat) (p : Plumbed) : Prop :=
  match p.run.2.2 with
  | .ok _ => p.files = own
  | .error (.returned _) => ∃ in_fd, Between own first (index + p.turns.length) in_fd p.files
  | .error (.exited _) => True
  | .error .refused => False

theorem plumb_loop_files {sh : Shell} {cmds : List command} (hready : Ready first own)
    (hb : cmds ≠ [] → Between own first index in_fd t) (hown : cmds = [] → t = own)
    (hcount : index + cmds.length = count) :
    FilesSpec own first index (plumb_loop m opens first count index in_fd sh t cmds) := by
  induction cmds generalizing index in_fd sh t with
  | nil =>
    unfold plumb_loop FilesSpec
    exact hown rfl
  | cons c rest ih =>
    unfold plumb_loop
    cases hopen : open_pipe m first count index in_fd t with
    | none =>
      unfold FilesSpec
      exact ⟨in_fd, hb (by simp)⟩
    | some ends =>
      obtain ⟨read_fd, write_fd, opened⟩ := ends
      obtain ⟨hspec, hnext⟩ := turn_spec opens sh c (1 < count) hready (hb (by simp)) hopen
      dsimp only
      cases hresult : (execute m index sh c in_fd write_fd (1 < count)).result with
      | error status =>
        unfold FilesSpec
        trivial
      | ok status =>
        rw [List.length_cons] at hcount
        have hrest := @ih (index + 1) read_fd (close_ends count index in_fd write_fd opened)
          (execute m index sh c in_fd write_fd (1 < count)).sh
          (fun hrest => hnext (by
            have := List.length_pos_iff.mpr hrest
            omega))
          (fun hrest => by
            have hafter := hspec.files
            rw [After, if_neg (by simp [hrest] at hcount; omega)] at hafter
            exact hafter) (by omega)
        dsimp only
        unfold FilesSpec at hrest ⊢
        dsimp only
        generalize plumb_loop m opens first count (index + 1) read_fd
          (execute m index sh c in_fd write_fd (1 < count)).sh
          (close_ends count index in_fd write_fd opened) rest = p at *
        obtain ⟨turns, files, run⟩ := p
        obtain ⟨last, events, result⟩ := run
        cases result with
        | ok children => exact hrest
        | error early =>
          cases early with
          | refused => exact hrest
          | returned value =>
            obtain ⟨fd, hfd⟩ := hrest
            refine ⟨fd, ?_⟩
            rw [List.length_cons, show index + (turns.length + 1) = index + 1 + turns.length by omega]
            exact hfd
          | exited value => trivial

/-- A `pipe` that failed has stopped the line after at least one of its commands. -/
def Plumbed.stopped (p : Plumbed) : Bool :=
  match p.run.2.2 with
  | .error (.returned _) => !p.turns.isEmpty
  | _ => false

def Plumbed.exited (p : Plumbed) : Bool :=
  match p.run.2.2 with
  | .error (.exited _) => true
  | _ => false

/-- A shell that has run any number of lines, with the number of those that a `pipe` has stopped.
The pipes of each line are new ones. -/
inductive Serves (first : Nat) (own : Files) : Nat → Files → Nat → Prop
  | start : Serves first own first own 0
  | line {next n : Nat} {t : Files} (m : Machine) (opens : Bytes → open_mode → Bool) (sh : Shell)
      (cmds : List command) :
      Serves first own next t n → (plumb m opens next sh t cmds).exited = false →
      Serves first own (next + cmds.length) (plumb m opens next sh t cmds).files
        (n + if (plumb m opens next sh t cmds).stopped then 1 else 0)

theorem turns_length {sh : Shell} {cmds : List command} (hready : Ready first own) :
    (plumb m opens first sh own cmds).turns.length ≤ cmds.length := by
  by_contra hlt
  have hturn : (plumb m opens first sh own cmds).turns[cmds.length]? = some _ :=
    List.getElem?_eq_getElem (by omega)
  obtain ⟨c, hc, _⟩ := plumb_loop_turns hready (fun _ => Between.start own first)
    (Nat.zero_add _) cmds.length _ hturn
  rw [List.getElem?_eq_none (Nat.le_refl _)] at hc
  cases hc

/-- The files after one more read end. -/
theorem Between.leaks (hready : Ready first own) (hindex : 0 < index)
    (hb : Between own first index in_fd t) (hlt : in_fd < own.limit) :
    t.count = own.count + 1 ∧ (∀ fd, own.file fd ≠ none → t.file fd = own.file fd) ∧
      Ready (first + index) t := by
  have hfree := hb.free hindex
  have hfile : ∀ fd, t.file fd =
      if fd = in_fd then some (.read_end (first + (index - 1))) else own.file fd := by
    intro fd
    rw [hb.file_eq, held]
    simp only [hindex, true_and]
  have hkeep : ∀ fd, own.file fd ≠ none → t.file fd = own.file fd := by
    intro fd hfd
    rw [hfile, if_neg]
    rintro rfl
    exact hfd hfree
  refine ⟨Table.count_set hfree hlt hb.limit_eq hfile, hkeep, ?_, ?_, ?_⟩
  · rw [hkeep 0 hready.stdin]
    exact hready.stdin
  · rw [hkeep 1 hready.stdout]
    exact hready.stdout
  · intro fd k hk
    rw [hfile]
    split
    · simp only [ne_eq, Option.some.injEq, File.read_end.injEq, reduceCtorEq, not_false_eq_true,
        and_true]
      omega
    · exact hready.fresh fd k (by omega)

theorem Ready.mono {next : Nat} (h : Ready first t) (hle : first ≤ next) : Ready next t where
  stdin := h.stdin
  stdout := h.stdout
  fresh := fun fd k hk => h.fresh fd k (by omega)

/-- What one line does to the files of a shell that lives on. -/
theorem line_files {sh : Shell} {cmds : List command} (hready : Ready first own)
    (hexited : (plumb m opens first sh own cmds).exited = false) :
    (plumb m opens first sh own cmds).files.limit = own.limit ∧
    (plumb m opens first sh own cmds).files.count =
      own.count + (if (plumb m opens first sh own cmds).stopped then 1 else 0) ∧
    (∀ fd, own.file fd ≠ none → (plumb m opens first sh own cmds).files.file fd = own.file fd) ∧
    Ready (first + cmds.length) (plumb m opens first sh own cmds).files := by
  have hspec : FilesSpec own first 0 (plumb m opens first sh own cmds) :=
    plumb_loop_files hready (fun _ => Between.start own first) (fun _ => rfl)
      (Nat.zero_add cmds.length)
  have hlength : (plumb m opens first sh own cmds).turns.length ≤ cmds.length :=
    turns_length hready
  unfold Plumbed.exited at hexited
  unfold Plumbed.stopped
  unfold FilesSpec at hspec
  generalize plumb m opens first sh own cmds = p at *
  obtain ⟨turns, files, last, events, result⟩ := p
  dsimp only at *
  cases result with
  | ok children =>
    subst hspec
    exact ⟨rfl, by simp, fun _ _ => rfl, hready.mono (by omega)⟩
  | error early =>
    cases early with
    | refused => exact absurd hspec id
    | returned s =>
      obtain ⟨in_fd, hb⟩ := hspec
      rw [Nat.zero_add] at hb
      by_cases hturns : turns = []
      · subst hturns
        have hfiles : files = own := by
          apply Table.ext_file hb.limit_eq
          intro fd
          rw [hb.file_eq, held, if_neg (by simp)]
        subst hfiles
        exact ⟨rfl, by simp, fun _ _ => rfl, hready.mono (by omega)⟩
      · have hpos := List.length_pos_iff.mpr hturns
        have hopen : files.file in_fd = some (.read_end (first + (turns.length - 1))) := by
          rw [hb.file_eq, held, if_pos ⟨hpos, rfl⟩]
        have hlt := Table.open_below hopen
        rw [hb.limit_eq] at hlt
        obtain ⟨hcount, hkeep, hnext⟩ := hb.leaks hready hpos hlt
        refine ⟨hb.limit_eq, ?_, hkeep, hnext.mono (by omega)⟩
        rw [hcount, if_pos (by simpa using hturns)]
    | exited s => cases hexited

end mantle.shell
