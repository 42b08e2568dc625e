-- The commands of a line at work, with the shell still in its loop or already
-- waiting, in any order. The end of a command is the end of what the next one
-- reads. But each command but the last also keeps the read end of the pipe
-- that it writes to, so it is never told that nobody reads any more.
import MantleOS.PipelineLaws

open checked bytes filetable pipes

namespace mantle.shell

/-! ## The runs -/

/-- A line at work: the turns that its loop has made, and the processes. The shell has no command,
and the others are of the family of theirs. -/
structure Line where
  turn : Nat
  system : System (Option Nat) plain_file

def Line.start (shell : Nat) (own : Files) : Line where
  turn := 0
  system :=
    { procs := fun p => if p = shell then some { family := none, files := own } else none
      content := fun _ => [] }

/-- The files with which the command of a turn starts, when it does. -/
def Turned.joins (turned : Turned) : Option Files :=
  turned.child.bind (fun child => child.files.toOption)

/-- The line after one more turn of the loop. -/
def Line.forks (l : Line) (shell q : Nat) (files start : Files) : Line where
  turn := l.turn + 1
  system := (l.system.set shell (some { family := none, files })).set q
    (some { family := some l.turn, files := start })

/-- The same when no command starts. -/
def Line.goes_on (l : Line) (shell : Nat) (files : Files) : Line where
  turn := l.turn + 1
  system := l.system.set shell (some { family := none, files })

/-- What the processes do, each act with the family of the process. -/
abbrev Acts := List (Option Nat × Act)

/-- The turns of the loop, with the acts of the processes between them. The commands use no more
than their standard descriptors, and the shell may end. -/
inductive Line.Run (turns : List Turned) (shell capacity : Nat) : Line → Acts → Line → Prop
  | nil {l : Line} : Line.Run turns shell capacity l [] l
  | fork {l l' : Line} {acts : Acts} {q : Nat} {files start : Files} {turned : Turned} :
      Line.Run turns shell capacity l acts l' →
      l'.system.procs shell = some { family := none, files } → turns[l'.turn]? = some turned →
      turned.joins = some start → l'.system.procs q = none →
      Line.Run turns shell capacity l acts (l'.forks shell q turned.files start)
  | turn {l l' : Line} {acts : Acts} {files : Files} {turned : Turned} :
      Line.Run turns shell capacity l acts l' →
      l'.system.procs shell = some { family := none, files } → turns[l'.turn]? = some turned →
      turned.joins = none → Line.Run turns shell capacity l acts (l'.goes_on shell turned.files)
  | act {l l' : Line} {acts : Acts} {act : Act} {proc : Proc (Option Nat) plain_file}
      {s : System (Option Nat) plain_file} :
      Line.Run turns shell capacity l acts l' → pipes.Step capacity l'.system act s →
      l'.system.procs act.actor = some proc → act.Below 3 →
      (proc.family = none → act = .exit act.actor) →
      Line.Run turns shell capacity l (acts ++ [(proc.family, act)]) { l' with system := s }

variable {m : Machine} {opens : Bytes → open_mode → Bool} {first shell capacity : Nat}
  {own : Files} {turns : List Turned} {acts : Acts}

/-! ## What the processes have -/

/-- The files with which a family starts. Those of the shell change with its turns. -/
def starts (own : Files) (turns : List Turned) (turn : Nat) : Option Nat → Option Files
  | none => match turn with
    | 0 => some own
    | i + 1 => turns[i]?.map Turned.files
  | some j => if j < turn then turns[j]?.bind Turned.joins else none

/-- What holds of a line at any time. -/
structure Line.Good (own : Files) (turns : List Turned) (shell : Nat) (l : Line) : Prop where
  only_shell : ∀ p proc, l.system.procs p = some proc → proc.family = none → p = shell
  inherits : Inherits 3 (starts own turns l.turn) l.system

theorem Line.Good.start : (Line.start shell own).Good own turns shell := by
  refine ⟨?_, ?_⟩
  · intro p proc hp _
    simp only [Line.start] at hp
    split at hp
    · assumption
    · cases hp
  · intro p proc hp
    simp only [Line.start] at hp
    split at hp
    · cases hp
      exact ⟨own, rfl, fun fd => .inl rfl⟩
    · cases hp

theorem starts_succ {turn j : Nat} (h : j < turn) :
    starts own turns (turn + 1) (some j) = starts own turns turn (some j) := by
  simp only [starts, if_pos h, if_pos (Nat.lt_succ_of_lt h)]

/-- The processes but the shell have what they had before a turn. -/
theorem Line.Good.others {l : Line} (h : l.Good own turns shell) {p : Nat}
    {proc : Proc (Option Nat) plain_file} (hp : l.system.procs p = some proc) (hne : p ≠ shell) :
    ∃ files, starts own turns (l.turn + 1) proc.family = some files ∧
      ∀ fd, proc.files.file fd = files.file fd ∨ (fd < 3 ∧ proc.files.file fd = none) := by
  obtain ⟨files, hstart, hfiles⟩ := h.inherits p proc hp
  refine ⟨files, ?_, hfiles⟩
  cases hfamily : proc.family with
  | none => exact absurd (h.only_shell p proc hp hfamily) hne
  | some j =>
    rw [hfamily] at hstart
    have hj : j < l.turn := by
      by_contra hge
      simp only [starts, if_neg hge] at hstart
      cases hstart
    rw [starts_succ hj, hstart]

theorem Line.Good.goes_on {l : Line} {turned : Turned} (h : l.Good own turns shell)
    (hturn : turns[l.turn]? = some turned) :
    (l.goes_on shell turned.files).Good own turns shell := by
  refine ⟨?_, ?_⟩
  · intro p proc hp hfamily
    simp only [Line.goes_on, System.set] at hp
    split at hp
    · assumption
    · exact h.only_shell p proc hp hfamily
  · intro p proc hp
    simp only [Line.goes_on, System.set] at hp
    split at hp
    · cases hp
      refine ⟨turned.files, ?_, fun fd => .inl rfl⟩
      simp only [starts, Line.goes_on, hturn, Option.map_some]
    · rename_i hne
      exact h.others hp hne

theorem Line.Good.forks {l : Line} {turned : Turned} {q : Nat} {start : Files}
    (h : l.Good own turns shell) (hturn : turns[l.turn]? = some turned)
    (hjoins : turned.joins = some start) :
    (l.forks shell q turned.files start).Good own turns shell := by
  have hshell := h.goes_on hturn
  refine ⟨?_, ?_⟩
  · intro p proc hp hfamily
    simp only [Line.forks, System.set] at hp
    split at hp
    · cases hp
      cases hfamily
    · exact hshell.only_shell p proc hp hfamily
  · intro p proc hp
    simp only [Line.forks, System.set] at hp
    split at hp
    · cases hp
      refine ⟨start, ?_, fun fd => .inl rfl⟩
      simp only [starts, Line.forks, Nat.lt_succ_self, if_true, hturn, Option.bind_some, hjoins]
    · exact hshell.inherits p proc hp

theorem Line.Good.act {l : Line} {act : Act} {proc : Proc (Option Nat) plain_file}
    {s : System (Option Nat) plain_file} (h : l.Good own turns shell)
    (hstep : pipes.Step capacity l.system act s) (hactor : l.system.procs act.actor = some proc)
    (hact : act.Below 3) (hown : proc.family = none → act = .exit act.actor) :
    Line.Good own turns shell { l with system := s } := by
  refine ⟨?_, hstep.inherits hact h.inherits⟩
  intro p after hp hfamily
  obtain ⟨q, before, hfrom, hq, hsame, _⟩ := hstep.procs hact hp
  obtain rfl | rfl := hfrom
  · exact h.only_shell q before hq (by rw [hsame, hfamily])
  · rw [Act.actor, hq, Option.some.injEq] at hactor
    have hexit := hown (by rw [← hactor, hsame, hfamily])
    cases hexit

theorem Line.Run.good {l l' : Line} (h : Line.Run turns shell capacity l acts l')
    (hl : l.Good own turns shell) : l'.Good own turns shell := by
  induction h with
  | nil => exact hl
  | fork _ _ hturn hjoins _ ih => exact ih.forks hturn hjoins
  | turn _ _ hturn _ ih => exact ih.goes_on hturn
  | act _ hstep hactor hact hown ih => exact ih.act hstep hactor hact hown

/-! ## Who has which end -/

/-- The line of a shell with its three standard descriptors: the turns are those of the loop. -/
structure Setting (m : Machine) (opens : Bytes → open_mode → Bool) (first : Nat) (sh : Shell)
    (own : Files) (cmds : List command) (turns : List Turned) : Prop where
  ready : Ready first own
  stderr : own.file 2 ≠ none
  turns_eq : turns = (plumb m opens first sh own cmds).turns

variable {sh : Shell} {cmds : List command}

/-- What the files of a family say of the pipes of the line. -/
structure Ends (first count : Nat) (family : Option Nat) (files : Files) : Prop where
  write_end : ∀ fd k, files.file fd = some (.write_end (first + k)) →
    fd = 1 ∧ family = some k ∧ k + 1 < count
  read_end : ∀ fd k, fd < 3 → files.file fd = some (.read_end (first + k)) → family ≠ none →
    fd = 0 ∧ family = some (k + 1)
  leak : ∀ k, family = some k → k + 1 < count →
    ∃ fd, 3 ≤ fd ∧ files.file fd = some (.read_end (first + k))

theorem Wired.ends {count index : Nat} {c : command} {t : Files} (hready : Ready first own)
    (hstderr : own.file 2 ≠ none) (h : Wired own first count index c t) :
    Ends first count (some index) t := by
  have hown : ∀ fd k, own.file fd ≠ some (.read_end (first + k)) ∧
      own.file fd ≠ some (.write_end (first + k)) := fun fd k => hready.fresh fd _ (by omega)
  have hrest : ∀ fd, 2 ≤ fd → t.file fd = own.file fd ∨
      (index + 1 < count ∧ own.file fd = none ∧ t.file fd = some (.read_end (first + index))) := by
    intro fd hfd
    by_cases hmore : index + 1 < count
    · obtain ⟨leak, hfree, hfile⟩ := h.leak hmore
      rw [hfile fd hfd]
      split
      · rename_i heq
        subst heq
        exact .inr ⟨hmore, hfree, rfl⟩
      · exact .inl rfl
    · exact .inl (h.alone hmore fd hfd)
  refine ⟨?_, ?_, ?_⟩
  · intro fd k hfd
    obtain rfl | rfl | h2 : fd = 0 ∨ fd = 1 ∨ 2 ≤ fd := by omega
    · rw [h.stdin, stdin_of] at hfd
      split at hfd
      · cases hfd
      · split at hfd
        · cases hfd
        · exact absurd hfd (hown 0 k).2
    · rw [h.stdout, stdout_of] at hfd
      split at hfd
      · cases hfd
      · split at hfd
        · rename_i hmore
          simp only [Option.some.injEq, File.write_end.injEq, Nat.add_left_cancel_iff] at hfd
          exact ⟨rfl, by rw [hfd], by rw [← hfd]; exact hmore⟩
        · exact absurd hfd (hown 1 k).2
    · obtain hsame | ⟨_, _, hleak⟩ := hrest fd h2
      · rw [hsame] at hfd
        exact absurd hfd (hown fd k).2
      · rw [hleak] at hfd
        cases hfd
  · intro fd k hlt hfd _
    obtain rfl | rfl | rfl : fd = 0 ∨ fd = 1 ∨ fd = 2 := by omega
    · rw [h.stdin, stdin_of] at hfd
      split at hfd
      · cases hfd
      · split at hfd
        · simp only [Option.some.injEq, File.read_end.injEq, Nat.add_left_cancel_iff] at hfd
          exact ⟨rfl, by rw [← hfd, Nat.sub_add_cancel (by omega)]⟩
        · exact absurd hfd (hown 0 k).1
    · rw [h.stdout, stdout_of] at hfd
      split at hfd
      · cases hfd
      · split at hfd
        · cases hfd
        · exact absurd hfd (hown 1 k).1
    · obtain hsame | ⟨_, hfree, _⟩ := hrest 2 (Nat.le_refl 2)
      · rw [hsame] at hfd
        exact absurd hfd (hown 2 k).1
      · exact absurd hfree hstderr
  · intro k hk hmore
    cases hk
    obtain ⟨leak, hfree, hfile⟩ := h.leak hmore
    have h2 := hready.free_descriptor hfree
    have h3 : leak ≠ 2 := by
      intro heq
      exact hstderr (heq ▸ hfree)
    exact ⟨leak, by omega, by rw [hfile leak h2, if_pos rfl]⟩

/-- The shell never has a write end between two turns. -/
theorem Between.ends {count index in_fd : Nat} {t : Files} (hready : Ready first own)
    (h : Between own first index in_fd t) : Ends first count none t := by
  refine ⟨?_, fun _ _ _ _ hne => absurd rfl hne, fun _ hk => by cases hk⟩
  intro fd k hfd
  rw [h.file_eq, held] at hfd
  split at hfd
  · cases hfd
  · exact absurd hfd (hready.fresh fd _ (by omega)).2

/-- Every family starts with the ends that are its own. -/
theorem Setting.ends (h : Setting m opens first sh own cmds turns) {turn : Nat}
    {family : Option Nat} {files : Files} (hstart : starts own turns turn family = some files) :
    Ends first cmds.length family files := by
  have hturns : ∀ k turned, turns[k]? = some turned →
      ∃ c, cmds[k]? = some c ∧ TurnSpec opens own first cmds.length k c turned := by
    intro k turned hk
    rw [h.turns_eq] at hk
    have hspec := plumb_loop_turns h.ready (fun _ => Between.start own first) (Nat.zero_add _) k
      turned hk
    rwa [Nat.zero_add] at hspec
  cases family with
  | none =>
    cases turn with
    | zero =>
      cases hstart
      exact (Between.start own first).ends h.ready
    | succ i =>
      obtain ⟨turned, hturned, rfl⟩ := Option.map_eq_some_iff.mp hstart
      obtain ⟨c, _, hspec⟩ := hturns i turned hturned
      have hafter := hspec.files
      unfold After at hafter
      split at hafter
      · obtain ⟨in_fd, hb⟩ := hafter
        exact hb.ends h.ready
      · rw [hafter]
        exact (Between.start own first).ends h.ready
  | some j =>
    simp only [starts] at hstart
    split at hstart
    · obtain ⟨turned, hturned, hjoins⟩ := Option.bind_eq_some_iff.mp hstart
      obtain ⟨c, _, hspec⟩ := hturns j turned hturned
      obtain ⟨child, hchild, hfiles⟩ := Option.bind_eq_some_iff.mp hjoins
      have hok : child.files = .ok files := by
        cases hf : child.files with
        | error status =>
          rw [hf] at hfiles
          cases hfiles
        | ok v =>
          rw [hf] at hfiles
          cases hfiles
          rfl
      obtain ⟨_, _, hwired⟩ := hspec.child child hchild
      rw [hok] at hwired
      exact Wired.ends h.ready h.stderr hwired
    · cases hstart

/-- At any time, in any process. -/
theorem Setting.proc_ends (h : Setting m opens first sh own cmds turns) {l : Line}
    (hl : l.Good own turns shell) {p : Nat} {proc : Proc (Option Nat) plain_file}
    (hp : l.system.procs p = some proc) : Ends first cmds.length proc.family proc.files := by
  obtain ⟨files, hstart, hfiles⟩ := hl.inherits p proc hp
  have hends := h.ends hstart
  have hsame : ∀ fd f, proc.files.file fd = some f → files.file fd = some f := by
    intro fd f hf
    obtain heq | ⟨_, hnone⟩ := hfiles fd
    · rw [← heq, hf]
    · rw [hnone] at hf
      cases hf
  refine ⟨fun fd k hf => hends.write_end fd k (hsame fd _ hf),
    fun fd k hlt hf => hends.read_end fd k hlt (hsame fd _ hf), fun k hk hmore => ?_⟩
  obtain ⟨fd, hfd, hleak⟩ := hends.leak k hk hmore
  refine ⟨fd, hfd, ?_⟩
  obtain heq | ⟨hlt, _⟩ := hfiles fd
  · rw [heq, hleak]
  · omega

/-! ## The bytes between two commands -/

theorem Line.Run.content {l l' : Line} (h : Line.Run turns shell capacity l acts l') (k : Nat) :
    l.system.content k ++ sent k (acts.map Prod.snd) =
      received k (acts.map Prod.snd) ++ l'.system.content k := by
  induction h with
  | nil => simp [sent, received]
  | fork _ _ _ _ _ ih => exact ih
  | turn _ _ _ _ ih => exact ih
  | act _ hstep _ _ _ ih =>
    rw [List.map_append, List.map_singleton, sent_snoc, received_snoc, ← List.append_assoc, ih,
      List.append_assoc, hstep.content k, List.append_assoc]

theorem Line.Run.fits {l l' : Line} (h : Line.Run turns shell capacity l acts l') {k : Nat}
    (hl : (l.system.content k).length ≤ capacity) :
    (l'.system.content k).length ≤ capacity := by
  induction h with
  | nil => exact hl
  | fork _ _ _ _ _ ih => exact ih
  | turn _ _ _ _ ih => exact ih
  | act _ hstep _ _ _ ih => exact hstep.fits ih

/-- The use of a pipe of the line is that of the two commands that it is for. -/
def Proper (first : Nat) : Option Nat × Act → Prop
  | (family, .write _ fd pipe _) => ∀ k, pipe = first + k → family = some k ∧ fd = 1
  | (family, .read _ fd pipe _) => ∀ k, pipe = first + k → family = some (k + 1) ∧ fd = 0
  | (_, .broken_pipe _ _ pipe) => pipe < first
  | _ => True

/-- A command that has its write end also has the read end. -/
theorem Setting.reader (h : Setting m opens first sh own cmds turns) {l : Line}
    (hl : l.Good own turns shell) {p fd k : Nat} {proc : Proc (Option Nat) plain_file}
    (hp : l.system.procs p = some proc)
    (hfd : proc.files.file fd = some (.write_end (first + k))) :
    l.system.Open (.read_end (first + k)) := by
  have hends := h.proc_ends hl hp
  obtain ⟨_, hfamily, hmore⟩ := hends.write_end fd k hfd
  obtain ⟨leak, _, hleak⟩ := hends.leak k hfamily hmore
  exact ⟨p, proc, leak, hp, hleak⟩

theorem Setting.proper (h : Setting m opens first sh own cmds turns) {l : Line} {act : Act}
    {proc : Proc (Option Nat) plain_file} {s : System (Option Nat) plain_file}
    (hl : l.Good own turns shell) (hstep : pipes.Step capacity l.system act s)
    (hactor : l.system.procs act.actor = some proc) (hact : act.Below 3)
    (hown : proc.family = none → act = .exit act.actor) : Proper first (proc.family, act) := by
  cases hstep with
  | fork _ _ => trivial
  | exit _ => trivial
  | close _ => trivial
  | @write p fd pipe before data hp hfd _ _ =>
    simp only [Act.actor, hp, Option.some.injEq] at hactor
    subst hactor
    rintro k rfl
    obtain ⟨hone, hfamily, _⟩ := (h.proc_ends hl hp).write_end fd k hfd
    exact ⟨hfamily, hone⟩
  | @read p fd pipe before data rest hp hfd _ _ =>
    simp only [Act.actor, hp, Option.some.injEq] at hactor
    subst hactor
    rintro k rfl
    have hcommand : before.family ≠ none := fun hnone => by cases hown hnone
    obtain ⟨hzero, hfamily⟩ := (h.proc_ends hl hp).read_end fd k hact hfd hcommand
    exact ⟨hfamily, hzero⟩
  | end_of_file _ _ _ _ => trivial
  | @broken_pipe p fd pipe before hp hfd hopen =>
    by_contra hge
    obtain ⟨k, rfl⟩ := Nat.exists_eq_add_of_le (Nat.le_of_not_lt hge)
    exact hopen (h.reader hl hp hfd)

theorem Setting.run_proper (h : Setting m opens first sh own cmds turns) {l l' : Line}
    (hl : l.Good own turns shell) (hrun : Line.Run turns shell capacity l acts l') :
    ∀ x ∈ acts, Proper first x := by
  induction hrun with
  | nil => simp
  | fork _ _ _ _ _ ih => exact ih
  | turn _ _ _ _ ih => exact ih
  | act hbefore hstep hactor hact hown ih =>
    intro x hx
    rw [List.mem_append, List.mem_singleton] at hx
    obtain hx | rfl := hx
    · exact ih x hx
    · exact h.proper (hbefore.good hl) hstep hactor hact hown

/-- A command that is gone stays gone once its turn is over. -/
theorem Line.Run.gone {l l' : Line} (h : Line.Run turns shell capacity l acts l') {j : Nat}
    (hturn : j < l.turn)
    (hgone : ∀ p proc, l.system.procs p = some proc → proc.family ≠ some j) :
    j < l'.turn ∧ ∀ p proc, l'.system.procs p = some proc → proc.family ≠ some j := by
  induction h with
  | nil => exact ⟨hturn, hgone⟩
  | @fork l' acts q files start turned _ _ _ _ _ ih =>
    obtain ⟨hturn', hgone'⟩ := ih
    refine ⟨by simp only [Line.forks]; omega, ?_⟩
    intro p proc hp
    simp only [Line.forks, System.set] at hp
    split at hp
    · cases hp
      simp only [ne_eq, Option.some.injEq]
      omega
    · split at hp
      · cases hp
        simp
      · exact hgone' p proc hp
  | @turn l' acts files turned _ _ _ _ ih =>
    obtain ⟨hturn', hgone'⟩ := ih
    refine ⟨by simp only [Line.goes_on]; omega, ?_⟩
    intro p proc hp
    simp only [Line.goes_on, System.set] at hp
    split at hp
    · cases hp
      simp
    · exact hgone' p proc hp
  | act _ hstep _ hact _ ih =>
    obtain ⟨hturn', hgone'⟩ := ih
    refine ⟨hturn', fun p proc hp => ?_⟩
    obtain ⟨q, before, _, hq, hfamily, _⟩ := hstep.procs hact hp
    rw [← hfamily]
    exact hgone' q before hq

/-- A command that is gone does nothing any more. -/
theorem Line.Run.idle {l l' : Line} (h : Line.Run turns shell capacity l acts l') {j : Nat}
    (hturn : j < l.turn)
    (hgone : ∀ p proc, l.system.procs p = some proc → proc.family ≠ some j) :
    ∀ x ∈ acts, x.1 ≠ some j := by
  induction h with
  | nil => simp
  | fork _ _ _ _ _ ih => exact ih
  | turn _ _ _ _ ih => exact ih
  | act hbefore _ hactor _ _ ih =>
    intro x hx
    rw [List.mem_append, List.mem_singleton] at hx
    obtain hx | rfl := hx
    · exact ih x hx
    · exact (hbefore.gone hturn hgone).2 _ _ hactor

theorem Proper.unread {k : Nat} {x : Option Nat × Act} (h : Proper first x)
    (hx : x.1 ≠ some (k + 1)) : x.2.receives (first + k) = [] := by
  obtain ⟨family, act⟩ := x
  cases act with
  | read p fd pipe data =>
    unfold Act.receives
    dsimp only
    rw [if_neg]
    rintro rfl
    exact hx (h k rfl).1
  | fork _ _ => rfl
  | exit _ => rfl
  | close _ _ => rfl
  | write _ _ _ _ => rfl
  | end_of_file _ _ _ => rfl
  | broken_pipe _ _ _ => rfl

theorem yes_head_setting : Setting plainMachine (fun _ _ => true) 0 rootShell (console 8)
    [program "yes", program "head"] yes_head.turns where
  ready := console_ready (by omega)
  stderr := by simp [console]
  turns_eq := rfl

/-- Both programs of `yes | head` at work, as the processes 2 and 3 of the shell 1. -/
theorem yes_head_at_work : ∃ l files start next,
    Line.Run yes_head.turns 1 65536 (Line.start 1 (console 8)) [] l ∧ l.turn = 2 ∧
      (∀ p, l.system.procs p = if p = 3 then some { family := some 1, files := next }
        else if p = 1 then some { family := none, files }
        else if p = 2 then some { family := some 0, files := start } else none) ∧
      l.system.content 0 = [] ∧ start.file 1 = some (.write_end 0) ∧
      next.file 0 = some (.read_end 0) := by
  have hfirst : (yes_head.turns[0]?.bind Turned.joins).any
      (fun t => t.file 1 = some (.write_end 0)) = true := by decide +kernel
  have hsecond : (yes_head.turns[1]?.bind Turned.joins).any
      (fun t => t.file 0 = some (.read_end 0)) = true := by decide +kernel
  cases hstart : yes_head.turns[0]?.bind Turned.joins with
  | none =>
    rw [hstart] at hfirst
    cases hfirst
  | some start =>
    cases hnext : yes_head.turns[1]?.bind Turned.joins with
    | none =>
      rw [hnext] at hsecond
      cases hsecond
    | some next =>
      rw [hstart] at hfirst
      rw [hnext] at hsecond
      obtain ⟨turned, hturn, hjoins⟩ := Option.bind_eq_some_iff.mp hstart
      obtain ⟨turned', hturn', hjoins'⟩ := Option.bind_eq_some_iff.mp hnext
      have hrun : Line.Run yes_head.turns 1 65536 (Line.start 1 (console 8)) [] _ := .nil
      have hrun : Line.Run yes_head.turns 1 65536 (Line.start 1 (console 8)) []
          (Line.forks _ 1 2 turned.files start) := .fork hrun rfl hturn hjoins rfl
      have hrun : Line.Run yes_head.turns 1 65536 (Line.start 1 (console 8)) []
          (Line.forks _ 1 3 turned'.files next) := .fork hrun rfl hturn' hjoins' rfl
      refine ⟨_, turned'.files, start, next, hrun, rfl, fun p => ?_, rfl, by simpa using hfirst,
        by simpa using hsecond⟩
      simp only [Line.forks, Line.start, System.set]
      by_cases h3 : p = 3
      · simp [h3]
      by_cases h1 : p = 1
      · simp [h1]
      by_cases h2 : p = 2 <;> simp [h1, h2, h3]

end mantle.shell
