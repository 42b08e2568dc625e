-- Processes that share pipes. A process ends, forks, or uses one of its own
-- descriptors. A pipe has a reader as long as some process has its read end
-- open, and a writer as long as some process has its write end open.
import MantleOS.FileTable

open filetable

namespace pipes

/-- What a descriptor refers to: an end of a pipe, or some other file. -/
inductive File (α : Type)
  | other (a : α)
  | read_end (pipe : Nat)
  | write_end (pipe : Nat)
  deriving DecidableEq

/-- A process, with the family that it belongs to. A fork stays in the family. -/
structure Proc (φ α : Type) where
  family : φ
  files : Table (File α)

/-- The processes by their numbers, and the bytes that each pipe holds. -/
structure System (φ α : Type) where
  procs : Nat → Option (Proc φ α)
  content : Nat → List UInt8

/-- What one process does. The files that a process opens for itself are left out. -/
inductive Act
  | fork (p q : Nat)
  | exit (p : Nat)
  | close (p fd : Nat)
  | write (p fd pipe : Nat) (data : List UInt8)
  | read (p fd pipe : Nat) (data : List UInt8)
  | end_of_file (p fd pipe : Nat)
  | broken_pipe (p fd pipe : Nat)

variable {φ α : Type} {capacity : Nat}

/-- Some process has this file open. -/
def System.Open (s : System φ α) (f : File α) : Prop :=
  ∃ p proc fd, s.procs p = some proc ∧ proc.files.file fd = some f

def System.set (s : System φ α) (p : Nat) (proc : Option (Proc φ α)) : System φ α :=
  { s with procs := fun k => if k = p then proc else s.procs k }

def System.fill (s : System φ α) (pipe : Nat) (data : List UInt8) : System φ α :=
  { s with content := fun k => if k = pipe then data else s.content k }

/-- One step. A write waits for room, and a read for bytes. A write to a pipe without a reader ends
the process, and a read from an empty pipe without a writer is the end of the file. -/
inductive Step (capacity : Nat) : System φ α → Act → System φ α → Prop
  | fork {s : System φ α} {p q : Nat} {proc : Proc φ α} :
      s.procs p = some proc → s.procs q = none → Step capacity s (.fork p q) (s.set q (some proc))
  | exit {s : System φ α} {p : Nat} {proc : Proc φ α} :
      s.procs p = some proc → Step capacity s (.exit p) (s.set p none)
  | close {s : System φ α} {p fd : Nat} {proc : Proc φ α} :
      s.procs p = some proc →
      Step capacity s (.close p fd) (s.set p (some { proc with files := proc.files.close fd }))
  | write {s : System φ α} {p fd k : Nat} {proc : Proc φ α} {data : List UInt8} :
      s.procs p = some proc → proc.files.file fd = some (.write_end k) → s.Open (.read_end k) →
      (s.content k).length + data.length ≤ capacity →
      Step capacity s (.write p fd k data) (s.fill k (s.content k ++ data))
  | read {s : System φ α} {p fd k : Nat} {proc : Proc φ α} {data rest : List UInt8} :
      s.procs p = some proc → proc.files.file fd = some (.read_end k) → data ≠ [] →
      s.content k = data ++ rest → Step capacity s (.read p fd k data) (s.fill k rest)
  | end_of_file {s : System φ α} {p fd k : Nat} {proc : Proc φ α} :
      s.procs p = some proc → proc.files.file fd = some (.read_end k) → s.content k = [] →
      ¬ s.Open (.write_end k) → Step capacity s (.end_of_file p fd k) s
  | broken_pipe {s : System φ α} {p fd k : Nat} {proc : Proc φ α} :
      s.procs p = some proc → proc.files.file fd = some (.write_end k) →
      ¬ s.Open (.read_end k) → Step capacity s (.broken_pipe p fd k) (s.set p none)

/-! ## The bytes of a pipe -/

/-- What an act writes to a pipe. -/
def Act.sends (k : Nat) : Act → List UInt8
  | .write _ _ pipe data => if pipe = k then data else []
  | _ => []

/-- What an act reads from a pipe. -/
def Act.receives (k : Nat) : Act → List UInt8
  | .read _ _ pipe data => if pipe = k then data else []
  | _ => []

def sent (k : Nat) (acts : List Act) : List UInt8 := acts.flatMap (Act.sends k)

def received (k : Nat) (acts : List Act) : List UInt8 := acts.flatMap (Act.receives k)

@[simp] theorem sent_snoc (k : Nat) (acts : List Act) (act : Act) :
    sent k (acts ++ [act]) = sent k acts ++ act.sends k := by
  simp [sent]

@[simp] theorem received_snoc (k : Nat) (acts : List Act) (act : Act) :
    received k (acts ++ [act]) = received k acts ++ act.receives k := by
  simp [received]

theorem Step.content {s t : System φ α} {act : Act} (h : Step capacity s act t) (k : Nat) :
    s.content k ++ act.sends k = act.receives k ++ t.content k := by
  cases h with
  | fork _ _ => simp [Act.sends, Act.receives, System.set]
  | exit _ => simp [Act.sends, Act.receives, System.set]
  | close _ => simp [Act.sends, Act.receives, System.set]
  | @write p fd pipe proc data _ _ _ _ =>
    unfold Act.sends Act.receives System.fill
    by_cases hk : pipe = k
    · subst hk
      simp
    · simp [hk, Ne.symm hk]
  | @read p fd pipe proc data rest _ _ _ hdata =>
    unfold Act.sends Act.receives System.fill
    by_cases hk : pipe = k
    · subst hk
      simp [hdata]
    · simp [hk, Ne.symm hk]
  | end_of_file _ _ _ _ => simp [Act.sends, Act.receives]
  | broken_pipe _ _ _ => simp [Act.sends, Act.receives, System.set]

theorem Step.fits {s t : System φ α} {act : Act} (h : Step capacity s act t) {k : Nat}
    (hs : (s.content k).length ≤ capacity) : (t.content k).length ≤ capacity := by
  cases h with
  | fork _ _ => exact hs
  | exit _ => exact hs
  | close _ => exact hs
  | @write p fd pipe proc data _ _ _ hroom =>
    unfold System.fill
    dsimp only
    split
    · rename_i hk
      subst hk
      rw [List.length_append]
      exact hroom
    · exact hs
  | @read p fd pipe proc data rest _ _ _ hdata =>
    unfold System.fill
    dsimp only
    split
    · rename_i hk
      subst hk
      rw [hdata, List.length_append] at hs
      omega
    · exact hs
  | end_of_file _ _ _ _ => exact hs
  | broken_pipe _ _ _ => exact hs

/-! ## The descriptors of a family -/

/-- The act uses no descriptor from `bound` on. -/
def Act.Below (bound : Nat) : Act → Prop
  | .fork _ _ => True
  | .exit _ => True
  | .close _ fd => fd < bound
  | .write _ fd _ _ => fd < bound
  | .read _ fd _ _ => fd < bound
  | .end_of_file _ fd _ => fd < bound
  | .broken_pipe _ fd _ => fd < bound

/-- Each process has what its family starts with, but for descriptors below the bound that are
closed. -/
def Inherits (bound : Nat) (start : φ → Option (Table (File α))) (s : System φ α) : Prop :=
  ∀ p proc, s.procs p = some proc → ∃ files, start proc.family = some files ∧
    ∀ fd, proc.files.file fd = files.file fd ∨ (fd < bound ∧ proc.files.file fd = none)

/-- The process that acts. -/
def Act.actor : Act → Nat
  | .fork p _ => p
  | .exit p => p
  | .close p _ => p
  | .write p _ _ _ => p
  | .read p _ _ _ => p
  | .end_of_file p _ _ => p
  | .broken_pipe p _ _ => p

/-- Where a process after a step comes from: it was there, or it is the copy of one of its family.
It has what that one had, but for descriptors below the bound that are closed. -/
theorem Step.procs {s t : System φ α} {act : Act} {bound p : Nat} {proc : Proc φ α}
    (h : Step capacity s act t) (hact : act.Below bound) (hp : t.procs p = some proc) :
    ∃ q before, (q = p ∨ act = .fork q p) ∧ s.procs q = some before ∧
      before.family = proc.family ∧
      ∀ fd, proc.files.file fd = before.files.file fd ∨
        (fd < bound ∧ proc.files.file fd = none) := by
  have hsame : s.procs p = some proc → ∃ q before, (q = p ∨ act = .fork q p) ∧
      s.procs q = some before ∧ before.family = proc.family ∧
      ∀ fd, proc.files.file fd = before.files.file fd ∨
        (fd < bound ∧ proc.files.file fd = none) :=
    fun hp => ⟨p, proc, .inl rfl, hp, rfl, fun fd => .inl rfl⟩
  cases h with
  | @fork r q parent hr hq =>
    simp only [System.set] at hp
    split at hp
    · rename_i hpq
      subst hpq
      cases hp
      exact ⟨r, proc, .inr rfl, hr, rfl, fun fd => .inl rfl⟩
    · exact hsame hp
  | @exit r ended hr =>
    simp only [System.set] at hp
    split at hp
    · cases hp
    · exact hsame hp
  | @close r fd closing hr =>
    simp only [System.set] at hp
    split at hp
    · rename_i hpr
      cases hp
      refine ⟨r, closing, .inl hpr.symm, hr, rfl, fun k => ?_⟩
      rw [Table.close_file]
      split
      · rename_i hk
        subst hk
        exact .inr ⟨hact, rfl⟩
      · exact .inl rfl
    · exact hsame hp
  | write _ _ _ _ => exact hsame hp
  | read _ _ _ _ => exact hsame hp
  | end_of_file _ _ _ _ => exact hsame hp
  | @broken_pipe r fd k ended hr _ _ =>
    simp only [System.set] at hp
    split at hp
    · cases hp
    · exact hsame hp

theorem Step.inherits {s t : System φ α} {act : Act} {bound : Nat}
    {start : φ → Option (Table (File α))} (h : Step capacity s act t) (hact : act.Below bound)
    (hs : Inherits bound start s) : Inherits bound start t := by
  intro p proc hp
  obtain ⟨q, before, _, hq, hfamily, hstep⟩ := h.procs hact hp
  obtain ⟨files, hstart, hfiles⟩ := hs q before hq
  refine ⟨files, by rw [← hfamily, hstart], fun fd => ?_⟩
  obtain hsame | hclosed := hstep fd
  · rw [hsame]
    exact hfiles fd
  · exact .inr hclosed

end pipes
