-- The open files of a process, by their descriptors, and the calls that change
-- them. A new file always gets the lowest descriptor that is free. Nothing here
-- is about one program.
import Mathlib.Data.List.Basic
import Mathlib.Tactic.Common

namespace filetable

/-- The open files of a process. No descriptor from `limit` on is ever open. -/
structure Table (α : Type) where
  file : Nat → Option α
  limit : Nat
  closed_above : ∀ fd, limit ≤ fd → file fd = none

variable {α β : Type}

theorem Table.ext_file {t u : Table α} (hlimit : t.limit = u.limit)
    (hfile : ∀ fd, t.file fd = u.file fd) : t = u := by
  cases t
  cases u
  simp only [Table.mk.injEq]
  exact ⟨funext hfile, hlimit⟩

theorem Table.open_below {t : Table α} {fd : Nat} {a : α} (h : t.file fd = some a) :
    fd < t.limit := by
  by_contra hle
  rw [t.closed_above fd (by omega)] at h
  cases h

/-! ## The calls -/

/-- The table with one more open file, at a descriptor that it may have. -/
def Table.set (t : Table α) (fd : Nat) (a : α) (h : fd < t.limit) : Table α where
  file := fun k => if k = fd then some a else t.file k
  limit := t.limit
  closed_above := by
    intro k hk
    rw [if_neg (by omega)]
    exact t.closed_above k hk

def Table.close (t : Table α) (fd : Nat) : Table α where
  file := fun k => if k = fd then none else t.file k
  limit := t.limit
  closed_above := by
    intro k hk
    split
    · rfl
    · exact t.closed_above k hk

/-- The lowest descriptor that is free. -/
def Table.lowest (t : Table α) : Option Nat :=
  (List.range t.limit).find? (fun fd => (t.file fd).isNone)

theorem Table.lowest_eq_some {t : Table α} {fd : Nat} :
    t.lowest = some fd ↔ t.file fd = none ∧ fd < t.limit ∧ ∀ k < fd, t.file k ≠ none := by
  unfold Table.lowest
  rw [List.find?_range_eq_some]
  simp only [Option.isNone_iff_eq_none, List.mem_range, Bool.not_eq_true', ne_eq]
  simp only [← Bool.not_eq_true, Option.isNone_iff_eq_none]

/-- Every descriptor is taken when none is free. -/
theorem Table.lowest_eq_none {t : Table α} :
    t.lowest = none ↔ ∀ fd < t.limit, t.file fd ≠ none := by
  unfold Table.lowest
  rw [List.find?_range_eq_none]
  simp only [Bool.not_eq_true', ← Bool.not_eq_true, Option.isNone_iff_eq_none, ne_eq]

theorem Table.lowest_lt {t : Table α} {fd : Nat} (h : t.lowest = some fd) : fd < t.limit :=
  (Table.lowest_eq_some.mp h).2.1

/-- `open`: the file gets the lowest free descriptor. -/
def Table.install (t : Table α) (a : α) : Option (Nat × Table α) :=
  match h : t.lowest with
  | none => none
  | some fd => some (fd, t.set fd a (Table.lowest_lt h))

/-- `dup2`: it fails when the old descriptor is not open or the new one cannot be. -/
def Table.dup2 (t : Table α) (old new : Nat) : Option (Table α) :=
  match t.file old with
  | none => none
  | some a => if h : new < t.limit then some (t.set new a h) else none

/-- `pipe`: the read end first, and then the write end. -/
def Table.pipe (t : Table α) (read_end write_end : α) : Option (Nat × Nat × Table α) := do
  let (read_fd, t) ← t.install read_end
  let (write_fd, t) ← t.install write_end
  return (read_fd, write_fd, t)

/-! ## What the calls leave -/

@[simp] theorem Table.set_file (t : Table α) (fd k : Nat) (a : α) (h : fd < t.limit) :
    (t.set fd a h).file k = if k = fd then some a else t.file k := rfl

@[simp] theorem Table.set_limit (t : Table α) (fd : Nat) (a : α) (h : fd < t.limit) :
    (t.set fd a h).limit = t.limit := rfl

@[simp] theorem Table.close_file (t : Table α) (fd k : Nat) :
    (t.close fd).file k = if k = fd then none else t.file k := rfl

@[simp] theorem Table.close_limit (t : Table α) (fd : Nat) : (t.close fd).limit = t.limit := rfl

/-- A new file took a free descriptor, with every lower one in use, and the others stay. -/
theorem Table.install_eq_some {t u : Table α} {a : α} {fd : Nat}
    (h : t.install a = some (fd, u)) :
    t.file fd = none ∧ fd < t.limit ∧ (∀ k < fd, t.file k ≠ none) ∧ u.limit = t.limit ∧
      ∀ k, u.file k = if k = fd then some a else t.file k := by
  unfold Table.install at h
  split at h
  · cases h
  · rename_i fd' hlow
    simp only [Option.some.injEq, Prod.mk.injEq] at h
    obtain ⟨rfl, rfl⟩ := h
    obtain ⟨hfree, hlt, hbelow⟩ := Table.lowest_eq_some.mp hlow
    exact ⟨hfree, hlt, hbelow, rfl, fun k => rfl⟩

theorem Table.install_eq_none {t : Table α} {a : α} :
    t.install a = none ↔ ∀ fd < t.limit, t.file fd ≠ none := by
  rw [← Table.lowest_eq_none]
  unfold Table.install
  split
  · rename_i hlow
    simp [hlow]
  · rename_i fd hlow
    simp [hlow]

theorem Table.dup2_open {t : Table α} {old new : Nat} {a : α} (h : t.file old = some a)
    (hnew : new < t.limit) : t.dup2 old new = some (t.set new a hnew) := by
  unfold Table.dup2
  rw [h]
  simp [hnew]

/-- The ends of a pipe took two free descriptors, the read end the lower one. -/
theorem Table.pipe_eq_some {t u : Table α} {r w : α} {read_fd write_fd : Nat}
    (h : t.pipe r w = some (read_fd, write_fd, u)) :
    t.file read_fd = none ∧ t.file write_fd = none ∧ read_fd < write_fd ∧ write_fd < t.limit ∧
      (∀ k < write_fd, k ≠ read_fd → t.file k ≠ none) ∧ u.limit = t.limit ∧
      ∀ k, u.file k =
        if k = write_fd then some w else if k = read_fd then some r else t.file k := by
  unfold Table.pipe at h
  simp only [Option.bind_eq_bind, Option.bind_eq_some_iff] at h
  obtain ⟨⟨fd1, t1⟩, hr, ⟨fd2, t2⟩, hw, h⟩ := h
  simp only [Option.pure_def, Option.some.injEq, Prod.mk.injEq] at h
  obtain ⟨rfl, rfl, rfl⟩ := h
  dsimp only at hw
  obtain ⟨hfree1, hlt1, hbelow1, hlimit1, hfile1⟩ := Table.install_eq_some hr
  obtain ⟨hfree2, hlt2, hbelow2, hlimit2, hfile2⟩ := Table.install_eq_some hw
  rw [hfile1] at hfree2
  have hne : fd2 ≠ fd1 := by
    intro heq
    rw [if_pos heq] at hfree2
    cases hfree2
  rw [if_neg hne] at hfree2
  have hlt : fd1 < fd2 := by
    by_contra hle
    exact hbelow1 fd2 (by omega) hfree2
  refine ⟨hfree1, hfree2, hlt, by omega, ?_, by omega, ?_⟩
  · intro k hk hne1 hnone
    exact hbelow2 k hk (by rw [hfile1, if_neg hne1, hnone])
  · intro k
    rw [hfile2, hfile1]

/-! ## How many are open -/

/-- The number of open descriptors. -/
def Table.count (t : Table α) : Nat := (List.range t.limit).countP (fun fd => (t.file fd).isSome)

theorem Table.count_le (t : Table α) : t.count ≤ t.limit := by
  have h := List.countP_le_length (p := fun fd => (t.file fd).isSome) (l := List.range t.limit)
  rwa [List.length_range] at h

/-- One more open file counts for one. -/
theorem Table.count_set {t u : Table α} {fd : Nat} {a : α} (hfree : t.file fd = none)
    (hlt : fd < t.limit) (hlimit : u.limit = t.limit)
    (hfile : ∀ k, u.file k = if k = fd then some a else t.file k) : u.count = t.count + 1 := by
  unfold Table.count
  rw [hlimit]
  have key : ∀ n, (List.range n).countP (fun k => (u.file k).isSome) =
      (List.range n).countP (fun k => (t.file k).isSome) + if fd < n then 1 else 0 := by
    intro n
    induction n with
    | zero => simp
    | succ n ih =>
      rw [List.range_succ, List.countP_append, List.countP_append, ih]
      simp only [List.countP_singleton, hfile n]
      by_cases hn : n = fd
      · subst hn
        simp [hfree]
      · rw [if_neg hn]
        by_cases hlt' : fd < n
        · rw [if_pos hlt', if_pos (show fd < n + 1 by omega)]
          omega
        · rw [if_neg hlt', if_neg (show ¬ fd < n + 1 by omega)]
          omega
  rw [key, if_pos hlt]

/-- A table that is full but for one descriptor counts all the others. -/
theorem Table.limit_le_count {t : Table α} (fd : Nat)
    (hfull : ∀ k < t.limit, k ≠ fd → t.file k ≠ none) : t.limit ≤ t.count + 1 := by
  unfold Table.count
  have key : ∀ n ≤ t.limit,
      n ≤ (List.range n).countP (fun k => (t.file k).isSome) + if fd < n then 1 else 0 := by
    intro n
    induction n with
    | zero => simp
    | succ n ih =>
      intro hn
      have hle := ih (by omega)
      rw [List.range_succ, List.countP_append, List.countP_singleton]
      by_cases heq : n = fd
      · subst heq
        rw [if_neg (Nat.lt_irrefl n)] at hle
        rw [if_pos (Nat.lt_succ_self n)]
        omega
      · rw [if_pos (Option.isSome_iff_ne_none.mpr (hfull n (by omega) heq))]
        by_cases hlt : fd < n
        · rw [if_pos hlt] at hle
          rw [if_pos (show fd < n + 1 by omega)]
          omega
        · rw [if_neg hlt] at hle
          omega
  have hall := key t.limit (Nat.le_refl _)
  split at hall <;> omega

end filetable
