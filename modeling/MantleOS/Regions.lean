-- Regions of a memory: a write into one leaves what is apart from it, and the
-- contents of a region are a list.
import Mathlib.Data.List.GetD
import Mathlib.Tactic.Common

namespace regions

structure Region where
  start : Nat
  size : Nat
  deriving DecidableEq

namespace Region

/-- The address is in the region. -/
def Holds (r : Region) (a : Nat) : Prop := r.start ≤ a ∧ a < r.start + r.size

instance (r : Region) (a : Nat) : Decidable (r.Holds a) := inferInstanceAs (Decidable (_ ∧ _))

/-- One ends before the other starts. -/
def Apart (r s : Region) : Prop := r.start + r.size ≤ s.start ∨ s.start + s.size ≤ r.start

instance (r s : Region) : Decidable (r.Apart s) := inferInstanceAs (Decidable (_ ∨ _))

variable {r s : Region} {a : Nat}

theorem Apart.symm (h : r.Apart s) : s.Apart r := Or.symm h

theorem Apart.not_holds (h : r.Apart s) (ha : r.Holds a) : ¬ s.Holds a := by
  unfold Apart at h
  unfold Holds at *
  omega

/-- A part of a region is apart from what the region is apart from. -/
theorem Apart.of_le {t : Region} (h : r.Apart s) (hstart : r.start ≤ t.start)
    (hend : t.start + t.size ≤ r.start + r.size) : t.Apart s := by
  unfold Apart at *
  omega

end Region

/-! ## A write -/

variable {α : Type} {memory memory' : Nat → α} {r s : Region} {f : Nat → α} {a i : Nat}

/-- The memory with `f 0, f 1, ..` in the region. -/
def fill (memory : Nat → α) (r : Region) (f : Nat → α) : Nat → α :=
  fun a => if r.Holds a then f (a - r.start) else memory a

theorem fill_out (h : ¬ r.Holds a) : fill memory r f a = memory a := if_neg h

theorem fill_in (h : i < r.size) : fill memory r f (r.start + i) = f i := by
  unfold fill
  rw [if_pos ⟨by omega, by omega⟩, Nat.add_sub_cancel_left]

theorem fill_zero (start : Nat) : fill memory ⟨start, 0⟩ f = memory := by
  funext a
  apply fill_out
  unfold Region.Holds
  dsimp only
  omega

/-- One more write at the end of the region. -/
theorem fill_succ (start n : Nat) :
    Function.update (fill memory ⟨start, n⟩ f) (start + n) (f n) = fill memory ⟨start, n + 1⟩ f := by
  funext a
  by_cases ha : a = start + n
  · subst ha
    have hin : fill memory ⟨start, n + 1⟩ f (start + n) = f n := fill_in (Nat.lt_succ_self n)
    rw [Function.update_self, hin]
  rw [Function.update_of_ne ha]
  by_cases hin : Region.Holds ⟨start, n⟩ a
  · obtain ⟨hle, hlt⟩ := hin
    dsimp only at hle hlt
    obtain ⟨i, rfl⟩ := Nat.exists_eq_add_of_le hle
    have hold : fill memory ⟨start, n⟩ f (start + i) = f i := fill_in (by dsimp only; omega)
    have hnew : fill memory ⟨start, n + 1⟩ f (start + i) = f i := fill_in (by dsimp only; omega)
    rw [hold, hnew]
  · rw [fill_out hin, fill_out]
    unfold Region.Holds at *
    dsimp only at *
    omega

/-! ## The contents -/

def contents (memory : Nat → α) (r : Region) : List α :=
  (List.range r.size).map fun i => memory (r.start + i)

@[simp] theorem contents_length : (contents memory r).length = r.size := by
  unfold contents
  rw [List.length_map, List.length_range]

theorem contents_get (h : i < (contents memory r).length) :
    (contents memory r)[i] = memory (r.start + i) := by
  simp only [contents, List.getElem_map, List.getElem_range]

theorem contents_congr (h : ∀ a, r.Holds a → memory a = memory' a) :
    contents memory r = contents memory' r := by
  unfold contents
  apply List.map_congr_left
  intro i hi
  rw [List.mem_range] at hi
  exact h _ ⟨by omega, by omega⟩

/-- What a write says of the contents of a region that is apart from it. -/
theorem contents_fill_apart (h : r.Apart s) : contents (fill memory s f) r = contents memory r :=
  contents_congr fun _ ha => fill_out (h.not_holds ha)

/-- A part of the list stands in its part of the region. -/
theorem contents_fill_part (memory : Nat → α) (l : List α) (d : α) (start : Nat) {i n : Nat} (h : i + n ≤ l.length) :
    contents (fill memory ⟨start, l.length⟩ fun i => l.getD i d) ⟨start + i, n⟩ =
      (l.drop i).take n := by
  apply List.ext_getElem
  · rw [contents_length, List.length_take, List.length_drop]
    dsimp only
    omega
  intro k hk hl
  rw [contents_length] at hk
  dsimp only at hk
  have hin : fill memory ⟨start, l.length⟩ (fun i => l.getD i d) (start + (i + k)) =
      l.getD (i + k) d := fill_in (by dsimp only; omega)
  rw [contents_get, List.getElem_take, List.getElem_drop]
  dsimp only
  rw [Nat.add_assoc, hin, List.getD_eq_getElem l d (by omega)]

/-- A list that is written into its region is what stands there. -/
theorem contents_fill (memory : Nat → α) (l : List α) (d : α) (start : Nat) :
    contents (fill memory ⟨start, l.length⟩ fun i => l.getD i d) ⟨start, l.length⟩ = l := by
  have hpart := contents_fill_part memory l d start (i := 0) (n := l.length) (by omega)
  rwa [List.drop_zero, List.take_length] at hpart

/-- Contents that are the same are the same at each address. -/
theorem eq_of_contents (h : contents memory r = contents memory' r) (ha : r.Holds a) :
    memory a = memory' a := by
  obtain ⟨hle, hlt⟩ := ha
  have hget := List.getElem_of_eq h (i := a - r.start) (by rw [contents_length]; omega)
  rwa [contents_get, contents_get, show r.start + (a - r.start) = a by omega] at hget

end regions
