-- Brackets in a stream of symbols: the place of each opening bracket that is still
-- open, kept as a stack, against the count of the brackets from it on.
import Mathlib.Data.Int.Order.Basic
import Mathlib.Data.List.Basic

namespace nesting

inductive Bracket
  | opening
  | closing
  | other
  deriving DecidableEq

variable {b : Nat → Bracket}

/-- The opening minus the closing brackets of `n` symbols, from a place on. -/
def balance (b : Nat → Bracket) (p : Nat) : Nat → Int
  | 0 => 0
  | n + 1 =>
    balance b p n +
      match b (p + n) with
      | .opening => 1
      | .closing => -1
      | .other => 0

/-- Place `k` lies after the opening bracket at `p` and before the one that closes it: the count of
the brackets from `p` on has not come back to 0. -/
def Encloses (b : Nat → Bracket) (p k : Nat) : Prop :=
  b p = .opening ∧ p < k ∧ ∀ n, 0 < n → p + n ≤ k → 0 < balance b p n

/-- The opening brackets before a place that are not closed yet, the last one first. -/
def openAt (b : Nat → Bracket) : Nat → List Nat
  | 0 => []
  | i + 1 =>
    match b i with
    | .opening => i :: openAt b i
    | .closing => (openAt b i).tail
    | .other => openAt b i

variable {i p : Nat}

theorem openAt_other (h : b i = .other) : openAt b (i + 1) = openAt b i := by
  rw [openAt, h]

theorem openAt_opening (h : b i = .opening) : openAt b (i + 1) = i :: openAt b i := by
  rw [openAt, h]

theorem openAt_closing (h : b i = .closing) : openAt b (i + 1) = (openAt b i).tail := by
  rw [openAt, h]

theorem lt_of_mem_openAt (hp : p ∈ openAt b i) : p < i := by
  induction i with
  | zero => cases hp
  | succ i ih =>
    rw [openAt] at hp
    split at hp
    · rcases List.mem_cons.mp hp with rfl | hp
      · exact Nat.lt_succ_self p
      · exact Nat.lt_succ_of_lt (ih hp)
    · exact Nat.lt_succ_of_lt (ih (List.mem_of_mem_tail hp))
    · exact Nat.lt_succ_of_lt (ih hp)

theorem opening_of_mem_openAt (hp : p ∈ openAt b i) : b p = .opening := by
  induction i with
  | zero => cases hp
  | succ i ih =>
    rw [openAt] at hp
    split at hp
    · rename_i hkind
      rcases List.mem_cons.mp hp with rfl | hp
      · exact hkind
      · exact ih hp
    · exact ih (List.mem_of_mem_tail hp)
    · exact ih hp

/-- A bracket that is closed stays so. -/
theorem notMem_openAt_add (hp : p ∉ openAt b i) (hlt : p < i) (n : Nat) :
    p ∉ openAt b (i + n) := by
  induction n with
  | zero => exact hp
  | succ n ih =>
    intro hmem
    rw [← Nat.add_assoc, openAt] at hmem
    split at hmem
    · rcases List.mem_cons.mp hmem with rfl | hmem
      · omega
      · exact ih hmem
    · exact ih (List.mem_of_mem_tail hmem)
    · exact ih hmem

/-- While the count from an opening bracket on stays above 0, the bracket is open, under as many
others as the count says. -/
theorem openAt_of_balance (hp : b p = .opening) (n : Nat)
    (hpos : ∀ j, 0 < j → j ≤ n + 1 → 0 < balance b p j) :
    ∃ inner, openAt b (p + (n + 1)) = inner ++ p :: openAt b p ∧
      (inner.length : Int) + 1 = balance b p (n + 1) := by
  induction n with
  | zero => exact ⟨[], openAt_opening hp, by simp [balance, hp]⟩
  | succ n ih =>
    obtain ⟨inner, hopen, hlength⟩ := ih fun j h0 hj => hpos j h0 (by omega)
    have hlast := hpos (n + 2) (by omega) (by omega)
    rw [balance] at hlast
    rw [← Nat.add_assoc p (n + 1) 1, openAt, balance, hopen, ← hlength]
    rw [← hlength] at hlast
    cases hkind : b (p + (n + 1)) with
    | opening => exact ⟨(p + (n + 1)) :: inner, rfl, by simp⟩
    | closing =>
      rw [hkind] at hlast
      cases inner with
      | nil => simp at hlast
      | cons q inner =>
        refine ⟨inner, rfl, ?_⟩
        simp only [List.length_cons]
        omega
    | other => exact ⟨inner, rfl, by simp⟩

/-- The count comes to 0 with the bracket that closes the one at `p`. -/
theorem balance_of_mem_openAt {n : Nat} (hp : p ∈ openAt b i) (hn : 0 < n) (hle : p + n ≤ i) :
    0 < balance b p n := by
  have hkind := opening_of_mem_openAt hp
  induction n using Nat.strongRecOn with
  | ind n ih =>
    obtain ⟨m, rfl⟩ : ∃ m, n = m + 1 := ⟨n - 1, by omega⟩
    cases m with
    | zero => simp [balance, hkind]
    | succ m =>
      by_contra hzero
      obtain ⟨inner, hopen, hlength⟩ := openAt_of_balance hkind m
        fun j h0 hj => ih j (by omega) h0 (by omega)
      -- the last of the symbols closes the bracket at `p`
      have hclosed : openAt b (p + (m + 1 + 1)) = openAt b p := by
        rw [balance, ← hlength] at hzero
        rw [← Nat.add_assoc p (m + 1) 1, openAt, hopen]
        cases hlast : b (p + (m + 1)) with
        | closing =>
          rw [hlast] at hzero
          cases inner with
          | nil => rfl
          | cons q inner =>
            simp only [List.length_cons] at hzero
            omega
        | _ =>
          rw [hlast] at hzero
          simp only at hzero
          omega
      have hnot : p ∉ openAt b (p + (m + 1 + 1)) := by
        rw [hclosed]
        exact fun hmem => Nat.lt_irrefl _ (lt_of_mem_openAt hmem)
      obtain ⟨d, rfl⟩ := Nat.exists_eq_add_of_le hle
      exact notMem_openAt_add hnot (by omega) d hp

theorem mem_openAt_iff : p ∈ openAt b i ↔ Encloses b p i := by
  constructor
  · intro hp
    exact ⟨opening_of_mem_openAt hp, lt_of_mem_openAt hp, fun n hn hle => balance_of_mem_openAt hp hn hle⟩
  · rintro ⟨hkind, hlt, hpos⟩
    obtain ⟨n, rfl⟩ := Nat.exists_eq_add_of_lt hlt
    obtain ⟨inner, hopen, -⟩ := openAt_of_balance hkind n fun j h0 hj => hpos j h0 (by omega)
    rw [Nat.add_assoc, hopen]
    exact List.mem_append_right _ List.mem_cons_self

end nesting
