-- The four-level page walk of x86-64: from a root table and a virtual
-- address to a physical address and the entries on the way. An access of
-- ring 3 needs its right at every level.
import Mathlib.Algebra.Ring.Nat
import Mathlib.Tactic.Common

namespace paging

/-- Bit `k` of an entry. -/
def bit (entry k : Nat) : Bool := entry / 2 ^ k % 2 = 1

def present (entry : Nat) : Bool := bit entry 0
def writable (entry : Nat) : Bool := bit entry 1
def user (entry : Nat) : Bool := bit entry 2
def large (entry : Nat) : Bool := bit entry 7
def noExecute (entry : Nat) : Bool := bit entry 63

/-- The bits `low .. 51` of an entry: the address of a table or of a page of `2 ^ low` bytes. -/
def frame (low entry : Nat) : Nat := entry / 2 ^ low % 2 ^ (52 - low) * 2 ^ low

/-- The bits 63 to 47 of the address are all equal. -/
def Canonical (a : Nat) : Prop := a < 2 ^ 47 ∨ 2 ^ 64 - 2 ^ 47 ≤ a

instance (a : Nat) : Decidable (Canonical a) := inferInstanceAs (Decidable (_ ∨ _))

/-- The index into a table: nine bits from `low` on. -/
def index (a low : Nat) : Nat := a / 2 ^ low % 512

/-- A page that the walk found, with the entries of each level. -/
structure Page where
  address : Nat
  entries : List Nat
  deriving DecidableEq

/-- The walk, with `read` for the eight bytes at a physical address. -/
def walk (read : Nat → Nat) (root a : Nat) : Option Page :=
  let e4 := read (root + 8 * index a 39)
  let e3 := read (frame 12 e4 + 8 * index a 30)
  let e2 := read (frame 12 e3 + 8 * index a 21)
  let e1 := read (frame 12 e2 + 8 * index a 12)
  if ¬ Canonical a ∨ !present e4 ∨ !present e3 then none
  else if large e3 then some { address := frame 30 e3 + a % 2 ^ 30, entries := [e4, e3] }
  else if !present e2 then none
  else if large e2 then some { address := frame 21 e2 + a % 2 ^ 21, entries := [e4, e3, e2] }
  else if !present e1 then none
  else some { address := frame 12 e1 + a % 2 ^ 12, entries := [e4, e3, e2, e1] }

/-- Where the kernel reaches the address. -/
def translate (read : Nat → Nat) (root a : Nat) : Option Nat := (walk read root a).map (·.address)

/-- Ring 3 can read the address: U/S is set at every level. -/
def CanRead (read : Nat → Nat) (root a : Nat) : Prop :=
  ∃ p, walk read root a = some p ∧ ∀ e ∈ p.entries, user e = true

/-- Ring 3 can write the address: U/S and W are set at every level. -/
def CanWrite (read : Nat → Nat) (root a : Nat) : Prop :=
  ∃ p, walk read root a = some p ∧ ∀ e ∈ p.entries, user e = true ∧ writable e = true

/-- Ring 3 can fetch from the address: U/S is set and NX is clear at every level. -/
def CanFetch (read : Nat → Nat) (root a : Nat) : Prop :=
  ∃ p, walk read root a = some p ∧ ∀ e ∈ p.entries, user e = true ∧ noExecute e = false

variable {read : Nat → Nat} {root a : Nat}

theorem not_canRead_of_none (h : walk read root a = none) : ¬ CanRead read root a := by
  rintro ⟨p, hp, _⟩
  rw [h] at hp
  cases hp

/-- Whoever can write can read. -/
theorem CanWrite.canRead (h : CanWrite read root a) : CanRead read root a := by
  obtain ⟨p, hp, he⟩ := h
  exact ⟨p, hp, fun e hm => (he e hm).1⟩

/-- Whoever can fetch can read. -/
theorem CanFetch.canRead (h : CanFetch read root a) : CanRead read root a := by
  obtain ⟨p, hp, he⟩ := h
  exact ⟨p, hp, fun e hm => (he e hm).1⟩

/-- An entry without U/S on the way closes the address to ring 3. -/
theorem not_canRead_of_supervisor {p : Page} {e : Nat} (hp : walk read root a = some p)
    (he : e ∈ p.entries) (hu : user e = false) : ¬ CanRead read root a := by
  rintro ⟨q, hq, hall⟩
  rw [hp] at hq
  cases hq
  rw [hall e he] at hu
  cases hu

end paging
