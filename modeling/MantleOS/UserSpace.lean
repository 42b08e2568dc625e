-- The memory of user programs: the array `mantle_user_memory`, which the
-- window 0x400000..0x600000 shows, and the page table of that window.
import MantleOS.Bytes

open checked bytes

namespace mantle

def USER_BASE : Nat := 0x00400000
def USER_LIMIT : Nat := 0x00600000

/-- The bytes of `mantle_user_memory`. -/
def userSize : Nat := 0x200000

def PAGE_PRESENT : Nat := 1
def PAGE_WRITE : Nat := 2
def PAGE_USER : Nat := 4
def PAGE_NX : Nat := 0x8000000000000000

/-- The addresses that the linker gives to the tables of `boot.S` and to
`mantle_user_memory`. `boot.S` aligns its tables to 4096 and the six of `.data` follow each
other. The start code loads them as 32-bit addresses. -/
structure Layout where
  pml4_table : Nat
  user_page_table : Nat
  mantle_user_memory : Nat
  pml4_aligned : pml4_table % 4096 = 0
  page_table_aligned : user_page_table % 4096 = 0
  memory_aligned : mantle_user_memory % 4096 = 0
  pml4_fits : pml4_table + 0x6000 ≤ 2 ^ 32
  page_table_fits : user_page_table + 0x1000 ≤ 2 ^ 32
  memory_fits : mantle_user_memory + userSize ≤ 2 ^ 32
  apart : user_page_table + 0x1000 ≤ pml4_table ∨ pml4_table + 0x6000 ≤ user_page_table

/-- `mantle_user_memory` and the 512 entries of `user_page_table`. -/
structure UserSpace where
  memory : Window USER_BASE userSize
  pages : Nat → Nat

/-- `user_page_table[index] = value`. -/
def set_page (pages : Nat → Nat) (index value : Nat) : Checked (Nat → Nat) :=
  if index < 512 then .ok (Function.update pages index value) else .error (.bounds index 512)

/-- The entry of page `index` of `mantle_user_memory`. -/
def page_entry (layout : Layout) (index permissions : Nat) : Nat :=
  (layout.mantle_user_memory + index * 4096) ||| permissions

/-- `for (page = first; page < last; ++page) user_page_table[page] = ..`. -/
def map_pages (layout : Layout) (permissions first last : Nat) (pages : Nat → Nat) :
    Checked (Nat → Nat) :=
  forRange (fun page pages => set_page pages page (page_entry layout page permissions))
    first (last - first) pages

def mantle_arch_user_memory_init (layout : Layout) (user : UserSpace) : Checked UserSpace := do
  let pages ← map_pages layout 0x8000000000000005 0 512 user.pages
  return { user with pages }

/-! ## The specs -/

/-- A loop over pages sets the entries of these pages, and no other. -/
theorem map_pages.spec (layout : Layout) (permissions first last : Nat) (pages : Nat → Nat)
    (h : last ≤ 512) :
    map_pages layout permissions first last pages = .ok (fun p =>
      if first ≤ p ∧ p < last then page_entry layout p permissions else pages p) := by
  obtain ⟨r, hr, he⟩ := forRange.spec
    (fun page pages => set_page pages page (page_entry layout page permissions))
    (fun i r => r = fun p =>
      if first ≤ p ∧ p < i then page_entry layout p permissions else pages p)
    first (last - first) pages
    (by
      funext p
      rw [if_neg (by omega)])
    (by
      intro i r h1 h2 hr
      rw [set_page, if_pos (by omega), yields_ok, hr]
      funext p
      simp only [Function.update_apply]
      by_cases hp : p = i
      · subst hp
        rw [if_pos rfl, if_pos (by omega)]
      · rw [if_neg hp]
        congr 1
        simp only [eq_iff_iff]
        omega)
  rw [map_pages, hr, he]
  congr 1
  funext p
  congr 1
  simp only [eq_iff_iff]
  omega

/-! ## The shape of an entry -/

/-- The entry of page `index` with the two bits that vary. -/
def entryWith (layout : Layout) (index : Nat) (write nx : Bool) : Nat :=
  page_entry layout index (PAGE_PRESENT ||| PAGE_USER ||| (if write then PAGE_WRITE else 0) |||
    (if nx then PAGE_NX else 0))

/-- The entry is the address of page `index` with PRESENT and USER, and WRITE only with NX. -/
def PageMapped (layout : Layout) (index entry : Nat) : Prop :=
  ∃ write nx, entry = entryWith layout index write nx ∧ (write = true → nx = true)

/-- Every entry of the table has the shape. -/
def PagesMapped (layout : Layout) (pages : Nat → Nat) : Prop :=
  ∀ i < 512, PageMapped layout i (pages i)

/-- The fields of an entry never meet, so their union is their sum. -/
theorem entryWith_eq (layout : Layout) (index : Nat) (write nx : Bool) (h : index < 512) :
    entryWith layout index write nx = layout.mantle_user_memory + index * 4096 +
      (5 + (if write then 2 else 0) + (if nx then 2 ^ 63 else 0)) := by
  have halign := layout.memory_aligned
  have hfits := layout.memory_fits
  unfold userSize at hfits
  set x := layout.mantle_user_memory + index * 4096 with hx
  have hlow : ∀ f < 2 ^ 12, x ||| f = x + f := by
    intro f hf
    have hq : x = 2 ^ 12 * (x / 2 ^ 12) := by omega
    rw [hq]
    exact (Nat.two_pow_add_eq_or_of_lt hf _).symm
  have hhigh : ∀ y < 2 ^ 63, y ||| 2 ^ 63 = y + 2 ^ 63 := by
    intro y hy
    have := Nat.two_pow_add_eq_or_of_lt hy 1
    rw [Nat.mul_one] at this
    rw [Nat.or_comm, ← this]
    omega
  unfold entryWith page_entry
  rw [← hx]
  cases write <;> cases nx
  · exact hlow 5 (by decide)
  · calc x ||| (5 ||| 2 ^ 63) = (x ||| 5) ||| 2 ^ 63 := (Nat.or_assoc _ _ _).symm
      _ = x + (5 + 0 + 2 ^ 63) := by rw [hlow 5 (by decide), hhigh _ (by omega)]; omega
  · exact hlow 7 (by decide)
  · calc x ||| (7 ||| 2 ^ 63) = (x ||| 7) ||| 2 ^ 63 := (Nat.or_assoc _ _ _).symm
      _ = x + (5 + 2 + 2 ^ 63) := by rw [hlow 7 (by decide), hhigh _ (by omega)]; omega

/-- The table that `mantle_arch_user_memory_init` leaves. -/
def initPages (layout : Layout) (pages : Nat → Nat) (page : Nat) : Nat :=
  if 0 ≤ page ∧ page < 512 then page_entry layout page 0x8000000000000005 else pages page

theorem mantle_arch_user_memory_init.eq (layout : Layout) (user : UserSpace) :
    mantle_arch_user_memory_init layout user =
      .ok { user with pages := initPages layout user.pages } := by
  unfold mantle_arch_user_memory_init
  rw [map_pages.spec layout _ 0 512 _ (by omega)]
  rfl

/-- The table after `mantle_arch_user_memory_init` maps each page read-only and NX. -/
theorem mantle_arch_user_memory_init.spec (layout : Layout) (user : UserSpace) :
    Yields (mantle_arch_user_memory_init layout user) (fun u =>
      u.memory = user.memory ∧ PagesMapped layout u.pages) := by
  rw [mantle_arch_user_memory_init.eq, yields_ok]
  refine ⟨rfl, fun i hi => ⟨false, true, ?_, fun _ => rfl⟩⟩
  simp only [initPages, Nat.zero_le, hi, and_self, if_true]
  rfl

end mantle
