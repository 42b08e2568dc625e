-- The page tables of `kernel/arch/x86_64/boot.S`: identity pages of 2 MiB
-- for the first 4 GiB, and the one directory entry whose window goes through
-- `user_page_table`.
import MantleOS.PageWalk
import MantleOS.UserSpace

open paging

namespace mantle

/-- The quads of `.data` from `pml4_table` on, in the order of `boot.S`: `pml4_table`,
`pdpt_table`, `pd_table0` to `pd_table3`. -/
def boot_quad (layout : Layout) (k : Nat) : Nat :=
  if k < 512 then
    -- pml4_table
    if k = 0 then layout.pml4_table + 0x1000 + 0x003 else 0
  else if k < 1024 then
    -- pdpt_table
    if k < 516 then layout.pml4_table + 0x2000 + (k - 512) * 0x1000 + 0x003 else 0
  else
    -- pd_table0 .. pd_table3, where page counts on over the four
    let page := k - 1024
    if page = 2 then layout.user_page_table + 0x003 else page * 0x200000 + 0x083

/-- The eight bytes at a physical address. What is not a table is `rest`. -/
def read_quad (layout : Layout) (pages rest : Nat → Nat) (address : Nat) : Nat :=
  if layout.pml4_table ≤ address ∧ address < layout.pml4_table + 0x6000 then
    boot_quad layout ((address - layout.pml4_table) / 8)
  else if layout.user_page_table ≤ address ∧ address < layout.user_page_table + 0x1000 then
    pages ((address - layout.user_page_table) / 8)
  else rest address

/-- The address is in the user window. -/
def InWindow (a : Nat) : Prop := USER_BASE ≤ a ∧ a < USER_LIMIT

instance (a : Nat) : Decidable (InWindow a) := inferInstanceAs (Decidable (_ ∧ _))

/-- The page of the window that holds the address. -/
def pageOf (a : Nat) : Nat := (a - USER_BASE) / 4096

theorem pageOf_lt {a : Nat} (h : InWindow a) : pageOf a < 512 := by
  unfold InWindow USER_LIMIT at h
  unfold pageOf
  unfold USER_BASE at h ⊢
  omega

/-! ## The entries that the walk reads -/

variable (layout : Layout) (pages rest : Nat → Nat)

theorem read_boot {k : Nat} (h : k < 3072) :
    read_quad layout pages rest (layout.pml4_table + 8 * k) = boot_quad layout k := by
  rw [read_quad, if_pos (by omega)]
  congr 1
  omega

theorem read_page {k : Nat} (h : k < 512) :
    read_quad layout pages rest (layout.user_page_table + 8 * k) = pages k := by
  have := layout.apart
  rw [read_quad, if_neg (by omega), if_pos (by omega)]
  congr 1
  omega

theorem frame_table {x : Nat} (h : x % 4096 = 0) (hx : x < 2 ^ 32) : frame 12 (x + 0x003) = x := by
  unfold frame
  omega

theorem present_table {x : Nat} (h : x % 4096 = 0) : present (x + 0x003) = true := by
  simp only [present, bit, decide_eq_true_eq]
  omega

theorem large_table {x : Nat} (h : x % 4096 = 0) : large (x + 0x003) = false := by
  simp only [large, bit, decide_eq_false_iff_not]
  omega

theorem user_table {x : Nat} (h : x % 4096 = 0) : user (x + 0x003) = false := by
  simp only [user, bit, decide_eq_false_iff_not]
  omega

theorem read_pml4 {a : Nat} :
    read_quad layout pages rest (layout.pml4_table + 8 * index a 39) =
      if index a 39 = 0 then layout.pml4_table + 0x1000 + 0x003 else 0 := by
  have hi : index a 39 < 512 := by unfold index; omega
  rw [read_boot layout pages rest (by omega), boot_quad, if_pos hi]

theorem read_pdpt {a : Nat} :
    read_quad layout pages rest (layout.pml4_table + 0x1000 + 8 * index a 30) =
      if index a 30 < 4 then
        layout.pml4_table + 0x2000 + index a 30 * 0x1000 + 0x003 else 0 := by
  have hi : index a 30 < 512 := by unfold index; omega
  have h := read_boot layout pages rest (k := 512 + index a 30) (by omega)
  rw [show layout.pml4_table + 0x1000 + 8 * index a 30 =
    layout.pml4_table + 8 * (512 + index a 30) by omega, h, boot_quad, if_neg (by omega),
    if_pos (by omega), Nat.add_sub_cancel_left]
  congr 1
  simp only [eq_iff_iff]
  omega

theorem read_directory {a : Nat} (h : a < 2 ^ 32) :
    read_quad layout pages rest
      (layout.pml4_table + 0x2000 + index a 30 * 0x1000 + 8 * index a 21) =
      if a / 2 ^ 21 = 2 then layout.user_page_table + 0x003
      else a / 2 ^ 21 * 0x200000 + 0x083 := by
  have hpage : index a 30 * 512 + index a 21 = a / 2 ^ 21 := by
    unfold index
    omega
  have hb := read_boot layout pages rest (k := 1024 + a / 2 ^ 21) (by omega)
  rw [show layout.pml4_table + 0x2000 + index a 30 * 0x1000 + 8 * index a 21 =
    layout.pml4_table + 8 * (1024 + a / 2 ^ 21) by omega, hb, boot_quad, if_neg (by omega),
    if_neg (by omega), Nat.add_sub_cancel_left]

/-! ## The walk -/

/-- Above 4 GiB nothing is mapped. -/
theorem walk_high {a : Nat} (h : 2 ^ 32 ≤ a) (h64 : a < 2 ^ 64) :
    walk (read_quad layout pages rest) layout.pml4_table a = none := by
  have halign := layout.pml4_aligned
  have hfits := layout.pml4_fits
  unfold walk
  simp only [read_pml4]
  by_cases h4 : index a 39 = 0
  · have h3 : ¬ index a 30 < 4 ∨ ¬ Canonical a := by
      unfold index at h4 ⊢
      unfold Canonical
      omega
    rw [if_pos h4, frame_table (by omega) (by omega)]
    simp only [read_pdpt]
    rcases h3 with h3 | h3
    · rw [if_neg h3, if_pos]
      right
      right
      decide
    · rw [if_pos (Or.inl h3)]
  · rw [if_neg h4, if_pos]
    right
    left
    decide

/-- The two upper levels of an address below 4 GiB. -/
def upperEntries (a : Nat) : List Nat :=
  [layout.pml4_table + 0x1000 + 0x003, layout.pml4_table + 0x2000 + index a 30 * 0x1000 + 0x003]

/-- Below 4 GiB the walk comes to the page directories. -/
theorem walk_low {a : Nat} (h : a < 2 ^ 32) :
    walk (read_quad layout pages rest) layout.pml4_table a =
      let e2 := if a / 2 ^ 21 = 2 then layout.user_page_table + 0x003
        else a / 2 ^ 21 * 0x200000 + 0x083
      let e1 := read_quad layout pages rest (frame 12 e2 + 8 * index a 12)
      if !present e2 then none
      else if large e2 then
        some { address := frame 21 e2 + a % 2 ^ 21, entries := upperEntries layout a ++ [e2] }
      else if !present e1 then none
      else some { address := frame 12 e1 + a % 2 ^ 12,
                  entries := upperEntries layout a ++ [e2, e1] } := by
  have halign := layout.pml4_aligned
  have hfits := layout.pml4_fits
  have h4 : index a 39 = 0 := by unfold index; omega
  have h3 : index a 30 < 4 := by unfold index; omega
  have hc : Canonical a := by unfold Canonical; omega
  unfold walk
  simp only [read_pml4]
  rw [if_pos h4, frame_table (by omega) (by omega)]
  simp only [read_pdpt]
  rw [if_pos h3, frame_table (by omega) (by omega)]
  simp only [read_directory layout pages rest h]
  rw [if_neg, large_table (by omega)]
  · rfl
  · rw [present_table (by omega), present_table (by omega)]
    simp [hc]

/-- Below 4 GiB and outside the window, an address is its own translation. -/
theorem walk_identity {a : Nat} (h : a < 2 ^ 32) (hw : ¬ InWindow a) :
    walk (read_quad layout pages rest) layout.pml4_table a =
      some { address := a
             entries := upperEntries layout a ++ [a / 2 ^ 21 * 0x200000 + 0x083] } := by
  have h2 : ¬ a / 2 ^ 21 = 2 := by
    unfold InWindow USER_BASE USER_LIMIT at hw
    omega
  have hp : present (a / 2 ^ 21 * 0x200000 + 0x083) = true := by
    simp only [present, bit, decide_eq_true_eq]
    omega
  have hl : large (a / 2 ^ 21 * 0x200000 + 0x083) = true := by
    simp only [large, bit, decide_eq_true_eq]
    omega
  have hf : frame 21 (a / 2 ^ 21 * 0x200000 + 0x083) + a % 2 ^ 21 = a := by
    unfold frame
    omega
  rw [walk_low layout pages rest h]
  simp only [if_neg h2, hp, hl, hf, Bool.not_true, Bool.false_eq_true, if_false, if_true]

/-- In the window, the entry of `user_page_table` decides. -/
theorem walk_window {a : Nat} (hw : InWindow a) :
    walk (read_quad layout pages rest) layout.pml4_table a =
      if present (pages (pageOf a)) then
        some { address := frame 12 (pages (pageOf a)) + a % 2 ^ 12
               entries := upperEntries layout a ++
                 [layout.user_page_table + 0x003, pages (pageOf a)] }
      else none := by
  have halign := layout.page_table_aligned
  have hfits := layout.page_table_fits
  have hlt := pageOf_lt hw
  unfold InWindow USER_BASE USER_LIMIT at hw
  have h2 : a / 2 ^ 21 = 2 := by omega
  have hi : index a 12 = pageOf a := by
    unfold index pageOf USER_BASE
    omega
  rw [walk_low layout pages rest (by omega)]
  simp only [if_pos h2]
  rw [present_table halign, large_table halign, frame_table halign (by omega), hi,
    read_page layout pages rest hlt]
  cases present (pages (pageOf a)) <;> simp

/-- In the window of a mapped table, an address goes to its byte of `mantle_user_memory`. -/
theorem translate_window {a : Nat} (hw : InWindow a) (hm : PagesMapped layout pages) :
    translate (read_quad layout pages rest) layout.pml4_table a =
      some (layout.mantle_user_memory + (a - USER_BASE)) := by
  have halign := layout.memory_aligned
  have hfits := layout.memory_fits
  have hlt := pageOf_lt hw
  obtain ⟨write, nx, he, _⟩ := hm (pageOf a) hlt
  rw [entryWith_eq layout _ _ _ hlt] at he
  unfold userSize at hfits
  unfold InWindow USER_BASE USER_LIMIT at hw
  have hp : present (pages (pageOf a)) = true := by
    simp only [present, bit, decide_eq_true_eq, he]
    cases write <;> cases nx <;> simp only [if_true, if_false, Bool.false_eq_true] <;> omega
  have hf : frame 12 (pages (pageOf a)) = layout.mantle_user_memory + pageOf a * 4096 := by
    simp only [frame, he]
    cases write <;> cases nx <;> simp only [if_true, if_false, Bool.false_eq_true] <;> omega
  rw [paging.translate, walk_window layout pages rest hw, hp]
  simp only [if_true, Option.map_some, hf, Option.some.injEq]
  unfold pageOf USER_BASE
  omega

/-- The addresses of one link of the kernel. -/
def someLayout : Layout :=
  { pml4_table := 0x110000, user_page_table := 0x120000, mantle_user_memory := 0x130000
    pml4_aligned := by decide, page_table_aligned := by decide, memory_aligned := by decide
    pml4_fits := by decide, page_table_fits := by decide, memory_fits := by decide
    apart := by decide }

end mantle
