-- The laws of the loader over any sequence of loads: every page stays mapped
-- to its own frame, and none is ever writable and executable.
import Mathlib.Data.Nat.Bitwise
import MantleOS.ElfLoad

open checked bytes

namespace mantle.elf

/-! ## The permission bits -/

/-- The segment asks for write. -/
def writes (program : elf_program_header) : Bool := program.flags &&& PF_W ≠ 0

/-- The segment asks for execution. -/
def executes (program : elf_program_header) : Bool := program.flags &&& PF_X ≠ 0

theorem permissions_eq (layout : Layout) (page : Nat) (program : elf_program_header) :
    page_entry layout page (permissions program) =
      entryWith layout page (writes program) (!executes program) := by
  simp [permissions, entryWith, writes, executes]

/-- A one-bit mask keeps the bit or nothing. -/
theorem and_bit (n i : Nat) : n &&& 2 ^ i = 0 ∨ n &&& 2 ^ i = 2 ^ i := by
  rw [Nat.and_two_pow]
  cases n.testBit i <;> simp

/-- A segment that passes the checks never asks for both. -/
theorem Fits.not_both {program : elf_program_header} {size : Nat} (h : Fits program size)
    (hw : writes program = true) : executes program = false := by
  by_contra hx
  simp only [writes, executes, decide_eq_true_eq, Bool.not_eq_false] at hw hx
  have hw' : program.flags &&& PF_W = PF_W := (and_bit program.flags 1).resolve_left hw
  have hx' : program.flags &&& PF_X = PF_X := (and_bit program.flags 0).resolve_left hx
  apply h.not_wx
  rw [Nat.and_or_distrib_left, hw', hx']

/-! ## The pages of a placed image -/

/-- The last segment of the list, in table order, with a byte in the page. -/
def lastMeeting (ps : List elf_program_header) (page : Nat) : Option elf_program_header :=
  ps.reverse.find? (fun p => Meets p page)

theorem findSome_segmentPage (layout : Layout) (ps : List elf_program_header) (page : Nat) :
    ps.findSome? (fun p => segmentPage layout p page) =
      (ps.find? (fun p => Meets p page)).map
        (fun p => entryWith layout page (writes p) (!executes p)) := by
  simp only [segmentPage, permissions_eq]
  exact findSome_ite (fun p => Meets p page) _ ps

/-- The entry of a page comes from the last segment that meets the page. -/
theorem placedUser_pages (layout : Layout) (user : UserSpace) (image : Bytes) (page : Nat)
    (h : page < 512) :
    (placedUser layout user image).pages page =
      match lastMeeting (placed image) page with
      | some p => entryWith layout page (writes p) (!executes p)
      | none => entryWith layout page (decide (496 ≤ page)) true := by
  simp only [placedUser, overlay_apply, findSome_segmentPage, lastMeeting, freshPage, h, if_true]
  cases (placed image).reverse.find? (fun p => Meets p page) <;> rfl

theorem fits_of_placed {image : Bytes} {program : elf_program_header}
    (h : program ∈ placed image) : Fits program image.length :=
  fits_of_valid (List.mem_takeWhile_imp (p := fun p => segment_valid p image.length) h)

theorem fits_of_lastMeeting {image : Bytes} {page : Nat} {program : elf_program_header}
    (h : lastMeeting (placed image) page = some program) : Fits program image.length :=
  fits_of_placed (List.mem_reverse.mp (List.mem_of_find?_eq_some h))

/-- A load leaves every page mapped, also when it fails between two segments. -/
theorem placedUser_mapped (layout : Layout) (user : UserSpace) (image : Bytes) :
    PagesMapped layout (placedUser layout user image).pages := by
  intro i hi
  rw [placedUser_pages layout user image i hi]
  cases hl : lastMeeting (placed image) i with
  | none => exact ⟨_, _, rfl, fun _ => rfl⟩
  | some p =>
    refine ⟨_, _, rfl, fun hw => ?_⟩
    rw [(fits_of_lastMeeting hl).not_both hw]
    rfl

/-- One load keeps the mapping. -/
theorem mantle_elf_load.mapped (layout : Layout) (user : UserSpace) (image : Option Bytes)
    (h : PagesMapped layout user.pages) :
    Yields (mantle_elf_load layout user image) (fun r => PagesMapped layout r.1.pages) := by
  cases image with
  | none => simpa [mantle_elf_load] using h
  | some image =>
    rw [mantle_elf_load.spec, yields_ok, loadM]
    split
    · exact placedUser_mapped layout user image
    · exact h

/-! ## The law -/

/-- Loads made one after the other, whatever each returned. -/
def loads (layout : Layout) (user : UserSpace) (images : List (Option Bytes)) :
    Checked UserSpace :=
  images.foldlM (fun user image => do
    let (user, _) ← mantle_elf_load layout user image
    return user) user

theorem loads.mapped (layout : Layout) (user : UserSpace) (images : List (Option Bytes))
    (h : PagesMapped layout user.pages) :
    Yields (loads layout user images) (fun u => PagesMapped layout u.pages) := by
  induction images generalizing user with
  | nil => simpa [loads] using h
  | cons image images ih =>
    simp only [loads, List.foldlM_cons]
    apply Yields.bind (P := fun u => PagesMapped layout u.pages)
    · apply (mantle_elf_load.mapped layout user image h).bind
      intro r hr
      simpa using hr
    · intro u hu
      exact ih u hu

/-- From `mantle_arch_user_memory_init` on, after any loads of any images, every entry is
the address of its own page with PRESENT and USER, and WRITE only with NX. No load writes
outside the table. -/
theorem no_page_is_ever_writable_and_executable (layout : Layout) (user : UserSpace)
    (images : List (Option Bytes)) :
    Yields (do
      let user ← mantle_arch_user_memory_init layout user
      loads layout user images) (fun u => PagesMapped layout u.pages) := by
  apply (mantle_arch_user_memory_init.spec layout user).bind
  intro u hu
  exact loads.mapped layout u images hu.2

end mantle.elf
