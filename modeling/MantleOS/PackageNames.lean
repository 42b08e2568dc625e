-- The names that `services/mantle.c` builds paths from: where a path that
-- `safe_rel` lets through leads to, and why a key that is in the list of the
-- revoked ones is refused, whatever else the list holds.
import MantleOS.InstallLaws

open bytes ctext

namespace mantle.package

/-! ## Where a path leads -/

/-- A step along a path: the dot and the empty component stay, two dots go up. -/
def enter (dir : List Bytes) (c : Bytes) : List Bytes :=
  if c = [] ∨ c = [46] then dir else if c = [46, 46] then dir.dropLast else dir ++ [c]

/-- What `base/path` stands for, by the names alone. -/
def resolve (base : List Bytes) (path : Bytes) : List Bytes := (path.splitOn 47).foldl enter base

/-- A place under the directory, and not the directory. -/
def StrictlyBelow (base place : List Bytes) : Prop := ∃ tail, tail ≠ [] ∧ place = base ++ tail

def ChildOf (base place : List Bytes) : Prop := ∃ name, place = base ++ [name]

/-- A path with a letter: a character that is no dot and no slash. -/
def Lettered (path : Bytes) : Prop := ∃ b ∈ path, b ≠ 46 ∧ b ≠ 47

instance (path : Bytes) : Decidable (Lettered path) := inferInstanceAs (Decidable (∃ b ∈ path, _))

/-- Components that never go up are entered one after the other. -/
theorem foldl_enter {cs : List Bytes} (h : [46, 46] ∉ cs) (base : List Bytes) :
    cs.foldl enter base = base ++ cs.filter (fun c => c ≠ [] ∧ c ≠ [46]) := by
  induction cs generalizing base with
  | nil => simp
  | cons c cs ih =>
    rw [List.mem_cons, not_or] at h
    rw [List.foldl_cons, ih h.2, enter]
    by_cases hstay : c = [] ∨ c = [46]
    · rw [if_pos hstay, List.filter_cons_of_neg]
      rcases hstay with rfl | rfl
      · simp
      · simp
    · rw [if_neg hstay, if_neg (Ne.symm h.1), List.filter_cons_of_pos]
      · simp
      · rw [not_or] at hstay
        simpa using hstay

/-- What `safe_rel` says of a path. -/
theorem safe_rel_facts {path : Bytes} {component_only : Bool}
    (h : safe_rel path component_only = true) :
    path ≠ [] ∧ ¬ [46, 46] <:+: path ∧ (component_only = true → 47 ∉ path) := by
  unfold safe_rel at h
  simp only [Bool.and_eq_true, Bool.not_eq_true', Bool.or_eq_false_iff, decide_eq_false_iff_not,
    Bool.and_eq_false_iff] at h
  obtain ⟨⟨⟨⟨⟨hne, -⟩, -⟩, hdots⟩, hslash⟩, -⟩ := h
  refine ⟨by simpa using hne, hdots, ?_⟩
  intro honly
  rcases hslash with hslash | hslash
  · rw [hslash] at honly
    cases honly
  · simpa using hslash

/-- A safe path leads to its components under the directory. -/
theorem resolve_safe {path : Bytes} {component_only : Bool} (h : safe_rel path component_only = true)
    (base : List Bytes) : resolve base path = base ++ components path := by
  unfold resolve components
  apply foldl_enter
  intro hup
  exact (safe_rel_facts h).2.1 (infix_of_mem_splitOn hup)

/-- A component of dots alone is the dot, where two dots never stand together. -/
theorem eq_dot_of_dots {c : Bytes} (hne : c ≠ []) (hdots : ¬ [46, 46] <:+: c)
    (hall : ∀ b ∈ c, b = 46) : c = [46] := by
  rcases c with _ | ⟨x, _ | ⟨y, rest⟩⟩
  · exact absurd rfl hne
  · rw [hall x (by simp)]
  · have hx := hall x (by simp)
    have hy := hall y (by simp)
    subst hx hy
    exact absurd (List.prefix_append [46, 46] rest).isInfix hdots

/-- A path without two dots together has a component exactly when it has a letter. -/
theorem components_ne_nil_iff {path : Bytes} (hdots : ¬ [46, 46] <:+: path) :
    components path ≠ [] ↔ Lettered path := by
  unfold components Lettered
  constructor
  · intro hne
    obtain ⟨c, hc⟩ := List.exists_mem_of_ne_nil _ hne
    rw [List.mem_filter, decide_eq_true_eq] at hc
    obtain ⟨hpiece, hempty, hdot⟩ := hc
    have hin := infix_of_mem_splitOn hpiece
    have hletter : ∃ b ∈ c, b ≠ 46 := by
      by_contra hno
      push Not at hno
      exact hdot (eq_dot_of_dots hempty (fun h => hdots (h.trans hin)) hno)
    obtain ⟨b, hb, hb46⟩ := hletter
    refine ⟨b, hin.subset hb, hb46, ?_⟩
    rintro rfl
    exact notMem_of_mem_splitOn hpiece hb
  · rintro ⟨b, hb, hb46, hb47⟩ hnil
    obtain ⟨piece, hpiece, hbp⟩ := mem_piece_of_mem hb hb47
    have hin : piece ∈ (path.splitOn 47).filter (fun c => c ≠ [] ∧ c ≠ [46]) := by
      rw [List.mem_filter, decide_eq_true_eq]
      refine ⟨hpiece, List.ne_nil_of_mem hbp, ?_⟩
      rintro rfl
      exact hb46 (List.mem_singleton.mp hbp)
    rw [hnil] at hin
    cases hin

/-- The components of a name without a slash: the name, or nothing for the dot. -/
theorem components_of_name {name : Bytes} (hne : name ≠ []) (hslash : 47 ∉ name) :
    components name = if name = [46] then [] else [name] := by
  split
  · rename_i hdot
    rw [hdot]
    rfl
  · rename_i hdot
    exact components_name hslash hne hdot

theorem strictlyBelow_append (base tail : List Bytes) :
    StrictlyBelow base (base ++ tail) ↔ tail ≠ [] := by
  constructor
  · rintro ⟨t, ht, heq⟩
    rwa [List.append_cancel_left heq]
  · intro ht
    exact ⟨tail, ht, rfl⟩

theorem childOf_append (base tail : List Bytes) :
    ChildOf base (base ++ tail) ↔ ∃ name, tail = [name] := by
  constructor
  · rintro ⟨name, heq⟩
    exact ⟨name, List.append_cancel_left heq⟩
  · rintro ⟨name, rfl⟩
    exact ⟨name, rfl⟩

/-- A safe name leads to one component, unless it is the dot. -/
theorem components_single_iff {name : Bytes} (hne : name ≠ []) (hslash : 47 ∉ name) :
    (∃ c, components name = [c]) ↔ components name ≠ [] := by
  rw [components_of_name hne hslash]
  split
  · simp
  · simp

/-- Different names have different components. -/
theorem components_name_injective {p q : Bytes} (hp : p ≠ []) (hps : 47 ∉ p) (hq : q ≠ [])
    (hqs : 47 ∉ q) (h : components p = components q) : p = q := by
  rw [components_of_name hp hps, components_of_name hq hqs] at h
  split at h
  · rename_i hpdot
    split at h
    · rename_i hqdot
      rw [hpdot, hqdot]
    · cases h
  · split at h
    · cases h
    · exact List.singleton_inj.mp h

/-- Every path that `safe_rel` takes leads to a place under the directory exactly when it has a
letter, and every name that it takes to a child of the directory. Different names lead to
different places. -/
theorem safe_paths_stay_below_iff (base : List Bytes) (path name other : Bytes) :
    (safe_rel path false = true → (StrictlyBelow base (resolve base path) ↔ Lettered path)) ∧
    (safe_rel name true = true → (ChildOf base (resolve base name) ↔ Lettered name)) ∧
    (safe_rel name true = true → safe_rel other true = true →
      resolve base name = resolve base other → name = other) := by
  refine ⟨?_, ?_, ?_⟩
  · intro h
    rw [resolve_safe h, strictlyBelow_append]
    exact components_ne_nil_iff (safe_rel_facts h).2.1
  · intro h
    obtain ⟨hne, hdots, hslash⟩ := safe_rel_facts h
    rw [resolve_safe h, childOf_append, components_single_iff hne (hslash rfl)]
    exact components_ne_nil_iff hdots
  · intro h h' hsame
    obtain ⟨hne, -, hslash⟩ := safe_rel_facts h
    obtain ⟨hne', -, hslash'⟩ := safe_rel_facts h'
    rw [resolve_safe h, resolve_safe h'] at hsame
    exact components_name_injective hne (hslash rfl) hne' (hslash' rfl)
      (List.append_cancel_left hsame)

theorem a_safe_path_with_letters :
    StrictlyBelow transactions (resolve transactions (ascii "./usr//bin/.")) ∧
      ChildOf transactions (resolve transactions (ascii "4711")) := by
  obtain ⟨hpath, hname, -⟩ := safe_paths_stay_below_iff transactions (ascii "./usr//bin/.")
    (ascii "4711") (ascii "4712")
  exact ⟨(hpath (by decide)).mpr (by decide), (hname (by decide)).mpr (by decide)⟩

/-- The dot is a safe path and a safe name, and `mantle rollback .` acts on the directory that
holds the transactions. -/
theorem the_dot_leads_to_the_directory :
    safe_rel (ascii ".") false = true ∧ safe_rel (ascii ".") true = true ∧
      resolve transactions (ascii ".") = transactions ∧
      ¬ StrictlyBelow transactions (resolve transactions (ascii ".")) ∧
      ¬ ChildOf transactions (resolve transactions (ascii ".")) := by
  have hplace : resolve transactions (ascii ".") = transactions ++ [] := by decide
  refine ⟨by decide, by decide, by decide, ?_, ?_⟩
  · rw [hplace, strictlyBelow_append]
    simp
  · rw [hplace, childOf_append]
    simp

/-! ## The list of the revoked keys -/

/-- The check refuses, with a status other than 0. -/
def Fails {α : Type} (x : Except Refusal α) : Prop := ∃ r, x = .error r ∧ r.status ≠ 0

theorem Refuses.bind_fails {α β : Type} {x : Except Refusal α} {f : α → Except Refusal β}
    (hx : Refuses x) (hf : ∀ a, x = .ok a → Fails (f a)) : Fails (x >>= f) := by
  cases x with
  | error r => exact ⟨r, rfl, hx r rfl⟩
  | ok a => exact hf a rfl

/-- A line of a file fits the buffer that it was read with. -/
theorem read_line_length {file : Option FileData} {size : Nat} {line : Bytes} (hsize : 1 < size)
    (h : read_line file size = some line) : line.length < size := by
  cases file with
  | none => cases h
  | some file =>
    simp only [read_line, Option.map_eq_some_iff] at h
    obtain ⟨chunk, hchunk, rfl⟩ := h
    have hfit := fgetsAll_length_lt hsize (List.mem_of_mem_head? hchunk)
    exact Nat.lt_of_le_of_lt (infix_of_cutLine chunk).length_le hfit

/-- The key id of `META/KEY-ID` is what was read from the file. -/
theorem read_key_id_eq {tree : Tree} {keyid : Bytes} (h : read_key_id tree = .ok keyid) :
    read_line (tree [META, ascii "KEY-ID"]) 128 = some keyid ∧ safe_rel keyid true = true := by
  unfold read_key_id at h
  split at h
  · rename_i line hline
    split at h
    · rename_i hsafe
      cases h
      exact ⟨hline, hsafe⟩
    · cases h
  · cases h

/-- A line of the list that is a key id revokes it. -/
theorem is_revoked_of_line {trust : Trust} {rows line keyid : Bytes} (hrows : trust.revoked = some rows)
    (h0 : 0 ∉ rows) (hline : line ∈ rows.splitOn 10) (hid : cutLine line = keyid) (hne : keyid ≠ [])
    (hlen : keyid.length < 128) : is_revoked trust keyid = true := by
  subst hid
  have hlinene : line ≠ [] := by
    rintro rfl
    exact hne rfl
  have hmem := mem_cut_of_splitOn (by omega) h0 hline hlinene hlen
  simp only [is_revoked, hrows, List.any_eq_true, decide_eq_true_eq]
  exact ⟨cutLine line, hmem, rfl⟩

/-- Whatever the other lines of the list are: if the start of one of them, up to its first CR or
LF, is the key id that is read from `META/KEY-ID`, the package is refused. -/
theorem a_revoked_key_is_refused (tools : Tools) (trust : Trust) (before : Tree) (pkg : Bytes)
    (p : Package) (rows line keyid : Bytes) (hrows : trust.revoked = some rows) (h0 : 0 ∉ rows)
    (hkeyid : read_line (tar_extract before p.entries [META, ascii "KEY-ID"]) 128 = some keyid)
    (hline : line ∈ rows.splitOn 10) (hid : line.takeWhile (fun b => b ≠ 13 ∧ b ≠ 10) = keyid) :
    ∃ refusal, verify_package_prepare tools trust before pkg p = .error refusal ∧
      refusal.status ≠ 0 := by
  have h0line : 0 ∉ line := fun h => h0 ((infix_of_mem_splitOn hline).subset h)
  have hcut : cutLine line = keyid := by rw [cutLine, cstring_of_notMem h0line, hid]
  unfold verify_package_prepare
  apply (check_archive_refuses pkg p).bind_fails
  intro _ _
  apply (check_metadata_refuses _).bind_fails
  intro _ _
  apply (read_name_refuses _).bind_fails
  intro name _
  apply (read_key_id_refuses _).bind_fails
  intro read hread
  obtain ⟨hreadline, hsafe⟩ := read_key_id_eq hread
  obtain rfl : keyid = read := Option.some.inj (hkeyid.symm.trans hreadline)
  have hrevoked := is_revoked_of_line hrows h0 hline hcut (safe_rel_facts hsafe).1
    (read_line_length (by omega) hkeyid)
  rw [trusted_key, if_pos hrevoked]
  exact ⟨_, rfl, by simp⟩

/-- A list with a line longer than the buffer, and then the key of the signed package. -/
def longRows : Bytes := List.replicate 300 97 ++ ascii "\nkey\r\n"

theorem the_revoked_test_key_is_refused :
    ∃ refusal, verify_package_prepare testTools { testTrust with revoked := some longRows }
      (fun _ => none) (ascii "t.mtpkg") signedPackage = .error refusal ∧ refusal.status ≠ 0 :=
  a_revoked_key_is_refused testTools { testTrust with revoked := some longRows } (fun _ => none)
    (ascii "t.mtpkg") signedPackage longRows (ascii "key\r") (ascii "key") rfl (by decide)
    (by decide) (by decide +kernel) (by decide)

end mantle.package
