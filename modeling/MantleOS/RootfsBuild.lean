-- The image that `userspace/build-rootfs.py` writes, and what the kernel
-- reads back from it: mount accepts it within its limits, and open finds
-- each file under its path.
import MantleOS.RootfsLaws

open checked bytes

namespace mantle.rootfs

/-! ## The builder -/

/-- How the script can stop with an error. -/
inductive BuildError
  | usage
  | invalid_entry (path : Bytes)
  | not_ascii (path : Bytes)
  | struct_error
  deriving DecidableEq

/-- One `(destination, data)` of the command line. -/
structure SourceFile where
  path : Bytes
  data : Bytes
  deriving DecidableEq

/-- The mode of each entry, `0o100755`. -/
def fileMode : Nat := 33261

/-- `struct.pack("<HHII", len(path), mode, offset, len(data)) + path`. -/
def pack_entry (f : SourceFile) (offset : Nat) : Except BuildError Bytes :=
  if f.path.length < 2 ^ 16 ∧ offset < 2 ^ 32 ∧ f.data.length < 2 ^ 32 then
    .ok (wordBytes 2 f.path.length ++ (wordBytes 2 fileMode ++ (wordBytes 4 offset ++
      (wordBytes 4 f.data.length ++ f.path))))
  else .error .struct_error

/-- The entries, with the running sum of the data as the offset. -/
def pack_entries : Nat → List SourceFile → Except BuildError (List Bytes)
  | _, [] => .ok []
  | offset, f :: files => do
    let entry ← pack_entry f offset
    let entries ← pack_entries (offset + f.data.length) files
    return entry :: entries

/-- The checks of one destination. -/
def check_entry (f : SourceFile) : Except BuildError Unit :=
  if f.path.head? ≠ some 47 then .error (.invalid_entry f.path)
  else if f.path.any (fun b => decide (128 ≤ b.toNat)) then .error (.not_ascii f.path)
  else .ok ()

def table_size (files : List SourceFile) : Nat := (files.map (fun f => 12 + f.path.length)).sum

/-- The bytes that the script writes. -/
def build_rootfs (files : List SourceFile) : Except BuildError Bytes :=
  if files = [] then .error .usage
  else do
    forM files check_entry
    let entries ← pack_entries (8 + table_size files) files
    if 2 ^ 32 ≤ files.length then .error .struct_error
    else return wordBytes 4 MANTLE_ROOTFS_MAGIC ++ (wordBytes 4 files.length ++
      (entries.flatten ++ (files.map (·.data)).flatten))

/-! ## What the walk finds in it -/

/-- The entries that the table describes, from a first offset on. -/
def viewsFrom : Nat → List SourceFile → List Entry
  | _, [] => []
  | offset, f :: files =>
    { path := f.path, file := { data := offset, size := f.data.length, mode := fileMode } } ::
      viewsFrom (offset + f.data.length) files

theorem pack_entries_cons {offset : Nat} {f : SourceFile} {files : List SourceFile}
    {entries : List Bytes} (h : pack_entries offset (f :: files) = .ok entries) :
    f.path.length < 2 ^ 16 ∧ offset < 2 ^ 32 ∧ f.data.length < 2 ^ 32 ∧
    ∃ rest, pack_entries (offset + f.data.length) files = .ok rest ∧
      entries.flatten = wordBytes 2 f.path.length ++ (wordBytes 2 fileMode ++ (wordBytes 4 offset ++
        (wordBytes 4 f.data.length ++ (f.path ++ rest.flatten)))) := by
  obtain ⟨entry, hentry, h⟩ := bind_eq_ok.mp h
  obtain ⟨rest, hrest, h⟩ := bind_eq_ok.mp h
  cases h
  unfold pack_entry at hentry
  split at hentry
  · rename_i hfit
    cases hentry
    exact ⟨hfit.1, hfit.2.1, hfit.2.2, rest, hrest, by simp⟩
  · cases hentry

theorem pack_entries_length {offset : Nat} {files : List SourceFile} {entries : List Bytes}
    (h : pack_entries offset files = .ok entries) : entries.flatten.length = table_size files := by
  induction files generalizing offset entries with
  | nil =>
    cases h
    rfl
  | cons f files ih =>
    obtain ⟨_, _, _, rest, hrest, hflat⟩ := pack_entries_cons h
    have := ih hrest
    simp only [table_size, List.map_cons, List.sum_cons] at this ⊢
    rw [hflat]
    simp only [List.length_append, wordBytes_length]
    omega

/-- The entry that the encoder wrote after `before` is the entry that stands there. -/
theorem entryOf_packed (before after path : Bytes) (mode offset size : Nat)
    (hp : path.length < 2 ^ 16) (hm : mode < 2 ^ 16) (ho : offset < 2 ^ 32) (hs : size < 2 ^ 32) :
    entryOf (before ++ (wordBytes 2 path.length ++ (wordBytes 2 mode ++ (wordBytes 4 offset ++
      (wordBytes 4 size ++ (path ++ after)))))) before.length =
      { path_length := path.length, mode, offset, size } := by
  unfold entryOf
  congr 1
  · exact wordOf_append rfl hp
  · rw [← List.append_assoc before]
    exact wordOf_append (by simp) hm
  · rw [← List.append_assoc before, ← List.append_assoc (before ++ _)]
    exact wordOf_append (by simp) ho
  · rw [← List.append_assoc before, ← List.append_assoc (before ++ _),
      ← List.append_assoc (before ++ _ ++ _)]
    exact wordOf_append (by simp) hs

theorem slice_packed (before after path : Bytes) (mode offset size : Nat) :
    slice (before ++ (wordBytes 2 path.length ++ (wordBytes 2 mode ++ (wordBytes 4 offset ++
      (wordBytes 4 size ++ (path ++ after)))))) (before.length + entrySize) path.length = path := by
  rw [← List.append_assoc before, ← List.append_assoc (before ++ _),
    ← List.append_assoc (before ++ _ ++ _), ← List.append_assoc (before ++ _ ++ _ ++ _)]
  exact slice_append (by simp [entrySize]) rfl

/-- The walk over a packed table gives back the files, and the table is walkable exactly
when every path is within the limit of mount. -/
theorem walk_packed (files : List SourceFile) (offset : Nat) (before after : Bytes)
    (entries : List Bytes) (hpack : pack_entries offset files = .ok entries)
    (hpos : ∀ f ∈ files, 0 < f.path.length)
    (hdata : offset + (files.map (·.data)).flatten.length ≤
      (before ++ (entries.flatten ++ after)).length) :
    walk (before ++ (entries.flatten ++ after)) files.length before.length =
        viewsFrom offset files ∧
      (Walkable (before ++ (entries.flatten ++ after)) files.length before.length ↔
        ∀ f ∈ files, f.path.length ≤ 255) := by
  induction files generalizing offset before entries with
  | nil => simp [walk, viewsFrom, Walkable]
  | cons f files ih =>
    obtain ⟨hp, ho, hs, rest, hrest, hflat⟩ := pack_entries_cons hpack
    set image := before ++ (entries.flatten ++ after) with himage
    have hsplit : image = before ++ (wordBytes 2 f.path.length ++ (wordBytes 2 fileMode ++
        (wordBytes 4 offset ++ (wordBytes 4 f.data.length ++
          (f.path ++ (rest.flatten ++ after)))))) := by
      rw [himage, hflat]
      simp only [List.append_assoc]
    have hentry := entryOf_packed before (rest.flatten ++ after) f.path fileMode offset
      f.data.length hp (by decide) ho hs
    have hslice := slice_packed before (rest.flatten ++ after) f.path fileMode offset f.data.length
    rw [← hsplit] at hentry hslice
    -- The next entry follows the path of this one.
    set before' := before ++ (wordBytes 2 f.path.length ++ (wordBytes 2 fileMode ++
      (wordBytes 4 offset ++ (wordBytes 4 f.data.length ++ f.path)))) with hbefore'
    have hnext : nextCursor image before.length = before'.length := by
      simp only [nextCursor, hentry, entrySize, hbefore', List.length_append, wordBytes_length]
      omega
    have himage' : image = before' ++ (rest.flatten ++ after) := by
      rw [hsplit, hbefore']
      simp only [List.append_assoc]
    simp only [List.map_cons, List.flatten_cons, List.length_append] at hdata
    have hih := ih (offset + f.data.length) before' rest hrest
      (fun g hg => hpos g (by simp [hg])) (by rw [← himage']; omega)
    rw [← himage', ← hnext] at hih
    constructor
    · rw [List.length_cons, walk, hih.1, viewsFrom]
      congr 1
      simp only [viewOf, hentry, hslice]
    · rw [List.length_cons, Walkable, hih.2, List.forall_mem_cons]
      have hlen : before'.length ≤ image.length := by
        rw [himage']
        simp
      have hsound : Sound image before.length ↔ f.path.length ≤ 255 := by
        constructor
        · intro h
          simpa [hentry] using h.path_le
        · intro h
          refine ⟨?_, by rw [hentry]; exact h, by rw [hnext]; exact hlen, ?_⟩
          · rw [hentry]
            exact hpos f (by simp)
          · rw [hentry]
            simp only
            omega
      rw [hsound]

/-- What a build that ends without error has checked and written. -/
theorem build_rootfs_eq {files : List SourceFile} {image : Bytes}
    (h : build_rootfs files = .ok image) :
    files ≠ [] ∧ files.length < 2 ^ 32 ∧ (∀ f ∈ files, f.path.head? = some 47) ∧
    ∃ entries, pack_entries (8 + table_size files) files = .ok entries ∧
      image = wordBytes 4 MANTLE_ROOTFS_MAGIC ++ (wordBytes 4 files.length ++
        (entries.flatten ++ (files.map (·.data)).flatten)) := by
  unfold build_rootfs at h
  split at h
  · cases h
  rename_i hne
  obtain ⟨_, hcheck, h⟩ := bind_eq_ok.mp h
  obtain ⟨entries, hpack, h⟩ := bind_eq_ok.mp h
  split at h
  · cases h
  rename_i hlen
  cases h
  refine ⟨hne, by omega, fun f hf => ?_, entries, hpack, rfl⟩
  have := forM_eq_ok.mp hcheck f hf
  unfold check_entry at this
  split at this
  · cases this
  · rename_i hslash
    simpa using hslash

/-- A lookup in the walk finds the data of the first file with the path. -/
theorem lookup_viewsFrom (files : List SourceFile) (before after path : Bytes) :
    (∀ file, lookup (viewsFrom before.length files) path = some file →
      ∃ f, files.find? (fun f => f.path = path) = some f ∧
        slice (before ++ ((files.map (·.data)).flatten ++ after)) file.data file.size = f.data ∧
        file.size = f.data.length ∧ file.mode = fileMode) ∧
    (lookup (viewsFrom before.length files) path = none ↔
      files.find? (fun f => f.path = path) = none) := by
  induction files generalizing before with
  | nil => simp [viewsFrom, lookup]
  | cons f files ih =>
    by_cases hf : f.path = path
    · refine ⟨?_, by simp [viewsFrom, lookup, hf]⟩
      intro file hfile
      simp only [viewsFrom, lookup, hf, List.find?_cons, decide_true, Option.map_some,
        Option.some.injEq] at hfile
      subst hfile
      refine ⟨f, by simp [hf], ?_, rfl, rfl⟩
      simp only [List.map_cons, List.flatten_cons, List.append_assoc]
      exact slice_append rfl rfl
    · have hih := ih (before ++ f.data)
      rw [List.length_append] at hih
      have hskip : lookup (viewsFrom before.length (f :: files)) path =
          lookup (viewsFrom (before.length + f.data.length) files) path := by
        simp [viewsFrom, lookup, hf]
      have hfind : (f :: files).find? (fun f => f.path = path) =
          files.find? (fun f => f.path = path) := by
        simp [hf]
      rw [hskip, hfind]
      simpa only [List.map_cons, List.flatten_cons, List.append_assoc] using hih

/-! ## The law -/

/-- What open has to give for a path: the data, the size and the mode of the first file
with the path, or -1. -/
def OpensAs (image : Bytes) (found : Option SourceFile) (r : Int × mantle_rootfs_file) : Prop :=
  match found with
  | some f => r.1 = 0 ∧ slice image r.2.data r.2.size = f.data ∧ r.2.size = f.data.length ∧
      r.2.mode = fileMode
  | none => r.1 = -1

/-- Mount accepts what the builder wrote exactly within its limits, and open then gives
back each file. -/
theorem the_kernel_reads_what_the_builder_wrote (files : List SourceFile) (image : Blob)
    (h : build_rootfs files = .ok image.content) :
    Yields (mantle_rootfs_mount (some image)) (fun m =>
      (m.2 = 0 ↔ files.length ≤ 128 ∧ ∀ f ∈ files, f.path.length ≤ 255) ∧
      (m.2 = 0 → ∀ p file, 0 ∉ p →
        Yields (mantle_rootfs_open m.1 (some (p ++ [0])) file)
          (OpensAs image.content (files.find? (fun f => f.path = p))))) := by
  obtain ⟨hne, hlen, hslash, entries, hpack, himage⟩ := build_rootfs_eq h
  -- The header, and the same bytes as the part before the table and the part after it.
  have hmagic : wordOf image.content 0 4 = MANTLE_ROOTFS_MAGIC := by
    have := wordOf_append (a := []) (c := wordBytes 4 files.length ++ (entries.flatten ++
      (files.map (·.data)).flatten)) (i := 0) (n := 4) (v := MANTLE_ROOTFS_MAGIC) rfl (by decide)
    rwa [List.nil_append, ← himage] at this
  have hcount : wordOf image.content 4 4 = files.length := by
    rw [himage]
    exact wordOf_append (by simp) (by simpa using hlen)
  have hpos : 0 < files.length := List.length_pos_iff.mpr hne
  have htable := pack_entries_length hpack
  have hdata : image.content.length =
      8 + table_size files + (files.map (·.data)).flatten.length := by
    rw [himage]
    simp only [List.length_append, wordBytes_length, htable]
    omega
  have himage' := himage
  rw [← List.append_assoc] at himage'
  have hwalk := walk_packed files (8 + table_size files) _ _ entries hpack
    (fun f hf => List.length_pos_iff.mpr (by
      rintro h0
      simpa [h0] using hslash f hf)) (by rw [← himage']; omega)
  rw [← himage'] at hwalk
  simp only [List.length_append, wordBytes_length] at hwalk
  have haccepts : Accepts image.content ↔
      files.length ≤ 128 ∧ ∀ f ∈ files, f.path.length ≤ 255 := by
    constructor
    · intro ha
      have hle := ha.entries_le
      have hw := ha.walkable
      rw [hcount] at hle hw
      exact ⟨hle, hwalk.2.mp hw⟩
    · rintro ⟨hle, hw⟩
      exact ⟨by unfold headerSize; omega, hmagic, by omega, by rw [hcount]; exact hle,
        by rw [hcount]; exact hwalk.2.mpr hw⟩
  apply (mantle_rootfs_mount.spec image).mono
  rintro m (⟨ha, rfl⟩ | ⟨hna, rfl⟩)
  · refine ⟨by simp [← haccepts, ha], fun _ p file hp => ?_⟩
    rw [mantle_rootfs_open.spec _ _ file (Or.inr ⟨image, ha, rfl⟩) (by simp), yields_ok]
    have hentries : entriesOf (mountedState image) = viewsFrom (8 + table_size files) files := by
      simp only [entriesOf, mountedState, hcount]
      exact hwalk.1
    -- The data of the files follows the table.
    set before := wordBytes 4 MANTLE_ROOTFS_MAGIC ++ (wordBytes 4 files.length ++ entries.flatten)
      with hbefore
    have hblen : before.length = 8 + table_size files := by
      simp only [hbefore, List.length_append, wordBytes_length, htable]
      omega
    have hdatas : image.content = before ++ ((files.map (·.data)).flatten ++ []) := by
      rw [himage, hbefore]
      simp only [List.append_assoc, List.append_nil]
    have hlook := lookup_viewsFrom files before [] p
    rw [hblen, ← hdatas] at hlook
    rw [cstring_append_nul hp, hentries]
    cases hl : lookup (viewsFrom (8 + table_size files) files) p with
    | some found =>
      obtain ⟨f, hf, hdat, hsize, hmode⟩ := hlook.1 found hl
      rw [hf]
      exact ⟨rfl, hdat, hsize, hmode⟩
    | none =>
      rw [hlook.2.mp hl]
      rfl
  · refine ⟨?_, by simp⟩
    simp only [← haccepts, hna, iff_false]
    decide

theorem the_kernel_reads_a_small_build :
    build_rootfs [⟨ascii "/a", ascii "x"⟩] = .ok smallImage.content ∧
    Yields (mantle_rootfs_mount (some smallImage)) (fun m =>
      (m.2 = 0 ↔ [SourceFile.mk (ascii "/a") (ascii "x")].length ≤ 128 ∧
        ∀ f ∈ [SourceFile.mk (ascii "/a") (ascii "x")], f.path.length ≤ 255) ∧
      (m.2 = 0 → ∀ p file, 0 ∉ p →
        Yields (mantle_rootfs_open m.1 (some (p ++ [0])) file)
          (OpensAs smallImage.content
            ([SourceFile.mk (ascii "/a") (ascii "x")].find? (fun f => f.path = p))))) := by
  have hbuild : build_rootfs [⟨ascii "/a", ascii "x"⟩] = .ok smallImage.content := by decide
  exact ⟨hbuild, the_kernel_reads_what_the_builder_wrote _ smallImage hbuild⟩

end mantle.rootfs
