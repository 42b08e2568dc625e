-- The laws of the package transactions: when a failed installation puts
-- everything back, and when a rollback undoes an installation.
import Mathlib.Algebra.Order.BigOperators.Group.List
import MantleOS.PackageLaws
import MantleOS.Transaction

open bytes checked ctext

namespace mantle.package

/-! ## The list of a transaction -/

theorem scanWord_length (limit : Nat) (s : Bytes) :
    (scanWord limit s).1.length + (scanWord limit s).2.length ≤ s.length := by
  have hdrop : (s.dropWhile isspace).length ≤ s.length := (List.dropWhile_sublist _).length_le
  have hword : ((s.dropWhile isspace).takeWhile (fun b => !isspace b)).length ≤
      (s.dropWhile isspace).length := (List.takeWhile_sublist _).length_le
  simp only [scanWord, List.length_take, List.length_drop]
  omega

/-- A path of the manifest is safe and fits the buffers that it goes through. -/
theorem manifest_path_spec {line rel : Bytes} (h : manifest_path line = some rel) :
    safe_rel rel false = true ∧ rel.length + 1 < MAX_PATH ∧ rel.length + 1 ≤ line.length := by
  obtain ⟨⟨hash, path⟩, hentry, rfl⟩ := Option.map_eq_some_iff.mp h
  simp only [manifest_entry] at hentry
  split at hentry
  · cases hentry
  split at hentry
  · cases hentry
  split at hentry
  · cases hentry
  rename_i hform _
  simp only [Option.some.injEq, Prod.mk.injEq] at hentry
  obtain ⟨rfl, rfl⟩ := hentry
  simp only [not_or, not_not, Bool.not_eq_true', Bool.not_eq_false] at hform
  obtain ⟨hhash, -, hsafe⟩ := hform
  have h1 := scanWord_length 79 line
  have h2 := scanWord_length 4095 (scanWord 79 line).2
  have hcut : (scanWord 4095 (scanWord 79 line).2).1.length ≤ 4095 := by
    simp only [scanWord, List.length_take]
    omega
  refine ⟨hsafe, ?_, ?_⟩
  · rw [List.length_drop, MAX_PATH]
    omega
  · rw [List.length_drop]
    omega

theorem safe_rel_bytes {rel : Bytes} (h : safe_rel rel false = true) :
    ∀ b ∈ rel, b ≠ 0 ∧ b ≠ 13 ∧ b ≠ 10 := by
  simp only [safe_rel, Bool.and_eq_true, List.all_eq_true] at h
  intro b hb
  have hchar := h.2 b hb
  refine ⟨?_, ?_, ?_⟩ <;> (rintro rfl; exact absurd hchar (by decide))

/-- The list that a transaction writes is read back as it was. -/
theorem read_list_text {rels : List Bytes} (hsafe : ∀ rel ∈ rels, safe_rel rel false = true)
    (hlen : ∀ rel ∈ rels, rel.length + 1 < MAX_PATH) (hfit : (list_text rels).length < 2 ^ 63) :
    read_list (Disk.fileOf (list_text rels)) = rels := by
  have hwhole : (Disk.fileOf (list_text rels)).content = list_text rels :=
    List.take_of_length_le (Nat.le_sub_one_of_lt hfit)
  rw [read_list, hwhole, list_text, fgetsAll_flatMap]
  clear hwhole hfit
  induction rels with
  | nil => rfl
  | cons rel rest ih =>
    have hb := safe_rel_bytes (hsafe rel List.mem_cons_self)
    rw [List.flatMap_cons, List.map_append, ih (fun r hr => hsafe r (List.mem_cons_of_mem _ hr))
      (fun r hr => hlen r (List.mem_cons_of_mem _ hr)),
      fgetsAll_line MAX_PATH rel (fun h => (hb 10 h).2.2 rfl)
        (Nat.lt_sub_of_add_lt (hlen rel List.mem_cons_self)),
      List.map_singleton, cutLine_line hb, List.singleton_append]

theorem fgets_loop_length (n : Nat) (line input : Bytes) :
    ((fgets_loop n line input).map List.length).sum = line.length + input.length := by
  induction input generalizing line with
  | nil =>
    rw [fgets_loop]
    split <;> simp_all
  | cons b rest ih =>
    rw [fgets_loop]
    split
    · rw [List.map_cons, List.sum_cons, ih]
      simp
      omega
    · rw [ih]
      simp
      omega

/-- The lines of a manifest are no longer than the manifest. -/
theorem manifest_lines_length (manifest : Bytes) :
    ((manifest_lines manifest).map List.length).sum ≤ manifest.length := by
  have hsum := fgets_loop_length (MAX_PATH + 128 - 1) [] manifest
  rw [List.length_nil, Nat.zero_add] at hsum
  rw [← hsum, manifest_lines, List.map_map]
  apply List.sum_le_sum
  intro chunk _
  exact (infix_of_cutLine chunk).length_le

theorem list_text_reached (lines : List Bytes) :
    (list_text (reached lines)).length ≤ (lines.map List.length).sum := by
  induction lines with
  | nil => exact Nat.le_refl _
  | cons line rest ih =>
    rw [reached]
    cases hacc : accepted line with
    | none => exact Nat.zero_le _
    | some rel =>
      have hone := (manifest_path_spec (accepted_eq_some.mp hacc).1).2.2
      simp only [list_text, List.flatMap_cons, List.length_append, List.length_singleton,
        List.map_cons, List.sum_cons] at ih ⊢
      omega

/-- The list of a transaction is read back as it was written. -/
theorem read_list_reached {manifest : FileData} {listed : List Bytes}
    (h : listed <+: reached (manifest_lines manifest.content)) :
    read_list (Disk.fileOf (list_text listed)) = listed := by
  have hpath : ∀ rel ∈ listed, safe_rel rel false = true ∧ rel.length + 1 < MAX_PATH := by
    intro rel hrel
    obtain ⟨line, -, hacc⟩ := mem_reached (h.subset hrel)
    have hspec := manifest_path_spec (accepted_eq_some.mp hacc).1
    exact ⟨hspec.1, hspec.2.1⟩
  have hshort : (list_text listed).length ≤
      (list_text (reached (manifest_lines manifest.content))).length := by
    obtain ⟨rest, hrest⟩ := h
    rw [← hrest, list_text, list_text, List.flatMap_append, List.length_append]
    exact Nat.le_add_right _ _
  have hfit := (hshort.trans (list_text_reached _)).trans (manifest_lines_length manifest.content)
  exact read_list_text (fun rel h => (hpath rel h).1) (fun rel h => (hpath rel h).2)
    (hfit.trans_lt manifest.size_lt)

/-! ## The directories of a process -/

theorem decimal_eq (pid : UInt32) :
    decimal pid = (Nat.toDigits 10 pid.toNat).map fun c => UInt8.ofNat c.toNat := by
  rw [decimal, ascii, Nat.toString_eq_repr, Nat.toList_repr]

theorem decimal_ne_nil (pid : UInt32) : decimal pid ≠ [] := by
  rw [decimal_eq]
  simp

theorem decimal_digits (pid : UInt32) : ∀ b ∈ decimal pid, 48 ≤ b ∧ b ≤ 57 := by
  rw [decimal_eq]
  intro b hb
  obtain ⟨c, hc, rfl⟩ := List.mem_map.mp hb
  have hdigit := Nat.isDigit_of_mem_toDigits (by decide) (by decide) hc
  simp only [Char.isDigit, Bool.and_eq_true, decide_eq_true_eq] at hdigit
  obtain ⟨h1, h2⟩ := hdigit
  have h1' : 48 ≤ c.toNat := h1
  have h2' : c.toNat ≤ 57 := h2
  have hmod : c.toNat % 256 = c.toNat := Nat.mod_eq_of_lt (by omega)
  rw [UInt8.le_iff_toNat_le, UInt8.le_iff_toNat_le, UInt8.toNat_ofNat', hmod]
  exact ⟨h1', h2'⟩

theorem decimal_length (pid : UInt32) : (decimal pid).length ≤ 10 := by
  have hlt : pid.toNat < 10 ^ 10 := Nat.lt_trans pid.toNat_lt (by decide)
  rw [decimal_eq, List.length_map]
  exact (Nat.length_toDigits_le_iff (by decide) (by decide)).mpr hlt

theorem slash_notMem_decimal (pid : UInt32) : 47 ∉ decimal pid :=
  fun h => absurd (decimal_digits pid 47 h).1 (by decide)

theorem components_decimal (pid : UInt32) : components (decimal pid) = [decimal pid] := by
  apply components_name (slash_notMem_decimal pid) (decimal_ne_nil pid)
  intro h
  have := (decimal_digits pid 46 (by rw [h]; exact List.mem_singleton_self _)).1
  exact absurd this (by decide)

/-- The directory of the transactions. -/
def transactions : List Bytes :=
  [ascii "var", ascii "lib", ascii "mantleos", ascii "transactions"]

theorem tx_of_eq (pid : UInt32) : tx_of pid =
    ascii "/var/lib/mantleos/transactions" ++ 47 :: decimal pid := by
  have hlen := decimal_length pid
  have hconst : (ascii "/var/lib/mantleos/transactions/").length = 31 := by decide
  have hsplit : ascii "/var/lib/mantleos/transactions/" =
      ascii "/var/lib/mantleos/transactions" ++ [47] := by decide
  rw [tx_of, tx_path, path_buf_of_lt (by rw [List.length_append, hconst, MAX_PATH]; omega), hsplit]
  simp

theorem components_tx (pid : UInt32) :
    components (tx_of pid) = transactions ++ [decimal pid] := by
  have hconst : components (ascii "/var/lib/mantleos/transactions") = transactions := by decide
  rw [tx_of_eq, components_append, components_decimal, hconst]

theorem components_stage (pid : UInt32) :
    components (stage_path pid) = [ascii "tmp", ascii "mantle-verify-" ++ decimal pid] := by
  have hsplit : stage_path pid = ascii "/tmp" ++ 47 :: (ascii "mantle-verify-" ++ decimal pid) := by
    have : ascii "/tmp/mantle-verify-" = ascii "/tmp" ++ 47 :: ascii "mantle-verify-" := by decide
    rw [stage_path, this]
    simp
  have hname : components (ascii "mantle-verify-" ++ decimal pid) =
      [ascii "mantle-verify-" ++ decimal pid] := by
    apply components_name
    · rw [List.mem_append, not_or]
      exact ⟨by decide, slash_notMem_decimal pid⟩
    · exact fun h => absurd (List.append_eq_nil_iff.mp h).1 (by decide)
    · intro h
      have := congrArg List.length h
      rw [List.length_append] at this
      have hconst : (ascii "mantle-verify-").length = 14 := by decide
      rw [hconst, List.length_singleton] at this
      omega
  have htmp : components (ascii "/tmp") = [ascii "tmp"] := by decide
  rw [hsplit, components_append, hname, htmp]
  rfl

theorem roots_of_pid (pid : UInt32) : Roots (tx_of pid) (stage_path pid) where
  split := by
    intro q hstage htx
    rw [components_stage] at hstage
    rw [components_tx] at htx
    obtain ⟨a, rfl⟩ := hstage
    simp only [transactions, List.cons_append, List.cons_prefix_cons] at htx
    exact absurd htx.1 (by decide)
  stage_short := by
    have hlen := decimal_length pid
    have hconst : (ascii "/tmp/mantle-verify-").length = 19 := by decide
    rw [stage_path, List.length_append, hconst, MAX_PATH]
    omega
  tx_short := by
    have hlen := decimal_length pid
    have hconst : (ascii "/var/lib/mantleos/transactions").length = 30 := by decide
    rw [tx_of_eq, List.length_append, hconst, List.length_cons, MAX_PATH]
    omega

/-! ## Both loops -/

section Both

variable {tx stage : Bytes}

theorem list_path_eq (hr : Roots tx stage) : list_path tx = tx ++ 47 :: ascii "files" := by
  have hconst : ascii "/files" = 47 :: ascii "files" := by decide
  have hlen := hr.tx_short
  have hfit : (tx ++ ascii "/files").length < MAX_PATH := by
    rw [List.length_append, hconst, List.length_cons]
    have : (ascii "files").length = 5 := by decide
    omega
  rw [list_path, path_buf_of_lt hfit, hconst]

theorem components_list (hr : Roots tx stage) :
    components (list_path tx) = listOf tx := by
  have hname : components (ascii "files") = [ascii "files"] := by decide
  rw [list_path_eq hr, components_append, hname, listOf]

theorem plain_list (hr : Roots tx stage) (d : Disk) :
    d.plain (list_path tx) = d.file (listOf tx) := by
  have hnamed : names_file (list_path tx) = true := by
    rw [list_path_eq hr, names_file_append]
    decide
  rw [Disk.plain, if_pos hnamed, components_list hr]

theorem components_backup_root (hr : Roots tx stage) :
    components (path_buf (tx ++ ascii "/backup")) = backupOf tx [] := by
  have hconst : ascii "/backup" = 47 :: ascii "backup" := by decide
  have hlen := hr.tx_short
  have hfit : (tx ++ ascii "/backup").length < MAX_PATH := by
    rw [List.length_append, hconst, List.length_cons]
    have : (ascii "backup").length = 6 := by decide
    omega
  have hname : components (ascii "backup") = [ascii "backup"] := by decide
  rw [path_buf_of_lt hfit, hconst, components_append, hname]
  rfl

theorem plain_manifest (hr : Roots tx stage) (d : Disk) :
    d.plain (path_buf (stage ++ ascii "/META/MANIFEST")) =
      d.file (components stage ++ [META, ascii "MANIFEST"]) := by
  have hconst : ascii "/META/MANIFEST" = 47 :: ascii "META/MANIFEST" := by decide
  have hlen := hr.stage_short
  have hfit : (stage ++ ascii "/META/MANIFEST").length < MAX_PATH := by
    rw [List.length_append, hconst, List.length_cons]
    have : (ascii "META/MANIFEST").length = 13 := by decide
    omega
  have hname : components (ascii "META/MANIFEST") = [META, ascii "MANIFEST"] := by decide
  have hnamed : names_file (stage ++ 47 :: ascii "META/MANIFEST") = true := by
    rw [names_file_append]
    decide
  rw [path_buf_of_lt hfit, hconst, Disk.plain, if_pos hnamed, components_append, hname]

/-- The list can be opened: the directory of the transaction is made, and keeps the disk
clear. -/
theorem begin_transaction (hr : Roots tx stage) {rels : List Bytes} (ap : Apart tx stage rels rels)
    (hne : rels ≠ []) {d : Disk} (hc : Clear tx stage rels rels d) :
    (d.mkdir_p (path_buf (tx ++ ascii "/backup"))).create (list_path tx) =
        some ((d.mkdir_p (path_buf (tx ++ ascii "/backup"))).write
          (listOf tx) []) ∧
      Clear tx stage rels rels ((d.mkdir_p (path_buf (tx ++ ascii "/backup"))).write
        (listOf tx) []) := by
  obtain ⟨rel, hrel⟩ := List.exists_mem_of_ne_nil rels hne
  have hroot := components_backup_root hr
  have hbelow : backupOf tx [] <+: backupOf tx (components rel).dropLast := by
    rw [backupOf, backupOf, List.prefix_append_right_inj, List.cons_prefix_cons]
    exact ⟨rfl, List.nil_prefix⟩
  have hbegun : Clear tx stage rels rels (d.mkdir_p (path_buf (tx ++ ascii "/backup"))) := by
    apply hc.mkdir_p
    intro c hg hp
    rw [hroot] at hp
    exact hg.not_prefix_backup hr ap hrel (hp.trans hbelow)
  have htx : (d.mkdir_p (path_buf (tx ++ ascii "/backup"))).dir (components tx) = true := by
    apply Disk.mkdir_p_dir
    · rw [hroot]
      exact prefix_backupOf tx []
    · intro q hq
      exact hc.room rel hrel q (hq.trans (prefix_backupOf tx _))
  refine ⟨?_, hbegun.write hr ap .list []⟩
  rw [Disk.create, components_list hr, hbegun.no_dir _ .list, listOf, List.dropLast_concat, htx]
  rfl

end Both

/-- What both loops of an installation do on an ordinary disk: the paths that they list, the
files after the first loop, and what the second adds to them. -/
structure Transacted (pid : UInt32) (rels : List Bytes) (copies : Copies) (d : Disk)
    (lines listed : List Bytes) (failed : Bool) (saved : Tree) (r : Bool × Disk) : Prop where
  saves : Saves (backupOf (tx_of pid)) copies.backups
    (Function.update d.file (listOf (tx_of pid)) (some (Disk.fileOf []))) lines listed failed saved
  other : ∀ q, q ≠ listOf (tx_of pid) → (∀ rel ∈ listed, components rel ≠ q) → r.2.file q = saved q
  list : ∃ list, r.2.file (listOf (tx_of pid)) = some list ∧ read_list list = listed
  clear : Clear (tx_of pid) (stage_path pid) rels rels r.2
  filled : r.1 = false → failed = false ∧
    ∀ rel ∈ listed, (r.2.file (components rel)).isSome = true
  stopped : (copies.installs 0).isDone = false → listed ≠ [] → r.1 = true

theorem transact_spec (pid : UInt32) (copies : Copies) {rels : List Bytes} {d : Disk}
    {manifest : FileData} (ap : Apart (tx_of pid) (stage_path pid) rels rels)
    (hc : Clear (tx_of pid) (stage_path pid) rels rels d) (hne : rels ≠ [])
    (hm : d.file (components (stage_path pid) ++ [META, ascii "MANIFEST"]) = some manifest)
    (hlines : ∀ line ∈ manifest_lines manifest.content, ∀ rel, accepted line = some rel →
      rel ∈ rels) :
    ∃ listed failed saved, Transacted pid rels copies d (manifest_lines manifest.content) listed
      failed saved (transact pid copies d) := by
  have hr := roots_of_pid pid
  obtain ⟨hopen, hopened⟩ := begin_transaction hr ap hne hc
  have hmanifest : (d.mkdir_p (path_buf (tx_of pid ++ ascii "/backup"))).plain
      (path_buf (stage_path pid ++ ascii "/META/MANIFEST")) = some manifest := by
    rw [plain_manifest hr]
    exact hm
  have hempty : ((d.mkdir_p (path_buf (tx_of pid ++ ascii "/backup"))).write (listOf (tx_of pid))
      []).file = Function.update d.file (listOf (tx_of pid)) (some (Disk.fileOf [])) :=
    Disk.write_file _ _ _
  obtain ⟨hsaves, hsaved⟩ := back_up_saves hr ap hopened copies.backups hlines
  rw [hempty] at hsaves
  simp only [transact, hmanifest, hopen, components_list hr]
  generalize hback : back_up (tx_of pid) copies.backups _ _ = back at hsaves hsaved ⊢
  obtain ⟨listed, failed, after⟩ := back
  have hlisted : ∀ rel ∈ listed, rel ∈ rels := by
    intro rel hrel
    obtain ⟨line, hline, hacc⟩ := hsaves.listed rel hrel
    exact hlines line hline rel hacc
  have hwritten := hsaved.write hr ap .list (list_text listed)
  have hlist : (after.write (listOf (tx_of pid))
      (list_text listed)).file (listOf (tx_of pid)) =
        some (Disk.fileOf (list_text listed)) := by
    rw [Disk.write_file, Function.update_self]
  have hother : ∀ q, q ≠ listOf (tx_of pid) →
      (after.write (listOf (tx_of pid)) (list_text listed)).file q = after.file q := by
    intro q hq
    rw [Disk.write_file, Function.update_of_ne hq]
  have hread := read_list_reached hsaves.prefix_reached
  cases failed with
  | true =>
    exact ⟨listed, true, after.file, {
      saves := hsaves
      other := fun q hq _ => hother q hq
      list := ⟨_, hlist, hread⟩
      clear := hwritten
      filled := nofun
      stopped := fun _ _ => rfl }⟩
  | false =>
    obtain ⟨hfills, hclear⟩ := install_files_fills hr ap hwritten copies.installs hlisted
    have hnot_list : ∀ rel ∈ listed, components rel ≠ listOf (tx_of pid) := by
      intro rel hrel heq
      exact ap.not_in_tx rel (hlisted rel hrel) (heq ▸ List.prefix_append _ _)
    simp only [Bool.false_eq_true, if_false, plain_list hr, hlist, hread]
    exact ⟨listed, false, after.file, {
      saves := hsaves
      other := fun q hq hun => (hfills.frame hun).trans (hother q hq)
      list := ⟨_, (hfills.frame hnot_list).trans hlist, hread⟩
      clear := hclear
      filled := fun hok => ⟨rfl, hfills.isSome hok⟩
      stopped := install_files_stopped _ _ }⟩

/-! ## The package that is verified -/

section Verified

variable {tools : Tools} {trust : Trust} {before : Tree} {pkg name : Bytes} {p : Package}

/-- A verified package has a manifest, and every line of it is well formed. -/
theorem verified_manifest (hv : verify_package_prepare tools trust before pkg p = .ok name) :
    check_archive pkg p = .ok () ∧
      ∃ manifest, tar_extract before p.entries [META, ascii "MANIFEST"] = some manifest ∧
        manifest_lines manifest.content ≠ [] ∧
        ∀ line ∈ manifest_lines manifest.content, (manifest_path line).isSome = true := by
  unfold verify_package_prepare at hv
  obtain ⟨_, harchive, hv⟩ := bind_eq_ok.mp hv
  obtain ⟨_, -, hv⟩ := bind_eq_ok.mp hv
  obtain ⟨_, -, hv⟩ := bind_eq_ok.mp hv
  obtain ⟨_, -, hv⟩ := bind_eq_ok.mp hv
  obtain ⟨_, -, hv⟩ := bind_eq_ok.mp hv
  obtain ⟨⟨signed, signature⟩, -, hv⟩ := bind_eq_ok.mp hv
  obtain ⟨_, hcheck, -⟩ := bind_eq_ok.mp hv
  refine ⟨harchive, ?_⟩
  have hzero : verify_manifest tools (tar_extract before p.entries) = 0 := by
    by_contra hne
    rw [check_integrity, if_pos (Or.inl hne)] at hcheck
    cases hcheck
  rw [verify_manifest] at hzero
  cases hm : tar_extract before p.entries [META, ascii "MANIFEST"] with
  | none => simp [hm] at hzero
  | some manifest =>
    simp only [hm] at hzero
    split at hzero
    · rename_i hlines
      exact ⟨manifest, rfl, hlines.2, by simpa using hlines.1⟩
    · cases hzero

end Verified

/-- The lines of the manifest that the transaction reads. -/
def manifest_of (pid : UInt32) (p : Package) (d : Disk) : List Bytes :=
  match tar_extract (d.under (components (stage_path pid))) p.entries [META, ascii "MANIFEST"] with
  | none => []
  | some manifest => manifest_lines manifest.content

/-- The paths that the manifest names. -/
def manifest_rels (pid : UInt32) (p : Package) (d : Disk) : List Bytes :=
  (manifest_of pid p d).filterMap manifest_path

/-- A package and a disk for which every step of the transaction is about one file: its paths
keep apart from its own directories and from each other, and no directory is in the way. -/
structure Ordinary (pid : UInt32) (p : Package) (d : Disk) : Prop where
  apart : Apart (tx_of pid) (stage_path pid) (manifest_rels pid p d) (manifest_rels pid p d)
  clear : Clear (tx_of pid) (stage_path pid) (manifest_rels pid p d) (manifest_rels pid p d)
    (d.extract (components (stage_path pid)) p.entries)

/-- Paths that stand for single files: they keep apart, and neither a target nor the file that
goes there is a directory. -/
structure Placed (pid : UInt32) (p : Package) (backs : List Bytes) (d : Disk) : Prop where
  apart : Apart (tx_of pid) (stage_path pid) (manifest_rels pid p d) backs
  target : ∀ rel ∈ manifest_rels pid p d, d.dir (components rel) = false
  source : ∀ rel ∈ manifest_rels pid p d, (d.extract (components (stage_path pid)) p.entries).dir
    (components (source_path (stage_path pid) rel)) = false

theorem Disk.extract_file_of_not_prefix (d : Disk) {stage q : List Bytes} (entries : List TarEntry)
    (h : ¬ stage <+: q) : (d.extract stage entries).file q = d.file q := if_neg h

theorem Disk.extract_dir_of_not_prefix (d : Disk) {stage q : List Bytes} (entries : List TarEntry)
    (h : ¬ stage <+: q) : (d.extract stage entries).dir q = d.dir q := if_neg h

theorem Disk.extract_file_append (d : Disk) (stage q : List Bytes) (entries : List TarEntry) :
    (d.extract stage entries).file (stage ++ q) = tar_extract (d.under stage) entries q := by
  simp [Disk.extract]

theorem Disk.rm_rf_file_of_not_prefix (d : Disk) {path : Bytes} {q : List Bytes}
    (h : ¬ components path <+: q) : (d.rm_rf path).file q = d.file q := if_neg h

section Installed

variable {tools : Tools} {trust : Trust} {pid : UInt32} {copies : Copies} {pkg name : Bytes}
  {p : Package} {d : Disk}

/-- The installation of a verified package is its transaction, on the disk with the package
unpacked. -/
theorem install_package_verified (hv : verify_package_prepare tools trust
      (d.under (components (stage_path pid))) pkg p = .ok name) :
    install_package tools trust true pid copies pkg p d =
      run_transaction pid name copies (d.extract (components (stage_path pid)) p.entries) := by
  simp only [install_package, hv, prepared, (verified_manifest hv).1]
  rfl

/-- The manifest of a verified package, where the transaction finds it. -/
theorem unpacked_manifest (hv : verify_package_prepare tools trust
      (d.under (components (stage_path pid))) pkg p = .ok name) :
    ∃ manifest, manifest_of pid p d = manifest_lines manifest.content ∧
      (d.extract (components (stage_path pid)) p.entries).file
        (components (stage_path pid) ++ [META, ascii "MANIFEST"]) = some manifest ∧
      manifest_rels pid p d ≠ [] := by
  obtain ⟨-, manifest, hm, hlines, hgood⟩ := verified_manifest hv
  have hof : manifest_of pid p d = manifest_lines manifest.content := by
    rw [manifest_of, hm]
  refine ⟨manifest, hof, by rw [Disk.extract_file_append, hm], ?_⟩
  obtain ⟨line, hline⟩ := List.exists_mem_of_ne_nil _ hlines
  obtain ⟨rel, hrel⟩ := Option.isSome_iff_exists.mp (hgood line hline)
  exact List.ne_nil_of_mem (List.mem_filterMap.mpr ⟨line, hof ▸ hline, hrel⟩)

theorem verified_transacted (hv : verify_package_prepare tools trust
      (d.under (components (stage_path pid))) pkg p = .ok name) (ho : Ordinary pid p d) :
    ∃ listed failed saved, Transacted pid (manifest_rels pid p d) copies
      (d.extract (components (stage_path pid)) p.entries) (manifest_of pid p d) listed failed saved
      (transact pid copies (d.extract (components (stage_path pid)) p.entries)) := by
  obtain ⟨manifest, hof, hfile, hne⟩ := unpacked_manifest hv
  rw [hof]
  apply transact_spec pid copies ho.apart ho.clear hne hfile
  intro line hline rel hacc
  exact List.mem_filterMap.mpr ⟨line, hof ▸ hline, (accepted_eq_some.mp hacc).1⟩

/-- A rollback whose copies all succeed, on a disk that holds the list. -/
theorem rollback_tx_restores {tx stage : Bytes} (hr : Roots tx stage) {rels listed : List Bytes}
    (ap : Apart tx stage rels rels) {e : Disk} (hc : Clear tx stage rels rels e) {list : FileData}
    (hlist : e.file (listOf tx) = some list) (hread : read_list list = listed)
    (hlisted : ∀ rel ∈ listed, rel ∈ rels) (hsafe : ∀ rel ∈ listed, safe_rel rel false = true) :
    (rollback_tx tx (fun _ => .done) e).2.file = restore (backupOf tx) e.file listed := by
  rw [rollback_tx, plain_list hr, hlist]
  simp only [hread]
  exact rollback_loop_restores hr ap hc hlisted hsafe

section Rolled

variable {rels lines listed : List Bytes} {failed : Bool} {saved : Tree} {r : Bool × Disk}
  (ht : Transacted pid rels copies d lines listed failed saved r)
  (ap : Apart (tx_of pid) (stage_path pid) rels rels)
  (hlines : ∀ line ∈ lines, ∀ rel, accepted line = some rel → rel ∈ rels)

include ht hlines

theorem Transacted.listed_mem : ∀ rel ∈ listed, rel ∈ rels := by
  intro rel hrel
  obtain ⟨line, hline, hacc⟩ := ht.saves.listed rel hrel
  exact hlines line hline rel hacc

omit hlines in
theorem Transacted.listed_safe : ∀ rel ∈ listed, safe_rel rel false = true := by
  intro rel hrel
  obtain ⟨line, -, hacc⟩ := ht.saves.listed rel hrel
  exact (manifest_path_spec (accepted_eq_some.mp hacc).1).1

include ap

/-- After both loops the places of the backups are as the first loop has left them. -/
theorem Transacted.backups (c : List Bytes) :
    r.2.file (backupOf (tx_of pid) c) = saved (backupOf (tx_of pid) c) := by
  apply ht.other _ (backupOf_ne_listOf _ c)
  intro rel hrel
  exact (ap.backup_ne_target (ht.listed_mem hlines rel hrel) c).symm

omit hlines in
/-- A target that is not listed is as it was before. -/
theorem Transacted.unlisted {rel : Bytes} (hrel : rel ∈ rels)
    (hun : ∀ other ∈ listed, components other ≠ components rel) :
    r.2.file (components rel) = d.file (components rel) := by
  have hnot_list : components rel ≠ listOf (tx_of pid) :=
    fun heq => ap.not_in_tx rel hrel (heq ▸ List.prefix_append _ _)
  rw [ht.other _ hnot_list hun,
    ht.saves.frame fun other _ => ap.backup_ne_target hrel (components other),
    Function.update_of_ne hnot_list]

/-- The rollback gives every target its old content, exactly when the first loop has left the
old contents in the backups. -/
theorem Transacted.restores_iff :
    (∀ rel ∈ rels, restore (backupOf (tx_of pid)) r.2.file listed (components rel) =
        d.file (components rel)) ↔
      BackupsExact (backupOf (tx_of pid)) d.file copies.backups lines := by
  have hnot_list : ∀ rel ∈ rels, components rel ≠ listOf (tx_of pid) :=
    fun rel hrel heq => ap.not_in_tx rel hrel (heq ▸ List.prefix_append _ _)
  have hoff : OffBackups (backupOf (tx_of pid)) lines :=
    fun line hline rel hacc => ap.backup_ne_target (hlines line hline rel hacc)
  have hback : ∀ rel ∈ listed, restore (backupOf (tx_of pid)) r.2.file listed (components rel) =
      saved (backupOf (tx_of pid) (components rel)) := by
    intro rel hrel
    rw [restore_listed r.2.file (fun o ho => ap.backup_ne_target (ht.listed_mem hlines o ho)) rel
      hrel, ht.backups ap hlines]
  have hsame : ∀ line ∈ lines, ∀ rel, accepted line = some rel →
      Function.update d.file (listOf (tx_of pid)) (some (Disk.fileOf [])) (components rel) =
        d.file (components rel) ∧
      (d.file (components rel) = none →
        Function.update d.file (listOf (tx_of pid)) (some (Disk.fileOf []))
          (backupOf (tx_of pid) (components rel)) = d.file (backupOf (tx_of pid) (components rel))) :=
    fun line hline rel hacc =>
      ⟨Function.update_of_ne (hnot_list rel (hlines line hline rel hacc)) _ _,
        fun _ => Function.update_of_ne (backupOf_ne_listOf _ _) _ _⟩
  rw [← BackupsExact.congr copies.backups hsame,
    ← ht.saves.exact_iff (backupOf_injective _) hoff]
  constructor
  · intro h rel hrel
    have hmem := ht.listed_mem hlines rel hrel
    rw [← hback rel hrel, h rel hmem, Function.update_of_ne (hnot_list rel hmem)]
  · intro h rel hrel
    by_cases hlisted : ∃ other ∈ listed, components other = components rel
    · obtain ⟨other, hother, heq⟩ := hlisted
      have hmem := ht.listed_mem hlines other hother
      rw [← heq, hback other hother, h other hother, Function.update_of_ne (hnot_list other hmem)]
    · rw [restore_frame _ fun o ho heq => hlisted ⟨o, ho, heq⟩]
      exact ht.unlisted ap hrel fun o ho heq => hlisted ⟨o, ho, heq⟩

end Rolled

theorem manifest_of_accepted {line rel : Bytes} (hline : line ∈ manifest_of pid p d)
    (hacc : accepted line = some rel) : rel ∈ manifest_rels pid p d :=
  List.mem_filterMap.mpr ⟨line, hline, (accepted_eq_some.mp hacc).1⟩

/-- A failed installation leaves every path of the manifest as it was, exactly when the backups
of the lines up to the failure are exact. -/
theorem a_failed_install_restores_iff (tools : Tools) (trust : Trust) (pid : UInt32)
    (copies : Copies) (pkg name : Bytes) (p : Package) (d : Disk)
    (hv : verify_package_prepare tools trust (d.under (components (stage_path pid))) pkg p = .ok name)
    (ho : Ordinary pid p d) (hrestores : ∀ n, copies.restores n = .done)
    (hfail : (install_package tools trust true pid copies pkg p d).1 = 1) :
    (∀ rel ∈ manifest_rels pid p d,
        (install_package tools trust true pid copies pkg p d).2.file (components rel) =
          d.file (components rel)) ↔
      BackupsExact (backupOf (tx_of pid)) d.file copies.backups (manifest_of pid p d) := by
  obtain ⟨listed, failed, saved, ht⟩ := @verified_transacted tools trust pid copies pkg name p d hv ho
  have hlines : ∀ line ∈ manifest_of pid p d, ∀ rel, accepted line = some rel →
      rel ∈ manifest_rels pid p d := fun line hline rel hacc => manifest_of_accepted hline hacc
  rw [install_package_verified hv] at hfail ⊢
  have hstatus : (transact pid copies (d.extract (components (stage_path pid)) p.entries)).1 = true := by
    by_contra hok
    simp [run_transaction, hok] at hfail
  have hdone : copies.restores = fun _ => .done := funext hrestores
  obtain ⟨list, hlist, hread⟩ := ht.list
  have hrolled := rollback_tx_restores (roots_of_pid pid) ho.apart ht.clear hlist hread
    (ht.listed_mem hlines) ht.listed_safe
  have hunpacked : ∀ rel ∈ manifest_rels pid p d,
      (d.extract (components (stage_path pid)) p.entries).file (components rel) =
        d.file (components rel) :=
    fun rel hrel => d.extract_file_of_not_prefix _ (ho.apart.not_in_stage rel hrel)
  have hexact : BackupsExact (backupOf (tx_of pid))
        (d.extract (components (stage_path pid)) p.entries).file copies.backups (manifest_of pid p d) ↔
      BackupsExact (backupOf (tx_of pid)) d.file copies.backups (manifest_of pid p d) := by
    apply BackupsExact.congr
    intro line hline rel hacc
    refine ⟨hunpacked rel (hlines line hline rel hacc), fun _ => ?_⟩
    apply d.extract_file_of_not_prefix
    exact fun hp => (roots_of_pid pid).split _ hp (prefix_backupOf _ _)
  rw [← hexact, ← ht.restores_iff ho.apart hlines]
  apply forall₂_congr
  intro rel hrel
  simp only [run_transaction, hstatus, if_true, hdone]
  rw [Disk.rm_rf_file_of_not_prefix _ (ho.apart.not_in_stage rel hrel), hrolled, hunpacked rel hrel]

end Installed

/-- A disk with these files, the directories that they are in, and `/tmp`. -/
def diskOf (files : List (Bytes × Bytes)) : Disk where
  file q := (files.find? fun f => components f.1 = q).map fun f => Disk.fileOf f.2
  dir q := q = [ascii "tmp"] || files.any fun f => (q <+: components f.1) && q ≠ components f.1
  written _ := false

/-- Nothing is below a directory that leads to none of the files. -/
theorem diskOf_new {files : List (Bytes × Bytes)} {root : List Bytes}
    (htmp : ¬ root <+: [ascii "tmp"]) (h : ∀ f ∈ files, ¬ root <+: components f.1) (q : List Bytes)
    (hq : root <+: q) : (diskOf files).file q = none ∧ (diskOf files).dir q = false := by
  constructor
  · rw [diskOf, Option.map_eq_none_iff, List.find?_eq_none]
    intro f hf heq
    exact h f hf (of_decide_eq_true heq ▸ hq)
  · have hnot_tmp : q ≠ [ascii "tmp"] := fun heq => htmp (heq ▸ hq)
    simp only [diskOf, hnot_tmp, decide_false, Bool.false_or, List.any_eq_false, Bool.and_eq_true,
      decide_eq_true_eq, not_and]
    exact fun f hf hp => absurd (hq.trans hp) (h f hf)

theorem diskOf_under {files : List (Bytes × Bytes)} {root : List Bytes}
    (htmp : ¬ root <+: [ascii "tmp"]) (h : ∀ f ∈ files, ¬ root <+: components f.1) :
    (diskOf files).under root = fun _ => none :=
  funext fun q => (diskOf_new htmp h _ (List.prefix_append root q)).1

/-- The signed package is accepted wherever its staging directory is empty. -/
theorem signedPackage_unpacked {d : Disk}
    (h : d.under (components (stage_path 7)) = fun _ => none) :
    verify_package_prepare testTools testTrust (d.under (components (stage_path 7)))
        (ascii "t.mtpkg") signedPackage = .ok (ascii "t") ∧
      manifest_rels 7 signedPackage d = [ascii "usr/x"] ∧
      (d.extract (components (stage_path 7)) signedPackage.entries).dir
        (components (source_path (stage_path 7) (ascii "usr/x"))) = false := by
  refine ⟨by rw [h]; exact signedPackage_accepted, ?_, ?_⟩
  · rw [manifest_rels, manifest_of, h]
    decide
  · have hplain : (tar_extract (fun _ => none) signedPackage.entries
        ((components (source_path (stage_path 7) (ascii "usr/x"))).drop
          (components (stage_path 7)).length)).isNone = false := by decide
    have hstage : components (stage_path 7) <+:
        components (source_path (stage_path 7) (ascii "usr/x")) := by decide
    rw [Disk.extract]
    dsimp only
    rw [if_pos hstage, h, hplain, Bool.false_and]

theorem signedPackage_apart :
    Apart (tx_of 7) (stage_path 7) [ascii "usr/x"] [ascii "usr/x"] := by
  constructor <;> decide

/-- The one path of the signed package is in order where nothing is in its way. -/
theorem signedPackage_ordinary {d : Disk} (h : d.under (components (stage_path 7)) = fun _ => none)
    (hdir : ∀ c ∈ [components (ascii "usr/x"), backupOf (tx_of 7) (components (ascii "usr/x")),
      listOf (tx_of 7)], d.dir c = false)
    (hroom : ∀ q ∈ (backupOf (tx_of 7) (components (ascii "usr/x")).dropLast).inits,
      (d.file q).isNone = true) : Ordinary 7 signedPackage d := by
  obtain ⟨-, hrels, hsource⟩ := signedPackage_unpacked h
  simp only [List.forall_mem_cons] at hdir
  have hr := roots_of_pid 7
  have hkeep : ∀ q, ¬ components (stage_path 7) <+: q →
      (d.extract (components (stage_path 7)) signedPackage.entries).dir q = d.dir q :=
    fun q hq => d.extract_dir_of_not_prefix _ hq
  refine ⟨by rw [hrels]; exact signedPackage_apart, ?_⟩
  rw [hrels]
  refine ⟨fun c hg => ?_, fun rel hrel q hq => ?_⟩
  · cases hg with
    | @target rel hrel =>
      rw [List.mem_singleton.mp hrel, hkeep _ (by decide), hdir.1]
    | @source rel hrel => rw [List.mem_singleton.mp hrel, hsource]
    | list => rw [hkeep _ fun hp => hr.split _ hp (prefix_listOf _), hdir.2.2.1]
    | @backup rel hrel =>
      rw [hkeep _ fun hp => hr.split _ hp (prefix_backupOf _ _), List.mem_singleton.mp hrel, hdir.2.1]
  · rw [List.mem_singleton.mp hrel] at hq
    have hmem := (List.mem_inits _ _).mpr hq
    rw [d.extract_file_of_not_prefix _ fun hp => hr.split _ (hp.trans hq) (prefix_backupOf _ _),
      Option.isNone_iff_eq_none.mp (hroom q hmem)]

def oldDisk : Disk := diskOf [(ascii "usr/x", ascii "old")]

theorem oldDisk_under : oldDisk.under (components (stage_path 7)) = fun _ => none :=
  diskOf_under (by decide) (by decide)

theorem oldDisk_ordinary : Ordinary 7 signedPackage oldDisk :=
  signedPackage_ordinary oldDisk_under (by decide) (by decide)

/-- The new files cannot be copied, and everything is put back. -/
def nothingCopied : Copies :=
  { backups := fun _ => .done
    installs := fun _ => .failed (fun _ => none) fun _ => false
    restores := fun _ => .done
    record := .done }

def allCopied : Copies := ⟨fun _ => .done, fun _ => .done, fun _ => .done, .done⟩

/-- The backup of a file cannot be made, as on a disk that is full. -/
def lostBackups : Copies :=
  { backups := fun _ => .failed (fun _ => none) fun _ => false
    installs := fun _ => .done
    restores := fun _ => .done
    record := .done }

theorem a_failed_install_leaves_usr_x :
    (install_package testTools testTrust true 7 nothingCopied (ascii "t.mtpkg") signedPackage
      oldDisk).1 = 1 ∧
    ∀ rel ∈ manifest_rels 7 signedPackage oldDisk,
      (install_package testTools testTrust true 7 nothingCopied (ascii "t.mtpkg") signedPackage
        oldDisk).2.file (components rel) = oldDisk.file (components rel) := by
  have hv := (signedPackage_unpacked oldDisk_under).1
  have hfail : (install_package testTools testTrust true 7 nothingCopied (ascii "t.mtpkg")
      signedPackage oldDisk).1 = 1 := by
    rw [install_package_verified hv]
    decide +kernel
  refine ⟨hfail, (a_failed_install_restores_iff testTools testTrust 7 nothingCopied (ascii "t.mtpkg")
    (ascii "t") signedPackage oldDisk hv oldDisk_ordinary (fun _ => rfl) hfail).mpr ?_⟩
  have hlines : manifest_of 7 signedPackage oldDisk =
      [(testLine [120, 10] (ascii "usr/x")).dropLast] := by decide
  have hacc : accepted (testLine [120, 10] (ascii "usr/x")).dropLast = some (ascii "usr/x") := by
    decide
  have hold : oldDisk.file (components (ascii "usr/x")) = some (Disk.fileOf (ascii "old")) := rfl
  rw [hlines]
  simp only [BackupsExact, hacc, hold]
  exact ⟨rfl, fun _ => trivial⟩

/-- A file that was there is gone: its path is listed, the copy into the backup fails, and the
rollback finds no backup. -/
theorem a_lost_backup_loses_the_file :
    verify_package_prepare testTools testTrust (oldDisk.under (components (stage_path 7)))
      (ascii "t.mtpkg") signedPackage = .ok (ascii "t") ∧
    (install_package testTools testTrust true 7 lostBackups (ascii "t.mtpkg") signedPackage
      oldDisk).1 = 1 ∧
    ascii "usr/x" ∈ manifest_rels 7 signedPackage oldDisk ∧
    oldDisk.file (components (ascii "usr/x")) = some (Disk.fileOf (ascii "old")) ∧
    (install_package testTools testTrust true 7 lostBackups (ascii "t.mtpkg") signedPackage
      oldDisk).2.file (components (ascii "usr/x")) = none := by
  obtain ⟨hv, hrels, -⟩ := signedPackage_unpacked oldDisk_under
  have hrun : (run_transaction 7 (ascii "t") lostBackups
        (oldDisk.extract (components (stage_path 7)) signedPackage.entries)).1 = 1 ∧
      ((run_transaction 7 (ascii "t") lostBackups (oldDisk.extract (components (stage_path 7))
        signedPackage.entries)).2.file (components (ascii "usr/x"))).isNone = true := by
    decide +kernel
  rw [install_package_verified hv, hrels]
  exact ⟨hv, hrun.1, List.mem_singleton_self _, rfl, Option.isNone_iff_eq_none.mp hrun.2⟩

/-! ## The commit -/

/-- The directory of the package database. -/
def packages : List Bytes := [ascii "var", ascii "lib", ascii "mantleos", ascii "packages"]

theorem packages_prefix (name : Bytes) :
    packages <+: components (path_buf (ascii "/var/lib/mantleos/packages/" ++ name)) := by
  have hconst : components (ascii "/var/lib/mantleos/packages") = packages := by decide
  have hsplit : ascii "/var/lib/mantleos/packages/" ++ name =
      ascii "/var/lib/mantleos/packages" ++ 47 :: name := by
    have : ascii "/var/lib/mantleos/packages/" = ascii "/var/lib/mantleos/packages" ++ [47] := by
      decide
    rw [this]
    simp
  rw [hsplit, ← hconst]
  exact components_path_buf name (by decide)

theorem packages_prefix_db (name : Bytes) : packages <+: components (db_path name) := by
  have hlen : (ascii "/var/lib/mantleos/packages/").length = 27 := by decide
  have hcut : path_buf (ascii "/var/lib/mantleos/packages/" ++ name) =
      ascii "/var/lib/mantleos/packages/" ++ name.take (MAX_PATH - 1 - 27) := by
    rw [path_buf, List.take_append, hlen, List.take_of_length_le (by rw [hlen, MAX_PATH]; decide)]
  rw [db_path, hcut, List.append_assoc]
  exact packages_prefix _

theorem not_tx_of_packages {pid : UInt32} {q : List Bytes} (h : packages <+: q) :
    ¬ components (tx_of pid) <+: q := by
  intro htx
  obtain ⟨a, rfl⟩ := h
  rw [components_tx] at htx
  simp only [transactions, packages, List.cons_append, List.cons_prefix_cons] at htx
  exact absurd htx.2.2.2.1 (by decide)

theorem not_stage_of_packages {pid : UInt32} {q : List Bytes} (h : packages <+: q) :
    ¬ components (stage_path pid) <+: q := by
  intro hstage
  obtain ⟨a, rfl⟩ := h
  rw [components_stage] at hstage
  simp only [packages, List.cons_append, List.cons_prefix_cons] at hstage
  exact absurd hstage.1 (by decide)

section Commit

variable {pid : UInt32} {name : Bytes} {copies : Copies} {rels backs : List Bytes} {d : Disk}

/-- The components of the mark of a transaction. -/
def committedOf (tx : Bytes) : List Bytes := components tx ++ [ascii "COMMITTED"]

theorem components_status (pid : UInt32) :
    components (path_buf (tx_of pid ++ ascii "/COMMITTED")) = committedOf (tx_of pid) := by
  have hconst : ascii "/COMMITTED" = 47 :: ascii "COMMITTED" := by decide
  have hlen := (roots_of_pid pid).tx_short
  have hfit : (tx_of pid ++ ascii "/COMMITTED").length < MAX_PATH := by
    rw [List.length_append, hconst, List.length_cons]
    have : (ascii "COMMITTED").length = 9 := by decide
    omega
  have hname : components (ascii "COMMITTED") = [ascii "COMMITTED"] := by decide
  rw [path_buf_of_lt hfit, hconst, components_append, hname, committedOf]

/-- No directory of the database is a path of the transaction, where every target is a file. -/
theorem Clear.database (hc : Clear (tx_of pid) (stage_path pid) rels backs d)
    (hfiles : ∀ rel ∈ rels, (d.file (components rel)).isSome = true) :
    Clear (tx_of pid) (stage_path pid) rels backs
      (d.mkdir_p (path_buf (ascii "/var/lib/mantleos/packages/" ++ name))) where
  no_dir c hg := by
    have hdb := packages_prefix name
    by_cases hp : c <+: components (path_buf (ascii "/var/lib/mantleos/packages/" ++ name))
    · cases hg with
      | @target rel h =>
        have hway : ¬ (components rel).inits.all (fun r => (d.file r).isNone) = true := by
          intro hall
          have hself := List.all_eq_true.mp hall _ ((List.mem_inits _ _).mpr (List.prefix_refl _))
          have hsome := hfiles rel h
          rw [Option.isNone_iff_eq_none.mp hself] at hsome
          cases hsome
        simp [Disk.mkdir_p, hc.no_dir _ (.target h), hway]
      | backup h => exact absurd ((prefix_backupOf _ _).trans hp) (not_tx_of_packages hdb)
      | @source rel h =>
        exact absurd ((components_source (roots_of_pid pid) rel).trans hp) (not_stage_of_packages hdb)
      | list => exact absurd ((List.prefix_append _ _).trans hp) (not_tx_of_packages hdb)
    · rw [d.mkdir_p_dir_of_not_prefix hp, hc.no_dir c hg]
  room := hc.room

/-- The commit writes in the database and the mark, and makes the directories of the
database. -/
theorem commit_spec (hc : Clear (tx_of pid) (stage_path pid) rels backs
      (d.mkdir_p (path_buf (ascii "/var/lib/mantleos/packages/" ++ name)))) :
    (commit pid name copies d).dir =
        (d.mkdir_p (path_buf (ascii "/var/lib/mantleos/packages/" ++ name))).dir ∧
      ∀ q, ¬ packages <+: q → q ≠ committedOf (tx_of pid) →
        (commit pid name copies d).file q = d.file q := by
  have hlist : (d.mkdir_p (path_buf (ascii "/var/lib/mantleos/packages/" ++ name))).dir
      (components (list_path (tx_of pid))) = false := by
    rw [components_list (roots_of_pid pid)]
    exact hc.no_dir _ .list
  obtain ⟨got, hfile, hdir, -⟩ := Disk.copy_path_frame hlist (db_path name) copies.record
  have hplace : packages <+: (d.mkdir_p (path_buf (ascii "/var/lib/mantleos/packages/" ++ name))).place
      (list_path (tx_of pid)) (db_path name) := by
    rw [Disk.place]
    split
    · exact (packages_prefix_db name).trans (List.prefix_append _ _)
    · exact packages_prefix_db name
  have hrecorded : ∀ q, ¬ packages <+: q →
      ((d.mkdir_p (path_buf (ascii "/var/lib/mantleos/packages/" ++ name))).copy_path
        (list_path (tx_of pid)) (db_path name) copies.record).2.file q = d.file q := by
    intro q hq
    rw [hfile, Function.update_apply, if_neg (by rintro rfl; exact hq hplace)]
    rfl
  simp only [commit]
  split
  · exact ⟨hdir, fun q hq _ => hrecorded q hq⟩
  · rename_i marked hmarked
    refine ⟨(Disk.create_dir hmarked).trans hdir, fun q hq hstatus => ?_⟩
    rw [Disk.write_file, components_status, Function.update_of_ne hstatus, Disk.create_file hmarked,
      components_status, Function.update_of_ne hstatus]
    exact hrecorded q hq

/-- A commit whose copy succeeds changes files only into copies of the list, next to the mark. -/
theorem commit_files (hc : Clear (tx_of pid) (stage_path pid) rels backs
      (d.mkdir_p (path_buf (ascii "/var/lib/mantleos/packages/" ++ name))))
    {list : FileData} (hlist : d.file (listOf (tx_of pid)) = some list)
    (hrecord : copies.record = .done) (q : List Bytes) :
    (commit pid name copies d).file q = d.file q ∨ (commit pid name copies d).file q = some list ∨
      q = committedOf (tx_of pid) ∧ ((commit pid name copies d).file q).isSome = true := by
  have hr := roots_of_pid pid
  have hnodir : (d.mkdir_p (path_buf (ascii "/var/lib/mantleos/packages/" ++ name))).dir
      (components (list_path (tx_of pid))) = false := by
    rw [components_list hr]
    exact hc.no_dir _ .list
  have hplain : (d.mkdir_p (path_buf (ascii "/var/lib/mantleos/packages/" ++ name))).plain
      (list_path (tx_of pid)) = some list := by
    rw [plain_list hr]
    exact hlist
  have hcopy := Disk.copy_path_done hnodir hplain (db_path name) q
  simp only [commit, hrecord]
  split
  · rcases hcopy with h | h
    · exact .inl h
    · exact .inr (.inl h)
  · rename_i marked hmarked
    rw [Disk.write_file, Disk.create_file hmarked, components_status, Function.update_idem]
    by_cases hq : q = committedOf (tx_of pid)
    · rw [hq, Function.update_self]
      exact .inr (.inr ⟨rfl, rfl⟩)
    · rw [Function.update_of_ne hq]
      rcases hcopy with h | h
      · exact .inl h
      · exact .inr (.inl h)

theorem Clear.commit (hc : Clear (tx_of pid) (stage_path pid) rels backs d)
    (hfiles : ∀ rel ∈ rels, (d.file (components rel)).isSome = true) :
    Clear (tx_of pid) (stage_path pid) rels backs (commit pid name copies d) where
  no_dir c hg := by
    rw [(commit_spec (hc.database hfiles)).1]
    exact (hc.database hfiles).no_dir c hg
  room rel hrel q hq := by
    have hdb : ¬ packages <+: q :=
      fun h => not_tx_of_packages (h.trans hq) (prefix_backupOf _ _)
    have hmark : q ≠ committedOf (tx_of pid) := by
      rintro rfl
      rw [committedOf, backupOf, List.prefix_append_right_inj, List.cons_prefix_cons] at hq
      exact absurd hq.1 (by decide)
    rw [(commit_spec (hc.database hfiles)).2 q hdb hmark, hc.room rel hrel q hq]

/-- The directory of the transaction outlives the commit and the end of the staging directory. -/
theorem settled_file (hc : Clear (tx_of pid) (stage_path pid) rels backs
      (d.mkdir_p (path_buf (ascii "/var/lib/mantleos/packages/" ++ name))))
    {q : List Bytes} (hq : components (tx_of pid) <+: q) (hmark : q ≠ committedOf (tx_of pid)) :
    ((commit pid name copies d).rm_rf (stage_path pid)).file q = d.file q := by
  rw [Disk.rm_rf_file_of_not_prefix _ fun h => (roots_of_pid pid).split q h hq,
    (commit_spec hc).2 q (fun h => not_tx_of_packages h hq) hmark]

theorem backupOf_ne_committedOf (tx : Bytes) (c : List Bytes) : backupOf tx c ≠ committedOf tx := by
  rw [backupOf, committedOf, Ne, List.append_cancel_left_eq, List.cons.injEq]
  exact fun h => absurd h.1 (by decide)

theorem listOf_ne_committedOf (tx : Bytes) : listOf tx ≠ committedOf tx := by
  rw [listOf, committedOf, Ne, List.append_cancel_left_eq, List.cons.injEq]
  exact fun h => absurd h.1 (by decide)

theorem Clear.rm_rf (hc : Clear (tx_of pid) (stage_path pid) rels backs d) (path : Bytes) :
    Clear (tx_of pid) (stage_path pid) rels backs (d.rm_rf path) where
  no_dir c hg := by simp [Disk.rm_rf, hc.no_dir c hg]
  room rel hrel q hq := by simp [Disk.rm_rf, hc.room rel hrel q hq]

end Commit

/-! ## An installation and its rollback -/

/-- A transaction whose lines are all listed lists every path of the manifest. -/
theorem manifest_rels_listed {pid : UInt32} {p : Package} {d : Disk} {listed : List Bytes}
    (h : (manifest_of pid p d).map accepted = listed.map some) :
    ∀ rel ∈ manifest_rels pid p d, rel ∈ listed := by
  intro rel hrel
  obtain ⟨line, hline, hpath⟩ := List.mem_filterMap.mp hrel
  have hmem : accepted line ∈ listed.map some := by
    rw [← h]
    exact List.mem_map_of_mem hline
  obtain ⟨other, hother, hacc⟩ := List.mem_map.mp hmem
  have := (accepted_eq_some.mp hacc.symm).1
  rw [hpath] at this
  rwa [Option.some.inj this]

/-- An installation that succeeds: both loops, the commit, and the end of the staging
directory. -/
theorem install_succeeded {tools : Tools} {trust : Trust} {pid : UInt32} {copies : Copies}
    {pkg name : Bytes} {p : Package} {d : Disk}
    (hv : verify_package_prepare tools trust (d.under (components (stage_path pid))) pkg p = .ok name)
    (ho : Ordinary pid p d) (hok : (install_package tools trust true pid copies pkg p d).1 = 0) :
    ∃ listed saved r,
      Transacted pid (manifest_rels pid p d) copies
        (d.extract (components (stage_path pid)) p.entries) (manifest_of pid p d) listed false saved r ∧
      (∀ rel ∈ listed, (r.2.file (components rel)).isSome = true) ∧
      (install_package tools trust true pid copies pkg p d).2 =
        (commit pid name copies r.2).rm_rf (stage_path pid) := by
  obtain ⟨listed, failed, saved, ht⟩ := @verified_transacted tools trust pid copies pkg name p d hv ho
  rw [install_package_verified hv] at hok ⊢
  have hstatus : (transact pid copies (d.extract (components (stage_path pid)) p.entries)).1 =
      false := by
    by_contra hfail
    simp [run_transaction, hfail] at hok
  obtain ⟨rfl, hsome⟩ := ht.filled hstatus
  refine ⟨listed, saved, _, ht, hsome, ?_⟩
  simp only [run_transaction, hstatus, Bool.false_eq_true, if_false]

/-- In a transaction directory that is new, a first loop that does not fail saves every target
that is there. -/
theorem Transacted.exact {pid : UInt32} {copies : Copies} {rels lines listed : List Bytes} {d : Disk}
    {saved : Tree} {r : Bool × Disk} (ht : Transacted pid rels copies d lines listed false saved r)
    (ap : Apart (tx_of pid) (stage_path pid) rels rels)
    (hlines : ∀ line ∈ lines, ∀ rel, accepted line = some rel → rel ∈ rels)
    (hnew : ∀ q, components (tx_of pid) <+: q → d.file q = none) :
    ∀ rel ∈ listed, saved (backupOf (tx_of pid) (components rel)) = d.file (components rel) := by
  have hoff : OffBackups (backupOf (tx_of pid)) lines :=
    fun line hline rel hacc => ap.backup_ne_target (hlines line hline rel hacc)
  have hexact := (ht.saves.exact_iff (backupOf_injective _) hoff).mpr
    (ht.saves.exact (backupOf_injective _) rfl hoff (by
      intro c _
      rw [Function.update_of_ne (backupOf_ne_listOf _ c), hnew _ (prefix_backupOf _ c)]))
  intro rel hrel
  have hnot_list : components rel ≠ listOf (tx_of pid) :=
    fun heq => ap.not_in_tx rel (ht.listed_mem hlines rel hrel) (heq ▸ prefix_listOf _)
  rw [hexact rel hrel, Function.update_of_ne hnot_list]

/-- A transaction that does not fail has opened its list. -/
theorem opened_of_ok {pid : UInt32} {copies : Copies} {d : Disk}
    (hok : (transact pid copies d).1 = false) :
    ∃ opened, (d.mkdir_p (path_buf (tx_of pid ++ ascii "/backup"))).create (list_path (tx_of pid)) =
      some opened := by
  simp only [transact] at hok
  split at hok
  · cases hok
  · split at hok
    · cases hok
    · rename_i opened hopen
      exact ⟨opened, hopen⟩

/-- Where the transaction directory is new, nothing is in the way of a package whose paths are
placed and whose installation succeeds. -/
theorem Placed.ordinary {tools : Tools} {trust : Trust} {pid : UInt32} {copies : Copies}
    {pkg name : Bytes} {p : Package} {d : Disk} (hp : Placed pid p (manifest_rels pid p d) d)
    (hv : verify_package_prepare tools trust (d.under (components (stage_path pid))) pkg p = .ok name)
    (hnew : ∀ q, components (tx_of pid) <+: q → d.file q = none ∧ d.dir q = false)
    (hok : (install_package tools trust true pid copies pkg p d).1 = 0) : Ordinary pid p d := by
  have hr := roots_of_pid pid
  rw [install_package_verified hv] at hok
  have hstatus : (transact pid copies (d.extract (components (stage_path pid)) p.entries)).1 =
      false := by
    by_contra hfail
    simp [run_transaction, hfail] at hok
  obtain ⟨opened, hopen⟩ := opened_of_ok hstatus
  have hfile : ∀ q, components (tx_of pid) <+: q →
      (d.extract (components (stage_path pid)) p.entries).file q = none := fun q hq => by
    rw [d.extract_file_of_not_prefix _ fun h => hr.split q h hq, (hnew q hq).1]
  have hdir : ∀ q, components (tx_of pid) <+: q →
      (d.extract (components (stage_path pid)) p.entries).dir q = false := fun q hq => by
    rw [d.extract_dir_of_not_prefix _ fun h => hr.split q h hq, (hnew q hq).2]
  -- the directory was made, so no file is above it
  have habove : ∀ q, q <+: components (tx_of pid) →
      (d.extract (components (stage_path pid)) p.entries).file q = none := by
    rw [Disk.create, components_list hr, listOf, List.dropLast_concat] at hopen
    split at hopen
    · cases hopen
    rename_i hmade
    simp only [Bool.or_eq_true, not_or, Bool.not_eq_true', Bool.not_eq_false, Disk.mkdir_p,
      hdir _ (List.prefix_refl _), Bool.false_or, Bool.and_eq_true, List.all_eq_true] at hmade
    intro q hq
    exact Option.isNone_iff_eq_none.mp (hmade.2.2 q ((List.mem_inits _ _).mpr hq))
  refine ⟨hp.apart, ⟨fun c hg => ?_, fun rel hrel q hq => ?_⟩⟩
  · cases hg with
    | @target rel h =>
      rw [d.extract_dir_of_not_prefix _ (hp.apart.not_in_stage rel h), hp.target rel h]
    | @source rel h => exact hp.source rel h
    | list => exact hdir _ (prefix_listOf _)
    | backup h => exact hdir _ (prefix_backupOf _ _)
  · rcases List.prefix_or_prefix_of_prefix hq (prefix_backupOf (tx_of pid) _) with h | h
    · exact habove q h
    · exact hfile q h

theorem no_bytes_fit : ([] : Bytes).length < 2 ^ 63 := by decide

theorem two_bytes_fit : ([120, 10] : Bytes).length < 2 ^ 63 := by decide

/-- A path in the directory of the backups of the process 7. -/
def backupAlias : Bytes := ascii "var/lib/mantleos/transactions/7/backup/usr/y"

def aliasManifest : Bytes := testLine [] (ascii "usr/y") ++ testLine [120, 10] backupAlias

theorem aliasManifest_fits : aliasManifest.length < 2 ^ 63 := by decide +kernel

/-- A package with the file `/usr/y`, and another one where its backup would be. -/
def aliasPackage : Package :=
  let one := testPackage aliasManifest (ascii "usr/y") [] aliasManifest_fits no_bytes_fit
  { one with
    entries := one.entries ++ [member (ascii "payload/" ++ backupAlias) ⟨_, two_bytes_fit⟩] }

end mantle.package
