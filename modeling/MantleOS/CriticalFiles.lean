-- The critical files of the system: which packages can have `mantle` write over
-- one of them. The filters of the source look at the spelling of a path, and the
-- copies at where it leads.
import MantleOS.InstallLaws

open bytes checked ctext

namespace mantle.package

/-- The places of the seven files. -/
def Critical (q : List Bytes) : Prop := ∃ path, critical_path path = true ∧ components path = q

/-- A file is no directory, and what is on the disk stands in a directory. -/
structure Disk.Sound (d : Disk) : Prop where
  file : ∀ q, (d.file q).isSome = true → d.dir q = false ∧ d.dir q.dropLast = true
  dir : ∀ q, d.dir q = true → d.dir q.dropLast = true

/-- Everything above a file is a directory. -/
theorem Disk.Sound.above {d : Disk} (hs : d.Sound) {q c : List Bytes}
    (hq : (d.file q).isSome = true) (hc : c <+: q) (hne : c ≠ q) : d.dir c = true := by
  have hdirs : ∀ rest : List Bytes, d.dir (c ++ rest) = true → d.dir c = true := by
    intro rest
    induction rest using List.reverseRecOn with
    | nil => exact fun h => by rwa [List.append_nil] at h
    | append_singleton rest name ih =>
      intro h
      have hup := hs.dir _ h
      rw [← List.append_assoc, List.dropLast_concat] at hup
      exact ih hup
  obtain ⟨rest, rfl⟩ := hc
  have hrest : rest ≠ [] := fun h => hne (by rw [h, List.append_nil])
  have hup := (hs.file _ hq).2
  rw [List.dropLast_append_of_ne_nil hrest] at hup
  exact hdirs _ hup

theorem Critical.outside {q : List Bytes} (h : Critical q) :
    ¬ [ascii "var"] <+: q ∧ ¬ [ascii "tmp"] <+: q := by
  obtain ⟨path, hpath, rfl⟩ := h
  simp only [critical_path, Bool.or_eq_true, decide_eq_true_eq] at hpath
  rcases hpath with (((((h | h) | h) | h) | h) | h) | h <;> subst h <;> decide

theorem Critical.not_tx {q : List Bytes} (h : Critical q) (pid : UInt32) :
    ¬ components (tx_of pid) <+: q := by
  intro htx
  rw [components_tx] at htx
  exact h.outside.1 ((List.prefix_append [ascii "var"] _).trans htx)

theorem Critical.not_stage {q : List Bytes} (h : Critical q) (pid : UInt32) :
    ¬ components (stage_path pid) <+: q := by
  intro hstage
  rw [components_stage] at hstage
  exact h.outside.2 ((List.prefix_append [ascii "tmp"] _).trans hstage)

theorem Critical.not_packages {q : List Bytes} (h : Critical q) : ¬ packages <+: q :=
  fun hdb => h.outside.1 ((List.prefix_append [ascii "var"] _).trans hdb)

/-! ## What the loops can write -/

section Loops

variable {tx stage : Bytes} {q : List Bytes}

theorem back_up_written (hr : Roots tx stage) (hq : ¬ components tx <+: q) (copies : Nat → Outcome)
    (d : Disk) (lines : List Bytes) :
    (back_up tx copies d lines).2.2.written q = d.written q := by
  induction lines generalizing copies d with
  | nil => rfl
  | cons line rest ih =>
    cases hacc : accepted line with
    | none => rw [back_up_refused copies d rest hacc]
    | some rel =>
      have hdst : ¬ components (parent (backup_path tx rel)) <+: q :=
        fun h => hq (((prefix_backupOf tx []).trans (prefix_backup_parent hr rel)).trans h)
      have hcopy := ((d.mkdir_p (parent (backup_path tx rel))).copy_path_outside (target_path rel)
        hdst (copies 0)).2
      rw [back_up_accepted copies d rest hacc]
      dsimp only
      split
      · split
        · exact (ih _ _).trans hcopy
        · exact hcopy
      · exact ih _ _

theorem back_up_reached (copies : Nat → Outcome) (d : Disk) (lines : List Bytes) :
    (back_up tx copies d lines).1 <+: reached lines := by
  induction lines generalizing copies d with
  | nil => exact List.prefix_refl _
  | cons line rest ih =>
    cases hacc : accepted line with
    | none =>
      rw [back_up_refused copies d rest hacc]
      exact List.nil_prefix
    | some rel =>
      rw [back_up_accepted copies d rest hacc]
      simp only [reached, hacc]
      split
      · split
        · exact List.cons_prefix_cons.mpr ⟨rfl, ih _ _⟩
        · exact List.cons_prefix_cons.mpr ⟨rfl, List.nil_prefix⟩
      · exact List.cons_prefix_cons.mpr ⟨rfl, ih _ _⟩

/-- The second loop touches nothing but its targets and what is below them. -/
theorem install_files_outside (copies : Nat → Outcome) (d : Disk) {listed : List Bytes}
    (hq : ∀ rel ∈ listed, ¬ components (target_path rel) <+: q) :
    (install_files stage copies d listed).2.file q = d.file q ∧
      (install_files stage copies d listed).2.written q = d.written q := by
  induction listed generalizing copies d with
  | nil => exact ⟨rfl, rfl⟩
  | cons rel rest ih =>
    obtain ⟨hfile, hwritten⟩ := (d.mkdir_p (parent (target_path rel))).copy_path_outside
      (source_path stage rel) (hq rel List.mem_cons_self) (copies 0)
    simp only [install_files]
    split
    · obtain ⟨hfile', hwritten'⟩ := ih (later copies) _ fun r hr => hq r (List.mem_cons_of_mem _ hr)
      exact ⟨hfile'.trans hfile, hwritten'.trans hwritten⟩
    · exact ⟨hfile, hwritten⟩

theorem unlink_written (d : Disk) (path : Bytes) : (d.unlink path).2.written = d.written := by
  rw [Disk.unlink]
  split <;> rfl

theorem rollback_loop_written (copies : Nat → Outcome) (d : Disk) {listed : List Bytes}
    (hq : ∀ rel ∈ listed, ¬ components (target_path rel) <+: q) :
    (rollback_loop tx copies d listed).2.written q = d.written q := by
  induction listed generalizing copies d with
  | nil => rfl
  | cons rel rest ih =>
    have hrest : ∀ r ∈ rest, ¬ components (target_path r) <+: q :=
      fun r hr => hq r (List.mem_cons_of_mem _ hr)
    have hcleared := congrFun (unlink_written d (target_path rel)) q
    simp only [rollback_loop]
    split
    · exact ih _ d hrest
    · split
      · have hcopy := ((d.unlink (target_path rel)).2.copy_path_outside (backup_path tx rel)
          (hq rel List.mem_cons_self) (copies 0)).2
        exact (ih _ _ hrest).trans (hcopy.trans hcleared)
      · exact (ih _ _ hrest).trans hcleared

end Loops

/-! ## What an installation can write -/

section Writes

variable {pid : UInt32} {copies : Copies} {d : Disk} {q : List Bytes}

theorem create_written {d e : Disk} {path : Bytes} (h : d.create path = some e)
    (hq : q ≠ components path) : e.written q = d.written q := by
  rw [Disk.create] at h
  split at h
  · cases h
  · rw [← Option.some.inj h]
    exact Function.update_of_ne hq _ _

theorem write_written (d : Disk) {path : List Bytes} (text : Bytes) (hq : q ≠ path) :
    (d.write path text).written q = d.written q := Function.update_of_ne hq _ _

/-- On a sound disk that has a list already, the new list can be opened. -/
theorem create_of_sound (hs : d.dir (listOf (tx_of pid)) = false ∧
      d.dir (listOf (tx_of pid)).dropLast = true) :
    ∃ e, (d.mkdir_p (path_buf (tx_of pid ++ ascii "/backup"))).create (list_path (tx_of pid)) =
      some e := by
  have hr := roots_of_pid pid
  obtain ⟨hnodir, hup⟩ := hs
  have hsame : (d.mkdir_p (path_buf (tx_of pid ++ ascii "/backup"))).dir (listOf (tx_of pid)) =
      false := by
    rw [d.mkdir_p_dir_of_not_prefix, hnodir]
    rw [components_backup_root hr, listOf, backupOf, List.prefix_append_right_inj,
      List.cons_prefix_cons]
    exact fun h => absurd h.1 (by decide)
  have htx : (d.mkdir_p (path_buf (tx_of pid ++ ascii "/backup"))).dir
      (listOf (tx_of pid)).dropLast = true := by
    simp [Disk.mkdir_p, hup]
  rw [Disk.create, components_list hr, hsame, htx]
  exact ⟨_, rfl⟩

/-- Both loops leave alone a path that is outside of the transaction and that no reached path
leads to, and the list that they leave holds reached paths only. -/
theorem transact_outside {manifest : FileData}
    (hs : (d.file (listOf (tx_of pid))).isSome = true →
      d.dir (listOf (tx_of pid)) = false ∧ d.dir (listOf (tx_of pid)).dropLast = true)
    (hm : d.file (components (stage_path pid) ++ [META, ascii "MANIFEST"]) = some manifest)
    (hlist : ∀ rel ∈ reached (manifest_lines manifest.content),
      ¬ components rel <+: listOf (tx_of pid))
    (hreached : ∀ rel ∈ reached (manifest_lines manifest.content), ¬ components rel <+: q)
    (hq : ¬ components (tx_of pid) <+: q) :
    (transact pid copies d).2.written q = d.written q ∧
      ∀ list, (transact pid copies d).2.file (listOf (tx_of pid)) = some list →
        ∀ rel ∈ read_list list, rel ∈ reached (manifest_lines manifest.content) := by
  have hr := roots_of_pid pid
  have hne : q ≠ listOf (tx_of pid) := by
    rintro rfl
    exact hq (List.prefix_append _ _)
  have hmanifest : (d.mkdir_p (path_buf (tx_of pid ++ ascii "/backup"))).plain
      (path_buf (stage_path pid ++ ascii "/META/MANIFEST")) = some manifest := by
    rw [plain_manifest hr]
    exact hm
  simp only [transact, hmanifest]
  split
  · rename_i hfail
    refine ⟨rfl, fun list hold => ?_⟩
    obtain ⟨e, he⟩ := create_of_sound (hs (Option.isSome_iff_exists.mpr ⟨list, hold⟩))
    rw [he] at hfail
    cases hfail
  rename_i opened hopen
  have hopened := create_written hopen (show q ≠ _ by rw [components_list hr]; exact hne)
  have hback := back_up_written hr hq copies.backups opened (manifest_lines manifest.content)
  have hlisted := @back_up_reached (tx_of pid) copies.backups opened
    (manifest_lines manifest.content)
  generalize back_up (tx_of pid) copies.backups opened (manifest_lines manifest.content) = back
    at hback hlisted
  obtain ⟨listed, failed, after⟩ := back
  have hread := read_list_reached hlisted
  have hwritten : (after.write (components (list_path (tx_of pid))) (list_text listed)).written q =
      d.written q := by
    rw [write_written _ _ (by rw [components_list hr]; exact hne)]
    exact hback.trans hopened
  have hfile : (after.write (components (list_path (tx_of pid))) (list_text listed)).file
      (listOf (tx_of pid)) = some (Disk.fileOf (list_text listed)) := by
    rw [Disk.write_file, components_list hr, Function.update_self]
  have hsubset : ∀ list, some (Disk.fileOf (list_text listed)) = some list →
      ∀ rel ∈ read_list list, rel ∈ reached (manifest_lines manifest.content) := by
    intro list hsome rel hrel
    rw [← Option.some.inj hsome, hread] at hrel
    exact hlisted.subset hrel
  cases failed with
  | true =>
    refine ⟨hwritten, fun list hlist => hsubset list ?_⟩
    rw [← hlist]
    exact hfile.symm
  | false =>
    have htarget : ∀ rel ∈ listed, components (target_path rel) = components rel := by
      intro rel hrel
      obtain ⟨line, -, hacc⟩ := mem_reached (hlisted.subset hrel)
      exact components_target (manifest_path_spec (accepted_eq_some.mp hacc).1).2.1
    simp only [Bool.false_eq_true, if_false, plain_list hr, hfile, hread]
    have hthrough : ∀ c, (∀ rel ∈ reached (manifest_lines manifest.content), ¬ components rel <+: c) →
        (install_files (stage_path pid) copies.installs
          (after.write (components (list_path (tx_of pid))) (list_text listed)) listed).2.file c =
            (after.write (components (list_path (tx_of pid))) (list_text listed)).file c ∧
        (install_files (stage_path pid) copies.installs
          (after.write (components (list_path (tx_of pid))) (list_text listed)) listed).2.written c =
            (after.write (components (list_path (tx_of pid))) (list_text listed)).written c := by
      intro c hc
      apply install_files_outside
      intro rel hrel
      rw [htarget rel hrel]
      exact hc rel (hlisted.subset hrel)
    refine ⟨(hthrough q hreached).2.trans hwritten, fun list hlast => hsubset list ?_⟩
    rw [← hlast, (hthrough _ hlist).1, hfile]

theorem commit_written (name : Bytes) (hdb : ¬ packages <+: q) (hq : ¬ components (tx_of pid) <+: q) :
    (commit pid name copies d).written q = d.written q := by
  have hmark : q ≠ components (path_buf (tx_of pid ++ ascii "/COMMITTED")) := by
    rw [components_status]
    rintro rfl
    exact hq (List.prefix_append _ _)
  have hrecord := ((d.mkdir_p (path_buf (ascii "/var/lib/mantleos/packages/" ++ name))).copy_path_outside
    (list_path (tx_of pid)) (fun h => hdb ((packages_prefix_db name).trans h)) copies.record).2
  simp only [commit]
  split
  · exact hrecord
  · rename_i marked hmarked
    rw [write_written _ _ hmark]
    exact (create_written hmarked hmark).trans hrecord

/-- A package none of whose reached paths leads to a critical file, to a directory above one or
to the list of its own transaction writes no critical file. -/
theorem install_spares {tools : Tools} {trust : Trust} {pkg name : Bytes} {p : Package}
    (hv : verify_package_prepare tools trust (d.under (components (stage_path pid))) pkg p = .ok name)
    (hs : d.Sound) (hcrit : Critical q)
    (hlist : ∀ rel ∈ reached (manifest_of pid p d), ¬ components rel <+: listOf (tx_of pid))
    (hreached : ∀ rel ∈ reached (manifest_of pid p d), ¬ components rel <+: q) :
    (install_package tools trust true pid copies pkg p d).2.written q = d.written q := by
  obtain ⟨manifest, hof, hfile, -⟩ := unpacked_manifest hv
  have hr := roots_of_pid pid
  have hsame : ∀ c, components (tx_of pid) <+: c →
      (d.extract (components (stage_path pid)) p.entries).file c = d.file c ∧
      (d.extract (components (stage_path pid)) p.entries).dir c = d.dir c := by
    intro c hc
    have hout : ¬ components (stage_path pid) <+: c := fun h => hr.split c h hc
    exact ⟨d.extract_file_of_not_prefix _ hout, d.extract_dir_of_not_prefix _ hout⟩
  have hsound : ((d.extract (components (stage_path pid)) p.entries).file
      (listOf (tx_of pid))).isSome = true →
      (d.extract (components (stage_path pid)) p.entries).dir (listOf (tx_of pid)) = false ∧
      (d.extract (components (stage_path pid)) p.entries).dir (listOf (tx_of pid)).dropLast = true := by
    have hup : components (tx_of pid) <+: (listOf (tx_of pid)).dropLast := by
      rw [listOf, List.dropLast_concat]
    rw [(hsame _ (prefix_listOf _)).1, (hsame _ (prefix_listOf _)).2, (hsame _ hup).2]
    exact hs.file _
  have hunpacked : (d.extract (components (stage_path pid)) p.entries).written q = d.written q := by
    simp [Disk.extract, hcrit.not_stage pid]
  rw [hof] at hlist hreached
  obtain ⟨hwritten, hlisted⟩ := @transact_outside pid copies _ q manifest hsound hfile hlist hreached
    (hcrit.not_tx pid)
  rw [install_package_verified hv, ← hunpacked, ← hwritten]
  simp only [run_transaction]
  generalize transact pid copies (d.extract (components (stage_path pid)) p.entries) = r at hlisted ⊢
  split
  · rw [rollback_tx, plain_list hr]
    split
    · rename_i list hlast
      apply rollback_loop_written
      intro rel hrel
      have hmem := hlisted list hlast rel hrel
      obtain ⟨line, -, hacc⟩ := mem_reached hmem
      rw [components_target (manifest_path_spec (accepted_eq_some.mp hacc).1).2.1]
      exact hreached rel hmem
    · rfl
  · exact commit_written name hcrit.not_packages (hcrit.not_tx pid)

end Writes

/-! ## What a rollback overwrites -/

theorem rollback_loop_written_mono (tx : Bytes) (copies : Nat → Outcome) (d : Disk)
    (listed : List Bytes) {q : List Bytes} (h : d.written q = true) :
    (rollback_loop tx copies d listed).2.written q = true := by
  induction listed generalizing copies d with
  | nil => exact h
  | cons rel rest ih =>
    have hcleared : (d.unlink (target_path rel)).2.written q = true := by
      rw [unlink_written, h]
    simp only [rollback_loop]
    split
    · exact ih _ d h
    · split
      · exact ih _ _ (Disk.copy_path_written_mono _ _ _ _ hcleared)
      · exact ih _ _ hcleared

theorem rollback_loop_marks {tx stage : Bytes} {rels : List Bytes} (hr : Roots tx stage)
    (ap : Apart tx stage rels rels) {d : Disk} (hc : Clear tx stage rels rels d) {listed : List Bytes}
    (hlisted : ∀ rel ∈ listed, rel ∈ rels) (hsafe : ∀ rel ∈ listed, safe_rel rel false = true) :
    ∀ rel ∈ listed, (d.file (backupOf tx (components rel))).isSome = true →
      (rollback_loop tx (fun _ => .done) d listed).2.written (components rel) = true := by
  induction listed generalizing d with
  | nil => exact nofun
  | cons rel rest ih =>
    obtain ⟨e, hclear, hfile, hmark, hloop⟩ := restore_target hr ap hc
      (hlisted rel List.mem_cons_self) (hsafe rel List.mem_cons_self) (fun _ => .done) rfl rest
    rintro r (_ | ⟨_, hr'⟩) hback
    · rw [hloop]
      exact rollback_loop_written_mono tx _ e rest (hmark hback)
    · rw [hloop]
      apply ih hclear (fun r hr => hlisted r (List.mem_cons_of_mem _ hr))
        (fun r hr => hsafe r (List.mem_cons_of_mem _ hr)) r hr'
      rw [hfile, Function.update_of_ne (ap.backup_ne_target (hlisted rel List.mem_cons_self) _)]
      exact hback

/-- A reached path that leads to a file has this file written, if only by the rollback. -/
theorem install_writes {tools : Tools} {trust : Trust} {pid : UInt32} {pkg name rel : Bytes}
    {p : Package} {d : Disk}
    (hv : verify_package_prepare tools trust (d.under (components (stage_path pid))) pkg p = .ok name)
    (ho : Ordinary pid p d) (hrel : rel ∈ reached (manifest_of pid p d))
    (hthere : (d.file (components rel)).isSome = true) :
    (install_package tools trust true pid nothingCopied pkg p d).2.written (components rel) = true := by
  obtain ⟨listed, failed, saved, ht⟩ :=
    @verified_transacted tools trust pid nothingCopied pkg name p d hv ho
  have hlines : ∀ line ∈ manifest_of pid p d, ∀ rel, accepted line = some rel →
      rel ∈ manifest_rels pid p d := fun line hline rel hacc => manifest_of_accepted hline hacc
  have hlisted : rel ∈ listed := by
    rw [ht.saves.all_reached fun _ => rfl]
    exact hrel
  have hmem := ht.listed_mem hlines rel hlisted
  have hfailed := ht.stopped rfl (List.ne_nil_of_mem hlisted)
  have hnot_list : components rel ≠ listOf (tx_of pid) :=
    fun heq => ho.apart.not_in_tx rel hmem (heq ▸ prefix_listOf _)
  have hback := ht.saves.backed_up (fun _ => rfl)
    (fun line hline r hacc => ho.apart.backup_ne_target (hlines line hline r hacc)) rel hlisted (by
      rw [Function.update_of_ne hnot_list,
        d.extract_file_of_not_prefix _ (ho.apart.not_in_stage rel hmem)]
      exact hthere)
  rw [← ht.backups ho.apart hlines] at hback
  obtain ⟨list, hlist, hread⟩ := ht.list
  rw [install_package_verified hv]
  simp only [run_transaction, hfailed, if_true, rollback_tx, plain_list (roots_of_pid pid), hlist, hread]
  exact rollback_loop_marks (roots_of_pid pid) ho.apart ht.clear (ht.listed_mem hlines)
    ht.listed_safe rel hlisted hback

/-- Which packages can have a critical file written. No package of which no reached path leads
to such a file, to a directory above one or to the list of its own transaction. On an ordinary
disk that has the critical files, exactly those of which a reached path is a critical file in
another spelling. -/
theorem critical_files_are_spared_iff (tools : Tools) (trust : Trust) (pid : UInt32)
    (pkg name : Bytes) (p : Package) (d : Disk)
    (hv : verify_package_prepare tools trust (d.under (components (stage_path pid))) pkg p = .ok name)
    (hs : d.Sound) :
    ((∀ rel ∈ reached (manifest_of pid p d), ¬ components rel <+: listOf (tx_of pid) ∧
          ∀ q, Critical q → ¬ components rel <+: q) →
        ∀ copies q, Critical q →
          (install_package tools trust true pid copies pkg p d).2.written q = d.written q) ∧
    (Ordinary pid p d → (∀ q, Critical q → (d.file q).isSome = true ∧ d.written q = false) →
      ((∀ copies q, Critical q →
          (install_package tools trust true pid copies pkg p d).2.written q = d.written q) ↔
        ∀ rel ∈ reached (manifest_of pid p d), ¬ Critical (components rel))) := by
  have hspared : (∀ rel ∈ reached (manifest_of pid p d), ¬ components rel <+: listOf (tx_of pid) ∧
        ∀ q, Critical q → ¬ components rel <+: q) →
      ∀ copies q, Critical q →
        (install_package tools trust true pid copies pkg p d).2.written q = d.written q :=
    fun h copies q hcrit => install_spares hv hs hcrit (fun rel hrel => (h rel hrel).1)
      fun rel hrel => (h rel hrel).2 q hcrit
  refine ⟨hspared, fun ho hthere => ⟨fun hkept rel hrel hcrit => ?_, fun hnone => hspared ?_⟩⟩
  · have hmarked := install_writes hv ho hrel (hthere _ hcrit).1
    rw [hkept nothingCopied _ hcrit, (hthere _ hcrit).2] at hmarked
    cases hmarked
  · intro rel hrel
    obtain ⟨line, hline, hacc⟩ := mem_reached hrel
    have hmem : rel ∈ manifest_rels pid p d := manifest_of_accepted hline hacc
    refine ⟨fun hp => ?_, fun q hcrit hp => ?_⟩
    · rcases List.prefix_or_prefix_of_prefix hp (prefix_listOf (tx_of pid)) with h | h
      · exact ho.apart.not_above_tx rel hmem h
      · exact ho.apart.not_in_tx rel hmem h
    · by_cases heq : components rel = q
      · exact hnone rel hrel (heq ▸ hcrit)
      · have hdir := hs.above (hthere q hcrit).1 hp heq
        have hclear := ho.clear.no_dir _ (.target hmem)
        rw [d.extract_dir_of_not_prefix _ (ho.apart.not_in_stage rel hmem), hdir] at hclear
        cases hclear

theorem diskOf_sound {files : List (Bytes × Bytes)} (hne : files ≠ [])
    (h : ∀ f ∈ files, components f.1 ≠ [] ∧ (diskOf files).dir (components f.1) = false) :
    (diskOf files).Sound := by
  -- what is above the files is a directory
  have habove : ∀ f ∈ files, ∀ q, q <+: components f.1 → (diskOf files).dir q.dropLast = true := by
    intro f hf q hq
    have hup : q.dropLast <+: components f.1 := (List.dropLast_prefix q).trans hq
    have hother : q.dropLast ≠ components f.1 := by
      intro heq
      have hlen := hq.length_le
      have hpos := List.length_pos_of_ne_nil (h f hf).1
      rw [← heq, List.length_dropLast] at hlen hpos
      omega
    simp only [diskOf, Bool.or_eq_true, List.any_eq_true, Bool.and_eq_true, decide_eq_true_eq]
    exact .inr ⟨f, hf, hup, hother⟩
  constructor
  · intro q hq
    obtain ⟨f, hf, hfile⟩ := List.find?_isSome.mp (Option.isSome_map.symm.trans hq)
    have hself : components f.1 = q := of_decide_eq_true hfile
    subst hself
    exact ⟨(h f hf).2, habove f hf _ (List.prefix_refl _)⟩
  · intro q hq
    simp only [diskOf, Bool.or_eq_true, List.any_eq_true, Bool.and_eq_true, decide_eq_true_eq] at hq
    rcases hq with rfl | ⟨f, hf, hp, -⟩
    · obtain ⟨f, hf⟩ := List.exists_mem_of_ne_nil files hne
      exact habove f hf [] List.nil_prefix
    · exact habove f hf q hp

/-- A disk with the critical files and `/usr/x`. -/
def systemDisk : Disk :=
  diskOf (([ascii "etc/passwd", ascii "etc/shadow", ascii "etc/group", ascii "sbin/mantle-init",
    ascii "sbin/mantle-supervise", ascii "bin/mantle-shell", ascii "usr/bin/mantle",
    ascii "usr/x"]).map fun path => (path, ascii "old"))

theorem systemDisk_sound : systemDisk.Sound := diskOf_sound (by decide) (by decide)

theorem systemDisk_under : systemDisk.under (components (stage_path 7)) = fun _ => none :=
  diskOf_under (by decide) (by decide)

theorem systemDisk_critical {q : List Bytes} (h : Critical q) :
    (systemDisk.file q).isSome = true ∧ systemDisk.written q = false := by
  obtain ⟨path, hpath, rfl⟩ := h
  simp only [critical_path, Bool.or_eq_true, decide_eq_true_eq] at hpath
  refine ⟨?_, rfl⟩
  rcases hpath with (((((h | h) | h) | h) | h) | h) | h <;> subst h <;> decide

theorem the_signed_package_spares_the_critical_files :
    (∀ copies q, Critical q → (install_package testTools testTrust true 7 copies (ascii "t.mtpkg")
      signedPackage systemDisk).2.written q = systemDisk.written q) ∧
    ∀ rel ∈ reached (manifest_of 7 signedPackage systemDisk), ¬ Critical (components rel) := by
  obtain ⟨hv, hrels, -⟩ := signedPackage_unpacked systemDisk_under
  have hlaw := critical_files_are_spared_iff testTools testTrust 7 (ascii "t.mtpkg") (ascii "t")
    signedPackage systemDisk hv systemDisk_sound
  have ho : Ordinary 7 signedPackage systemDisk :=
    signedPackage_ordinary systemDisk_under (by decide) (by decide)
  have hspared := hlaw.1 (by
    intro rel hrel
    obtain ⟨line, hline, hacc⟩ := mem_reached hrel
    have hmem : rel ∈ manifest_rels 7 signedPackage systemDisk := manifest_of_accepted hline hacc
    rw [hrels] at hmem
    rw [List.mem_singleton.mp hmem]
    refine ⟨by decide, fun q hcrit => ?_⟩
    obtain ⟨path, hpath, rfl⟩ := hcrit
    simp only [critical_path, Bool.or_eq_true, decide_eq_true_eq] at hpath
    rcases hpath with (((((h | h) | h) | h) | h) | h) | h <;> subst h <;> decide)
  exact ⟨hspared, (hlaw.2 ho fun q => systemDisk_critical).mp hspared⟩

/-- `/etc/passwd` in another spelling, with a member for it. -/
def dotPackage : Package :=
  testPackage (testLine [] (ascii "etc/./passwd")) (ascii "etc/passwd") [] (by decide)
    no_bytes_fit

theorem etc_dot_passwd_is_installed :
    verify_package_prepare testTools testTrust (systemDisk.under (components (stage_path 7)))
      (ascii "t.mtpkg") dotPackage = .ok (ascii "t") ∧
    Critical (components (ascii "etc/passwd")) ∧
    (install_package testTools testTrust true 7 allCopied (ascii "t.mtpkg") dotPackage
      systemDisk).1 = 0 ∧
    systemDisk.written (components (ascii "etc/passwd")) = false ∧
    (install_package testTools testTrust true 7 allCopied (ascii "t.mtpkg") dotPackage
      systemDisk).2.written (components (ascii "etc/passwd")) = true ∧
    ((install_package testTools testTrust true 7 allCopied (ascii "t.mtpkg") dotPackage
      systemDisk).2.file (components (ascii "etc/passwd"))).map FileData.content = some [] := by
  have hv : verify_package_prepare testTools testTrust (systemDisk.under (components (stage_path 7)))
      (ascii "t.mtpkg") dotPackage = .ok (ascii "t") := by
    rw [systemDisk_under]
    decide +kernel
  rw [install_package_verified hv]
  refine ⟨hv, ⟨_, by decide, rfl⟩, ?_⟩
  decide +kernel

end mantle.package
