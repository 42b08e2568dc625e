-- Histories of installations and removals: what the package database says about
-- the files on the disk.
import MantleOS.InstallLaws

open bytes checked ctext

namespace mantle.package

/-! ## Commands and runs -/

inductive Command where
  | install (tools : Tools) (trust : Trust) (pid : UInt32) (copies : Copies) (pkg : Bytes)
      (p : Package)
  | remove (name : Bytes)

/-- What the command returns, and the disk after it. -/
def Command.run : Command → Disk → Nat × Disk
  | .install tools trust pid copies pkg p, d => install_package tools trust true pid copies pkg p d
  | .remove name, d => remove_package true name d

/-- The package is recorded with this list. -/
def Recorded (d : Disk) (name : Bytes) (list : FileData) : Prop :=
  safe_rel name true = true ∧ d.plain (record_path name) = some list

/-- A package whose files are placed out of the database and of all staging directories, and
whose list reaches the database; or a package no file of which is on the list of another one. -/
inductive Allowed (d : Disk) : Command → Prop
  | install {tools : Tools} {trust : Trust} {pid : UInt32} {copies : Copies} {pkg : Bytes}
      {p : Package} (hp : Placed pid p [] d)
      (hout : ∀ rel ∈ manifest_rels pid p d, ¬ packages <+: components rel ∧
        ∀ other, ¬ components (stage_path other) <+: components rel)
      (hrecord : copies.record = .done) :
      Allowed d (.install tools trust pid copies pkg p)
  | remove {name : Bytes}
      (hown : ∀ list other others, Recorded d name list → Recorded d other others →
        components (record_path other) ≠ components (record_path name) →
        ∀ rel ∈ read_list list, ∀ rel' ∈ read_list others, components rel ≠ components rel') :
      Allowed d (.remove name)

/-- The disks that allowed commands reach, all of them with the status 0. -/
inductive Run (start : Disk) : Disk → Prop
  | start : Run start start
  | step {d : Disk} {c : Command} (h : Run start d) (hc : Allowed d c) (hok : (c.run d).1 = 0) :
      Run start (c.run d).2

/-- A listed path that stands for a file, and that no command touches by accident. -/
structure Kept (d : Disk) (rel : Bytes) : Prop where
  there : (d.file (components rel)).isSome = true
  short : rel.length + 1 < MAX_PATH
  not_db : ¬ packages <+: components rel
  not_stage : ∀ pid, ¬ components (stage_path pid) <+: components rel

/-- Every path on the list of a recorded package stands for a file. -/
def Consistent (d : Disk) : Prop :=
  ∀ name list, Recorded d name list → ∀ rel ∈ read_list list, Kept d rel

theorem packages_prefix_record (name : Bytes) : packages <+: components (record_path name) := by
  rw [record_path, List.append_assoc]
  exact packages_prefix _

/-! ## Removals -/

/-- The loop touches the targets of its list alone. -/
theorem remove_loop_frame (d : Disk) {rels : List Bytes} {q : List Bytes}
    (hq : ∀ rel ∈ rels, components (target_path rel) ≠ q) :
    (remove_loop d rels).2.file q = d.file q := by
  induction rels generalizing d with
  | nil => rfl
  | cons rel rest ih =>
    have hrest : ∀ r ∈ rest, components (target_path r) ≠ q :=
      fun r hr => hq r (List.mem_cons_of_mem _ hr)
    have hcleared : (d.unlink (target_path rel)).2.file q = d.file q := by
      rw [Disk.unlink]
      split
      · exact Function.update_of_ne (hq rel List.mem_cons_self).symm _ _
      · rfl
    simp only [remove_loop]
    split
    · exact (ih _ hrest).trans hcleared
    · exact ih d hrest

/-- What a removal does: nothing, or it takes away the list of the package and the files on
it. -/
theorem remove_spec (d : Disk) (name : Bytes) (hd : Consistent d) :
    (remove_package true name d).2 = d ∨
      ∃ list, Recorded d name list ∧
        (remove_package true name d).2.file (components (record_path name)) = none ∧
        ∀ q, q ≠ components (record_path name) →
          (∀ rel ∈ read_list list, components rel ≠ q) →
          (remove_package true name d).2.file q = d.file q := by
  simp only [remove_package, Bool.not_true, Bool.false_eq_true, if_false]
  split
  · exact .inl rfl
  rename_i hsafe
  split
  · rename_i list hplain
    have hrecorded : Recorded d name list := ⟨by simpa using hsafe, hplain⟩
    have hnamed : names_file (record_path name) = true := by
      by_contra hno
      rw [Disk.plain, if_neg hno] at hplain
      cases hplain
    refine .inr ⟨list, hrecorded, ?_, fun q hq hrels => ?_⟩
    · rw [Disk.unlink_file _ hnamed, Function.update_self]
    · rw [Disk.unlink_file _ hnamed, Function.update_of_ne hq]
      apply remove_loop_frame
      intro rel hrel
      rw [components_target (hd name list hrecorded rel hrel).short]
      exact hrels rel hrel
  · exact .inl rfl

/-- A removal of a package that shares no file leaves the files of the other packages. -/
theorem remove_keeps_others {d : Disk} {name : Bytes} (hd : Consistent d)
    (hc : Allowed d (.remove name)) {other : Bytes} {others : FileData}
    (hother : Recorded d other others)
    (hne : components (record_path other) ≠ components (record_path name)) :
    ∀ rel ∈ read_list others,
      (remove_package true name d).2.file (components rel) = d.file (components rel) := by
  intro rel hrel
  rcases remove_spec d name hd with hsame | ⟨list, hrecorded, -, hkeep⟩
  · rw [hsame]
  · cases hc with
    | remove hown =>
      apply hkeep
      · intro heq
        exact (hd other others hother rel hrel).not_db (heq ▸ packages_prefix_record name)
      · exact fun r hr => hown list other others hrecorded hother hne r hr rel hrel

theorem consistent_remove {d : Disk} {name : Bytes} (hd : Consistent d)
    (hc : Allowed d (.remove name)) : Consistent (remove_package true name d).2 := by
  rcases remove_spec d name hd with hsame | ⟨list, hrecorded, hgone, hkeep⟩
  · rw [hsame]
    exact hd
  intro other others hother rel hrel
  have hfile : (remove_package true name d).2.file (components (record_path other)) = some others := by
    have hplain := hother.2
    rw [Disk.plain] at hplain
    split at hplain
    · exact hplain
    · cases hplain
  have hne : components (record_path other) ≠ components (record_path name) := by
    intro heq
    rw [heq, hgone] at hfile
    cases hfile
  -- the list of the other package was there before
  have hbefore : Recorded d other others := by
    refine ⟨hother.1, ?_⟩
    rw [← hother.2, Disk.plain, Disk.plain, hkeep _ hne]
    intro r hr heq
    exact (hd name list hrecorded r hr).not_db (heq ▸ packages_prefix_record other)
  have hkept := hd other others hbefore rel hrel
  refine { hkept with there := ?_ }
  rw [remove_keeps_others hd hc hbefore hne rel hrel]
  exact hkept.there

/-! ## Installations -/

theorem refusal_status (tools : Tools) (trust : Trust) (before : Tree) (pkg : Bytes) (p : Package) :
    Refuses (verify_package_prepare tools trust before pkg p) := by
  unfold verify_package_prepare
  refine .bind (check_archive_refuses pkg p) fun _ => ?_
  refine .bind (check_metadata_refuses _) fun _ => ?_
  refine .bind (read_name_refuses _) fun _ => ?_
  refine .bind (read_key_id_refuses _) fun _ => ?_
  refine .bind (trusted_key_refuses _ _) fun _ => ?_
  refine .bind (signature_files_refuses _) fun _ => ?_
  exact .bind (check_integrity_refuses _ _ _ _ _) fun _ => .ok _

section Installation

variable {tools : Tools} {trust : Trust} {pid : UInt32} {copies : Copies} {pkg : Bytes}
  {p : Package} {d : Disk}

theorem verified_of_ok (hok : (install_package tools trust true pid copies pkg p d).1 = 0) :
    ∃ name, verify_package_prepare tools trust (d.under (components (stage_path pid))) pkg p =
      .ok name := by
  cases hv : verify_package_prepare tools trust (d.under (components (stage_path pid))) pkg p with
  | ok name => exact ⟨name, rfl⟩
  | error refusal =>
    simp only [install_package, hv] at hok
    exact absurd hok (refusal_status _ _ _ _ _ refusal hv)

/-- A transaction that does not fail, whatever becomes of its backups: the paths that it lists
are those of all the lines, each of them is a file, and no file is gone. -/
structure Filled (pid : UInt32) (rels : List Bytes) (d : Disk) (lines listed : List Bytes)
    (e : Disk) : Prop where
  lists : lines.map accepted = listed.map some
  list : ∃ list, e.file (listOf (tx_of pid)) = some list ∧ read_list list = listed
  clear : Clear (tx_of pid) (stage_path pid) rels [] e
  there : ∀ rel ∈ listed, (e.file (components rel)).isSome = true
  other : ∀ q, ¬ components (tx_of pid) <+: q → (∀ rel ∈ listed, components rel ≠ q) →
    e.file q = d.file q
  more : ∀ q, (d.file q).isSome = true → (e.file q).isSome = true

theorem reached_of_map {lines listed : List Bytes} (h : lines.map accepted = listed.map some) :
    reached lines = listed := by
  induction lines generalizing listed with
  | nil =>
    cases listed with
    | nil => rfl
    | cons rel rest => cases h
  | cons line lines ih =>
    cases listed with
    | nil => cases h
    | cons rel rest =>
      simp only [List.map_cons, List.cons.injEq] at h
      simp only [reached, h.1, ih h.2]

/-- The disk is clear, apart from the backups, when the list can be opened. -/
theorem clear_opened {rels : List Bytes} {e opened : Disk}
    (ap : Apart (tx_of pid) (stage_path pid) rels [])
    (htarget : ∀ rel ∈ rels, e.dir (components rel) = false)
    (hsource : ∀ rel ∈ rels, e.dir (components (source_path (stage_path pid) rel)) = false)
    (hopen : (e.mkdir_p (path_buf (tx_of pid ++ ascii "/backup"))).create (list_path (tx_of pid)) =
      some opened) :
    Clear (tx_of pid) (stage_path pid) rels [] opened := by
  have hr := roots_of_pid pid
  have hlist : (e.mkdir_p (path_buf (tx_of pid ++ ascii "/backup"))).dir (listOf (tx_of pid)) =
      false := by
    rw [Disk.create, components_list hr] at hopen
    split at hopen
    · cases hopen
    · rename_i hno
      simp only [Bool.or_eq_true, not_or, Bool.not_eq_true] at hno
      exact hno.1
  have hbelow : ∀ c, Guarded (tx_of pid) (stage_path pid) rels [] c →
      (e.mkdir_p (path_buf (tx_of pid ++ ascii "/backup"))).dir c = e.dir c := by
    intro c hg
    apply e.mkdir_p_dir_of_not_prefix
    rw [components_backup_root hr]
    exact hg.not_prefix_below ap hr (List.prefix_refl _)
  apply clear_of_no_dir
  intro c hg
  rw [Disk.create_dir hopen]
  cases hg with
  | target h => rw [hbelow _ (.target h), htarget _ h]
  | source h => rw [hbelow _ (.source h), hsource _ h]
  | list => exact hlist
  | backup h => cases h

theorem transact_filled {rels : List Bytes} {e : Disk} {manifest : FileData}
    (ap : Apart (tx_of pid) (stage_path pid) rels [])
    (htarget : ∀ rel ∈ rels, e.dir (components rel) = false)
    (hsource : ∀ rel ∈ rels, e.dir (components (source_path (stage_path pid) rel)) = false)
    (hm : e.file (components (stage_path pid) ++ [META, ascii "MANIFEST"]) = some manifest)
    (hlines : ∀ line ∈ manifest_lines manifest.content, ∀ rel, accepted line = some rel →
      rel ∈ rels)
    (hok : (transact pid copies e).1 = false) :
    ∃ listed, Filled pid rels e (manifest_lines manifest.content) listed
      (transact pid copies e).2 := by
  have hr := roots_of_pid pid
  have hmanifest : (e.mkdir_p (path_buf (tx_of pid ++ ascii "/backup"))).plain
      (path_buf (stage_path pid ++ ascii "/META/MANIFEST")) = some manifest := by
    rw [plain_manifest hr]
    exact hm
  simp only [transact, hmanifest, components_list hr] at hok ⊢
  cases hopen : (e.mkdir_p (path_buf (tx_of pid ++ ascii "/backup"))).create
      (list_path (tx_of pid)) with
  | none => simp [hopen] at hok
  | some opened =>
    simp only [hopen] at hok ⊢
    have hopened := clear_opened ap htarget hsource hopen
    have hempty : opened.file = Function.update e.file (listOf (tx_of pid)) (some (Disk.fileOf [])) := by
      rw [Disk.create_file hopen, components_list hr]
      rfl
    have hback := @back_up_below _ _ _ hr ap _ hopened copies.backups _ hlines
    generalize back_up (tx_of pid) copies.backups opened (manifest_lines manifest.content) = back
      at hback hok ⊢
    obtain ⟨listed, failed, saved⟩ := back
    dsimp only at hback hok ⊢
    cases failed with
    | true => simp at hok
    | false =>
      obtain ⟨hlists, hsaved, hframe, hmore⟩ := hback rfl
      have hlisted : ∀ rel ∈ listed, rel ∈ rels := by
        intro rel hrel
        have hmem : some rel ∈ (manifest_lines manifest.content).map accepted := by
          rw [hlists]
          exact List.mem_map_of_mem hrel
        obtain ⟨line, hline, hacc⟩ := List.mem_map.mp hmem
        exact hlines line hline rel hacc
      have hwritten := hsaved.write hr ap .list (list_text listed)
      have hlist : (saved.write (listOf (tx_of pid)) (list_text listed)).file (listOf (tx_of pid)) =
          some (Disk.fileOf (list_text listed)) := by
        rw [Disk.write_file, Function.update_self]
      have hread : read_list (Disk.fileOf (list_text listed)) = listed := by
        apply @read_list_reached manifest
        rw [reached_of_map hlists]
      simp only [Bool.false_eq_true, if_false, plain_list hr, hlist, hread] at hok ⊢
      obtain ⟨hfills, hclear⟩ := install_files_fills hr ap hwritten copies.installs hlisted
      have hthere := hfills.isSome hok
      have hnot_list : ∀ rel ∈ listed, components rel ≠ listOf (tx_of pid) :=
        fun rel hrel heq => ap.not_in_tx rel (hlisted rel hrel) (heq ▸ prefix_listOf _)
      refine ⟨listed, {
        lists := hlists
        list := ⟨_, (hfills.frame hnot_list).trans hlist, hread⟩
        clear := hclear
        there := hthere
        other := fun q hq hun => ?_
        more := fun q hq => ?_ }⟩
      · have hq_list : q ≠ listOf (tx_of pid) := by
          rintro rfl
          exact hq (prefix_listOf _)
        rw [hfills.frame hun, Disk.write_file, Function.update_of_ne hq_list,
          hframe q fun h => hq ((prefix_backupOf _ _).trans h), hempty, Function.update_of_ne hq_list]
      · by_cases hq_target : ∃ rel ∈ listed, components rel = q
        · obtain ⟨rel, hrel, rfl⟩ := hq_target
          exact hthere rel hrel
        · rw [hfills.frame fun rel hrel heq => hq_target ⟨rel, hrel, heq⟩, Disk.write_file,
            Function.update_apply]
          split
          · rfl
          · apply hmore
            rw [hempty, Function.update_apply]
            split
            · rfl
            · exact hq

/-- What an allowed installation does: no file goes, apart from the staging directory; a file of
the database is as before or is the new list; and every path on the new list is a file. -/
theorem install_spec (hc : Allowed d (.install tools trust pid copies pkg p))
    (hok : (install_package tools trust true pid copies pkg p d).1 = 0) :
    ∃ list,
      (∀ q, ¬ components (stage_path pid) <+: q → (d.file q).isSome = true →
        ((install_package tools trust true pid copies pkg p d).2.file q).isSome = true) ∧
      (∀ q, packages <+: q →
        (install_package tools trust true pid copies pkg p d).2.file q = d.file q ∨
        (install_package tools trust true pid copies pkg p d).2.file q = some list) ∧
      ∀ rel ∈ read_list list,
        Kept (install_package tools trust true pid copies pkg p d).2 rel := by
  cases hc with
  | install hp hout hrecord =>
    obtain ⟨name, hv⟩ := verified_of_ok hok
    obtain ⟨manifest, hof, hfile, -⟩ := unpacked_manifest hv
    rw [install_package_verified hv] at hok ⊢
    generalize hunpacked : d.extract (components (stage_path pid)) p.entries = e at hfile hok ⊢
    have hstatus : (transact pid copies e).1 = false := by
      by_contra hfail
      simp [run_transaction, hfail] at hok
    have hlines : ∀ line ∈ manifest_lines manifest.content, ∀ rel, accepted line = some rel →
        rel ∈ manifest_rels pid p d :=
      fun line hline rel hacc => manifest_of_accepted (hof ▸ hline) hacc
    have htarget : ∀ rel ∈ manifest_rels pid p d, e.dir (components rel) = false := by
      intro rel hrel
      rw [← hunpacked, d.extract_dir_of_not_prefix _ (hp.apart.not_in_stage rel hrel),
        hp.target rel hrel]
    obtain ⟨listed, hf⟩ := transact_filled hp.apart htarget (hunpacked ▸ hp.source) hfile hlines hstatus
    have hresult : (run_transaction pid name copies e).2 =
        (commit pid name copies (transact pid copies e).2).rm_rf (stage_path pid) := by
      simp only [run_transaction, hstatus, Bool.false_eq_true, if_false]
    rw [hresult]
    generalize (transact pid copies e).2 = after at hf
    have hmem : ∀ rel ∈ listed, rel ∈ manifest_rels pid p d := by
      intro rel hrel
      obtain ⟨line, hline, hacc⟩ := List.mem_map.mp (hf.lists ▸ List.mem_map_of_mem hrel)
      exact hlines line hline rel hacc
    obtain ⟨list, hlist, hread⟩ := hf.list
    have hdb := @Clear.database pid name _ _ _ hf.clear fun rel hrel =>
      hf.there rel (manifest_rels_listed (hof ▸ hf.lists) rel hrel)
    have hcommit := commit_files hdb hlist hrecord
    have hmore : ∀ q, ¬ components (stage_path pid) <+: q → (after.file q).isSome = true →
        (((commit pid name copies after).rm_rf (stage_path pid)).file q).isSome = true := by
      intro q hq hthere
      rw [Disk.rm_rf_file_of_not_prefix _ hq]
      rcases hcommit q with h | h | h
      · rw [h, hthere]
      · rw [h]
        rfl
      · exact h.2
    refine ⟨list, fun q hq hthere => hmore q hq ?_, fun q hq => ?_, fun rel hrel => ?_⟩
    · apply hf.more
      rw [← hunpacked, d.extract_file_of_not_prefix _ hq, hthere]
    · have hq_tx : ¬ components (tx_of pid) <+: q := not_tx_of_packages hq
      have hq_stage : ¬ components (stage_path pid) <+: q := not_stage_of_packages hq
      have hsame : after.file q = d.file q := by
        rw [hf.other q hq_tx, ← hunpacked, d.extract_file_of_not_prefix _ hq_stage]
        rintro rel hrel rfl
        exact (hout rel (hmem rel hrel)).1 hq
      rw [Disk.rm_rf_file_of_not_prefix _ hq_stage, ← hsame]
      rcases hcommit q with h | h | ⟨rfl, -⟩
      · exact .inl h
      · exact .inr h
      · exact absurd (List.prefix_append _ _) hq_tx
    · rw [hread] at hrel
      have hrel' := hmem rel hrel
      exact {
        there := hmore _ (hp.apart.not_in_stage rel hrel') (hf.there rel hrel)
        short := hp.apart.short rel hrel'
        not_db := (hout rel hrel').1
        not_stage := (hout rel hrel').2 }

theorem consistent_install (hd : Consistent d)
    (hc : Allowed d (.install tools trust pid copies pkg p))
    (hok : (install_package tools trust true pid copies pkg p d).1 = 0) :
    Consistent (install_package tools trust true pid copies pkg p d).2 := by
  obtain ⟨list, hmore, hdb, hnew⟩ := install_spec hc hok
  intro name recorded hrecorded rel hrel
  rcases hdb _ (packages_prefix_record name) with hsame | hlist
  · have hbefore : Recorded d name recorded := by
      refine ⟨hrecorded.1, ?_⟩
      rw [← hrecorded.2, Disk.plain, Disk.plain, hsame]
    have hkept := hd name recorded hbefore rel hrel
    exact { hkept with there := hmore _ (hkept.not_stage pid) hkept.there }
  · have hplain := hrecorded.2
    rw [Disk.plain, hlist] at hplain
    split at hplain
    · rw [← Option.some.inj hplain] at hrel
      exact hnew rel hrel
    · cases hplain

end Installation

/-! ## Whole runs -/

theorem consistent_step {d : Disk} {c : Command} (hd : Consistent d) (hc : Allowed d c)
    (hok : (c.run d).1 = 0) : Consistent (c.run d).2 := by
  cases c with
  | install tools trust pid copies pkg p => exact consistent_install hd hc hok
  | remove name => exact consistent_remove hd hc

theorem consistent_run {start d : Disk} (h : Run start d)
    (hempty : ∀ q, packages <+: q → start.file q = none) : Consistent d := by
  induction h with
  | start =>
    intro name list hrecorded
    have hplain := hrecorded.2
    rw [Disk.plain, hempty _ (packages_prefix_record name)] at hplain
    split at hplain <;> cases hplain
  | step _ hc hok ih => exact consistent_step ih hc hok

/-- From an empty database, whatever allowed commands have succeeded: every path that a recorded
package lists is a file, and an allowed removal takes away no file that another package
lists. -/
theorem the_database_stays_consistent (start d : Disk)
    (hempty : ∀ q, packages <+: q → start.file q = none) (h : Run start d) :
    (∀ name list, Recorded d name list → ∀ rel ∈ read_list list,
      (d.file (components rel)).isSome = true) ∧
    ∀ name, Allowed d (.remove name) → ∀ other list, Recorded d other list →
      components (record_path other) ≠ components (record_path name) →
      ∀ rel ∈ read_list list,
        (remove_package true name d).2.file (components rel) = d.file (components rel) := by
  have hd := consistent_run h hempty
  exact ⟨fun name list hrecorded rel hrel => (hd name list hrecorded rel hrel).there,
    fun name hc other list hother hne => remove_keeps_others hd hc hother hne⟩

/-- The installation of the signed package, and the file that it brings. -/
theorem the_signed_package_stays_consistent :
    ((Command.install testTools testTrust 7 allCopied (ascii "t.mtpkg") signedPackage).run
      oldDisk).1 = 0 ∧
    ∀ name list, Recorded ((Command.install testTools testTrust 7 allCopied (ascii "t.mtpkg")
      signedPackage).run oldDisk).2 name list → ∀ rel ∈ read_list list,
      (((Command.install testTools testTrust 7 allCopied (ascii "t.mtpkg")
        signedPackage).run oldDisk).2.file (components rel)).isSome = true := by
  obtain ⟨hv, hrels, hsource⟩ := signedPackage_unpacked oldDisk_under
  have hok : ((Command.install testTools testTrust 7 allCopied (ascii "t.mtpkg") signedPackage).run
      oldDisk).1 = 0 := by
    rw [Command.run, install_package_verified hv]
    decide +kernel
  have hempty : ∀ q, packages <+: q → oldDisk.file q = none :=
    fun q hq => (diskOf_new (by decide) (by decide) q hq).1
  have hallowed : Allowed oldDisk (.install testTools testTrust 7 allCopied (ascii "t.mtpkg")
      signedPackage) := by
    refine .install ⟨?_, ?_, ?_⟩ ?_ rfl <;> rw [hrels]
    · constructor <;> decide
    · decide
    · intro rel hrel
      rw [List.mem_singleton.mp hrel]
      exact hsource
    · intro rel hrel
      rw [List.mem_singleton.mp hrel]
      refine ⟨by decide, fun other hp => ?_⟩
      have husr : components (ascii "usr/x") = [ascii "usr", ascii "x"] := by decide
      rw [components_stage, husr, List.cons_prefix_cons] at hp
      exact absurd hp.1 (by decide)
  exact ⟨hok, (the_database_stays_consistent oldDisk _ hempty (.step .start hallowed hok)).1⟩

/-- The signed package under another name: the last member of a name is the one that counts. -/
def renamedPackage : Package :=
  { signedPackage with
    entries := signedPackage.entries ++ [member (ascii "META/NAME") ⟨ascii "u\n", by decide⟩] }

/-- The commands of two packages with one file: both installations, and the removal of the
first. -/
def firstInstalled : Nat × Disk :=
  (Command.install testTools testTrust 7 allCopied (ascii "t.mtpkg") signedPackage).run oldDisk

def bothInstalled : Nat × Disk :=
  (Command.install testTools testTrust 8 allCopied (ascii "t.mtpkg") renamedPackage).run
    firstInstalled.2

def firstRemoved : Nat × Disk := (Command.remove (ascii "t")).run bothInstalled.2

theorem a_shared_file_is_removed :
    (∀ q, packages <+: q → oldDisk.file q = none) ∧
    firstInstalled.1 = 0 ∧ bothInstalled.1 = 0 ∧ firstRemoved.1 = 0 ∧
    (bothInstalled.2.file (components (ascii "usr/x"))).isSome = true ∧
    ∃ list, Recorded firstRemoved.2 (ascii "u") list ∧ ascii "usr/x" ∈ read_list list ∧
      firstRemoved.2.file (components (ascii "usr/x")) = none := by
  have hrun : firstInstalled.1 = 0 ∧ bothInstalled.1 = 0 ∧ firstRemoved.1 = 0 ∧
      (bothInstalled.2.file (components (ascii "usr/x"))).isSome = true ∧
      (firstRemoved.2.plain (record_path (ascii "u"))).any (fun list =>
        decide (ascii "usr/x" ∈ read_list list)) = true ∧
      (firstRemoved.2.file (components (ascii "usr/x"))).isNone = true := by decide +kernel
  obtain ⟨hone, htwo, hthree, hthere, hlisted, hgone⟩ := hrun
  obtain ⟨list, hlist, hmem⟩ := (Option.any_eq_true _ _).mp hlisted
  exact ⟨fun q hq => (diskOf_new (by decide) (by decide) q hq).1,
    hone, htwo, hthree, hthere,
    list, ⟨by decide, hlist⟩, of_decide_eq_true hmem, Option.isNone_iff_eq_none.mp hgone⟩

end mantle.package
