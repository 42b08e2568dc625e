-- What a transaction does to the files alone: it lists paths and saves their
-- files, fills the targets, and may put everything back. The programs of
-- `Install` do this on a disk where no directory is in the way.
import MantleOS.Install

open bytes ctext

namespace mantle.package

/-- The path that a line of the manifest adds to the transaction, if the line is not refused. -/
def accepted (line : Bytes) : Option Bytes := (manifest_path line).filter (!critical_path ·)

/-- The paths of the lines before the first that is refused. -/
def reached : List Bytes → List Bytes
  | [] => []
  | line :: rest =>
    match accepted line with
    | none => []
    | some rel => rel :: reached rest

theorem mem_reached {lines : List Bytes} {rel : Bytes} (h : rel ∈ reached lines) :
    ∃ line ∈ lines, accepted line = some rel := by
  induction lines with
  | nil => cases h
  | cons line rest ih =>
    rw [reached] at h
    cases hacc : accepted line with
    | none => simp [hacc] at h
    | some r =>
      simp only [hacc, List.mem_cons] at h
      rcases h with rfl | h
      · exact ⟨line, List.mem_cons_self, hacc⟩
      · obtain ⟨l, hl, hr⟩ := ih h
        exact ⟨l, List.mem_cons_of_mem _ hl, hr⟩

section Files

variable (back : List Bytes → List Bytes)

/-- The first loop on the files alone: from the lines to the listed paths, and whether it
fails. `back` gives the place of a backup. -/
inductive Saves : (Nat → Outcome) → Tree → List Bytes → List Bytes → Bool → Tree → Prop
  | nil {copies : Nat → Outcome} {t : Tree} : Saves copies t [] [] false t
  | refused {copies : Nat → Outcome} {t : Tree} {line : Bytes} {rest : List Bytes}
      (h : accepted line = none) : Saves copies t (line :: rest) [] true t
  | fresh {copies : Nat → Outcome} {t t' : Tree} {line rel : Bytes} {rest rels : List Bytes}
      {failed : Bool} (h : accepted line = some rel) (hnew : t (components rel) = none)
      (hrest : Saves (later copies) t rest rels failed t') :
      Saves copies t (line :: rest) (rel :: rels) failed t'
  | saved {copies : Nat → Outcome} {t t' : Tree} {line rel : Bytes} {rest rels : List Bytes}
      {failed : Bool} {x : FileData} (h : accepted line = some rel)
      (hold : t (components rel) = some x) (hdone : (copies 0).isDone = true)
      (hrest : Saves (later copies) (Function.update t (back (components rel)) (some x)) rest rels
        failed t') :
      Saves copies t (line :: rest) (rel :: rels) failed t'
  | lost {copies : Nat → Outcome} {t : Tree} {line rel : Bytes} {rest : List Bytes} {x : FileData}
      (h : accepted line = some rel) (hold : t (components rel) = some x)
      (hfail : (copies 0).isDone = false) :
      Saves copies t (line :: rest) [rel] true
        (Function.update t (back (components rel)) ((copies 0).leaves x))

/-- Line by line, up to the first that is refused or whose copy fails: nothing stands at the
place of the backup of a file that is new, and the copy of a file that is there leaves all of
its content. -/
def BackupsExact (t : Tree) : (Nat → Outcome) → List Bytes → Prop
  | _, [] => True
  | copies, line :: rest =>
    match accepted line with
    | none => True
    | some rel =>
      match t (components rel) with
      | none => t (back (components rel)) = none ∧ BackupsExact t (later copies) rest
      | some x => (copies 0).leaves x = some x ∧
          ((copies 0).isDone = true → BackupsExact t (later copies) rest)

/-- The second loop on the files alone. -/
inductive Fills : Tree → List Bytes → Bool → Tree → Prop
  | nil {t : Tree} : Fills t [] false t
  | stop {t : Tree} {rel : Bytes} {rest : List Bytes} (got : Option FileData) :
      Fills t (rel :: rest) true (Function.update t (components rel) got)
  | next {t t' : Tree} {rel : Bytes} {rest : List Bytes} {failed : Bool} (x : FileData)
      (hrest : Fills (Function.update t (components rel) (some x)) rest failed t') :
      Fills t (rel :: rest) failed t'

/-- The loop of the rollback on the files alone: every listed path gets what stands at the
place of its backup. -/
def restore (t : Tree) : List Bytes → Tree
  | [] => t
  | rel :: rest => restore (Function.update t (components rel) (t (back (components rel)))) rest

variable {back}

/-! ## The first loop -/

theorem Saves.prefix_reached {copies : Nat → Outcome} {t t' : Tree} {lines rels : List Bytes}
    {failed : Bool} (h : Saves back copies t lines rels failed t') : rels <+: reached lines := by
  induction h with
  | nil => exact List.prefix_refl _
  | refused _ => exact List.nil_prefix
  | fresh hline _ _ ih =>
    simp only [reached, hline]
    exact List.cons_prefix_cons.mpr ⟨rfl, ih⟩
  | saved hline _ _ _ ih =>
    simp only [reached, hline]
    exact List.cons_prefix_cons.mpr ⟨rfl, ih⟩
  | lost hline _ _ =>
    simp only [reached, hline]
    exact List.cons_prefix_cons.mpr ⟨rfl, List.nil_prefix⟩

theorem Saves.listed {copies : Nat → Outcome} {t t' : Tree} {lines rels : List Bytes} {failed : Bool}
    (h : Saves back copies t lines rels failed t') :
    ∀ rel ∈ rels, ∃ line ∈ lines, accepted line = some rel :=
  fun _ hrel => mem_reached (h.prefix_reached.subset hrel)

/-- A loop that does not fail lists the path of every line. -/
theorem Saves.all_listed {copies : Nat → Outcome} {t t' : Tree} {lines rels : List Bytes}
    {failed : Bool} (h : Saves back copies t lines rels failed t') (hok : failed = false) :
    lines.map accepted = rels.map some := by
  induction h with
  | nil => rfl
  | refused _ => cases hok
  | fresh hline _ _ ih => rw [List.map_cons, List.map_cons, hline, ih hok]
  | saved hline _ _ _ ih => rw [List.map_cons, List.map_cons, hline, ih hok]
  | lost _ _ _ => cases hok

/-- No target is a place of a backup. -/
def OffBackups (back : List Bytes → List Bytes) (lines : List Bytes) : Prop :=
  ∀ line ∈ lines, ∀ rel, accepted line = some rel → ∀ c, back c ≠ components rel

theorem OffBackups.rest {line : Bytes} {lines : List Bytes} (h : OffBackups back (line :: lines)) :
    OffBackups back lines := fun l hl => h l (List.mem_cons_of_mem _ hl)

/-- A loop that loses no backup leaves no file less. -/
theorem Saves.keeps_files {copies : Nat → Outcome} {t t' : Tree} {lines rels : List Bytes}
    {failed : Bool} (h : Saves back copies t lines rels failed t')
    (hgood : failed = false ∨ ∀ n, (copies n).isDone = true) {q : List Bytes}
    (hq : (t q).isSome = true) : (t' q).isSome = true := by
  induction h with
  | nil => exact hq
  | refused _ => exact hq
  | fresh _ _ _ ih => exact ih (hgood.imp_right fun hdone n => hdone (n + 1)) hq
  | saved _ _ _ _ ih =>
    apply ih (hgood.imp_right fun hdone n => hdone (n + 1))
    rw [Function.update_apply]
    split
    · rfl
    · exact hq
  | lost _ _ hfail =>
    rcases hgood with h | hdone
    · cases h
    · exact absurd (hdone 0) (by simp [hfail])

/-- A loop whose copies all succeed lists every path that it reaches. -/
theorem Saves.all_reached {copies : Nat → Outcome} {t t' : Tree} {lines rels : List Bytes}
    {failed : Bool} (h : Saves back copies t lines rels failed t')
    (hdone : ∀ n, (copies n).isDone = true) : rels = reached lines := by
  induction h with
  | nil => rfl
  | refused hline => simp [reached, hline]
  | fresh hline _ _ ih => simp [reached, hline, ih fun n => hdone (n + 1)]
  | saved hline _ _ _ ih => simp [reached, hline, ih fun n => hdone (n + 1)]
  | lost _ _ hfail => exact absurd (hdone 0) (by simp [hfail])

/-- Then every target that is there has a backup. -/
theorem Saves.backed_up {copies : Nat → Outcome} {t t' : Tree} {lines rels : List Bytes}
    {failed : Bool} (h : Saves back copies t lines rels failed t')
    (hdone : ∀ n, (copies n).isDone = true) (hoff : OffBackups back lines) :
    ∀ rel ∈ rels, (t (components rel)).isSome = true → (t' (back (components rel))).isSome = true := by
  induction h with
  | nil => exact nofun
  | refused _ => exact nofun
  | fresh _ hnew _ ih =>
    rintro r (_ | ⟨_, hr⟩) hold
    · rw [hnew] at hold
      cases hold
    · exact ih (fun n => hdone (n + 1)) hoff.rest r hr hold
  | saved _ _ _ hrest ih =>
    rintro r (_ | ⟨_, hr⟩) hold
    · apply hrest.keeps_files (.inr fun n => hdone (n + 1))
      rw [Function.update_self]
      rfl
    · obtain ⟨line, hline, hacc⟩ := hrest.listed r hr
      apply ih (fun n => hdone (n + 1)) hoff.rest r hr
      rw [Function.update_of_ne (hoff.rest line hline r hacc _).symm]
      exact hold
  | lost _ _ hfail => exact absurd (hdone 0) (by simp [hfail])

theorem Saves.frame {copies : Nat → Outcome} {t t' : Tree} {lines rels : List Bytes} {failed : Bool}
    (h : Saves back copies t lines rels failed t') {q : List Bytes}
    (hq : ∀ rel ∈ rels, back (components rel) ≠ q) : t' q = t q := by
  induction h with
  | nil => rfl
  | refused _ => rfl
  | fresh _ _ _ ih => exact ih fun r hr => hq r (List.mem_cons_of_mem _ hr)
  | saved _ _ _ _ ih =>
    rw [ih fun r hr => hq r (List.mem_cons_of_mem _ hr),
      Function.update_of_ne (hq _ List.mem_cons_self).symm]
  | lost _ _ _ => rw [Function.update_of_ne (hq _ List.mem_cons_self).symm]

/-- The place of the backup of a file that is new is left alone. -/
theorem Saves.keeps_fresh {copies : Nat → Outcome} {t t' : Tree} {lines rels : List Bytes}
    {failed : Bool} (hback : Function.Injective back) (h : Saves back copies t lines rels failed t')
    {c : List Bytes} (hc : t c = none) (hoff : ∀ e, back e ≠ c) : t' (back c) = t (back c) := by
  have hother : ∀ (t : Tree) (e : List Bytes) (x : FileData), t c = none → t e = some x →
      back e ≠ back c := by
    intro t e x hc he heq
    rw [hback heq, hc] at he
    cases he
  induction h with
  | nil => rfl
  | refused _ => rfl
  | fresh _ _ _ ih => exact ih hc
  | @saved _ t _ _ rel _ _ _ x _ hold _ _ ih =>
    rw [ih (by rw [Function.update_of_ne (hoff _).symm, hc]),
      Function.update_of_ne (hother t _ x hc hold).symm]
  | @lost _ t _ rel _ x _ hold _ => rw [Function.update_of_ne (hother t _ x hc hold).symm]

/-- The condition is about the targets, and about the backups of those that are new. -/
theorem BackupsExact.congr {t t' : Tree} (copies : Nat → Outcome) {lines : List Bytes}
    (h : ∀ line ∈ lines, ∀ rel, accepted line = some rel →
      t' (components rel) = t (components rel) ∧
      (t (components rel) = none → t' (back (components rel)) = t (back (components rel)))) :
    BackupsExact back t' copies lines ↔ BackupsExact back t copies lines := by
  induction lines generalizing copies with
  | nil => rfl
  | cons line rest ih =>
    have hrest := ih (later copies) fun l hl => h l (List.mem_cons_of_mem _ hl)
    simp only [BackupsExact]
    cases hacc : accepted line with
    | none => rfl
    | some rel =>
      obtain ⟨htarget, hbackup⟩ := h line List.mem_cons_self rel hacc
      simp only [htarget, hrest]
      cases hrel : t (components rel) with
      | none => simp only [hbackup hrel]
      | some x => rfl

/-- A backup does not change what the other lines need. -/
theorem BackupsExact.update (hback : Function.Injective back) {t : Tree} {c : List Bytes}
    {x : FileData} (hc : t c = some x) (y : Option FileData) (copies : Nat → Outcome)
    {lines : List Bytes} (hoff : OffBackups back lines) :
    BackupsExact back (Function.update t (back c) y) copies lines ↔
      BackupsExact back t copies lines := by
  apply BackupsExact.congr
  intro line hline rel hacc
  refine ⟨Function.update_of_ne (hoff line hline rel hacc c).symm _ _, fun hnew => ?_⟩
  apply Function.update_of_ne
  intro heq
  rw [hback heq, hc] at hnew
  cases hnew

/-- A loop that does not fail makes exact backups, where nothing stood at the places of those
that are new. -/
theorem Saves.exact {copies : Nat → Outcome} {t t' : Tree} {lines rels : List Bytes}
    {failed : Bool} (hback : Function.Injective back) (h : Saves back copies t lines rels failed t')
    (hok : failed = false) (hoff : OffBackups back lines)
    (hnew : ∀ c, t c = none → t (back c) = none) : BackupsExact back t copies lines := by
  induction h with
  | nil => trivial
  | refused _ => cases hok
  | fresh hline hnone _ ih =>
    simp only [BackupsExact, hline, hnone]
    exact ⟨hnew _ hnone, ih hok hoff.rest hnew⟩
  | @saved _ t _ _ rel _ _ _ x hline hold hdone _ ih =>
    simp only [BackupsExact, hline, hold]
    refine ⟨Outcome.leaves_of_isDone hdone x, fun _ => ?_⟩
    rw [← BackupsExact.update hback hold (some x) _ hoff.rest]
    apply ih hok hoff.rest
    intro c hc
    have hfree : back c ≠ back (components rel) := by
      intro heq
      rw [hback heq, Function.update_apply, if_neg (hoff _ List.mem_cons_self rel hline _).symm,
        hold] at hc
      cases hc
    rw [Function.update_of_ne hfree]
    apply hnew
    rw [Function.update_apply] at hc
    split at hc
    · cases hc
    · exact hc
  | lost _ _ _ => cases hok

/-- After the first loop the backups hold what the targets hold, exactly when the condition on
its lines and copies is met. -/
theorem Saves.exact_iff {copies : Nat → Outcome} {t t' : Tree} {lines rels : List Bytes}
    {failed : Bool} (hback : Function.Injective back) (h : Saves back copies t lines rels failed t')
    (hoff : OffBackups back lines) :
    (∀ rel ∈ rels, t' (back (components rel)) = t (components rel)) ↔
      BackupsExact back t copies lines := by
  induction h with
  | nil => simp [BackupsExact]
  | refused hline => simp [BackupsExact, hline]
  | @fresh _ t t' line rel _ rels _ hline hnew hrest ih =>
    have hkept : t' (back (components rel)) = t (back (components rel)) :=
      hrest.keeps_fresh hback hnew (hoff line List.mem_cons_self rel hline)
    simp only [BackupsExact, hline, hnew, List.forall_mem_cons, hkept, ih hoff.rest]
  | @saved copies t t' line rel rest rels _ x hline hold hdone hrest ih =>
    have hleaves := Outcome.leaves_of_isDone hdone x
    have htargets : ∀ r ∈ rels,
        Function.update t (back (components rel)) (some x) (components r) = t (components r) := by
      intro r hr
      obtain ⟨l, hl, hacc⟩ := hrest.listed r hr
      exact Function.update_of_ne (hoff.rest l hl r hacc _).symm _ _
    have ih' : (∀ r ∈ rels, t' (back (components r)) = t (components r)) ↔
        BackupsExact back t (later copies) rest := by
      rw [← BackupsExact.update hback hold (some x) _ hoff.rest, ← ih hoff.rest]
      exact forall₂_congr fun r hr => by rw [htargets r hr]
    simp only [BackupsExact, hline, hold, hleaves, hdone, true_and, forall_const,
      List.forall_mem_cons, ih', and_iff_right_iff_imp]
    intro hexact
    -- the backup stands, or a later line of the same path has replaced it by its like
    by_cases hagain : ∃ r ∈ rels, components r = components rel
    · obtain ⟨r, hr, heq⟩ := hagain
      rw [← hold, ← heq]
      exact ih'.mpr hexact r hr
    · rw [hrest.frame fun r hr heq => hagain ⟨r, hr, hback heq⟩, Function.update_self]
  | @lost copies t _ rel _ x hline hold hfail =>
    simp [BackupsExact, hline, hold, hfail]

/-! ## The second loop -/

theorem Fills.frame {t t' : Tree} {rels : List Bytes} {failed : Bool} (h : Fills t rels failed t')
    {q : List Bytes} (hq : ∀ rel ∈ rels, components rel ≠ q) : t' q = t q := by
  induction h with
  | nil => rfl
  | stop got => rw [Function.update_of_ne (hq _ List.mem_cons_self).symm]
  | next x _ ih =>
    rw [ih fun r hr => hq r (List.mem_cons_of_mem _ hr),
      Function.update_of_ne (hq _ List.mem_cons_self).symm]

/-- A loop that does not fail leaves a file at every target. -/
theorem Fills.isSome {t t' : Tree} {rels : List Bytes} {failed : Bool} (h : Fills t rels failed t')
    (hok : failed = false) : ∀ rel ∈ rels, (t' (components rel)).isSome = true := by
  induction h with
  | nil => exact nofun
  | stop got => cases hok
  | @next t t' rel rest _ x hrest ih =>
    rintro r (_ | ⟨_, hr⟩)
    · by_cases hagain : ∃ r ∈ rest, components r = components rel
      · obtain ⟨r, hr, heq⟩ := hagain
        rw [← heq]
        exact ih hok r hr
      · rw [hrest.frame fun r hr heq => hagain ⟨r, hr, heq⟩, Function.update_self]
        rfl
    · exact ih hok r hr

/-! ## The rollback -/

theorem restore_frame (t : Tree) {rels : List Bytes} {q : List Bytes}
    (hq : ∀ rel ∈ rels, components rel ≠ q) : restore back t rels q = t q := by
  induction rels generalizing t with
  | nil => rfl
  | cons rel rest ih =>
    rw [restore, ih _ fun r hr => hq r (List.mem_cons_of_mem _ hr),
      Function.update_of_ne (hq rel List.mem_cons_self).symm]

theorem restore_listed (t : Tree) {rels : List Bytes}
    (hoff : ∀ rel ∈ rels, ∀ c, back c ≠ components rel) :
    ∀ rel ∈ rels, restore back t rels (components rel) = t (back (components rel)) := by
  induction rels generalizing t with
  | nil => exact nofun
  | cons rel rest ih =>
    have hrest : ∀ r ∈ rest, restore back t (rel :: rest) (components r) = t (back (components r)) := by
      intro r hr
      rw [restore, ih _ (fun r hr => hoff r (List.mem_cons_of_mem _ hr)) r hr,
        Function.update_of_ne (hoff rel List.mem_cons_self _)]
    rintro r (_ | ⟨_, hr⟩)
    · by_cases hagain : ∃ r ∈ rest, components r = components rel
      · obtain ⟨r, hr, heq⟩ := hagain
        rw [← heq]
        exact hrest r hr
      · rw [restore, restore_frame _ fun r hr heq => hagain ⟨r, hr, heq⟩, Function.update_self]
    · exact hrest r hr

end Files

/-! ## The paths of an ordinary transaction -/

/-- The place of a backup below the directory of the transaction. -/
def backupOf (tx : Bytes) (c : List Bytes) : List Bytes := components tx ++ ascii "backup" :: c

/-- The components of the list of the transaction. -/
def listOf (tx : Bytes) : List Bytes := components tx ++ [ascii "files"]

/-- The staging directory and that of the transaction have nothing in common. -/
structure Roots (tx stage : Bytes) : Prop where
  split : ∀ q, components stage <+: q → ¬ components tx <+: q
  stage_short : stage.length + 20 < MAX_PATH
  tx_short : tx.length + 20 < MAX_PATH

/-- Paths that a transaction can carry out as it means them: each ends in the name of a file and
lies neither in the two directories nor above that of the transaction, and none is a directory
on the way to another. The backups of `backs` fit their buffers. -/
structure Apart (tx stage : Bytes) (rels backs : List Bytes) : Prop where
  named : ∀ rel ∈ rels, names_file rel = true
  short : ∀ rel ∈ rels, rel.length + 1 < MAX_PATH
  not_in_tx : ∀ rel ∈ rels, ¬ components tx <+: components rel
  not_above_tx : ∀ rel ∈ rels, ¬ components rel <+: components tx
  not_in_stage : ∀ rel ∈ rels, ¬ components stage <+: components rel
  free : ∀ rel ∈ rels, ∀ other ∈ rels, components rel <+: components other →
    components rel = components other
  sub : ∀ rel ∈ backs, rel ∈ rels
  fits : ∀ rel ∈ backs, (tx ++ ascii "/backup/" ++ rel).length < MAX_PATH

/-- The paths where the transaction reads and writes files. -/
inductive Guarded (tx stage : Bytes) (rels backs : List Bytes) : List Bytes → Prop
  | target {rel : Bytes} (h : rel ∈ rels) : Guarded tx stage rels backs (components rel)
  | source {rel : Bytes} (h : rel ∈ rels) :
      Guarded tx stage rels backs (components (source_path stage rel))
  | list : Guarded tx stage rels backs (listOf tx)
  | backup {rel : Bytes} (h : rel ∈ backs) :
      Guarded tx stage rels backs (backupOf tx (components rel))

/-- No directory stands where the transaction has a file, and no file on the way to a backup. -/
structure Clear (tx stage : Bytes) (rels backs : List Bytes) (d : Disk) : Prop where
  no_dir : ∀ c, Guarded tx stage rels backs c → d.dir c = false
  room : ∀ rel ∈ backs, ∀ q, q <+: backupOf tx (components rel).dropLast → d.file q = none

section Ordinary

variable {tx stage : Bytes} {rels backs : List Bytes}

theorem backupOf_injective (tx : Bytes) : Function.Injective (backupOf tx) := by
  intro a b h
  simpa [backupOf] using h

theorem prefix_listOf (tx : Bytes) : components tx <+: listOf tx := List.prefix_append _ _

theorem backupOf_ne_listOf (tx : Bytes) (c : List Bytes) : backupOf tx c ≠ listOf tx := by
  intro h
  rw [backupOf, listOf, List.append_cancel_left_eq, List.cons.injEq] at h
  exact absurd h.1 (by decide)

theorem prefix_backupOf (tx : Bytes) (c : List Bytes) : components tx <+: backupOf tx c :=
  List.prefix_append _ _

theorem components_target {rel : Bytes} (h : rel.length + 1 < MAX_PATH) :
    components (target_path rel) = components rel := by
  rw [target_path, path_buf_of_lt (by simpa using h)]
  exact components_append [] rel

theorem names_file_target {rel : Bytes} (h : rel.length + 1 < MAX_PATH) :
    names_file (target_path rel) = names_file rel := by
  rw [target_path, path_buf_of_lt (by simpa using h)]
  exact names_file_append [] rel

/-- The components of a target are those of its directory and its name. -/
theorem components_target_parent {rel : Bytes} (h : rel.length + 1 < MAX_PATH)
    (hn : names_file rel = true) :
    components rel = components (parent (target_path rel)) ++ [last_part (target_path rel)] := by
  have hslash : 47 ∈ target_path rel := by
    rw [target_path, path_buf_of_lt (by simpa using h)]
    exact List.mem_cons_self
  rw [← components_target h]
  exact components_of_names_file hslash ((names_file_target h).trans hn)

namespace Apart

variable (ap : Apart tx stage rels backs) {rel : Bytes}

include ap

section Target

variable (hrel : rel ∈ rels)

include hrel

theorem components_parent :
    components (parent (target_path rel)) = (components rel).dropLast := by
  rw [components_target_parent (ap.short rel hrel) (ap.named rel hrel), List.dropLast_concat]

/-- A copy of the target inside of a directory has its name. -/
theorem components_base_name : (components rel).dropLast ++
    components (base_name (target_path rel)) = components rel := by
  have hn : names_file (target_path rel) = true :=
    (names_file_target (ap.short rel hrel)).trans (ap.named rel hrel)
  have hname := hn
  simp only [names_file, Bool.and_eq_true, decide_eq_true_eq] at hname
  rw [base_name_of_names_file hn, components_name (notMem_last_part _) hname.1 hname.2]
  conv => rhs; rw [components_target_parent (ap.short rel hrel) (ap.named rel hrel)]
  rw [components_target_parent (ap.short rel hrel) (ap.named rel hrel), List.dropLast_concat]

theorem backup_ne_target (c : List Bytes) : backupOf tx c ≠ components rel := by
  intro h
  exact ap.not_in_tx rel hrel (h ▸ prefix_backupOf tx c)

theorem not_prefix_dropLast {other : Bytes} (hother : other ∈ rels) :
    ¬ components other <+: (components rel).dropLast := by
  intro hp
  have heq := ap.free other hother rel hrel (hp.trans (List.dropLast_prefix _))
  have hlen := hp.length_le
  rw [heq, components_target_parent (ap.short rel hrel) (ap.named rel hrel), List.dropLast_concat,
    List.length_append, List.length_singleton] at hlen
  omega

end Target

section Backup

variable (hback : rel ∈ backs)

include hback

theorem backup_eq : backup_path tx rel = tx ++ 47 :: (ascii "backup" ++ 47 :: rel) := by
  rw [backup_path, path_buf_of_lt (ap.fits rel hback)]
  have : ascii "/backup/" = 47 :: ascii "backup" ++ [47] := by decide
  simp [this]

theorem components_backup : components (backup_path tx rel) = backupOf tx (components rel) := by
  have hname : components (ascii "backup") = [ascii "backup"] := by decide
  rw [ap.backup_eq hback, components_append, components_append, hname]
  rfl

theorem names_file_backup : names_file (backup_path tx rel) = true := by
  rw [ap.backup_eq hback, names_file_append, names_file_append]
  exact ap.named rel (ap.sub rel hback)

/-- The directory that `install_package` makes for a backup. -/
theorem components_backup_parent :
    components (parent (backup_path tx rel)) = backupOf tx (components rel).dropLast := by
  have hslash : 47 ∈ backup_path tx rel := by
    rw [ap.backup_eq hback]
    simp
  have hrel := ap.sub rel hback
  have hb := components_of_names_file hslash (ap.names_file_backup hback)
  have ht := components_target_parent (ap.short rel hrel) (ap.named rel hrel)
  rw [ap.components_backup hback] at hb
  have hlast := congrArg List.dropLast hb
  rw [List.dropLast_concat] at hlast
  rw [← hlast, backupOf, backupOf, ht, List.dropLast_concat, ← List.cons_append,
    ← List.append_assoc, List.dropLast_concat]

end Backup

end Apart

theorem components_source (hr : Roots tx stage) (rel : Bytes) :
    components stage <+: components (source_path stage rel) := by
  have hpayload : ascii "/payload/" = 47 :: ascii "payload/" := by decide
  rw [source_path, hpayload, List.append_assoc, List.cons_append]
  exact components_path_buf _ (Nat.lt_of_le_of_lt (by omega) hr.stage_short)

/-- No directory that the first loop makes is the path of a file. -/
theorem Guarded.not_prefix_backup (hr : Roots tx stage) (ap : Apart tx stage rels backs)
    {rel : Bytes} (hback : rel ∈ backs) {c : List Bytes} (hc : Guarded tx stage rels backs c) :
    ¬ c <+: backupOf tx (components rel).dropLast := by
  intro hp
  have htx := prefix_backupOf tx (components rel).dropLast
  cases hc with
  | target h =>
    rcases List.prefix_or_prefix_of_prefix hp htx with h1 | h1
    · exact ap.not_above_tx _ h h1
    · exact ap.not_in_tx _ h h1
  | @backup other h =>
    rw [backupOf, backupOf, List.prefix_append_right_inj, List.cons_prefix_cons] at hp
    exact ap.not_prefix_dropLast (ap.sub rel hback) (ap.sub other h) hp.2
  | @source other h => exact hr.split _ ((components_source hr other).trans hp) htx
  | list =>
    rw [listOf, backupOf, List.prefix_append_right_inj, List.cons_prefix_cons] at hp
    exact absurd hp.1 (by decide)

/-- No directory that the second loop makes is the path of a file. -/
theorem Guarded.not_prefix_target (hr : Roots tx stage) (ap : Apart tx stage rels backs)
    {rel : Bytes} (hrel : rel ∈ rels) {c : List Bytes} (hc : Guarded tx stage rels backs c) :
    ¬ c <+: (components rel).dropLast := by
  intro hp
  have hup : c <+: components rel := hp.trans (List.dropLast_prefix _)
  cases hc with
  | target h => exact ap.not_prefix_dropLast hrel h hp
  | backup h => exact ap.not_in_tx rel hrel ((prefix_backupOf tx _).trans hup)
  | @source other h => exact ap.not_in_stage rel hrel ((components_source hr other).trans hup)
  | list => exact ap.not_in_tx rel hrel ((List.prefix_append _ _).trans hup)

/-- Without the backups, nothing where a file is meant to be is on the way to one. -/
theorem Guarded.not_prefix_below (ap : Apart tx stage rels []) (hr : Roots tx stage)
    {c q : List Bytes} (hc : Guarded tx stage rels [] c) (hq : backupOf tx [] <+: q) :
    ¬ c <+: q := by
  intro hp
  have htx : components tx <+: q := (prefix_backupOf tx []).trans hq
  cases hc with
  | @target rel h =>
    rcases List.prefix_or_prefix_of_prefix hp htx with h1 | h1
    · exact ap.not_above_tx rel h h1
    · exact ap.not_in_tx rel h h1
  | @source rel h => exact hr.split _ ((components_source hr rel).trans hp) htx
  | list =>
    have hlen : (backupOf tx []).length = (listOf tx).length := by simp [backupOf, listOf]
    exact backupOf_ne_listOf tx [] (List.prefix_of_prefix_length_le hq hp hlen.le |>.eq_of_length hlen)
  | backup h => cases h

/-- Whatever is cut from its path, a backup goes below the directory for them. -/
theorem prefix_backup_parent (hr : Roots tx stage) (rel : Bytes) :
    backupOf tx [] <+: components (parent (backup_path tx rel)) := by
  have hroot : components (tx ++ ascii "/backup") = backupOf tx [] := by
    have hconst : ascii "/backup" = 47 :: ascii "backup" := by decide
    have hname : components (ascii "backup") = [ascii "backup"] := by decide
    rw [hconst, components_append, hname]
    rfl
  have hsplit : tx ++ ascii "/backup/" ++ rel = tx ++ ascii "/backup" ++ 47 :: rel := by
    have : ascii "/backup/" = ascii "/backup" ++ [47] := by decide
    simp [this]
  have hfit : (tx ++ ascii "/backup").length + 1 < MAX_PATH := by
    have hlen := hr.tx_short
    have : (ascii "/backup").length = 7 := by decide
    rw [List.length_append]
    omega
  rw [backup_path, hsplit, path_buf_append rel hfit, ← hroot]
  exact package.components_parent _ _

theorem Clear.mkdir_p {d : Disk} (hc : Clear tx stage rels backs d) {path : Bytes}
    (hp : ∀ c, Guarded tx stage rels backs c → ¬ c <+: components path) :
    Clear tx stage rels backs (d.mkdir_p path) where
  no_dir c h := by rw [d.mkdir_p_dir_of_not_prefix (hp c h), hc.no_dir c h]
  room := hc.room

theorem Clear.update (hr : Roots tx stage) (ap : Apart tx stage rels backs) {d e : Disk}
    (hc : Clear tx stage rels backs d) {c : List Bytes} (hg : Guarded tx stage rels backs c)
    {y : Option FileData} (hdir : e.dir = d.dir) (hfile : e.file = Function.update d.file c y) :
    Clear tx stage rels backs e where
  no_dir q h := by rw [hdir, hc.no_dir q h]
  room rel hrel q hq := by
    have hne : q ≠ c := fun h => hg.not_prefix_backup hr ap hrel (h ▸ hq)
    rw [hfile, Function.update_of_ne hne, hc.room rel hrel q hq]

theorem Clear.write (hr : Roots tx stage) (ap : Apart tx stage rels backs) {d : Disk}
    (hc : Clear tx stage rels backs d) {c : List Bytes} (hg : Guarded tx stage rels backs c) (text : Bytes) :
    Clear tx stage rels backs (d.write c text) := by
  have hdir : (d.write c text).dir = d.dir := rfl
  exact hc.update hr ap hg hdir (d.write_file c text)

/-! ## The loops on such paths -/

theorem accepted_eq_some {line rel : Bytes} :
    accepted line = some rel ↔ manifest_path line = some rel ∧ critical_path rel = false := by
  simp [accepted, Option.filter_eq_some_iff]

theorem back_up_refused (copies : Nat → Outcome) (d : Disk) {line : Bytes} (rest : List Bytes)
    (h : accepted line = none) : back_up tx copies d (line :: rest) = ([], true, d) := by
  rw [back_up]
  cases hpath : manifest_path line with
  | none => rfl
  | some rel =>
    have hcrit : critical_path rel = true := by
      by_contra hn
      rw [accepted_eq_some.mpr ⟨hpath, by simpa using hn⟩] at h
      cases h
    simp only [hcrit, if_true]

/-- A line that is not refused, with the copy of its target written once. -/
theorem back_up_accepted (copies : Nat → Outcome) (d : Disk) {line rel : Bytes} (rest : List Bytes)
    (h : accepted line = some rel) :
    back_up tx copies d (line :: rest) =
      let made := d.mkdir_p (parent (backup_path tx rel))
      let copy := made.copy_path (target_path rel) (parent (backup_path tx rel)) (copies 0)
      if made.access (target_path rel) then
        if copy.1 then
          (rel :: (back_up tx (later copies) copy.2 rest).1, (back_up tx (later copies) copy.2 rest).2)
        else ([rel], true, copy.2)
      else (rel :: (back_up tx (later copies) made rest).1, (back_up tx (later copies) made rest).2) := by
  obtain ⟨hpath, hcrit⟩ := accepted_eq_some.mp h
  rw [back_up, hpath]
  simp only [hcrit, Bool.false_eq_true, if_false]

section Steps

variable (hr : Roots tx stage) (ap : Apart tx stage rels backs) {d : Disk}
  (hc : Clear tx stage rels backs d) {rel : Bytes}

section Target

variable (hrel : rel ∈ rels)

include ap hrel

theorem plain_target (d : Disk) : d.plain (target_path rel) = d.file (components rel) := by
  rw [Disk.plain, names_file_target (ap.short rel hrel), ap.named rel hrel, if_pos rfl,
    components_target (ap.short rel hrel)]

include hc

theorem access_target : d.access (target_path rel) = (d.file (components rel)).isSome := by
  rw [Disk.access, plain_target ap hrel, components_target (ap.short rel hrel),
    hc.no_dir _ (.target hrel), Bool.or_false]

include hr

/-- The copy of a new file touches its target alone. -/
theorem fill_target (o : Outcome) :
    let copy := (d.mkdir_p (parent (target_path rel))).copy_path (source_path stage rel)
      (target_path rel) o
    Clear tx stage rels backs copy.2 ∧
      ∃ got, copy.2.file = Function.update d.file (components rel) got ∧
        (copy.1 = true → got.isSome = true) := by
  have hmade : Clear tx stage rels backs (d.mkdir_p (parent (target_path rel))) := by
    apply hc.mkdir_p
    intro c hg
    rw [ap.components_parent hrel]
    exact hg.not_prefix_target hr ap hrel
  obtain ⟨got, hfile, hdir, hsome⟩ :=
    Disk.copy_path_frame (hmade.no_dir _ (.source hrel)) (target_path rel) o
  have hplace : (d.mkdir_p (parent (target_path rel))).place (source_path stage rel)
      (target_path rel) = components rel := by
    rw [Disk.place, components_target (ap.short rel hrel), hmade.no_dir _ (.target hrel)]
    rfl
  rw [hplace] at hfile
  exact ⟨hmade.update hr ap (.target hrel) hdir hfile, got, hfile, hsome⟩

end Target

section Backup

variable (hback : rel ∈ backs)

include ap hback

theorem plain_backup (d : Disk) :
    d.plain (backup_path tx rel) = d.file (backupOf tx (components rel)) := by
  rw [Disk.plain, ap.names_file_backup hback, if_pos rfl, ap.components_backup hback]

include hc

theorem access_backup : d.access (backup_path tx rel) = (d.file (backupOf tx (components rel))).isSome := by
  rw [Disk.access, plain_backup ap hback, ap.components_backup hback,
    hc.no_dir _ (.backup hback), Bool.or_false]

include hr

/-- The directory for a backup keeps the disk clear. -/
theorem clear_made : Clear tx stage rels backs (d.mkdir_p (parent (backup_path tx rel))) := by
  apply hc.mkdir_p
  intro c hg
  rw [ap.components_backup_parent hback]
  exact hg.not_prefix_backup hr ap hback

/-- A target that is there is copied to the place of its backup. -/
theorem save_target {x : FileData} (hx : d.file (components rel) = some x) (o : Outcome) :
    let copy := (d.mkdir_p (parent (backup_path tx rel))).copy_path (target_path rel)
      (parent (backup_path tx rel)) o
    copy.1 = o.isDone ∧
      copy.2.file = Function.update d.file (backupOf tx (components rel)) (o.leaves x) ∧
      Clear tx stage rels backs copy.2 := by
  have hrel := ap.sub rel hback
  have hmade := clear_made hr ap hc hback
  have hdest := ap.components_backup_parent hback
  have hdir : (d.mkdir_p (parent (backup_path tx rel))).dir (components (parent (backup_path tx rel))) =
      true := by
    apply Disk.mkdir_p_dir (List.prefix_refl _)
    rw [hdest]
    exact hc.room rel hback
  have hplace : (d.mkdir_p (parent (backup_path tx rel))).place (target_path rel)
      (parent (backup_path tx rel)) = backupOf tx (components rel) := by
    rw [Disk.place, if_pos hdir, hdest, backupOf, List.append_assoc, List.cons_append,
      ap.components_base_name hrel]
    rfl
  have hsrc := components_target (ap.short rel hrel)
  have hself : ¬ components rel <+: backupOf tx (components rel) := by
    intro hp
    rcases List.prefix_or_prefix_of_prefix hp (prefix_backupOf tx _) with h1 | h1
    · exact ap.not_above_tx rel hrel h1
    · exact ap.not_in_tx rel hrel h1
  have hplain : (d.mkdir_p (parent (backup_path tx rel))).plain (target_path rel) = some x := by
    rw [plain_target ap hrel]
    exact hx
  have hnodir : (d.mkdir_p (parent (backup_path tx rel))).dir (components (target_path rel)) = false := by
    rw [hsrc]
    exact hmade.no_dir _ (.target hrel)
  have hcan : (d.mkdir_p (parent (backup_path tx rel))).can_copy (target_path rel)
      (parent (backup_path tx rel)) = true := by
    simp [Disk.can_copy, hplace, hself, hsrc, hmade.no_dir _ (.target hrel), hplain, hdir,
      hmade.no_dir _ (.backup hback)]
  obtain ⟨hok, hfile, hsame⟩ := Disk.copy_path_plain hnodir hplain hcan o
  rw [hplace] at hfile
  exact ⟨hok, hfile, hmade.update hr ap (.backup hback) hsame hfile⟩

/-- One turn of the rollback, with a copy that succeeds. -/
theorem restore_target (hsafe : safe_rel rel false = true) (copies : Nat → Outcome)
    (hdone : copies 0 = .done) (rest : List Bytes) :
    ∃ e, Clear tx stage rels backs e ∧
      e.file = Function.update d.file (components rel) (d.file (backupOf tx (components rel))) ∧
      ((d.file (backupOf tx (components rel))).isSome = true → e.written (components rel) = true) ∧
      (rollback_loop tx copies d (rel :: rest)).2 = (rollback_loop tx (later copies) e rest).2 := by
  have hrel := ap.sub rel hback
  have htarget := components_target (ap.short rel hrel)
  have hnamed : names_file (target_path rel) = true :=
    (names_file_target (ap.short rel hrel)).trans (ap.named rel hrel)
  have hfree : (d.unlink (target_path rel)).2.file = Function.update d.file (components rel) none := by
    rw [d.unlink_file hnamed, htarget]
  have hcleared := hc.update hr ap (.target hrel) (d.unlink_dir (target_path rel)) hfree
  simp only [rollback_loop, hsafe, Bool.not_true, Bool.false_eq_true, if_false,
    access_backup ap hc hback, hdone]
  cases hold : d.file (backupOf tx (components rel)) with
  | none => exact ⟨_, hcleared, hfree, nofun, by simp⟩
  | some y =>
    have hplain : (d.unlink (target_path rel)).2.plain (backup_path tx rel) = some y := by
      rw [plain_backup ap hback, hfree, Function.update_of_ne (ap.backup_ne_target hrel _), hold]
    have hnodir : (d.unlink (target_path rel)).2.dir (components (backup_path tx rel)) = false := by
      rw [ap.components_backup hback]
      exact hcleared.no_dir _ (.backup hback)
    have hplace : (d.unlink (target_path rel)).2.place (backup_path tx rel) (target_path rel) =
        components rel := by
      rw [Disk.place, htarget, hcleared.no_dir _ (.target hrel)]
      rfl
    have hself : ¬ backupOf tx (components rel) <+: components rel :=
      fun hp => ap.not_in_tx rel hrel ((prefix_backupOf tx _).trans hp)
    have hcan : (d.unlink (target_path rel)).2.can_copy (backup_path tx rel) (target_path rel) =
        true := by
      simp [Disk.can_copy, hplace, hself, ap.components_backup hback,
        hcleared.no_dir _ (.backup hback), hcleared.no_dir _ (.target hrel), hplain, hnamed]
    obtain ⟨-, hfile, hdir⟩ := Disk.copy_path_plain hnodir hplain hcan .done
    have hmark := Disk.copy_path_written hnodir hplain hcan
    rw [hplace] at hfile hmark
    have hclear := hcleared.update hr ap (.target hrel) hdir hfile
    rw [hfree, Function.update_idem] at hfile
    exact ⟨_, hclear, hfile, fun _ => hmark, by simp⟩

end Backup

end Steps

/-- The first loop of `install_package` is the one on the files alone. -/
theorem back_up_saves (hr : Roots tx stage) (ap : Apart tx stage rels backs) {d : Disk}
    (hc : Clear tx stage rels backs d) (copies : Nat → Outcome) {lines : List Bytes}
    (hlines : ∀ line ∈ lines, ∀ rel, accepted line = some rel → rel ∈ backs) :
    Saves (backupOf tx) copies d.file lines (back_up tx copies d lines).1
        (back_up tx copies d lines).2.1 (back_up tx copies d lines).2.2.file ∧
      Clear tx stage rels backs (back_up tx copies d lines).2.2 := by
  induction lines generalizing d copies with
  | nil => exact ⟨.nil, hc⟩
  | cons line rest ih =>
    have hrest : ∀ l ∈ rest, ∀ rel, accepted l = some rel → rel ∈ backs :=
      fun l hl => hlines l (List.mem_cons_of_mem _ hl)
    cases hacc : accepted line with
    | none =>
      rw [back_up_refused copies d rest hacc]
      exact ⟨.refused hacc, hc⟩
    | some rel =>
      have hback := hlines line List.mem_cons_self rel hacc
      have hmade := clear_made hr ap hc hback
      rw [back_up_accepted copies d rest hacc]
      simp only [access_target ap hmade (ap.sub rel hback)]
      cases hold : d.file (components rel) with
      | none =>
        obtain ⟨hsaves, hclear⟩ := ih hmade (later copies) hrest
        rw [if_neg (by simpa [Disk.mkdir_p] using hold)]
        exact ⟨.fresh hacc hold hsaves, hclear⟩
      | some x =>
        obtain ⟨hok, hfile, hclear⟩ := save_target hr ap hc hback hold (copies 0)
        rw [if_pos (by simp [Disk.mkdir_p, hold]), hok]
        cases hdone : (copies 0).isDone with
        | true =>
          rw [Outcome.leaves_of_isDone hdone] at hfile
          obtain ⟨hsaves, hclear'⟩ := ih hclear (later copies) hrest
          rw [hfile] at hsaves
          exact ⟨.saved hacc hold hdone hsaves, hclear'⟩
        | false =>
          refine ⟨?_, hclear⟩
          simp only [Bool.false_eq_true, if_false]
          rw [hfile]
          exact .lost hacc hold hdone

theorem clear_of_no_dir {d : Disk}
    (h : ∀ c, Guarded tx stage rels [] c → d.dir c = false) : Clear tx stage rels [] d where
  no_dir := h
  room _ hrel := absurd hrel List.not_mem_nil

/-- Without the backups: one turn of the first loop changes one file at most, below the
directory for the backups. -/
theorem save_below (hr : Roots tx stage) (ap : Apart tx stage rels []) {d : Disk}
    (hc : Clear tx stage rels [] d) {rel : Bytes} (hrel : rel ∈ rels) (o : Outcome) :
    let copy := (d.mkdir_p (parent (backup_path tx rel))).copy_path (target_path rel)
      (parent (backup_path tx rel)) o
    Clear tx stage rels [] (d.mkdir_p (parent (backup_path tx rel))) ∧ Clear tx stage rels [] copy.2 ∧
      ∃ c got, backupOf tx [] <+: c ∧ copy.2.file = Function.update d.file c got ∧
        (copy.1 = true → got.isSome = true) := by
  have hbelow := prefix_backup_parent hr rel
  have hmade : Clear tx stage rels [] (d.mkdir_p (parent (backup_path tx rel))) :=
    hc.mkdir_p fun c hg => hg.not_prefix_below ap hr hbelow
  have hnodir : (d.mkdir_p (parent (backup_path tx rel))).dir (components (target_path rel)) = false := by
    rw [components_target (ap.short rel hrel)]
    exact hmade.no_dir _ (.target hrel)
  obtain ⟨got, hfile, hdir, hsome⟩ := Disk.copy_path_frame hnodir (parent (backup_path tx rel)) o
  refine ⟨hmade, clear_of_no_dir fun c hg => by rw [hdir, hmade.no_dir c hg], _, got, ?_, hfile, hsome⟩
  rw [Disk.place]
  split
  · exact hbelow.trans (List.prefix_append _ _)
  · exact hbelow

/-- Without the backups: a first loop that does not fail lists the path of every line, changes
nothing outside of the directory for the backups, and leaves no file less. -/
theorem back_up_below (hr : Roots tx stage) (ap : Apart tx stage rels []) {d : Disk}
    (hc : Clear tx stage rels [] d) (copies : Nat → Outcome) {lines : List Bytes}
    (hlines : ∀ line ∈ lines, ∀ rel, accepted line = some rel → rel ∈ rels)
    (hok : (back_up tx copies d lines).2.1 = false) :
    lines.map accepted = (back_up tx copies d lines).1.map some ∧
      Clear tx stage rels [] (back_up tx copies d lines).2.2 ∧
      (∀ q, ¬ backupOf tx [] <+: q → (back_up tx copies d lines).2.2.file q = d.file q) ∧
      ∀ q, (d.file q).isSome = true → ((back_up tx copies d lines).2.2.file q).isSome = true := by
  induction lines generalizing d copies with
  | nil => exact ⟨rfl, hc, fun q _ => rfl, fun q hq => hq⟩
  | cons line rest ih =>
    have hrest : ∀ l ∈ rest, ∀ rel, accepted l = some rel → rel ∈ rels :=
      fun l hl => hlines l (List.mem_cons_of_mem _ hl)
    cases hacc : accepted line with
    | none =>
      rw [back_up_refused copies d rest hacc] at hok
      cases hok
    | some rel =>
      obtain ⟨hmade, hclear, c, got, hbelow, hfile, hsome⟩ :=
        save_below hr ap hc (hlines line List.mem_cons_self rel hacc) (copies 0)
      rw [back_up_accepted copies d rest hacc] at hok ⊢
      dsimp only at hok ⊢
      split at hok
      · split at hok
        · rename_i haccess hcopied
          obtain ⟨hlisted, hafter, hframe, hmore⟩ := ih hclear (later copies) hrest hok
          rw [if_pos haccess, if_pos hcopied]
          refine ⟨by rw [List.map_cons, List.map_cons, hacc, hlisted], hafter, fun q hq => ?_,
            fun q hq => hmore q ?_⟩
          · have hne : q ≠ c := fun h => hq (h ▸ hbelow)
            rw [hframe q hq, hfile, Function.update_of_ne hne]
          · rw [hfile, Function.update_apply]
            split
            · exact hsome hcopied
            · exact hq
        · cases hok
      · rename_i haccess
        obtain ⟨hlisted, hafter, hframe, hmore⟩ := ih hmade (later copies) hrest hok
        rw [if_neg haccess]
        exact ⟨by rw [List.map_cons, List.map_cons, hacc, hlisted], hafter, hframe, hmore⟩

/-- The second loop stops at a copy that fails. -/
theorem install_files_stopped (stage : Bytes) {copies : Nat → Outcome} (d : Disk)
    {listed : List Bytes} (hfail : (copies 0).isDone = false) (hne : listed ≠ []) :
    (install_files stage copies d listed).1 = true := by
  cases listed with
  | nil => exact absurd rfl hne
  | cons rel rest =>
    cases hcopy : copies 0 with
    | done => rw [hcopy] at hfail; cases hfail
    | failed left made => simp [install_files, hcopy, Disk.copy_path]

/-- The second loop of `install_package` is the one on the files alone. -/
theorem install_files_fills (hr : Roots tx stage) (ap : Apart tx stage rels backs) {d : Disk}
    (hc : Clear tx stage rels backs d) (copies : Nat → Outcome) {listed : List Bytes}
    (hlisted : ∀ rel ∈ listed, rel ∈ rels) :
    Fills d.file listed (install_files stage copies d listed).1
        (install_files stage copies d listed).2.file ∧
      Clear tx stage rels backs (install_files stage copies d listed).2 := by
  induction listed generalizing d copies with
  | nil => exact ⟨.nil, hc⟩
  | cons rel rest ih =>
    obtain ⟨hclear, got, hfile, hsome⟩ :=
      fill_target hr ap hc (hlisted rel List.mem_cons_self) (copies 0)
    simp only [install_files]
    split
    · rename_i hok
      obtain ⟨x, rfl⟩ := Option.isSome_iff_exists.mp (hsome hok)
      obtain ⟨hfills, hclear'⟩ :=
        ih hclear (later copies) fun r hr => hlisted r (List.mem_cons_of_mem _ hr)
      rw [hfile] at hfills
      exact ⟨.next x hfills, hclear'⟩
    · rw [hfile]
      exact ⟨.stop got, hclear⟩

/-- A rollback whose copies all succeed is the one on the files alone. -/
theorem rollback_loop_restores (hr : Roots tx stage) (ap : Apart tx stage rels backs) {d : Disk}
    (hc : Clear tx stage rels backs d) {listed : List Bytes} (hlisted : ∀ rel ∈ listed, rel ∈ backs)
    (hsafe : ∀ rel ∈ listed, safe_rel rel false = true) :
    (rollback_loop tx (fun _ => .done) d listed).2.file = restore (backupOf tx) d.file listed := by
  induction listed generalizing d with
  | nil => rfl
  | cons rel rest ih =>
    obtain ⟨e, hclear, hfile, -, hloop⟩ := restore_target hr ap hc (hlisted rel List.mem_cons_self)
      (hsafe rel List.mem_cons_self) (fun _ => .done) rfl rest
    have hrest := ih hclear (fun r hr => hlisted r (List.mem_cons_of_mem _ hr))
      (fun r hr => hsafe r (List.mem_cons_of_mem _ hr))
    rw [hfile] at hrest
    rw [hloop, restore]
    exact hrest

end Ordinary

end mantle.package
