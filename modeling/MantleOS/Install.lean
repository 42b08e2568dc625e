-- The transactions of `services/mantle.c`: the installation of a package, the
-- rollback of a transaction and the removal of a package, as programs over the
-- disk and over how the copies end.
import MantleOS.Disk

open bytes ctext

namespace mantle.package

/-! ## The paths of a transaction -/

/-- `%ld` of a process id. -/
def decimal (pid : UInt32) : Bytes := ascii (toString pid.toNat)

def stage_path (pid : UInt32) : Bytes := ascii "/tmp/mantle-verify-" ++ decimal pid

/-- The directory of the transaction with an id: a process id, or what the user gives. -/
def tx_path (id : Bytes) : Bytes := path_buf (ascii "/var/lib/mantleos/transactions/" ++ id)

/-- The directory of the transaction of a process. -/
abbrev tx_of (pid : UInt32) : Bytes := tx_path (decimal pid)

def list_path (tx : Bytes) : Bytes := path_buf (tx ++ ascii "/files")

def target_path (rel : Bytes) : Bytes := path_buf (47 :: rel)

def backup_path (tx rel : Bytes) : Bytes := path_buf (tx ++ ascii "/backup/" ++ rel)

def source_path (stage rel : Bytes) : Bytes := path_buf (stage ++ ascii "/payload/" ++ rel)

def db_path (name : Bytes) : Bytes :=
  path_buf (path_buf (ascii "/var/lib/mantleos/packages/" ++ name) ++ ascii "/files")

/-- The paths in a list, as all the loops over one read it. -/
def read_list (list : FileData) : List Bytes := (fgetsAll MAX_PATH list.content).map cutLine

/-! ## The rollback -/

/-- How the next copies end, after the first. -/
def later (copies : Nat → Outcome) : Nat → Outcome := fun n => copies (n + 1)

/-- The loop of `rollback_tx`. It takes the mere presence of a backup for the sign that the
target was there before. -/
def rollback_loop (tx : Bytes) : (Nat → Outcome) → Disk → List Bytes → Nat × Disk
  | _, d, [] => (0, d)
  | copies, d, rel :: rest =>
    if !safe_rel rel false then rollback_loop tx (later copies) d rest
    else if d.access (backup_path tx rel) then
      let cleared := (d.unlink (target_path rel)).2
      let (ok, back) := cleared.copy_path (backup_path tx rel) (target_path rel) (copies 0)
      let (result, after) := rollback_loop tx (later copies) back rest
      (if ok then result else 1, after)
    else
      let (bad, cleared) := d.unlink (target_path rel)
      let (result, after) := rollback_loop tx (later copies) cleared rest
      (if bad then 1 else result, after)

def rollback_tx (tx : Bytes) (copies : Nat → Outcome) (d : Disk) : Nat × Disk :=
  match d.plain (list_path tx) with
  | some list => rollback_loop tx copies d (read_list list)
  -- a directory can be opened, and holds no line
  | none => (if d.dir (components (list_path tx)) then 0 else 2, d)

/-! ## The installation -/

/-- The first loop of `install_package`: the paths that it lists, whether it fails, and the
disk. A path is listed before its target is saved. -/
def back_up (tx : Bytes) : (Nat → Outcome) → Disk → List Bytes → List Bytes × Bool × Disk
  | _, d, [] => ([], false, d)
  | copies, d, line :: rest =>
    match manifest_path line with
    | none => ([], true, d)
    | some rel =>
      if critical_path rel then ([], true, d)
      else
        let destdir := parent (backup_path tx rel)
        let made := d.mkdir_p destdir
        if made.access (target_path rel) then
          let (ok, saved) := made.copy_path (target_path rel) destdir (copies 0)
          if ok then
            let (rels, failed, after) := back_up tx (later copies) saved rest
            (rel :: rels, failed, after)
          else ([rel], true, saved)
        else
          let (rels, failed, after) := back_up tx (later copies) made rest
          (rel :: rels, failed, after)

/-- The second loop: whether it fails, and the disk. -/
def install_files (stage : Bytes) : (Nat → Outcome) → Disk → List Bytes → Bool × Disk
  | _, d, [] => (false, d)
  | copies, d, rel :: rest =>
    let made := d.mkdir_p (parent (target_path rel))
    let (ok, after) := made.copy_path (source_path stage rel) (target_path rel) (copies 0)
    if ok then install_files stage (later copies) after rest else (true, after)

/-- How the copies of one installation end: those into the backup, those of the new files,
those of the rollback, and the one of the list into the database. -/
structure Copies where
  backups : Nat → Outcome
  installs : Nat → Outcome
  restores : Nat → Outcome
  record : Outcome

/-- The list of the paths that the first loop has gone through. -/
def list_text (rels : List Bytes) : Bytes := rels.flatMap fun rel => rel ++ [10]

/-- Both loops: whether the transaction fails, and the disk before that is acted on. -/
def transact (pid : UInt32) (copies : Copies) (d : Disk) : Bool × Disk :=
  let stage := stage_path pid
  let tx := tx_of pid
  let begun := d.mkdir_p (path_buf (tx ++ ascii "/backup"))
  match begun.plain (path_buf (stage ++ ascii "/META/MANIFEST")) with
  | none => (true, begun)
  | some manifest =>
    match begun.create (list_path tx) with
    | none => (true, begun)
    | some opened =>
      let (rels, failed, saved) := back_up tx copies.backups opened (manifest_lines manifest.content)
      -- the list is on the disk when it is closed
      let listed := saved.write (components (list_path tx)) (list_text rels)
      if failed then (true, listed)
      else
        match listed.plain (list_path tx) with
        | none => (false, listed)
        | some list => install_files stage copies.installs listed (read_list list)

/-- The entry in the database and the mark `COMMITTED`. How the copy ends is not looked at. -/
def commit (pid : UInt32) (name : Bytes) (copies : Copies) (d : Disk) : Disk :=
  let tx := tx_of pid
  let made := d.mkdir_p (path_buf (ascii "/var/lib/mantleos/packages/" ++ name))
  let recorded := (made.copy_path (list_path tx) (db_path name) copies.record).2
  let status := path_buf (tx ++ ascii "/COMMITTED")
  match recorded.create status with
  | none => recorded
  | some marked => marked.write (components status) (name ++ [10])

/-- The disk when `verify_package_prepare` returns. -/
def prepared (pid : UInt32) (pkg : Bytes) (p : Package) (d : Disk) : Disk :=
  match check_archive pkg p with
  | .ok _ => d.extract (components (stage_path pid)) p.entries
  | .error refusal =>
    if refusal.status = 2 then d else d.extract (components (stage_path pid)) []

/-- The transaction of a package that is verified: the status and the disk. -/
def run_transaction (pid : UInt32) (name : Bytes) (copies : Copies) (d : Disk) : Nat × Disk :=
  let (failed, after) := transact pid copies d
  let settled :=
    if failed then (rollback_tx (tx_of pid) copies.restores after).2
    else commit pid name copies after
  (if failed then 1 else 0, settled.rm_rf (stage_path pid))

def install_package (tools : Tools) (trust : Trust) (root : Bool) (pid : UInt32) (copies : Copies)
    (pkg : Bytes) (p : Package) (d : Disk) : Nat × Disk :=
  if !root then (3, d)
  else
    match verify_package_prepare tools trust (d.under (components (stage_path pid))) pkg p with
    | .error refusal => (refusal.status, prepared pid pkg p d)
    | .ok name => run_transaction pid name copies (prepared pid pkg p d)

/-! ## The removal -/

/-- The loop of `remove_package`. -/
def remove_loop : Disk → List Bytes → Nat × Disk
  | d, [] => (0, d)
  | d, rel :: rest =>
    if safe_rel rel false then
      let (bad, cleared) := d.unlink (target_path rel)
      let (r, after) := remove_loop cleared rest
      (if bad then 1 else r, after)
    else remove_loop d rest

/-- The list of a package, as `remove_package` looks for it. -/
def record_path (name : Bytes) : Bytes :=
  path_buf (ascii "/var/lib/mantleos/packages/" ++ name ++ ascii "/files")

def remove_package (root : Bool) (name : Bytes) (d : Disk) : Nat × Disk :=
  if !root then (3, d)
  else if !safe_rel name true then (2, d)
  else
    match d.plain (record_path name) with
    | some list =>
      let (r, after) := remove_loop d (read_list list)
      (r, (after.unlink (record_path name)).2)
    -- as above, a directory holds no line
    | none => (if d.dir (components (record_path name)) then 0 else 2, d)

end mantle.package
