-- The disk that `mantle` works on: plain files and directories, and what the
-- calls and the tools of `services/mantle.c` do to them. There are no links, and
-- a copy may fail and leave its destination half written.
import Mathlib.Data.List.DropRight
import MantleOS.Package

open bytes ctext

namespace mantle.package

/-! ## Paths -/

/-- What is left of a path in a buffer of `MAX_PATH` bytes. -/
def path_buf (path : Bytes) : Bytes := path.take (MAX_PATH - 1)

/-- The part after the last slash. -/
def last_part (path : Bytes) : Bytes := path.rtakeWhile (· ≠ 47)

/-- The part before the last slash, as `*strrchr(path, '/') = 0` leaves it. -/
def parent (path : Bytes) : Bytes := (path.rdropWhile (· ≠ 47)).dropLast

/-- A path that ends in a slash or in a dot can only be that of a directory. -/
def names_file (path : Bytes) : Bool := last_part path ≠ [] && last_part path ≠ [46]

/-- The name of a copy that `cp` makes inside of a directory. -/
def base_name (path : Bytes) : Bytes := last_part (path.rdropWhile (· = 47))

theorem path_buf_of_lt {path : Bytes} (h : path.length < MAX_PATH) : path_buf path = path :=
  List.take_of_length_le (Nat.le_sub_one_of_lt h)

theorem components_append (a b : Bytes) : components (a ++ 47 :: b) = components a ++ components b := by
  rw [components, List.splitOn_append_cons_self, List.filter_append]
  rfl

theorem components_name {name : Bytes} (h : 47 ∉ name) (hne : name ≠ []) (hdot : name ≠ [46]) :
    components name = [name] := by
  rw [components, List.splitOn_eq_singleton h]
  simp [hne, hdot]

/-- A directory that fits the buffer is not cut. -/
theorem path_buf_append {a : Bytes} (b : Bytes) (h : a.length + 1 < MAX_PATH) :
    path_buf (a ++ 47 :: b) = a ++ 47 :: b.take (MAX_PATH - 1 - a.length - 1) := by
  have htake : MAX_PATH - 1 - a.length = MAX_PATH - 1 - a.length - 1 + 1 := by omega
  rw [path_buf, List.take_append, List.take_of_length_le (by omega), htake, List.take_succ_cons]
  rfl

theorem components_path_buf {a : Bytes} (b : Bytes) (h : a.length + 1 < MAX_PATH) :
    components a <+: components (path_buf (a ++ 47 :: b)) := by
  rw [path_buf_append b h, components_append]
  exact List.prefix_append _ _

theorem notMem_last_part (path : Bytes) : 47 ∉ last_part path := by
  intro h
  simpa using List.mem_rtakeWhile_imp h

theorem last_part_of_notMem {path : Bytes} (h : 47 ∉ path) : last_part path = path := by
  rw [last_part, List.rtakeWhile_eq_self_iff]
  intro b hb
  simpa using fun hb47 : b = 47 => h (hb47 ▸ hb)

/-- A path with a slash is its parent and its last part. -/
theorem eq_parent_append {path : Bytes} (h : 47 ∈ path) :
    path = parent path ++ 47 :: last_part path := by
  have hne : path.rdropWhile (· ≠ 47) ≠ [] := by
    intro hnil
    simpa using List.rdropWhile_eq_nil_iff.mp hnil 47 h
  have hlast : (path.rdropWhile (· ≠ 47)).getLast hne = 47 := by
    simpa using List.rdropWhile_last_not _ _ hne
  have hsplit : path.rdropWhile (· ≠ 47) = parent path ++ [47] := by
    have := List.dropLast_append_getLast hne
    rw [hlast] at this
    exact this.symm
  calc path = path.rdropWhile (· ≠ 47) ++ path.rtakeWhile (· ≠ 47) :=
        List.rdropWhile_append_rtakeWhile.symm
    _ = parent path ++ [47] ++ last_part path := by rw [hsplit]; rfl
    _ = parent path ++ 47 :: last_part path := by simp

theorem last_part_append (a b : Bytes) : last_part (a ++ 47 :: b) = last_part b := by
  induction b using List.reverseRecOn with
  | nil => exact List.rtakeWhile_concat_neg _ _ _ (by decide)
  | append_singleton b x ih =>
    have hsplit : a ++ 47 :: (b ++ [x]) = a ++ 47 :: b ++ [x] := by simp
    rw [last_part, hsplit, List.rtakeWhile_concat, last_part, List.rtakeWhile_concat]
    split
    · exact congrArg (· ++ [x]) ih
    · rfl

theorem names_file_append (a b : Bytes) : names_file (a ++ 47 :: b) = names_file b := by
  rw [names_file, last_part_append, names_file]

/-- The components of a path of a file are those of its parent and its name. -/
theorem components_of_names_file {path : Bytes} (h : 47 ∈ path) (hn : names_file path = true) :
    components path = components (parent path) ++ [last_part path] := by
  simp only [names_file, Bool.and_eq_true, decide_eq_true_eq] at hn
  conv => lhs; rw [eq_parent_append h]
  rw [components_append, components_name (notMem_last_part path) hn.1 hn.2]

/-- The parent of a path below a directory is not above it. -/
theorem components_parent (a b : Bytes) : components a <+: components (parent (a ++ 47 :: b)) := by
  have hsplit := @eq_parent_append (a ++ 47 :: b) (by simp)
  rw [last_part_append] at hsplit
  by_cases hb : 47 ∈ b
  · have hparent : parent (a ++ 47 :: b) = a ++ 47 :: parent b := by
      conv at hsplit => lhs; rw [eq_parent_append hb, ← List.cons_append, ← List.append_assoc]
      exact (List.append_cancel_right hsplit).symm
    rw [hparent, components_append]
    exact List.prefix_append _ _
  · have hparent : parent (a ++ 47 :: b) = a := by
      rw [last_part_of_notMem hb] at hsplit
      exact (List.append_cancel_right hsplit).symm
    rw [hparent]

theorem base_name_of_names_file {path : Bytes} (hn : names_file path = true) :
    base_name path = last_part path := by
  have hself : path.rdropWhile (· = 47) = path := by
    rw [List.rdropWhile_eq_self_iff]
    intro hne hlast
    have hnil : last_part path = [] := by
      rw [last_part, List.rtakeWhile_eq_nil_iff]
      intro _
      simpa using hlast
    simp [names_file, hnil] at hn
  rw [base_name, hself]

/-! ## The disk -/

/-- Plain files and directories by the components of their paths, and the files that some
program has opened for writing. A device counts as absent. -/
structure Disk where
  file : Tree
  dir : List Bytes → Bool
  written : List Bytes → Bool

namespace Disk

/-- The plain file that a path leads to. -/
def plain (d : Disk) (path : Bytes) : Option FileData :=
  if names_file path then d.file (components path) else none

/-- `access(path, F_OK) == 0`. -/
def access (d : Disk) (path : Bytes) : Bool := (d.plain path).isSome || d.dir (components path)

/-- The files below a directory. -/
def under (d : Disk) (root : List Bytes) : Tree := fun q => d.file (root ++ q)

/-- `mkdir_p`: the directories on the way, down to the first file that stands there. -/
def mkdir_p (d : Disk) (path : Bytes) : Disk :=
  { d with dir := fun q => d.dir q ||
      (decide (q <+: components path) && q.inits.all fun r => (d.file r).isNone) }

/-- A file with a text, which the system cuts at the largest size of a file. -/
def fileOf (text : Bytes) : FileData :=
  ⟨text.take (2 ^ 63 - 1), by rw [List.length_take]; omega⟩

def write (d : Disk) (path : List Bytes) (text : Bytes) : Disk :=
  { d with
    file := Function.update d.file path (some (fileOf text))
    written := Function.update d.written path true }

/-- `fopen(path, "w")`. -/
def create (d : Disk) (path : Bytes) : Option Disk :=
  if d.dir (components path) || !d.dir (components path).dropLast then none
  else some (d.write (components path) [])

/-- `unlink`, and whether it fails with an error other than `ENOENT`. -/
def unlink (d : Disk) (path : Bytes) : Bool × Disk :=
  if (d.plain path).isSome then
    (false, { d with file := Function.update d.file (components path) none })
  else (d.dir (components path) || (components path).inits.any fun q => (d.file q).isSome, d)

/-- `rm -rf`. -/
def rm_rf (d : Disk) (path : Bytes) : Disk :=
  { d with
    file := fun q => if components path <+: q then none else d.file q
    dir := fun q => !decide (components path <+: q) && d.dir q }

/-- The directory `stage` after `tar -xzf .. -C stage`. -/
def extract (d : Disk) (stage : List Bytes) (entries : List TarEntry) : Disk where
  file := fun q =>
    if stage <+: q then tar_extract (d.under stage) entries (q.drop stage.length) else d.file q
  dir := fun q =>
    if stage <+: q then
      (tar_extract (d.under stage) entries (q.drop stage.length)).isNone &&
      (d.dir q || q = stage || entries.any fun e =>
        (q.drop stage.length <+: components e.name) &&
        (q.drop stage.length ≠ components e.name || e.mode.head? = some 100))
    else d.dir q
  written := fun q => d.written q ||
    (decide (stage <+: q) && entries.any fun e => components e.name = q.drop stage.length)

theorem write_file (d : Disk) (path : List Bytes) (text : Bytes) :
    (d.write path text).file = Function.update d.file path (some (fileOf text)) := rfl

theorem create_dir {d e : Disk} {path : Bytes} (h : d.create path = some e) : e.dir = d.dir := by
  rw [create] at h
  split at h
  · cases h
  · rw [← Option.some.inj h]
    rfl

theorem create_file {d e : Disk} {path : Bytes} (h : d.create path = some e) :
    e.file = Function.update d.file (components path) (some (fileOf [])) := by
  rw [create] at h
  split at h
  · cases h
  · rw [← Option.some.inj h, write_file]

theorem unlink_dir (d : Disk) (path : Bytes) : (d.unlink path).2.dir = d.dir := by
  rw [unlink]
  split <;> rfl

/-- The path of a file is free after `unlink`. -/
theorem unlink_file (d : Disk) {path : Bytes} (h : names_file path = true) :
    (d.unlink path).2.file = Function.update d.file (components path) none := by
  have hplain : d.plain path = d.file (components path) := if_pos h
  rw [unlink, hplain]
  split
  · rfl
  · rename_i hnone
    rw [Option.not_isSome_iff_eq_none] at hnone
    exact (Function.update_eq_self_iff.mpr hnone.symm).symm

theorem mkdir_p_dir_of_not_prefix (d : Disk) {path : Bytes} {q : List Bytes}
    (h : ¬ q <+: components path) : (d.mkdir_p path).dir q = d.dir q := by
  simp [mkdir_p, h]

/-- Where no file stands in the way the directories are there afterwards. -/
theorem mkdir_p_dir {d : Disk} {path : Bytes} {q : List Bytes} (hq : q <+: components path)
    (h : ∀ r, r <+: q → d.file r = none) : (d.mkdir_p path).dir q = true := by
  have hway : q.inits.all (fun r => (d.file r).isNone) = true := by
    rw [List.all_eq_true]
    intro r hr
    rw [h r ((List.mem_inits r q).mp hr)]
    rfl
  simp [mkdir_p, hway, hq]

end Disk

/-! ## Copies -/

/-- How a run of `cp -a` ends. One that fails leaves any content in the files that it was to
write, and makes any of the directories. -/
inductive Outcome where
  | done
  | failed (left : Tree) (made : List Bytes → Bool)

def Outcome.isDone : Outcome → Bool
  | .done => true
  | .failed _ _ => false

/-- What the copy of a plain file leaves at its destination. -/
def Outcome.leaves (o : Outcome) (x : FileData) : Option FileData :=
  match o with
  | .done => some x
  | .failed left _ => left []

theorem Outcome.leaves_of_isDone {o : Outcome} (h : o.isDone = true) (x : FileData) :
    o.leaves x = some x := by
  cases o with
  | done => rfl
  | failed left made => cases h

namespace Disk

/-- The files that a copy takes, by their paths below the source: the source itself, or all
that is in it. -/
def sources (d : Disk) (src : Bytes) : Tree := fun s =>
  if d.dir (components src) then (if s = [] then none else d.file (components src ++ s))
  else if s = [] then d.plain src
  else none

/-- Where the copy goes: into the destination when that is a directory. -/
def place (d : Disk) (src dst : Bytes) : List Bytes :=
  if d.dir (components dst) then components dst ++ components (base_name src) else components dst

/-- `cp` refuses a missing source, a copy onto or into its own source, a file in the place of a
directory and a directory in the place of a file. -/
def can_copy (d : Disk) (src dst : Bytes) : Bool :=
  !decide (components src <+: d.place src dst) &&
  (if d.dir (components src) then (d.file (d.place src dst)).isNone
   else (d.plain src).isSome && !d.dir (d.place src dst) &&
    (names_file dst || d.dir (components dst)))

/-- The disk with the content `got` in every file that the copy writes. -/
def copied (d : Disk) (src dst : Bytes) (got : Tree) (made : List Bytes → Bool) : Disk :=
  let dest := d.place src dst
  { file := fun q =>
      if dest <+: q ∧ (d.sources src (q.drop dest.length)).isSome then got (q.drop dest.length)
      else d.file q
    dir := fun q => d.dir q || (decide (dest <+: q) && d.dir (components src) &&
      d.dir (components src ++ q.drop dest.length) && made (q.drop dest.length))
    written := fun q => d.written q ||
      (decide (dest <+: q) && (d.sources src (q.drop dest.length)).isSome) }

/-- `copy_path`: whether it succeeds, and the disk after it. -/
def copy_path (d : Disk) (src dst : Bytes) : Outcome → Bool × Disk
  | .done =>
    if d.can_copy src dst then (true, d.copied src dst (d.sources src) fun _ => true) else (false, d)
  | .failed left made =>
    (false, if d.dir (components src) || d.can_copy src dst then d.copied src dst left made else d)

theorem sources_of_plain {d : Disk} {src : Bytes} (h : d.dir (components src) = false)
    (s : List Bytes) : d.sources src s = if s = [] then d.plain src else none := by
  simp [sources, h]

/-- A copy touches nothing but what is at its destination or below. -/
theorem copy_path_outside (d : Disk) (src : Bytes) {dst : Bytes} {q : List Bytes}
    (h : ¬ components dst <+: q) (o : Outcome) :
    (d.copy_path src dst o).2.file q = d.file q ∧
      (d.copy_path src dst o).2.written q = d.written q := by
  have hplace : ¬ d.place src dst <+: q := by
    rw [place]
    split
    · exact fun hp => h ((List.prefix_append _ _).trans hp)
    · exact h
  have hcopied : ∀ got made, (d.copied src dst got made).file q = d.file q ∧
      (d.copied src dst got made).written q = d.written q := by
    intro got made
    simp [copied, hplace]
  cases o with
  | done =>
    rw [copy_path]
    split
    · exact hcopied _ fun _ => true
    · exact ⟨rfl, rfl⟩
  | failed left made =>
    rw [copy_path]
    split
    · exact hcopied _ _
    · exact ⟨rfl, rfl⟩

/-- The copy of a plain file touches one path. -/
theorem copied_file {d : Disk} {src : Bytes} (h : d.dir (components src) = false) (dst : Bytes)
    (got : Tree) (made : List Bytes → Bool) :
    (d.copied src dst got made).file =
      if (d.plain src).isSome then Function.update d.file (d.place src dst) (got []) else d.file := by
  funext q
  simp only [copied, sources_of_plain h]
  by_cases hq : q = d.place src dst
  · subst hq
    by_cases hs : (d.plain src).isSome = true <;> simp [hs]
  · have hdrop : ¬ (d.place src dst <+: q ∧ q.drop (d.place src dst).length = []) := by
      rintro ⟨⟨s, rfl⟩, hs⟩
      rw [List.drop_left] at hs
      exact hq (by rw [hs, List.append_nil])
    have hnone : ¬ (d.place src dst <+: q ∧
        (if q.drop (d.place src dst).length = [] then d.plain src else none).isSome = true) := by
      rintro ⟨hp, hs⟩
      rw [if_neg fun h => hdrop ⟨hp, h⟩] at hs
      exact absurd hs (by simp)
    rw [if_neg hnone]
    split
    · rw [Function.update_of_ne hq]
    · rfl

theorem copied_dir {d : Disk} {src : Bytes} (h : d.dir (components src) = false) (dst : Bytes)
    (got : Tree) (made : List Bytes → Bool) : (d.copied src dst got made).dir = d.dir := by
  funext q
  simp [copied, h]

/-- A copy of a plain file that `cp` does not refuse. -/
theorem copy_path_plain {d : Disk} {src dst : Bytes} {x : FileData}
    (h : d.dir (components src) = false) (hx : d.plain src = some x)
    (hcan : d.can_copy src dst = true) (o : Outcome) :
    (d.copy_path src dst o).1 = o.isDone ∧
    (d.copy_path src dst o).2.file = Function.update d.file (d.place src dst) (o.leaves x) ∧
    (d.copy_path src dst o).2.dir = d.dir := by
  cases o with
  | done =>
    simp only [copy_path, hcan, if_true]
    refine ⟨rfl, ?_, copied_dir h dst _ _⟩
    rw [copied_file h, hx, sources_of_plain h, if_pos rfl, hx]
    rfl
  | failed left made =>
    simp only [copy_path, h, hcan, Bool.false_or, if_true]
    refine ⟨rfl, ?_, copied_dir h dst _ _⟩
    rw [copied_file h, hx]
    rfl

theorem copy_path_done {d : Disk} {src : Bytes} {x : FileData}
    (h : d.dir (components src) = false) (hx : d.plain src = some x) (dst : Bytes) (q : List Bytes) :
    (d.copy_path src dst .done).2.file q = d.file q ∨
      (d.copy_path src dst .done).2.file q = some x := by
  by_cases hcan : d.can_copy src dst = true
  · rw [(copy_path_plain h hx hcan .done).2.1, Function.update_apply]
    split
    · exact .inr rfl
    · exact .inl rfl
  · simp [copy_path, hcan]

theorem copy_path_written {d : Disk} {src dst : Bytes} {x : FileData}
    (h : d.dir (components src) = false) (hx : d.plain src = some x)
    (hcan : d.can_copy src dst = true) :
    (d.copy_path src dst .done).2.written (d.place src dst) = true := by
  simp [copy_path, hcan, copied, sources_of_plain h, hx]

theorem copy_path_written_mono (d : Disk) (src dst : Bytes) (o : Outcome) {q : List Bytes}
    (h : d.written q = true) : (d.copy_path src dst o).2.written q = true := by
  cases o with
  | done =>
    rw [copy_path]
    split
    · simp [copied, h]
    · exact h
  | failed left made =>
    rw [copy_path]
    split
    · simp [copied, h]
    · exact h

/-- Any copy of what is not a directory: it changes one file at most, and a copy that succeeds
leaves a file there. -/
theorem copy_path_frame {d : Disk} {src : Bytes} (h : d.dir (components src) = false) (dst : Bytes)
    (o : Outcome) :
    ∃ got, (d.copy_path src dst o).2.file = Function.update d.file (d.place src dst) got ∧
      (d.copy_path src dst o).2.dir = d.dir ∧
      ((d.copy_path src dst o).1 = true → got.isSome = true) := by
  by_cases hcan : d.can_copy src dst = true
  · have hsome : (d.plain src).isSome = true := by
      simp only [can_copy, h, Bool.false_eq_true, if_false, Bool.and_eq_true] at hcan
      exact hcan.2.1.1
    obtain ⟨x, hx⟩ := Option.isSome_iff_exists.mp hsome
    obtain ⟨hok, hfile, hdir⟩ := copy_path_plain h hx hcan o
    refine ⟨o.leaves x, hfile, hdir, fun htrue => ?_⟩
    cases o with
    | done => rfl
    | failed left made => exact absurd (hok.symm.trans htrue) (by simp [Outcome.isDone])
  · have hsame : d.copy_path src dst o = (false, d) := by
      cases o <;> simp [copy_path, h, hcan]
    exact ⟨d.file (d.place src dst), by rw [hsame, Function.update_eq_self], by rw [hsame],
      by simp [hsame]⟩

end Disk

end mantle.package
