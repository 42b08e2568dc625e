-- The verification of a package in `services/mantle.c`: the checks of the
-- archive, of its metadata, of the key, of the manifest and of the signature.
-- `tar` is modelled by what it lists and extracts; `openssl` and the hash of
-- `sha256sum` are parameters.
import MantleOS.CText

open bytes ctext

namespace mantle.package

def MAX_PATH : Nat := 4096

/-- What a file holds. The size of a file is a signed 64-bit number. -/
structure FileData where
  content : Bytes
  size_lt : content.length < 2 ^ 63
  deriving DecidableEq

/-- The plain files under a directory, by the components of their paths. A directory counts as
absent. -/
abbrev Tree := List Bytes → Option FileData

/-- A path without its empty components and its dots. -/
def components (path : Bytes) : List Bytes :=
  (path.splitOn 47).filter (fun c => c ≠ [] ∧ c ≠ [46])

/-! ## The tools -/

/-- A member of an archive: the ten letters of its mode, what `tar -tv` prints after them, its
name and its content. -/
structure TarEntry where
  mode : Bytes
  listed : Bytes
  name : Bytes
  data : FileData

/-- The file `<name>.mtpkg`. One that `tar` cannot read or write out to the end is not
`readable`. -/
structure Package where
  entries : List TarEntry
  readable : Bool

/-- How `tar` prints a byte of a name. -/
def quote_byte (b : UInt8) : Bytes :=
  if 7 ≤ b ∧ b ≤ 13 then [92, (ascii "abtnvfr").getD (b.toNat - 7) 0]
  else if b = 92 then [92, 92]
  else if 32 ≤ b ∧ b < 127 then [b]
  else [92, 48 + b / 64, 48 + b / 8 % 8, 48 + b % 8]

/-- The output of `tar -tzf`. -/
def tar_list (entries : List TarEntry) : Bytes :=
  entries.flatMap fun e => e.name.flatMap quote_byte ++ [10]

/-- The output of `tar -tvzf`. -/
def tar_list_verbose (entries : List TarEntry) : Bytes :=
  entries.flatMap fun e => e.mode ++ e.listed ++ [10]

/-- What a member says of a path: a plain file gives its content, any other kind no file. -/
def TarEntry.file (e : TarEntry) (path : List Bytes) : Option (Option FileData) :=
  if components e.name = path then some (if e.mode.head? = some 45 then some e.data else none)
  else none

/-- The directory after `tar -xzf`: a later member replaces an earlier one. -/
def tar_extract (before : Tree) (entries : List TarEntry) : Tree :=
  overlay TarEntry.file before entries

/-- The programs that the verification runs. `sha256sum` prints 64 hexadecimal digits. -/
structure Tools where
  openssl_verify : (key signature signed : Bytes) → Bool
  sha256 : Bytes → Bytes
  sha256_length : ∀ b, (sha256 b).length = 64
  sha256_digits : ∀ b, ∀ c ∈ sha256 b, c ∈ ascii "0123456789abcdef"

/-- A line of `sha256sum`: the digest, a blank, a blank or a star, and the name. -/
def checksum_line (row : Bytes) : Option (Bytes × Bytes) :=
  if (row.take 64).length = 64 ∧ (row.take 64).all isxdigit ∧ row[64]? = some 32 ∧
      (row[65]? = some 32 ∨ row[65]? = some 42) ∧ row.drop 66 ≠ [] then
    some (row.take 64, row.drop 66)
  else none

def lower (b : UInt8) : UInt8 := if 65 ≤ b ∧ b ≤ 90 then b + 32 else b

/-- The exit status of `sha256sum -c` on a list of sums. It skips a line of another form, and
fails when no line is left. -/
def sha256sum_check (tools : Tools) (tree : Tree) (sums : Bytes) : Nat :=
  let lines := (sums.splitOn 10).filterMap checksum_line
  if lines ≠ [] ∧ lines.all (fun (hash, name) =>
      match tree (components name) with
      | some file => hash.map lower = tools.sha256 file.content
      | none => false) then 0
  else 1

/-! ## Paths and lines -/

def safe_char (b : UInt8) : Bool :=
  (97 ≤ b && b ≤ 122) || (65 ≤ b && b ≤ 90) || (48 ≤ b && b ≤ 57) || (ascii "/._-+@").contains b

def safe_rel (path : Bytes) (component_only : Bool) : Bool :=
  !(path.isEmpty || path.head? = some 47 || [92] <:+: path || [46, 46] <:+: path) &&
  !(component_only && path.contains 47) && path.all safe_char

def critical_path (path : Bytes) : Bool :=
  path = ascii "etc/passwd" || path = ascii "etc/shadow" || path = ascii "etc/group" ||
  path = ascii "sbin/mantle-init" || path = ascii "sbin/mantle-supervise" ||
  path = ascii "bin/mantle-shell" || path = ascii "usr/bin/mantle"

/-- The first line of a file, without its end. -/
def read_line (file : Option FileData) (size : Nat) : Option Bytes :=
  match file with
  | none => none
  | some file => (fgetsAll size file.content).head?.map cutLine

/-- A line of `tar -tzf` that the verification refuses. -/
def bad_name (line : Bytes) : Bool :=
  let text := cutLine line
  let p := if text.take 2 = ascii "./" then text.drop 2 else text
  (p.take 5 ≠ ascii "META/" && p.take 8 ≠ ascii "payload/") || !safe_rel p false

/-- A line of `tar -tvzf` that the verification refuses: a link, or a special mode bit. -/
def bad_mode (line : Bytes) : Bool :=
  let text := cstring line
  let letter := fun i => text.getD i 0
  10 ≤ text.length &&
  (letter 0 = 108 || letter 0 = 104 || letter 3 = 115 || letter 3 = 83 || letter 6 = 115 ||
    letter 6 = 83 || letter 9 = 116 || letter 9 = 84)

/-- True for an archive that is refused. -/
def stream_validate_tar (p : Package) (verbose : Bool) : Bool :=
  let bad :=
    if verbose then (fgetsAll (MAX_PATH + 256) (tar_list_verbose p.entries)).any bad_mode
    else (fgetsAll (MAX_PATH + 256) (tar_list p.entries)).any bad_name
  bad || !p.readable

/-- The hash and the path under `payload/` of a line, if the line is well formed. -/
def manifest_entry (line : Bytes) : Option (Bytes × Bytes) :=
  let (hash, rest) := scanWord 79 line
  let (path, _) := scanWord 4095 rest
  if hash = [] ∨ path = [] then none
  else if hash.length ≠ 64 ∨ path.take 8 ≠ ascii "payload/" ∨ !safe_rel (path.drop 8) false then none
  else if !hash.all isxdigit then none
  else some (hash, path.drop 8)

def manifest_path (line : Bytes) : Option Bytes := (manifest_entry line).map (·.2)

/-- The lines of the manifest as both loops over it read them. -/
def manifest_lines (manifest : Bytes) : List Bytes := (fgetsAll (MAX_PATH + 128) manifest).map cutLine

def META : Bytes := ascii "META"

def verify_manifest (tools : Tools) (tree : Tree) : Nat :=
  match tree [META, ascii "MANIFEST"] with
  | none => 3
  | some manifest =>
    let lines := manifest_lines manifest.content
    if lines.all (fun line => (manifest_path line).isSome) ∧ lines ≠ [] then
      sha256sum_check tools tree manifest.content
    else 3

/-! ## The verification -/

/-- The status and the text of a refusal. -/
structure Refusal where
  status : Nat
  message : String
  deriving DecidableEq

/-- The trust directory: the file `revoked` if it can be read, and the readable public keys by
their ids. -/
structure Trust where
  revoked : Option Bytes
  keys : Bytes → Option Bytes

def required : List String :=
  ["name", "version", "architecture", "dependencies", "description", "license", "maintainer",
    "build"]

def check_archive (pkg : Bytes) (p : Package) : Except Refusal Unit :=
  if !safe_rel pkg false && pkg.head? ≠ some 47 then
    .error ⟨2, "mantle: chemin de paquet invalide\n"⟩
  else if stream_validate_tar p false || stream_validate_tar p true || !p.readable then
    .error ⟨3, "mantle: archive .mtpkg refusée\n"⟩
  else .ok ()

def check_metadata (tree : Tree) : Except Refusal Unit :=
  match tree [META, ascii "metadata.json"] with
  | none => .error ⟨3, "mantle: metadata.json manquant\n"⟩
  | some metadata =>
    let json := cstring (metadata.content.take 8191)
    match required.find? (fun field => ¬ [34] ++ ascii field ++ [34] <:+: json) with
    | some field => .error ⟨3, "mantle: champ metadata manquant: " ++ field ++ "\n"⟩
    | none => .ok ()

def read_name (tree : Tree) : Except Refusal Bytes :=
  match read_line (tree [META, ascii "NAME"]) 128 with
  | some name =>
    if safe_rel name true then .ok name else .error ⟨3, "mantle: nom de paquet invalide\n"⟩
  | none => .error ⟨3, "mantle: nom de paquet invalide\n"⟩

def read_key_id (tree : Tree) : Except Refusal Bytes :=
  match read_line (tree [META, ascii "KEY-ID"]) 128 with
  | some keyid =>
    if safe_rel keyid true then .ok keyid else .error ⟨3, "mantle: identifiant de clé invalide\n"⟩
  | none => .error ⟨3, "mantle: identifiant de clé invalide\n"⟩

def is_revoked (trust : Trust) (keyid : Bytes) : Bool :=
  match trust.revoked with
  | none => false
  | some rows => ((fgetsAll 128 rows).map cutLine).any (· = keyid)

/-- The public key of an id that is not revoked. -/
def trusted_key (trust : Trust) (keyid : Bytes) : Except Refusal Bytes :=
  if is_revoked trust keyid then .error ⟨3, "mantle: clé révoquée\n"⟩
  else
    match trust.keys keyid with
    | none => .error ⟨3, "mantle: clé de dépôt non approuvée\n"⟩
    | some key => .ok key

/-- The files `SIGNED` and `SIGNATURE`. -/
def signature_files (tree : Tree) : Except Refusal (FileData × FileData) :=
  match tree [META, ascii "SIGNED"], tree [META, ascii "SIGNATURE"] with
  | none, _ => .error ⟨3, "mantle: métadonnées signées absentes\n"⟩
  | some _, none => .error ⟨3, "mantle: signature absente\n"⟩
  | some signed, some signature => .ok (signed, signature)

/-- The manifest against the files, and then the signature. -/
def check_integrity (tools : Tools) (tree : Tree) (key : Bytes) (signed signature : FileData) :
    Except Refusal Unit :=
  if verify_manifest tools tree ≠ 0 ∨
      !tools.openssl_verify key signature.content signed.content then
    .error ⟨3, "mantle: intégrité ou signature invalide\n"⟩
  else .ok ()

/-- The name of the package, or the refusal. `before` is what stands in the staging directory
before the archive is extracted there. -/
def verify_package_prepare (tools : Tools) (trust : Trust) (before : Tree) (pkg : Bytes)
    (p : Package) : Except Refusal Bytes := do
  check_archive pkg p
  let tree := tar_extract before p.entries
  check_metadata tree
  let name ← read_name tree
  let keyid ← read_key_id tree
  let key ← trusted_key trust keyid
  let (signed, signature) ← signature_files tree
  check_integrity tools tree key signed signature
  return name

/-- The pairs of hash and path that `install_package` acts on. A line that is not well formed
or that names a critical file makes the whole transaction fail. -/
def install_pairs (tree : Tree) : List (Bytes × Bytes) :=
  match tree [META, ascii "MANIFEST"] with
  | none => []
  | some manifest =>
    let lines := manifest_lines manifest.content
    if lines.all (fun line => (manifest_path line).any (!critical_path ·)) then
      lines.filterMap manifest_entry
    else []

end mantle.package
