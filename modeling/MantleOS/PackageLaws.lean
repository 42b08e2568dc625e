-- What the signature of a package binds. The checks look at the manifest and
-- at the signed bytes one after the other and never compare them, so every
-- accepted package has a twin with the same signature and another manifest.
import Mathlib.Data.List.GetD
import MantleOS.Package

open checked bytes ctext

namespace mantle.package

/-! ## Safe names -/

/-- A name of safe characters without a dot that does not start with a slash is safe. -/
theorem safe_rel_of_chars {path : Bytes} (hne : path ≠ []) (hhead : path.head? ≠ some 47)
    (hchars : ∀ b ∈ path, safe_char b = true ∧ b ≠ 46) : safe_rel path false = true := by
  have hback : ¬ [92] <:+: path := by
    intro h
    exact absurd (hchars 92 (h.subset (by simp))).1 (by decide)
  have hdots : ¬ [46, 46] <:+: path := by
    intro h
    exact (hchars 46 (h.subset (by simp))).2 rfl
  have hall : path.all safe_char = true := by
    rw [List.all_eq_true]
    exact fun b hb => (hchars b hb).1
  simp [safe_rel, hne, hhead, hback, hdots, hall]

variable (v : Fin 64 → Bool)

theorem letters_length : (letters v).length = 64 := by simp [letters]

theorem letters_ne_nil : letters v ≠ [] := by
  intro h
  have := letters_length v
  rw [h] at this
  cases this

theorem mem_letters {b : UInt8} (h : b ∈ letters v) : b = 97 ∨ b = 98 := by
  simp only [letters, List.mem_ofFn] at h
  obtain ⟨i, rfl⟩ := h
  cases v i <;> simp

/-- What holds of both letters holds of every byte of the word. -/
theorem forall_letters {P : UInt8 → Prop} (ha : P 97) (hb : P 98) : ∀ b ∈ letters v, P b := by
  intro b h
  rcases mem_letters v h with rfl | rfl
  · exact ha
  · exact hb

theorem safe_rel_letters : safe_rel (letters v) false = true := by
  apply safe_rel_of_chars (letters_ne_nil v)
  · intro h
    have hm : (47 : UInt8) ∈ letters v := List.mem_of_mem_head? (by rw [h]; rfl)
    exact absurd (mem_letters v hm) (by decide)
  · exact forall_letters v (by decide) (by decide)

/-- The path of the new file in the archive. -/
def newPath : Bytes := ascii "payload/" ++ letters v

/-- What holds of the letters of `payload/` and of the word holds of the path. -/
theorem forall_newPath {P : UInt8 → Prop} (h : ∀ b ∈ ascii "payload/ab", P b) :
    ∀ b ∈ newPath v, P b := by
  intro b hb
  rcases List.mem_append.mp hb with hb | hb
  · have hsub : ∀ c ∈ ascii "payload/", c ∈ ascii "payload/ab" :=
      forall_ascii (by decide)
    exact h b (hsub b hb)
  · exact forall_letters v (h 97 (by decide)) (h 98 (by decide)) b hb

theorem newPath_length : (newPath v).length = 72 := by
  rw [newPath, List.length_append, letters_length]
  rfl

theorem newPath_take : (newPath v).take 8 = ascii "payload/" := List.take_left' rfl

theorem newPath_drop : (newPath v).drop 8 = letters v := List.drop_left' rfl

theorem components_newPath : components (newPath v) = [ascii "payload", letters v] := by
  have hslash : (47 : UInt8) ∉ letters v := fun h => absurd (mem_letters v h) (by decide)
  have hdot : letters v ≠ [46] := by
    intro h
    have := letters_length v
    rw [h] at this
    cases this
  have hpath : newPath v = ascii "payload" ++ 47 :: letters v := rfl
  rw [components, hpath, List.splitOn_append_cons_self, List.splitOn_eq_singleton (by decide),
    List.splitOn_eq_singleton hslash]
  simp only [List.singleton_append, List.filter_cons, List.filter_nil]
  rw [if_pos (by decide), if_pos (by simp [letters_ne_nil v, hdot])]

/-! ## The twin -/

variable (tools : Tools)

/-- The one line of the new manifest, without its end. -/
def newLine : Bytes := tools.sha256 [] ++ (ascii "  " ++ newPath v)

theorem newLine_length : (newLine v tools).length = 138 := by
  rw [newLine, List.length_append, List.length_append, newPath_length, tools.sha256_length]
  rfl

/-- What holds of the digits, of a blank and of the letters of the path holds of the line. -/
theorem forall_newLine {P : UInt8 → Prop}
    (hd : ∀ b ∈ ascii "0123456789abcdef", P b)
    (h : ∀ b ∈ ascii " payload/ab", P b) : ∀ b ∈ newLine v tools, P b := by
  intro b hb
  rcases List.mem_append.mp hb with hb | hb
  · exact hd b (tools.sha256_digits [] b hb)
  rcases List.mem_append.mp hb with hb | hb
  · have : b = 32 := by simpa [ascii] using hb
    exact h b (by rw [this]; decide)
  · exact forall_newPath v (fun c hc => h c (List.mem_cons_of_mem _ hc)) b hb

def newManifest : FileData :=
  { content := newLine v tools ++ [10]
    size_lt := by
      rw [List.length_append, newLine_length]
      decide }

/-- The two members that the twin adds: a manifest with one line, and the empty file that the
line names. -/
def newEntries : List TarEntry :=
  [{ mode := ascii "-rw-r--r--", listed := ascii " root/root 139 1970-01-01 00:00 META/MANIFEST"
     name := ascii "META/MANIFEST", data := newManifest v tools },
   { mode := ascii "-rw-r--r--", listed := ascii " root/root 0 1970-01-01 00:00 " ++ newPath v
     name := newPath v, data := { content := [], size_lt := by decide } }]

/-- The archive with the two members at its end. -/
def twin (p : Package) : Package := { p with entries := p.entries ++ newEntries v tools }

/-- The files of the twin. -/
theorem tar_extract_twin (before : Tree) (p : Package) (path : List Bytes) :
    tar_extract before (twin v tools p).entries path =
      if path = [ascii "payload", letters v] then some { content := [], size_lt := by decide }
      else if path = [META, ascii "MANIFEST"] then some (newManifest v tools)
      else tar_extract before p.entries path := by
  have hmanifest : components (ascii "META/MANIFEST") = [META, ascii "MANIFEST"] := by decide
  have hmode : (ascii "-rw-r--r--").head? = some 45 := by decide
  simp only [tar_extract, twin, overlay, List.foldl_append, newEntries, List.foldl_cons,
    List.foldl_nil, TarEntry.file, components_newPath, hmanifest, hmode, if_true]
  by_cases h1 : path = [ascii "payload", letters v]
  · simp [h1]
  · by_cases h2 : path = [META, ascii "MANIFEST"]
    · have hmeta : META ≠ ascii "payload" := by decide
      simp [h2, hmeta, hmeta.symm]
    · simp [h1, h2, Ne.symm h1, Ne.symm h2]

/-- The files of `META/` other than the manifest are those of the package. -/
theorem tar_extract_twin_meta (before : Tree) (p : Package) {file : Bytes}
    (h : file ≠ ascii "MANIFEST") :
    tar_extract before (twin v tools p).entries [META, file] =
      tar_extract before p.entries [META, file] := by
  have hmeta : META ≠ ascii "payload" := by decide
  rw [tar_extract_twin, if_neg (by simp [hmeta]), if_neg (by simp [h])]

theorem tar_extract_twin_manifest (before : Tree) (p : Package) :
    tar_extract before (twin v tools p).entries [META, ascii "MANIFEST"] =
      some (newManifest v tools) := by
  have hmeta : META ≠ ascii "payload" := by decide
  rw [tar_extract_twin, if_neg (by simp [hmeta]), if_pos rfl]

/-! ## The archive is accepted -/

theorem quote_of_printable {name : Bytes} (h : ∀ b ∈ name, quote_byte b = [b]) :
    name.flatMap quote_byte = name := by
  induction name with
  | nil => rfl
  | cons b name ih =>
    rw [List.flatMap_cons, h b (by simp), ih (fun c hc => h c (List.mem_cons_of_mem _ hc))]
    rfl

theorem bad_name_newPath : bad_name (newPath v ++ [10]) = false := by
  have hcut : cutLine (newPath v ++ [10]) = newPath v :=
    cutLine_line (forall_newPath v (forall_ascii (by decide)))
  have hdot : (newPath v).take 2 ≠ ascii "./" := by
    intro h
    cases h
  have hsafe : safe_rel (newPath v) false = true := by
    apply safe_rel_of_chars
    · exact nofun
    · exact nofun
    · exact forall_newPath v (forall_ascii (by decide))
  simp [bad_name, hcut, hdot, newPath_take, hsafe]

/-- A line that starts with the mode of a plain file is not refused. -/
theorem bad_mode_plain (rest : Bytes) (h : 0 ∉ rest) : bad_mode (ascii "-rw-r--r--" ++ rest) = false := by
  have hnul : (0 : UInt8) ∉ ascii "-rw-r--r--" ++ rest := by
    rw [List.mem_append, not_or]
    exact ⟨by decide, h⟩
  rw [bad_mode, cstring_of_notMem hnul]
  have hletter : ∀ i < 10, (ascii "-rw-r--r--" ++ rest).getD i 0 = (ascii "-rw-r--r--").getD i 0 := by
    intro i hi
    exact List.getD_append _ _ _ _ hi
  simp only [hletter 0 (by decide), hletter 3 (by decide), hletter 6 (by decide),
    hletter 9 (by decide)]
  rw [Bool.and_eq_false_iff]
  exact Or.inr (by decide)

theorem stream_validate_twin_names (p : Package) (h : stream_validate_tar p false = false) :
    stream_validate_tar (twin v tools p) false = false := by
  have hquote : (newPath v).flatMap quote_byte = newPath v :=
    quote_of_printable (forall_newPath v (forall_ascii (by decide)))
  have hmanifest : (fgetsAll (MAX_PATH + 256) ((ascii "META/MANIFEST").flatMap quote_byte ++
      [10])).any bad_name = false := by decide
  have hline : fgetsAll (MAX_PATH + 256) (newPath v ++ [10]) = [newPath v ++ [10]] := by
    apply fgetsAll_line
    · exact fun h => absurd rfl (forall_newPath v (P := (· ≠ 10)) (forall_ascii (by decide)) 10 h)
    · rw [newPath_length]
      decide
  simp only [stream_validate_tar, Bool.false_eq_true, if_false, tar_list, twin,
    fgetsAll_flatMap, Bool.or_eq_false_iff] at h ⊢
  refine ⟨?_, h.2⟩
  rw [List.flatMap_append, List.any_append, h.1]
  simp only [newEntries, List.flatMap_cons, List.flatMap_nil, List.append_nil, List.any_append,
    hmanifest, hquote, hline, List.any_cons, List.any_nil, bad_name_newPath, Bool.or_self]

theorem stream_validate_twin_modes (p : Package) (h : stream_validate_tar p true = false) :
    stream_validate_tar (twin v tools p) true = false := by
  have hmanifest : (fgetsAll (MAX_PATH + 256) (ascii "-rw-r--r--" ++
      ascii " root/root 139 1970-01-01 00:00 META/MANIFEST" ++ [10])).any bad_mode = false := by
    decide
  set listed := ascii " root/root 0 1970-01-01 00:00 " ++ newPath v with hlisted
  have hchars : ∀ b ∈ listed, b ≠ 0 ∧ b ≠ 10 := by
    intro b hb
    rcases List.mem_append.mp hb with hb | hb
    · exact forall_ascii (P := fun c => c ≠ 0 ∧ c ≠ 10) (by decide) b hb
    · exact forall_newPath v (P := fun c => c ≠ 0 ∧ c ≠ 10) (forall_ascii (by decide)) b hb
  have hline : fgetsAll (MAX_PATH + 256) (ascii "-rw-r--r--" ++ listed ++ [10]) =
      [ascii "-rw-r--r--" ++ listed ++ [10]] := by
    apply fgetsAll_line
    · rw [List.mem_append, not_or]
      exact ⟨by decide, fun h => (hchars 10 h).2 rfl⟩
    · rw [List.length_append, hlisted, List.length_append, newPath_length]
      decide
  have hmode : bad_mode (ascii "-rw-r--r--" ++ listed ++ [10]) = false := by
    rw [List.append_assoc]
    apply bad_mode_plain
    rw [List.mem_append, not_or]
    exact ⟨fun h => (hchars 0 h).1 rfl, by decide⟩
  simp only [stream_validate_tar, if_true, tar_list_verbose, twin, fgetsAll_flatMap,
    Bool.or_eq_false_iff] at h ⊢
  refine ⟨?_, h.2⟩
  rw [List.flatMap_append, List.any_append, h.1]
  simp only [newEntries, List.flatMap_cons, List.flatMap_nil, List.append_nil, List.any_append,
    hmanifest, ← hlisted, hline, List.any_cons, List.any_nil, hmode, Bool.or_self]

theorem check_archive_twin (pkg : Bytes) (p : Package) (h : check_archive pkg p = .ok ()) :
    check_archive pkg (twin v tools p) = .ok () := by
  unfold check_archive at h ⊢
  split at h
  · cases h
  rename_i hpkg
  rw [if_neg hpkg]
  split at h
  · cases h
  rename_i htar
  simp only [Bool.or_eq_true, not_or, Bool.not_eq_true] at htar
  rw [if_neg]
  rw [stream_validate_twin_names v tools p htar.1.1, stream_validate_twin_modes v tools p htar.1.2]
  simpa [twin] using htar.2

/-! ## The files are accepted -/

theorem manifest_lines_new : manifest_lines (newManifest v tools).content = [newLine v tools] := by
  have hchars := forall_newLine v tools (P := fun b => b ≠ 0 ∧ b ≠ 13 ∧ b ≠ 10)
    (forall_ascii (by decide)) (forall_ascii (by decide))
  have hline : fgetsAll (MAX_PATH + 128) (newLine v tools ++ [10]) = [newLine v tools ++ [10]] := by
    apply fgetsAll_line
    · exact fun h => (hchars 10 h).2.2 rfl
    · rw [newLine_length]
      decide
  rw [manifest_lines, newManifest, hline, List.map_singleton, cutLine_line hchars]

theorem all_isxdigit_sha256 (b : Bytes) : (tools.sha256 b).all isxdigit = true := by
  have hdigit : ∀ c ∈ ascii "0123456789abcdef", isxdigit c = true := forall_ascii (by decide)
  rw [List.all_eq_true]
  exact fun c hc => hdigit c (tools.sha256_digits b c hc)

theorem manifest_entry_newLine : manifest_entry (newLine v tools) = some (tools.sha256 [], letters v) := by
  have hspace : ∀ b ∈ ascii "0123456789abcdef", isspace b = false :=
    forall_ascii (by decide)
  have hlen := tools.sha256_length []
  have hne : tools.sha256 [] ≠ [] := by
    intro h
    rw [h] at hlen
    cases hlen
  have hhash : scanWord 79 (newLine v tools) = (tools.sha256 [], ascii "  " ++ newPath v) := by
    apply scanWord_word hne
    · exact fun b hb => hspace b (tools.sha256_digits [] b hb)
    · omega
    · intro b hb
      cases hb
      rfl
  have hpath : scanWord 4095 (ascii "  " ++ newPath v) = (newPath v, []) := by
    rw [show ascii "  " ++ newPath v = 32 :: 32 :: newPath v from rfl, scanWord_blank,
      scanWord_blank]
    have h : scanWord 4095 (newPath v ++ []) = (newPath v, []) :=
      scanWord_word nofun (forall_newPath v (forall_ascii (by decide))) (by rw [newPath_length]; decide) nofun
    rwa [List.append_nil] at h
  have hnew : newPath v ≠ [] := nofun
  simp [manifest_entry, hhash, hpath, hne, hnew, hlen, newPath_take, newPath_drop,
    safe_rel_letters, all_isxdigit_sha256]

theorem sha256sum_check_new (tree : Tree)
    (h : tree [ascii "payload", letters v] = some { content := [], size_lt := by decide }) :
    sha256sum_check tools tree (newManifest v tools).content = 0 := by
  have hlower : ∀ b ∈ ascii "0123456789abcdef", lower b = b := forall_ascii (by decide)
  have hlen := tools.sha256_length []
  have hnew : (10 : UInt8) ∉ newLine v tools := fun h =>
    absurd rfl (forall_newLine v tools (P := (· ≠ 10)) (forall_ascii (by decide))
      (forall_ascii (by decide)) 10 h)
  have htake : (newLine v tools).take 64 = tools.sha256 [] := List.take_left' hlen
  have hdrop : (newLine v tools).drop 64 = 32 :: 32 :: newPath v := List.drop_left' hlen
  have hsum : checksum_line (newLine v tools) = some (tools.sha256 [], newPath v) := by
    have h64 : (newLine v tools)[64]? = some 32 := by
      rw [← Nat.add_zero 64, ← List.getElem?_drop, hdrop]
      rfl
    have h65 : (newLine v tools)[65]? = some 32 := by
      rw [show 65 = 64 + 1 from rfl, ← List.getElem?_drop, hdrop]
      rfl
    have h66 : (newLine v tools).drop 66 = newPath v := by
      rw [show 66 = 64 + 2 from rfl, ← List.drop_drop, hdrop]
      rfl
    have hne : newPath v ≠ [] := nofun
    simp [checksum_line, htake, hlen, all_isxdigit_sha256, h64, h65, h66, hne]
  have hmap : (tools.sha256 []).map lower = tools.sha256 [] := by
    rw [List.map_congr_left fun b hb => hlower b (tools.sha256_digits [] b hb), List.map_id']
  have hsplit : ((newLine v tools ++ [10]).splitOn 10).filterMap checksum_line =
      [(tools.sha256 [], newPath v)] := by
    rw [List.splitOn_append_cons_self, List.splitOn_eq_singleton hnew]
    simp only [List.singleton_append, List.splitOn_nil, List.filterMap_cons, hsum]
    rfl
  simp [sha256sum_check, newManifest, hsplit, components_newPath, h, hmap]

theorem verify_manifest_twin (before : Tree) (p : Package) :
    verify_manifest tools (tar_extract before (twin v tools p).entries) = 0 := by
  have hfile : tar_extract before (twin v tools p).entries [ascii "payload", letters v] =
      some { content := [], size_lt := by decide } := by
    rw [tar_extract_twin, if_pos rfl]
  simp only [verify_manifest, tar_extract_twin_manifest]
  rw [manifest_lines_new, if_pos (by simp [manifest_path, manifest_entry_newLine]),
    sha256sum_check_new v tools _ hfile]

/-- The checks after the archive read only files of `META/` that both packages share, and the
manifest, which passes on its own. -/
theorem verify_package_prepare_twin (trust : Trust) (before : Tree) (pkg : Bytes) (p : Package)
    (name : Bytes) (h : verify_package_prepare tools trust before pkg p = .ok name) :
    verify_package_prepare tools trust before pkg (twin v tools p) = .ok name := by
  have hsame : ∀ file, file ≠ ascii "MANIFEST" →
      tar_extract before (twin v tools p).entries [META, file] =
        tar_extract before p.entries [META, file] :=
    fun _ h => tar_extract_twin_meta v tools before p h
  unfold verify_package_prepare at h ⊢
  obtain ⟨_, harchive, h⟩ := bind_eq_ok.mp h
  rw [check_archive_twin v tools pkg p harchive, ok_bind]
  have hmetadata : check_metadata (tar_extract before (twin v tools p).entries) =
      check_metadata (tar_extract before p.entries) := by
    simp only [check_metadata, hsame (ascii "metadata.json") (by decide)]
  have hname : read_name (tar_extract before (twin v tools p).entries) =
      read_name (tar_extract before p.entries) := by
    simp only [read_name, hsame (ascii "NAME") (by decide)]
  have hkeyid : read_key_id (tar_extract before (twin v tools p).entries) =
      read_key_id (tar_extract before p.entries) := by
    simp only [read_key_id, hsame (ascii "KEY-ID") (by decide)]
  have hfiles : signature_files (tar_extract before (twin v tools p).entries) =
      signature_files (tar_extract before p.entries) := by
    simp only [signature_files, hsame (ascii "SIGNED") (by decide),
      hsame (ascii "SIGNATURE") (by decide)]
  simp only [hmetadata, hname, hkeyid, hfiles]
  obtain ⟨_, h1, h⟩ := bind_eq_ok.mp h
  obtain ⟨name', h2, h⟩ := bind_eq_ok.mp h
  obtain ⟨keyid, h3, h⟩ := bind_eq_ok.mp h
  obtain ⟨key, h4, h⟩ := bind_eq_ok.mp h
  obtain ⟨⟨signed, signature⟩, h5, h⟩ := bind_eq_ok.mp h
  obtain ⟨_, h6, h⟩ := bind_eq_ok.mp h
  rw [h1, ok_bind, h2, ok_bind, h3, ok_bind, h4, ok_bind, h5, ok_bind]
  have hssl : tools.openssl_verify key signature.content signed.content = true := by
    by_contra hno
    rw [check_integrity, if_pos (Or.inr (by simpa using hno))] at h6
    cases h6
  have hintegrity : check_integrity tools (tar_extract before (twin v tools p).entries) key signed
      signature = .ok () := by
    rw [check_integrity, verify_manifest_twin, if_neg (by simp [hssl])]
  rw [hintegrity, ok_bind]
  exact h

/-! ## What is installed -/

theorem critical_path_letters : critical_path (letters v) = false := by
  have hne : ∀ s : Bytes, s.length < 64 → letters v ≠ s := by
    rintro s hs rfl
    rw [letters_length] at hs
    omega
  simp only [critical_path, Bool.or_eq_false_iff, decide_eq_false_iff_not]
  refine ⟨⟨⟨⟨⟨⟨?_, ?_⟩, ?_⟩, ?_⟩, ?_⟩, ?_⟩, ?_⟩ <;> exact hne _ (by decide)

theorem install_pairs_twin (before : Tree) (p : Package) :
    install_pairs (tar_extract before (twin v tools p).entries) =
      [(tools.sha256 [], letters v)] := by
  simp only [install_pairs, tar_extract_twin_manifest]
  rw [manifest_lines_new, if_pos (by
    simp [manifest_path, manifest_entry_newLine, critical_path_letters])]
  simp [manifest_entry_newLine]

/-- The path of a line of the manifest stands in the manifest. -/
theorem infix_of_manifest_entry {line hash path : Bytes} (h : manifest_entry line = some (hash, path)) :
    path <:+: line := by
  simp only [manifest_entry] at h
  split at h
  · cases h
  split at h
  · cases h
  split at h
  · cases h
  cases h
  exact ((List.drop_suffix 8 _).isInfix.trans (infix_of_scanWord 4095 _).1).trans
    (infix_of_scanWord 79 line).2

theorem infix_of_install_pairs {tree : Tree} {hash path : Bytes} (h : (hash, path) ∈ install_pairs tree) :
    ∃ manifest, tree [META, ascii "MANIFEST"] = some manifest ∧ path <:+: manifest.content := by
  unfold install_pairs at h
  cases hm : tree [META, ascii "MANIFEST"] with
  | none =>
    rw [hm] at h
    cases h
  | some manifest =>
    rw [hm] at h
    simp only at h
    split at h
    · obtain ⟨line, hline, hentry⟩ := List.mem_filterMap.mp h
      obtain ⟨chunk, hchunk, rfl⟩ := List.mem_map.mp hline
      exact ⟨manifest, rfl, ((infix_of_manifest_entry hentry).trans (infix_of_cutLine chunk)).trans
        (infix_of_fgetsAll hchunk)⟩
    · cases h

/-! ## The law -/

/-- The two packages have the same key id, the same signed bytes and the same signature. -/
structure SameSignature (before : Tree) (p q : Package) : Prop where
  key_id : tar_extract before q.entries [META, ascii "KEY-ID"] =
    tar_extract before p.entries [META, ascii "KEY-ID"]
  signed : tar_extract before q.entries [META, ascii "SIGNED"] =
    tar_extract before p.entries [META, ascii "SIGNED"]
  signature : tar_extract before q.entries [META, ascii "SIGNATURE"] =
    tar_extract before p.entries [META, ascii "SIGNATURE"]

theorem sameSignature_twin (before : Tree) (p : Package) :
    SameSignature before p (twin v tools p) :=
  ⟨tar_extract_twin_meta v tools before p (by decide),
    tar_extract_twin_meta v tools before p (by decide),
    tar_extract_twin_meta v tools before p (by decide)⟩

/-- The content of a file, or nothing. -/
def contentOf (file : Option FileData) : Bytes :=
  match file with
  | some file => file.content
  | none => []

theorem contentOf_length_lt (file : Option FileData) : (contentOf file).length < 2 ^ 63 := by
  cases file with
  | none => decide
  | some file => exact file.size_lt

/-- For every accepted package there is another accepted one with the same key id, the same
signed bytes and the same signature that installs a file whose path stands neither in the
signed bytes nor in the manifest of the first. So the signature binds no manifest. -/
theorem no_signature_binds_a_manifest (tools : Tools) (trust : Trust) (before : Tree) (pkg : Bytes)
    (p : Package) (name : Bytes)
    (h : verify_package_prepare tools trust before pkg p = .ok name) :
    ∃ q, verify_package_prepare tools trust before pkg q = .ok name ∧ SameSignature before p q ∧
      ∃ hash path, (hash, path) ∈ install_pairs (tar_extract before q.entries) ∧
        (hash, path) ∉ install_pairs (tar_extract before p.entries) ∧
        ¬ path <:+: contentOf (tar_extract before p.entries [META, ascii "SIGNED"]) := by
  set signed := contentOf (tar_extract before p.entries [META, ascii "SIGNED"])
  set manifest := contentOf (tar_extract before p.entries [META, ascii "MANIFEST"]) with hmanifest
  have hlen : (signed ++ manifest).length < 2 ^ 64 := by
    have h1 : signed.length < 2 ^ 63 := contentOf_length_lt _
    have h2 : manifest.length < 2 ^ 63 := contentOf_length_lt _
    rw [List.length_append]
    omega
  obtain ⟨v, hv⟩ := exists_letters_missing 64 (by decide) (signed ++ manifest) hlen
  refine ⟨twin v tools p, verify_package_prepare_twin v tools trust before pkg p name h,
    sameSignature_twin v tools before p, tools.sha256 [], letters v, ?_, ?_, ?_⟩
  · rw [install_pairs_twin]
    exact List.mem_singleton_self _
  · intro hold
    obtain ⟨m, hm, hin⟩ := infix_of_install_pairs hold
    have hcontent : manifest = m.content := by rw [hmanifest, hm, contentOf]
    rw [← hcontent] at hin
    exact hv (hin.trans (List.suffix_append _ _).isInfix)
  · intro hin
    exact hv (hin.trans (List.prefix_append _ _).isInfix)

/-! ## One package and its twin -/

/-- The last `n` hexadecimal digits of a value. -/
def hexDigits : Nat → Nat → Bytes
  | 0, _ => []
  | n + 1, value =>
    hexDigits n (value / 16) ++
      [if value % 16 < 10 then .ofNat (48 + value % 16) else .ofNat (87 + value % 16)]

theorem hexDigits_length (n value : Nat) : (hexDigits n value).length = n := by
  induction n generalizing value with
  | zero => rfl
  | succ n ih => simp [hexDigits, ih]

theorem hexDigits_digits (n value : Nat) :
    ∀ c ∈ hexDigits n value, c ∈ ascii "0123456789abcdef" := by
  induction n generalizing value with
  | zero => exact nofun
  | succ n ih =>
    have hdigit : ∀ d < 16, (if d < 10 then UInt8.ofNat (48 + d) else .ofNat (87 + d)) ∈
        ascii "0123456789abcdef" := by decide
    intro c hc
    rcases List.mem_append.mp hc with hc | hc
    · exact ih _ c hc
    · rw [List.mem_singleton.mp hc]
      exact hdigit _ (Nat.mod_lt _ (by decide))

/-- The SHA-256 sums of the empty file and of the file with the line `x`. -/
def testDigest (b : Bytes) : Nat :=
  if b = [] then 0xe3b0c44298fc1c149afbf4c8996fb92427ae41e4649b934ca495991b7852b855
  else if b = [120, 10] then 0x73cb3858a687a8494ca3323053016282f3dad39d42cf62ca4e79dda2aac7d9ac
  else 0

def testMetadata : Bytes :=
  [123] ++ required.flatMap (fun field => [34] ++ ascii field ++ [34, 58, 48, 44]) ++ [125, 10]

/-- A line of a manifest, for the file of this content under this path. -/
def testLine (content path : Bytes) : Bytes :=
  hexDigits 64 (testDigest content) ++ [32, 32] ++ ascii "payload/" ++ path ++ [10]

def testSigned : Bytes := testMetadata ++ testLine [120, 10] (ascii "usr/x")

/-- A key with one signature, on the bytes of `testSigned`. -/
def testTools : Tools :=
  { openssl_verify := fun key signature signed =>
      key = [1] && signature = [2] && signed = testSigned
    sha256 := fun b => hexDigits 64 (testDigest b)
    sha256_length := fun _ => hexDigits_length 64 _
    sha256_digits := fun _ => hexDigits_digits 64 _ }

def testTrust : Trust :=
  { revoked := some (ascii "old\n")
    keys := fun keyid => if keyid = ascii "key" then some [1] else none }

/-- A plain file as a member. -/
def member (name : Bytes) (data : FileData) : TarEntry :=
  { mode := ascii "-rw-r--r--", listed := ascii " root/root 0 1970-01-01 00:00 " ++ name, name, data }

/-- A package with one file, whose signed bytes are `testSigned`. -/
def testPackage (manifest path content : Bytes) (hm : manifest.length < 2 ^ 63)
    (hc : content.length < 2 ^ 63) : Package :=
  { entries :=
      [member (ascii "META/metadata.json") ⟨testMetadata, by decide⟩,
       member (ascii "META/NAME") ⟨ascii "t\n", by decide⟩,
       member (ascii "META/MANIFEST") ⟨manifest, hm⟩,
       member (ascii "META/KEY-ID") ⟨ascii "key\n", by decide⟩,
       member (ascii "META/SIGNED") ⟨testSigned, by decide +kernel⟩,
       member (ascii "META/SIGNATURE") ⟨[2], by decide⟩,
       member (ascii "payload/" ++ path) ⟨content, hc⟩]
    readable := true }

/-- The manifest and the file that the signed bytes describe. -/
def signedPackage : Package :=
  testPackage (testLine [120, 10] (ascii "usr/x")) (ascii "usr/x") [120, 10] (by decide)
    (by decide)

/-- Another manifest and another file under the same signature. -/
def swappedPackage : Package :=
  testPackage (testLine [] (ascii "bin/y")) (ascii "bin/y") [] (by decide) (by decide)

theorem signedPackage_accepted :
    verify_package_prepare testTools testTrust (fun _ => none) (ascii "t.mtpkg") signedPackage =
      .ok (ascii "t") := by
  decide +kernel

theorem no_signature_binds_the_signed_package :
    ∃ q, verify_package_prepare testTools testTrust (fun _ => none) (ascii "t.mtpkg") q =
        .ok (ascii "t") ∧ SameSignature (fun _ => none) signedPackage q ∧
      ∃ hash path, (hash, path) ∈ install_pairs (tar_extract (fun _ => none) q.entries) ∧
        (hash, path) ∉ install_pairs (tar_extract (fun _ => none) signedPackage.entries) ∧
        ¬ path <:+: contentOf (tar_extract (fun _ => none) signedPackage.entries
          [META, ascii "SIGNED"]) :=
  no_signature_binds_a_manifest testTools testTrust (fun _ => none) (ascii "t.mtpkg")
    signedPackage (ascii "t") signedPackage_accepted

/-- Both packages are accepted under one signature, and the second installs a file of which
the signed bytes say nothing. -/
theorem swapped_manifest_is_accepted :
    verify_package_prepare testTools testTrust (fun _ => none) (ascii "t.mtpkg") signedPackage =
      .ok (ascii "t") ∧
    verify_package_prepare testTools testTrust (fun _ => none) (ascii "t.mtpkg") swappedPackage =
      .ok (ascii "t") ∧
    SameSignature (fun _ => none) signedPackage swappedPackage ∧
    install_pairs (tar_extract (fun _ => none) signedPackage.entries) =
      [(testTools.sha256 [120, 10], ascii "usr/x")] ∧
    install_pairs (tar_extract (fun _ => none) swappedPackage.entries) =
      [(testTools.sha256 [], ascii "bin/y")] ∧
    ¬ ascii "bin/y" <:+: testSigned ∧ ¬ testTools.sha256 [] <:+: testSigned :=
  ⟨signedPackage_accepted, by decide +kernel,
    ⟨by decide, by decide +kernel, by decide⟩, by decide,
    by decide, by decide +kernel, by decide +kernel⟩

/-! ## Refusals -/

/-- The refusals of a check have a status other than 0. -/
def Refuses {α : Type} (x : Except Refusal α) : Prop := ∀ r, x = .error r → r.status ≠ 0

theorem Refuses.ok {α : Type} (a : α) : Refuses (.ok a) := nofun

theorem Refuses.error {α : Type} {r : Refusal} (h : r.status ≠ 0) :
    Refuses (.error r : Except Refusal α) := by
  intro s hs
  cases hs
  exact h

theorem Refuses.bind {α β : Type} {x : Except Refusal α} {f : α → Except Refusal β}
    (hx : Refuses x) (hf : ∀ a, Refuses (f a)) : Refuses (x >>= f) := by
  cases x with
  | ok a => exact hf a
  | error e => exact .error (hx e rfl)

theorem refuses_three {α : Type} (message : String) :
    Refuses (.error ⟨3, message⟩ : Except Refusal α) := .error (by simp)

theorem check_archive_refuses (pkg : Bytes) (p : Package) : Refuses (check_archive pkg p) := by
  rw [check_archive]
  split
  · exact .error (by simp)
  split
  · exact refuses_three _
  · exact .ok _

theorem check_metadata_refuses (tree : Tree) : Refuses (check_metadata tree) := by
  rw [check_metadata]
  split
  · exact refuses_three _
  · dsimp only
    split
    · exact refuses_three _
    · exact .ok _

theorem read_name_refuses (tree : Tree) : Refuses (read_name tree) := by
  rw [read_name]
  split
  · split
    · exact .ok _
    · exact refuses_three _
  · exact refuses_three _

theorem read_key_id_refuses (tree : Tree) : Refuses (read_key_id tree) := by
  rw [read_key_id]
  split
  · split
    · exact .ok _
    · exact refuses_three _
  · exact refuses_three _

theorem trusted_key_refuses (trust : Trust) (keyid : Bytes) : Refuses (trusted_key trust keyid) := by
  rw [trusted_key]
  split
  · exact refuses_three _
  split
  · exact refuses_three _
  · exact .ok _

theorem signature_files_refuses (tree : Tree) : Refuses (signature_files tree) := by
  rw [signature_files]
  split
  · exact refuses_three _
  · exact refuses_three _
  · exact .ok _

theorem check_integrity_refuses (tools : Tools) (tree : Tree) (key : Bytes)
    (signed signature : FileData) : Refuses (check_integrity tools tree key signed signature) := by
  rw [check_integrity]
  split
  · exact refuses_three _
  · exact .ok _

end mantle.package
