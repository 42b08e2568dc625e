-- What the listing of the root directory says. A name is left out when it is
-- a word of the text written so far, and the room is tested twice: before
-- each name, and once more for the newline and the NUL.
import MantleOS.CText
import MantleOS.RootfsLaws

open checked bytes ctext
open Window (HoldsAll)

namespace mantle.rootfs

/-! ## The pure model -/

/-- The bytes after the first one of a path, up to the next `/` or NUL. -/
def firstComponent (path : Bytes) : Bytes := (path.drop 1).takeWhile (fun b => b ≠ 47 ∧ b ≠ 0)

/-- The first components of the paths longer than one byte, in the order of the table. -/
def componentsOf (entries : List Entry) : List Bytes :=
  (entries.filter (fun e => 1 < e.path.length)).map (fun e => firstComponent e.path)

/-- The pieces of a name between spaces and newlines. -/
def words (name : Bytes) : List Bytes := name.splitOnP isBreak

/-- The names that are no word of a name before them. -/
def listedAfter (before : List Bytes) : List Bytes → List Bytes
  | [] => []
  | name :: names =>
    if name ∈ before.flatMap words then listedAfter (before ++ [name]) names
    else name :: listedAfter (before ++ [name]) names

/-- The distinct first components, in the order in which they first appear. -/
def namesOf (state : rootfs_state) : List Bytes := (componentsOf (entriesOf state)).eraseDups

/-- The first components that are no word of one before them. -/
def listed (state : rootfs_state) : List Bytes := listedAfter [] (componentsOf (entriesOf state))

/-- The length of the names, with one byte for the separator after each. -/
def totalOf (names : List Bytes) : Nat := (names.map (fun name => name.length + 1)).sum

/-- The names as the loop writes them, each with a space after it. -/
def lineOf (names : List Bytes) : Bytes := names.flatMap (· ++ [32])

theorem lineOf_cons (name : Bytes) (names : List Bytes) :
    lineOf (name :: names) = name ++ 32 :: lineOf names := by
  simp [lineOf]

theorem lineOf_length_le (names more : List Bytes) :
    (lineOf names).length ≤ (lineOf (names ++ more)).length := by
  simp [lineOf]

theorem lineOf_concat (names : List Bytes) (name : Bytes) :
    lineOf (names ++ [name]) = lineOf names ++ (name ++ [32]) := by
  simp [lineOf]

/-- The last space stands where the newline goes. -/
theorem lineOf_eq_intercalate {names : List Bytes} (h : names ≠ []) :
    lineOf names = List.intercalate [32] names ++ [32] := by
  induction names with
  | nil => exact absurd rfl h
  | cons name names ih =>
    cases names with
    | nil => simp [lineOf]
    | cons next names =>
      rw [lineOf_cons, ih (by simp), List.intercalate_cons_cons]
      simp

theorem words_of_plain {name : Bytes} (h : ∀ b ∈ name, isBreak b = false) : words name = [name] :=
  List.splitOnP_eq_singleton h

/-- Read back word by word, the line gives the words of its names, and an empty rest. -/
theorem splitOnP_lineOf (names : List Bytes) :
    (lineOf names).splitOnP isBreak = names.flatMap words ++ [[]] := by
  induction names with
  | nil => rfl
  | cons name names ih =>
    rw [lineOf_cons, List.splitOnP_append_cons _ _ (by decide), ih, List.flatMap_cons, words,
      List.append_assoc]

/-- Names without breaks are left out only when they were named before. -/
theorem listedAfter_plain (before : List Bytes) {names : List Bytes}
    (hbefore : ∀ name ∈ before, ∀ b ∈ name, isBreak b = false)
    (hnames : ∀ name ∈ names, ∀ b ∈ name, isBreak b = false) :
    listedAfter before names = (names.filter (· ∉ before)).eraseDups := by
  induction names generalizing before with
  | nil => rfl
  | cons name names ih =>
    rw [List.forall_mem_cons] at hnames
    have hwords : before.flatMap words = before := by
      have : before.flatMap words = before.flatMap (fun name => [name]) := by
        apply List.flatMap_congr
        intro n hn
        exact words_of_plain (hbefore n hn)
      rw [this, List.flatMap_singleton']
    have hrest := ih (before ++ [name]) (by
      intro n hn
      rcases List.mem_append.mp hn with hn | hn
      · exact hbefore n hn
      · rw [List.mem_singleton.mp hn]
        exact hnames.1) hnames.2
    rw [listedAfter, hwords, hrest]
    by_cases hin : name ∈ before
    · rw [if_pos hin, List.filter_cons_of_neg (by simpa using hin)]
      congr 1
      apply List.filter_congr
      intro n _
      have hne : n ∉ before → n ≠ name := fun hn he => hn (he ▸ hin)
      simpa using hne
    · rw [if_neg hin, List.filter_cons_of_pos (by simpa using hin), List.eraseDups_cons,
        List.filter_filter]
      congr 2
      apply List.filter_congr
      intro n _
      by_cases hn : n = name <;> simp [hn]

/-! ## The loops -/

section Loops

variable {base size : Nat}

/-- A text that is not empty and ends with a break starts with a word and its break. -/
theorem first_word {text : Bytes} {pieces : List Bytes} (hne : text ≠ [])
    (h : text.splitOnP isBreak = pieces ++ [[]]) :
    ∃ b rest more, text = text.takeWhile (!isBreak ·) ++ b :: rest ∧
      pieces = text.takeWhile (!isBreak ·) :: more ∧ rest.splitOnP isBreak = more ++ [[]] := by
  have hplain : ∀ b ∈ text.takeWhile (!isBreak ·), isBreak b = false := by
    intro b hb
    simpa using List.mem_takeWhile_imp hb
  have hsplit := (@List.takeWhile_append_dropWhile _ (!isBreak ·) text).symm
  cases hdrop : text.dropWhile (!isBreak ·) with
  | nil =>
    -- No break: the split gives the text alone, and its last piece is not empty.
    rw [hdrop, List.append_nil] at hsplit
    rw [← hsplit] at hplain
    rw [List.splitOnP_eq_singleton hplain] at h
    cases pieces with
    | nil => exact absurd (List.singleton_inj.mp h) hne
    | cons piece pieces => simp at h
  | cons b rest =>
    have hb : isBreak b = true := by
      have hhead := @List.head_dropWhile_not _ (!isBreak ·) text (by simp [hdrop])
      simpa [hdrop] using hhead
    rw [hdrop] at hsplit
    rw [hsplit, List.splitOnP_append_cons _ _ hb, List.splitOnP_eq_singleton hplain,
      List.singleton_append] at h
    cases pieces with
    | nil =>
      rw [List.nil_append, List.cons.injEq] at h
      exact absurd h.2 (List.splitOnP_ne_nil _ _)
    | cons piece more =>
      rw [List.cons_append, List.cons.injEq] at h
      exact ⟨b, rest, more, hsplit, by rw [h.1], h.2⟩

/-- On a text that ends with a break, `name_seen` looks for the name among the words. -/
theorem name_seen_loop_eq (image : Bytes) (memory : Window base size)
    (output length name name_length turns start : Nat) (pieces : List Bytes)
    (h : HoldsAll base size output length) (hname : name + name_length ≤ image.length)
    (hturns : length - start ≤ turns)
    (hpieces : (memory.bytesAt (output + start) (length - start)).splitOnP isBreak =
      pieces ++ [[]]) :
    name_seen_loop image memory output length name name_length turns start =
      .ok (slice image name name_length ∈ pieces) := by
  induction turns generalizing start pieces with
  | zero =>
    rw [show length - start = 0 by omega] at hpieces
    cases pieces with
    | nil => rfl
    | cons piece pieces => simp [Window.bytesAt] at hpieces
  | succ turns ih =>
    unfold name_seen_loop
    split
    · rename_i hstart
      have hne : memory.bytesAt (output + start) (length - start) ≠ [] := by
        rw [← List.length_pos_iff, Window.bytesAt_length]
        omega
      obtain ⟨b, rest, more, htext, hfirst, hmore⟩ := first_word hne hpieces
      rw [word_end_eq memory output (length - start) start (h.part start _ (by omega)), ok_bind]
      generalize hword : (memory.bytesAt (output + start) (length - start)).takeWhile
        (!isBreak ·) = word at htext hfirst ⊢
      have hlen : word.length + 1 ≤ length - start := by
        have := congrArg List.length htext
        rw [Window.bytesAt_length, List.length_append, List.length_cons] at this
        omega
      have hrest : memory.bytesAt (output + (start + word.length + 1))
          (length - (start + word.length + 1)) = rest := by
        have hdrop := Window.bytesAt_drop memory (output + start) hlen
        rw [htext, List.append_cons, List.drop_left' (by simp)] at hdrop
        rw [hdrop]
        congr 1 <;> omega
      have hnext := ih (start + word.length + 1) more (by omega) (by rw [hrest, hmore])
      have hhere : memory.bytesAt (output + start) word.length = word := by
        rw [← Window.bytesAt_take memory (output + start) (show word.length ≤ length - start by omega),
          htext, List.take_left' rfl]
      rw [Nat.add_sub_cancel_left, hfirst, hnext]
      split
      · rename_i heq
        rw [same_name_eq image memory (output + start) name name_length 0
          (h.part start _ (by omega)) (by omega), ok_bind, Nat.add_zero, Nat.add_zero, ← heq, hhere]
        by_cases hsame : word = slice image name word.length
        · simp [← hsame]
        · simp [hsame, Ne.symm hsame]
      · rename_i hne
        have : slice image name name_length ≠ word := by
          rintro rfl
          exact hne (slice_length hname)
        simp [this]
    · rw [show length - start = 0 by omega] at hpieces
      cases pieces with
      | nil => rfl
      | cons piece pieces => simp [Window.bytesAt] at hpieces

theorem componentsOf_walk_short {image : Bytes} {left cursor : Nat} (hs : Sound image cursor)
    (h : (entryOf image cursor).path_length ≤ 1) :
    componentsOf (walk image (left + 1) cursor) =
      componentsOf (walk image left (nextCursor image cursor)) := by
  have hlen : (viewOf image cursor).path.length = (entryOf image cursor).path_length :=
    slice_length hs.path_in
  rw [walk, componentsOf, List.filter_cons_of_neg (by simp [hlen, h])]
  rfl

theorem componentsOf_walk_long {image : Bytes} {left cursor : Nat} (hs : Sound image cursor)
    (h : ¬ (entryOf image cursor).path_length ≤ 1) :
    componentsOf (walk image (left + 1) cursor) = firstComponent (viewOf image cursor).path ::
      componentsOf (walk image left (nextCursor image cursor)) := by
  have hlen : (viewOf image cursor).path.length = (entryOf image cursor).path_length :=
    slice_length hs.path_in
  rw [walk, componentsOf, List.filter_cons_of_pos (by simp [hlen]; omega)]
  rfl

/-- The bytes that the loop takes for the name of an entry. -/
theorem firstComponent_viewOf (image : Bytes) (cursor : Nat) :
    firstComponent (viewOf image cursor).path =
      (slice image (cursor + entrySize + 1) ((entryOf image cursor).path_length - 1)).takeWhile
        (fun b => b ≠ 47 ∧ b ≠ 0) := by
  simp only [firstComponent, viewOf, drop_slice]

theorem firstComponent_length (image : Bytes) (cursor : Nat) :
    (firstComponent (viewOf image cursor).path).length ≤ (entryOf image cursor).path_length - 1 := by
  rw [firstComponent_viewOf]
  exact takeWhile_slice_length_le _ _ _ _

/-- A word has no breaks, so a name that is one adds only itself to the words. -/
theorem seen_after_word {before kept : List Bytes} {name : Bytes}
    (hword : name ∈ kept.flatMap words)
    (hseen : ∀ word, word ∈ kept.flatMap words ↔ word ∈ before.flatMap words) :
    ∀ word, word ∈ kept.flatMap words ↔ word ∈ (before ++ [name]).flatMap words := by
  obtain ⟨longer, _, hpiece⟩ := List.mem_flatMap.mp hword
  intro word
  rw [List.flatMap_append, List.flatMap_singleton, words_of_plain (no_break_in_piece hpiece),
    List.mem_append, List.mem_singleton, ← hseen]
  exact ⟨.inl, fun hw => hw.elim id (fun he => he ▸ hword)⟩

/-- With `kept` written and `before` walked, the loop writes the rest of the listing when there is
room for it. -/
theorem list_loop.writes (image : Bytes) (output output_size left cursor : Nat)
    (before kept : List Bytes) (memory : Window base size) (hsize : image.length < 2 ^ 32)
    (hbuf : HoldsAll base size output output_size) (h : Walkable image left cursor)
    (hseen : ∀ word, word ∈ kept.flatMap words ↔ word ∈ before.flatMap words)
    (htext : memory.bytesAt output (lineOf kept).length = lineOf kept)
    (hfit : (lineOf kept).length < output_size)
    (hroom : (lineOf kept).length + 256 * left < 2 ^ 32) :
    Yields (list_loop image output output_size left cursor (lineOf kept).length memory) (fun r =>
      let names := kept ++ listedAfter before (componentsOf (walk image left cursor))
      if (lineOf names).length < output_size then
        r.2 = some (lineOf names).length ∧
          r.1.bytesAt output (lineOf names).length = lineOf names
      else r.2 = none) := by
  induction left generalizing cursor before kept memory with
  | zero =>
    have hnames : kept ++ listedAfter before (componentsOf (walk image 0 cursor)) = kept :=
      List.append_nil kept
    simp only [list_loop, yields_ok, hnames, if_pos hfit]
    exact ⟨trivial, htext⟩
  | succ left ih =>
    obtain ⟨hs, hrest⟩ := h
    have hpath := hs.path_in
    have hle := hs.path_le
    have hin := hs.entry_in
    unfold nextCursor at hpath
    unfold list_loop
    rw [entryAt_eq hin, ok_bind, add32_eq (by omega), ok_bind, add32_eq (by omega), ok_bind]
    split
    · rename_i hshort
      rw [componentsOf_walk_short hs hshort]
      exact ih (nextCursor image cursor) before kept memory hrest hseen htext hfit (by omega)
    · rename_i hlong
      rw [componentsOf_walk_long hs hlong]
      have hbytes := slice_takeWhile image (cursor + entrySize + 1)
        ((entryOf image cursor).path_length - 1) (fun b => b ≠ 47 ∧ b ≠ 0)
      simp only []
      rw [component_loop_eq image _ _ 0 (by omega), ok_bind, Nat.zero_add, Nat.add_zero]
      rw [← firstComponent_viewOf] at hbytes ⊢
      have hlen := firstComponent_length image cursor
      generalize firstComponent (viewOf image cursor).path = name at hbytes hlen ⊢
      have hname : cursor + entrySize + 1 + name.length ≤ image.length := by omega
      have hpieces : (memory.bytesAt (output + 0) ((lineOf kept).length - 0)).splitOnP isBreak =
          kept.flatMap words ++ [[]] := by
        rw [Nat.add_zero, Nat.sub_zero, htext, splitOnP_lineOf]
      rw [name_seen, name_seen_loop_eq image memory output _ _ name.length _ 0 _
        (fun k hk => hbuf k (by omega)) hname (by omega) hpieces, ok_bind, hbytes]
      by_cases hword : name ∈ kept.flatMap words
      · rw [if_pos (by simpa using hword), listedAfter, if_pos ((hseen name).mp hword)]
        exact ih (nextCursor image cursor) (before ++ [name]) kept memory hrest
          (seen_after_word hword hseen) htext hfit (by omega)
      · have hnew : name ∉ before.flatMap words := fun hw => hword ((hseen name).mpr hw)
        have hlong : (lineOf (kept ++ [name])).length = (lineOf kept).length + (name.length + 1) := by
          simp [lineOf_concat]
        rw [if_neg (by simpa using hword), listedAfter, if_neg hnew, add32_eq (by omega), ok_bind,
          List.append_cons, ← hlong]
        split
        · rename_i hfull
          have hmore := lineOf_length_le (kept ++ [name]) (listedAfter (before ++ [name])
            (componentsOf (walk image left (nextCursor image cursor))))
          rw [pure_eq_ok, yields_ok, if_neg (by omega)]
        · rename_i hfits
          have hheld := hbuf ((lineOf kept).length + name.length) (by omega)
          rw [← Nat.add_assoc] at hheld
          have hput := memory.putAll_concat (output + (lineOf kept).length) name 32
          have hbase : base ≤ output := (hbuf 0 (by omega)).1
          rw [copy_component_eq image memory output output_size _ _ name.length hbuf (by omega) hname,
            ok_bind, hbytes, Window.store_eq _ hheld, ok_bind, hput]
          apply ih (nextCursor image cursor) (before ++ [name]) (kept ++ [name]) _ hrest
          · intro word
            rw [List.flatMap_append, List.flatMap_append, List.mem_append, List.mem_append, hseen]
          · have hline := @Window.bytesAt_putAll_after _ _ memory output (lineOf kept).length (name ++ [32])
              hbase
            rw [htext, ← lineOf_concat, ← List.length_append, ← lineOf_concat] at hline
            exact hline
          · omega
          · omega

/-- The string `/` stands at the address. -/
structure RootPath (memory : Window base size) (path : Nat) : Prop where
  not_null : path ≠ 0
  held : HoldsAll base size path 2
  slash : memory.byte path = 47
  nul : memory.byte (path + 1) = 0

/-- The newline takes the place of the last space, and the NUL stands after it. -/
theorem bytesAt_ending (memory : Window base size) {output : Nat} {line : Bytes}
    (hbase : base ≤ output) (htext : memory.bytesAt output line.length = line)
    (hline : 1 ≤ line.length) :
    ((memory.put (output + (line.length - 1) - base) 10).put (output + line.length - base) 0).bytesAt
      output (line.length + 1) = line.dropLast ++ [10, 0] := by
  obtain ⟨n, hn⟩ : ∃ n, line.length = n + 1 := ⟨line.length - 1, by omega⟩
  have hfront : memory.bytesAt output n = line.dropLast := by
    rw [← Window.bytesAt_take memory output (show n ≤ line.length by omega), htext,
      List.dropLast_eq_take, hn, Nat.add_sub_cancel]
  rw [hn, Nat.add_sub_cancel, ← hfront]
  exact @Window.bytesAt_putAll_after _ _ memory output n [10, 0] hbase

/-- The listing answers with the length of its names, each with one byte after it, when two more
bytes than that are there. -/
theorem mantle_rootfs_list.writes (blob : Blob) (memory : Window base size)
    (path output output_size : Nat) (ha : Accepts blob.content) (hpath : RootPath memory path)
    (hout : output ≠ 0) (hbuf : HoldsAll base size output output_size) :
    Yields (mantle_rootfs_list (mountedState blob) memory path output output_size) (fun r =>
      let line := lineOf (listed (mountedState blob))
      if 1 ≤ line.length ∧ line.length + 2 ≤ output_size then
        r.2 = line.length ∧ r.1.bytesAt output (line.length + 1) = line.dropLast ++ [10, 0]
      else r.2 = -1) := by
  by_cases hzero : output_size = 0
  · simp [mantle_rootfs_list, mountedState, hzero]
  have hcount := ha.entries_le
  unfold MANTLE_ROOTFS_MAX_ENTRIES at hcount
  obtain ⟨⟨m, written⟩, hrun, hwritten⟩ := list_loop.writes blob.content output output_size
    (wordOf blob.content 4 4) headerSize [] [] memory blob.size_lt hbuf ha.walkable
    (fun _ => Iff.rfl) rfl (by simp [lineOf]; omega) (by simp [lineOf]; omega)
  obtain ⟨r, hrun', _, hbound⟩ := list_loop.spec blob.content output output_size
    (wordOf blob.content 4 4) headerSize 0 memory blob.size_lt hbuf ha.walkable (by omega) (by omega)
  obtain rfl : (m, written) = r := Except.ok.inj (hrun.symm.trans hrun')
  have hnames : listedAfter [] (componentsOf (walk blob.content (wordOf blob.content 4 4) headerSize)) =
      listed (mountedState blob) := rfl
  simp only [List.nil_append, hnames] at hwritten
  generalize lineOf (listed (mountedState blob)) = line at hwritten ⊢
  have hheld := hpath.held 0 (by omega)
  rw [Nat.add_zero] at hheld
  simp only [mantle_rootfs_list, mountedState]
  rw [if_neg (by simp [hpath.not_null, hout, hzero]), Window.load_eq hheld, ok_bind, hpath.slash,
    if_neg (by simp), Window.load_eq (hpath.held 1 (by omega)), ok_bind, hpath.nul,
    if_neg (by simp), hrun', ok_bind]
  split at hwritten
  · rename_i hroom
    obtain ⟨hsome, htext⟩ := hwritten
    have := hbound line.length hsome
    simp only [hsome]
    rw [add32_eq (by omega), ok_bind]
    by_cases hfits : 1 ≤ line.length ∧ line.length + 2 ≤ output_size
    · have h1 := hbuf (line.length - 1) (by omega)
      have h2 := hbuf line.length (by omega)
      rw [if_neg (by omega), show output + line.length - 1 = output + (line.length - 1) by omega,
        Window.store_eq _ h1, ok_bind, Window.store_eq _ h2, ok_bind, pure_eq_ok, yields_ok,
        if_pos hfits]
      exact ⟨rfl, bytesAt_ending m (hbuf 0 (by omega)).1 htext hfits.1⟩
    · rw [if_pos (by omega), pure_eq_ok, yields_ok, if_neg hfits]
  · rename_i hfull
    simp only [hwritten, pure_eq_ok, yields_ok]
    rw [if_neg (by omega)]
    trivial

end Loops

/-! ## The laws -/

theorem mounted_of_status {blob : Blob} {state : rootfs_state}
    (h : mantle_rootfs_mount (some blob) = .ok (state, 0)) :
    Accepts blob.content ∧ state = mountedState blob := by
  rcases (mantle_rootfs_mount.spec blob).of_eq_ok h with ⟨ha, he⟩ | ⟨_, he⟩
  · exact ⟨ha, congrArg Prod.fst he⟩
  · exact absurd (congrArg Prod.snd he) (by simp)

theorem mounted_of_accepts {blob : Blob} (h : Accepts blob.content) :
    mantle_rootfs_mount (some blob) = .ok (mountedState blob, 0) := by
  obtain ⟨r, hr, ⟨_, rfl⟩ | ⟨hn, _⟩⟩ := mantle_rootfs_mount.spec blob
  · exact hr
  · exact absurd h hn

/-- A listing that is given back holds each first component once, with a space between two of
them, and a newline and a NUL at the end. -/
theorem listing_holds_each_name_once {base size : Nat} (blob : Blob) (state : rootfs_state)
    (memory memory' : Window base size) (path output output_size : Nat) (n : Int)
    (hmount : mantle_rootfs_mount (some blob) = .ok (state, 0))
    (hplain : ∀ name ∈ componentsOf (entriesOf state), 32 ∉ name ∧ 10 ∉ name)
    (hpath : RootPath memory path) (hbuf : HoldsAll base size output output_size)
    (hlist : mantle_rootfs_list state memory path output output_size = .ok (memory', n))
    (hn : 0 ≤ n) :
    n = (List.intercalate [32] (namesOf state) ++ [10]).length ∧
      memory'.bytesAt output (n.toNat + 1) =
        List.intercalate [32] (namesOf state) ++ [10] ++ [0] := by
  obtain ⟨ha, rfl⟩ := mounted_of_status hmount
  have hout : output ≠ 0 := by
    rintro rfl
    simp only [mantle_rootfs_list, mountedState, true_or, or_true, if_true, pure_eq_ok] at hlist
    have := congrArg Prod.snd (Except.ok.inj hlist)
    simp only at this
    omega
  have hletters : ∀ name ∈ componentsOf (entriesOf (mountedState blob)), ∀ b ∈ name,
      isBreak b = false := by
    intro name hname b hb
    obtain ⟨h32, h10⟩ := hplain name hname
    have h1 : b ≠ 32 := fun h => h32 (h ▸ hb)
    have h2 : b ≠ 10 := fun h => h10 (h ▸ hb)
    simp [isBreak, h1, h2]
  have hlisted : listed (mountedState blob) = namesOf (mountedState blob) := by
    rw [listed, listedAfter_plain [] (by simp) hletters, namesOf]
    simp
  have hline := (mantle_rootfs_list.writes blob memory path output output_size ha hpath hout
    hbuf).of_eq_ok hlist
  simp only [hlisted] at hline
  generalize namesOf (mountedState blob) = names at hline ⊢
  split at hline
  · rename_i hfits
    have hne : names ≠ [] := by
      rintro rfl
      simp [lineOf] at hfits
    obtain ⟨rfl, hbytes⟩ := hline
    rw [lineOf_eq_intercalate hne, List.dropLast_concat] at hbytes
    rw [lineOf_eq_intercalate hne]
    refine ⟨by simp, ?_⟩
    simpa using hbytes
  · omega

/-- Paths with a common first component, and one that is a prefix of another. -/
def treeImage : Blob :=
  { content := [0x52, 0x46, 0x53, 0x31, 4, 0, 0, 0] ++
      ([4, 0, 0, 0, 0, 0, 0, 0, 0, 0, 0, 0] ++ ascii "/b/x") ++
      ([2, 0, 0, 0, 0, 0, 0, 0, 0, 0, 0, 0] ++ ascii "/a") ++
      ([4, 0, 0, 0, 0, 0, 0, 0, 0, 0, 0, 0] ++ ascii "/b/y") ++
      ([3, 0, 0, 0, 0, 0, 0, 0, 0, 0, 0, 0] ++ ascii "/ab")
    size_lt := by decide }

theorem rootPath_smallWindow : RootPath smallWindow 0x400000 :=
  ⟨by decide, fun k hk => ⟨by omega, by omega⟩, by decide, by decide⟩

theorem listing_of_a_tree_holds_each_name_once :
    ∃ memory', mantle_rootfs_list (mountedState treeImage) smallWindow 0x400000 0x400010 64 =
        .ok (memory', 7) ∧
      memory'.bytesAt 0x400010 8 = ascii "b a ab\n" ++ [0] := by
  have ha : Accepts treeImage.content := by decide
  have hbuf : HoldsAll 0x400000 0x200000 0x400010 64 := fun k hk => ⟨by omega, by omega⟩
  obtain ⟨⟨memory', n⟩, hlist, hr⟩ := mantle_rootfs_list.writes treeImage smallWindow 0x400000
    0x400010 64 ha rootPath_smallWindow (by decide) hbuf
  have hlisted : (lineOf (listed (mountedState treeImage))).length = 7 := by decide
  simp only [hlisted, Nat.reduceLeDiff, Nat.reduceAdd, and_self, if_true] at hr
  have hn : n = 7 := hr.1
  have h := listing_holds_each_name_once treeImage (mountedState treeImage) smallWindow memory'
    0x400000 0x400010 64 n (mounted_of_accepts ha) (by decide) rootPath_smallWindow hbuf hlist
    (by omega)
  have hnames : List.intercalate [32] (namesOf (mountedState treeImage)) ++ [10] ++ [0] =
      ascii "b a ab\n" ++ [0] := by decide
  rw [hn] at h hlist
  exact ⟨memory', hlist, h.2.trans hnames⟩

theorem lineOf_length (names : List Bytes) : (lineOf names).length = totalOf names := by
  simp [lineOf, totalOf, List.length_flatMap]

/-- Both totals are zero exactly when no entry has a name. -/
theorem totalOf_listed_eq_zero (state : rootfs_state) :
    totalOf (listed state) = 0 ↔ totalOf (namesOf state) = 0 := by
  unfold listed namesOf
  cases componentsOf (entriesOf state) with
  | nil => rfl
  | cons name names => simp [listedAfter, List.eraseDups_cons, totalOf]

/-- The last test of the room asks for one byte more than the listing and its NUL take, and a name
is left out when it is a word of one before it. So the answer is the one that the length of the
distinct names asks for when there are none, when they do not fit and neither do those shown, or
when one byte more is there and those shown are as long. -/
theorem listing_answers_by_its_length_iff {base size : Nat} (blob : Blob) (state : rootfs_state)
    (memory : Window base size) (path output output_size : Nat)
    (hmount : mantle_rootfs_mount (some blob) = .ok (state, 0)) (hpath : RootPath memory path)
    (hout : output ≠ 0) (hbuf : HoldsAll base size output output_size) :
    Yields (mantle_rootfs_list state memory path output output_size) (fun r =>
      r.2 = if 1 ≤ totalOf (namesOf state) ∧ totalOf (namesOf state) + 1 ≤ output_size then
        (totalOf (namesOf state) : Int) else -1) ↔
    totalOf (namesOf state) = 0 ∨
      (output_size ≤ totalOf (namesOf state) ∧ output_size ≤ totalOf (listed state) + 1) ∨
      (totalOf (listed state) = totalOf (namesOf state) ∧
        totalOf (namesOf state) + 2 ≤ output_size) := by
  obtain ⟨ha, rfl⟩ := mounted_of_status hmount
  have hzero := totalOf_listed_eq_zero (mountedState blob)
  obtain ⟨⟨memory', n⟩, hlist, hn⟩ := mantle_rootfs_list.writes blob memory path output output_size
    ha hpath hout hbuf
  simp only [lineOf_length] at hn
  rw [hlist, yields_ok]
  generalize totalOf (listed (mountedState blob)) = shown at hzero hn ⊢
  generalize totalOf (namesOf (mountedState blob)) = total at hzero ⊢
  split at hn
  · rename_i hfits
    rw [hn.1]
    split <;> omega
  · rename_i hfull
    rw [hn]
    split <;> omega

theorem listing_of_a_tree_answers_by_its_length :
    Yields (mantle_rootfs_list (mountedState treeImage) smallWindow 0x400000 0x400010 64)
      (fun r => r.2 = 7) := by
  have hbuf : HoldsAll 0x400000 0x200000 0x400010 64 := fun k hk => ⟨by omega, by omega⟩
  have h := listing_answers_by_its_length_iff treeImage (mountedState treeImage) smallWindow 0x400000
    0x400010 64 (mounted_of_accepts (by decide)) rootPath_smallWindow (by decide) hbuf
  have hnames : totalOf (namesOf (mountedState treeImage)) = 7 := by decide
  have hlisted : totalOf (listed (mountedState treeImage)) = 7 := by decide
  rw [hnames, hlisted] at h
  exact h.mpr (by omega)

/-- The name `a` with its newline and its NUL takes three bytes, and is refused when three are
there. -/
theorem listing_that_fits_is_refused :
    mantle_rootfs_mount (some smallImage) = .ok (mountedState smallImage, 0) ∧
      totalOf (namesOf (mountedState smallImage)) = 2 ∧
      Yields (mantle_rootfs_list (mountedState smallImage) smallWindow 0x400000 0x400010 3)
        (fun r => r.2 = -1) ∧
      ¬ Yields (mantle_rootfs_list (mountedState smallImage) smallWindow 0x400000 0x400010 3)
        (fun r => r.2 = if 1 ≤ totalOf (namesOf (mountedState smallImage)) ∧
          totalOf (namesOf (mountedState smallImage)) + 1 ≤ 3 then
          (totalOf (namesOf (mountedState smallImage)) : Int) else -1) := by
  have hnames : totalOf (namesOf (mountedState smallImage)) = 2 := by decide
  obtain ⟨r, hlist, hr⟩ : Yields
      (mantle_rootfs_list (mountedState smallImage) smallWindow 0x400000 0x400010 3)
      (fun r => r.2 = -1) := ⟨_, rfl, rfl⟩
  refine ⟨mounted_of_accepts (by decide), hnames, ⟨r, hlist, hr⟩, ?_⟩
  rw [hlist, yields_ok, hr, hnames]
  decide

end mantle.rootfs
