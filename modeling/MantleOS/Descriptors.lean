-- The descriptor table is a map from 3..7 to files of the mounted image. The
-- live descriptors of a run are those that an open returned and no close has
-- taken back since, and an open takes the lowest number that is not live.
import MantleOS.CallResults
import Mathlib.Data.Set.Card

open checked bytes

namespace mantle.syscall

open rootfs elf

/-! ## The map and the calls of a run -/

/-- What a live descriptor is bound to. -/
structure OpenFile where
  file : mantle_rootfs_file
  offset : Nat
  deriving DecidableEq

/-- The table as a map. -/
def tableOf (k : Kernel) (fd : Nat) : Option OpenFile :=
  if (k.descriptors fd).used then some ⟨(k.descriptors fd).file, (k.descriptors fd).offset⟩ else none

/-- A call that has returned: the registers before it and after it. -/
structure Returned where
  before : mantle_syscall_frame
  after : mantle_syscall_frame

/-- The call is an open that returned `fd`. -/
def Returned.Opens (call : Returned) (fd : Nat) : Prop :=
  call.before.service = .sys_open ∧ call.after.rax ≠ -1 ∧ call.after.rax.toNat = fd

/-- The call is a close of `fd` that returned 0. -/
def Returned.Closes (call : Returned) (fd : Nat) : Prop :=
  call.before.service = .sys_close ∧ call.before.rdi.toNat = fd ∧ call.after.rax = 0

/-- An open returned `fd`, and no call after it closed `fd`. The last call stands first. -/
def Live (calls : List Returned) (fd : Nat) : Prop :=
  ∃ later call earlier, calls = later ++ call :: earlier ∧ call.Opens fd ∧ ∀ c ∈ later, ¬ c.Closes fd

/-- The runs from a boot with a mounted image, with the calls that have returned. The other
steps are those of `Reachable`. -/
inductive RunOf (layout : Layout) (image : Blob) : List Returned → Kernel → Prop
  | boot {tss_loaded : Bool} {console : Bytes} {keyboard : List UInt8} {k : Kernel}
      {init_image : mantle_user_image} :
      start_user layout image tss_loaded (.start console keyboard) = .ok (some (k, init_image)) →
      RunOf layout image [] k
  | store {calls : List Returned} {k : Kernel} {a : Nat} (x : UInt8) : RunOf layout image calls k →
      InWindow a → paging.writable (k.user.pages (pageOf a)) = true → RunOf layout image calls
        { k with user := { k.user with memory := k.user.memory.put (a - USER_BASE) x } }
  | key {calls : List Returned} {k : Kernel} (scan : UInt8) : RunOf layout image calls k →
      RunOf layout image calls { k with keyboard := k.keyboard ++ [scan] }
  | entry {calls : List Returned} {k : Kernel} : RunOf layout image calls k →
      RunOf layout image calls { k with syscall_origin_user := 1 }
  | call {calls : List Returned} {k k' : Kernel} {frame frame' : mantle_syscall_frame} :
      RunOf layout image calls k →
      mantle_syscall_dispatch layout k frame = .ok (.returned k' frame') →
      RunOf layout image (⟨frame, frame'⟩ :: calls) k'

variable {layout : Layout} {image : Blob} {calls : List Returned} {k k' : Kernel}
  {frame frame' : mantle_syscall_frame}

theorem RunOf.reachable (h : RunOf layout image calls k) : Reachable layout k := by
  induction h with
  | boot h => exact .boot h
  | store x _ ha hw ih => exact ih.store x ha hw
  | key scan _ ih => exact ih.key scan
  | entry _ ih => exact ih.entry
  | call _ hcall ih => exact ih.call hcall

theorem not_live_nil (fd : Nat) : ¬ Live [] fd := by
  rintro ⟨later, call, earlier, h, _⟩
  simp at h

theorem live_cons {call : Returned} {fd : Nat} :
    Live (call :: calls) fd ↔ call.Opens fd ∨ Live calls fd ∧ ¬ call.Closes fd := by
  constructor
  · rintro ⟨later, c, earlier, h, hopens, hkept⟩
    cases later with
    | nil =>
      cases h
      exact Or.inl hopens
    | cons c' later =>
      cases h
      exact Or.inr ⟨⟨later, c, earlier, rfl, hopens, fun x hx => hkept x (by simp [hx])⟩,
        hkept call (by simp)⟩
  · rintro (hopens | ⟨⟨later, c, earlier, h, hopens, hkept⟩, hno⟩)
    · exact ⟨[], call, calls, rfl, hopens, nofun⟩
    · refine ⟨call :: later, c, earlier, by rw [h]; rfl, hopens, ?_⟩
      intro x hx
      rcases List.mem_cons.mp hx with rfl | hx
      · exact hno
      · exact hkept x hx

/-! ## The string of an open -/

/-- The `n` bytes at the address are followed by the first NUL, all in the window and within
128 bytes, and they name `file` in the mounted image. -/
structure Names (k : Kernel) (address n : Nat) (file : mantle_rootfs_file) : Prop where
  inWindow : InWindow address
  short : n ≤ 127
  nulInWindow : InWindow (address + n)
  nul : k.user.memory.byte (address + n) = 0
  least : ∀ m < n, k.user.memory.byte (address + m) ≠ 0
  entry : lookup (entriesOf k.rootfs) (k.user.memory.bytesAt address n) = some file

theorem cstring_bytesAt (memory : Window USER_BASE userSize) (address n count : Nat) (h : n < count)
    (hnul : memory.byte (address + n) = 0) (hleast : ∀ m < n, memory.byte (address + m) ≠ 0) :
    cstring (memory.bytesAt address count) = memory.bytesAt address n := by
  induction n generalizing address count with
  | zero =>
    obtain ⟨count, rfl⟩ := Nat.exists_eq_add_of_lt h
    rw [Nat.zero_add, Window.bytesAt_succ]
    rw [Nat.add_zero] at hnul
    simp [cstring, hnul, Window.bytesAt]
  | succ n ih =>
    cases count with
    | zero => omega
    | succ count =>
      have hfirst := hleast 0 (by omega)
      rw [Nat.add_zero] at hfirst
      have hrest := ih (address + 1) count (by omega) (by rw [← hnul]; congr 1; omega) (fun m hm => by
        have := hleast (m + 1) (by omega)
        rwa [show address + 1 + m = address + (m + 1) by omega])
      rw [Window.bytesAt_succ, Window.bytesAt_succ, ← hrest]
      simp [cstring, hfirst]

theorem namedFile_iff {address : Nat} {file : mantle_rootfs_file} :
    namedFile k address = some file ↔ ∃ n, Names k address n file := by
  unfold namedFile
  constructor
  · intro h
    obtain ⟨s, hs, hentry⟩ := Option.bind_eq_some_iff.mp h
    have hstring := isString_of_userString hs
    have hbytes : k.user.memory.bytesAt address s.length = s := by
      have := hstring.bytes
      rw [Window.bytesAt_concat] at this
      exact (List.append_inj' this rfl).1
    have hwindow := hstring.inWindow
    refine ⟨s.length, hwindow, ?_, ⟨by have := hwindow.1; omega, hstring.fits⟩, hstring.nul, ?_,
      by rw [hbytes]; exact hentry⟩
    · have := hstring.short
      unfold MAX_PATH at this
      omega
    · intro m hm hzero
      apply hstring.noNul
      rw [← hbytes, ← hzero]
      exact List.mem_map_of_mem (List.mem_range.mpr hm)
  · rintro ⟨n, h⟩
    have hn : n < min MAX_PATH (USER_LIMIT - address) := by
      have h1 := h.short
      have h2 := h.nulInWindow.2
      unfold MAX_PATH
      omega
    have hmem : 0 ∈ visible k.user.memory address := by
      rw [← h.nul]
      exact List.mem_map_of_mem (List.mem_range.mpr hn)
    rw [userString, if_pos ⟨h.inWindow, hmem⟩, Option.bind_some, visible,
      cstring_bytesAt _ _ n _ hn h.nul h.least]
    exact h.entry

/-! ## One call -/

theorem tableOf_eq_of_descriptors (h : k'.descriptors = k.descriptors) : tableOf k' = tableOf k := by
  funext fd
  rw [tableOf, h, tableOf]

theorem tableOf_note_user (k : Kernel) : tableOf (note_user k) = tableOf k :=
  tableOf_eq_of_descriptors (note_user_rest k).2.1

theorem tableOf_withDescriptor (k : Kernel) (fd : Nat) (d : file_descriptor) :
    tableOf (k.withDescriptor fd d) =
      Function.update (tableOf k) fd (if d.used then some ⟨d.file, d.offset⟩ else none) := by
  funext g
  by_cases hg : g = fd
  · subst hg
    simp [tableOf, Kernel.withDescriptor]
  · simp [tableOf, Kernel.withDescriptor, hg]

theorem isSome_tableOf {fd : Nat} : (tableOf k fd).isSome ↔ (k.descriptors fd).used = true := by
  unfold tableOf
  split <;> simp_all

/-- The lowest number from 3 to 7 that is not in the map. -/
def LowestFree (table : Nat → Option OpenFile) (fd : Nat) : Prop :=
  3 ≤ fd ∧ fd ≤ 7 ∧ table fd = none ∧ ∀ g, 3 ≤ g → g < fd → (table g).isSome

theorem firstFree_eq_some {fd : Nat} :
    firstFree k 3 5 = some fd ↔ LowestFree (tableOf k) fd := by
  have hnone : tableOf k fd = none ↔ (k.descriptors fd).used = false := by
    rw [← Option.not_isSome_iff_eq_none, isSome_tableOf, Bool.not_eq_true]
  simp only [firstFree, List.find?_range'_eq_some, LowestFree, hnone, isSome_tableOf,
    List.mem_range'_1, Bool.not_eq_eq_eq_not]
  constructor
  · rintro ⟨hfree, ⟨h3, h8⟩, hbefore⟩
    exact ⟨h3, by omega, hfree, hbefore⟩
  · rintro ⟨h3, h7, hfree, hbefore⟩
    exact ⟨hfree, ⟨h3, by omega⟩, hbefore⟩

theorem firstFree_eq_none : firstFree k 3 5 = none ↔ ∀ fd, 3 ≤ fd → fd ≤ 7 → (tableOf k fd).isSome := by
  simp only [firstFree, List.find?_range'_eq_none, isSome_tableOf, Bool.not_not]
  constructor
  · intro h fd h3 h7
    exact h fd h3 (by omega)
  · intro h fd h3 h8
    exact h fd h3 (by omega)

/-- An open either binds the lowest free number to the file that the string names, or it
returns -1 and leaves the map. -/
theorem open_cases (h : Sound layout k) (hs : frame.service = .sys_open) :
    (∃ n file fd k', Names k frame.rdi.toNat n file ∧ LowestFree (tableOf k) fd ∧
      mantle_syscall_dispatch layout k frame = .ok (.returned k' (frame.answer (int32 fd))) ∧
      tableOf k' = Function.update (tableOf k) fd (some ⟨file, 0⟩)) ∨
    (((¬ ∃ n file, Names k frame.rdi.toNat n file) ∨
        ∀ fd, 3 ≤ fd → fd ≤ 7 → (tableOf k fd).isSome) ∧
      ∃ k', mantle_syscall_dispatch layout k frame = .ok (.returned k' (frame.answer (-1))) ∧
      tableOf k' = tableOf k) := by
  obtain ⟨_, hdescriptors, hrootfs, huser⟩ := note_user_rest k
  have hfile : namedFile (note_user k) frame.rdi.toNat = namedFile k frame.rdi.toNat := by
    rw [namedFile, huser, hrootfs, namedFile]
  have hfree : firstFree (note_user k) 3 5 = firstFree k 3 5 := by
    rw [firstFree, hdescriptors, firstFree]
  have hcall : mantle_syscall_dispatch layout k frame = .ok (answered frame
      (bindFile (note_user k) (namedFile k frame.rdi.toNat) (firstFree k 3 5))) := by
    rw [← hfile, ← hfree, ← openM]
    simp only [mantle_syscall_dispatch, hs]
    rw [syscall_open.spec _ _ (note_user_sound h).rootfs]
    rfl
  cases hn : namedFile k frame.rdi.toNat with
  | none =>
    rw [hn] at hcall
    refine Or.inr ⟨Or.inl ?_, _, hcall, tableOf_note_user k⟩
    rintro ⟨n, file, hnames⟩
    rw [namedFile_iff.mpr ⟨n, hnames⟩] at hn
    cases hn
  | some file =>
    obtain ⟨n, hnames⟩ := namedFile_iff.mp hn
    cases hf : firstFree k 3 5 with
    | none =>
      rw [hn, hf] at hcall
      exact Or.inr ⟨Or.inr (firstFree_eq_none.mp hf), _, hcall, tableOf_note_user k⟩
    | some fd =>
      rw [hn, hf] at hcall
      refine Or.inl ⟨n, file, fd, _, hnames, firstFree_eq_some.mp hf, hcall, ?_⟩
      rw [bindFile, tableOf_withDescriptor, tableOf_note_user]
      rfl

/-- A close either takes a number of the map out of it, or it returns -1 and leaves the map. -/
theorem close_cases (layout : Layout) (k : Kernel) (hs : frame.service = .sys_close) :
    (frame.rdi.toNat < MAX_FDS ∧ (tableOf k frame.rdi.toNat).isSome ∧
      ∃ k', mantle_syscall_dispatch layout k frame = .ok (.returned k' (frame.answer 0)) ∧
      tableOf k' = Function.update (tableOf k) frame.rdi.toNat none) ∨
    (¬ (frame.rdi.toNat < MAX_FDS ∧ (tableOf k frame.rdi.toNat).isSome) ∧
      ∃ k', mantle_syscall_dispatch layout k frame = .ok (.returned k' (frame.answer (-1))) ∧
      tableOf k' = tableOf k) := by
  have hcall : mantle_syscall_dispatch layout k frame =
      .ok (answered frame (closeM (note_user k) frame.rdi.toNat)) := by
    simp only [mantle_syscall_dispatch, hs, sys_close.spec]
    rfl
  have hiff : (tableOf k frame.rdi.toNat).isSome ↔
      ((note_user k).descriptors frame.rdi.toNat).used = true := by
    rw [isSome_tableOf, (note_user_rest k).2.1]
  rw [hcall, closeM, hiff]
  split
  · rename_i hused
    refine Or.inl ⟨hused.1, hused.2, _, rfl, ?_⟩
    rw [tableOf_withDescriptor, tableOf_note_user]
    rfl
  · rename_i hfree
    exact Or.inr ⟨hfree, _, rfl, tableOf_note_user k⟩

theorem other_calls_keep_the_table (h : Sound layout k) (ho : frame.service ≠ .sys_open)
    (hc : frame.service ≠ .sys_close) {outcome : Outcome}
    (hcall : mantle_syscall_dispatch layout k frame = .ok outcome) :
    tableOf outcome.kernel = tableOf k := by
  have hrest := ((mantle_syscall_dispatch.keeps_all h frame).of_eq_ok hcall).2
  exact (tableOf_eq_of_descriptors (hrest.descriptors ho hc)).trans (tableOf_note_user k)

/-! ## Whole runs -/

/-- What the calls so far say about the map. -/
structure Tracks (image : Blob) (calls : List Returned) (k : Kernel) : Prop where
  mounted : k.rootfs = mountedState image
  live : ∀ fd, (tableOf k fd).isSome ↔ Live calls fd
  range : ∀ fd, Live calls fd → 3 ≤ fd ∧ fd ≤ 7
  files : ∀ fd f, tableOf k fd = some f → ∃ e ∈ entriesOf (mountedState image), e.file = f.file

/-- A step that keeps the map and the image, and is no open and no close that succeeds. -/
theorem Tracks.same (h : Tracks image calls k) (hrootfs : k'.rootfs = k.rootfs)
    (htable : tableOf k' = tableOf k) : Tracks image calls k' :=
  ⟨hrootfs.trans h.mounted, by rw [htable]; exact h.live, h.range, by rw [htable]; exact h.files⟩

/-- A call that keeps the map and the image, and neither opens nor closes a number. -/
theorem Tracks.idle (h : Tracks image calls k) (hrootfs : k'.rootfs = k.rootfs)
    (htable : tableOf k' = tableOf k) {call : Returned} (ho : ∀ fd, ¬ call.Opens fd)
    (hc : ∀ fd, ¬ call.Closes fd) : Tracks image (call :: calls) k' := by
  have hlive : ∀ fd, Live (call :: calls) fd ↔ Live calls fd := fun fd => by
    rw [live_cons]
    simp [ho, hc]
  have hsame := h.same hrootfs htable
  exact ⟨hsame.mounted, fun fd => (hsame.live fd).trans (hlive fd).symm,
    fun fd hfd => h.range fd ((hlive fd).mp hfd), hsame.files⟩

theorem answer_int32 (frame : mantle_syscall_frame) {fd : Nat} (h : fd ≤ 7) :
    (frame.answer (int32 fd)).rax ≠ -1 ∧ (frame.answer (int32 fd)).rax = .ofNat fd ∧
      (frame.answer (int32 fd)).rax.toNat = fd := by
  have hfd : int32 fd = fd := int32_eq (by omega)
  have hrax : (frame.answer (int32 fd)).rax = .ofNat fd := by
    rw [hfd, answer_nonneg frame (by omega)]
    rfl
  refine ⟨?_, hrax, ?_⟩
  · rw [hfd]
    exact answer_ne_neg_one frame (by omega) (by omega)
  · rw [hrax, UInt64.toNat_ofNat', Nat.mod_eq_of_lt (by omega)]

theorem lookup_mem {entries : List Entry} {path : Bytes} {file : mantle_rootfs_file}
    (h : lookup entries path = some file) : ∃ e ∈ entries, e.file = file := by
  obtain ⟨e, he, rfl⟩ := Option.map_eq_some_iff.mp h
  exact ⟨e, List.mem_of_find?_eq_some he, rfl⟩

theorem Tracks.open (h : Tracks image calls k) (hsound : Sound layout k)
    (hs : frame.service = .sys_open) (hrootfs : k'.rootfs = k.rootfs)
    (hcall : mantle_syscall_dispatch layout k frame = .ok (.returned k' frame')) :
    Tracks image (⟨frame, frame'⟩ :: calls) k' := by
  have hnoclose : ∀ fd, ¬ Returned.Closes ⟨frame, frame'⟩ fd := by
    rintro fd ⟨hclose, _⟩
    rw [hs] at hclose
    cases hclose
  rcases open_cases hsound hs with ⟨n, file, fd, k1, hnames, hlow, hd, htable⟩ | ⟨_, k1, hd, htable⟩
  · rw [hd] at hcall
    cases hcall
    obtain ⟨hne, _, hnat⟩ := answer_int32 frame hlow.2.1
    have hopens : ∀ g, Returned.Opens ⟨frame, frame.answer (int32 fd)⟩ g ↔ g = fd :=
      fun g => ⟨fun ⟨_, _, hg⟩ => hg.symm.trans hnat, fun hg => ⟨hs, hne, hnat.trans hg.symm⟩⟩
    refine ⟨hrootfs.trans h.mounted, fun g => ?_, fun g hg => ?_, fun g f hg => ?_⟩
    · rw [live_cons, hopens, ← h.live, htable]
      by_cases hg : g = fd
      · simp [hg]
      · simp [hg, hnoclose]
    · rcases live_cons.mp hg with hopen | hlive
      · rw [(hopens g).mp hopen]
        exact ⟨hlow.1, hlow.2.1⟩
      · exact h.range g hlive.1
    · rw [htable] at hg
      by_cases hgf : g = fd
      · rw [hgf, Function.update_self] at hg
        cases hg
        have hentry := hnames.entry
        rw [h.mounted] at hentry
        exact lookup_mem hentry
      · rw [Function.update_of_ne hgf] at hg
        exact h.files g f hg
  · rw [hd] at hcall
    cases hcall
    exact h.idle hrootfs htable (fun fd hopens => hopens.2.1 rfl) hnoclose

theorem Tracks.close (h : Tracks image calls k) (hs : frame.service = .sys_close)
    (hrootfs : k'.rootfs = k.rootfs)
    (hcall : mantle_syscall_dispatch layout k frame = .ok (.returned k' frame')) :
    Tracks image (⟨frame, frame'⟩ :: calls) k' := by
  have hnoopen : ∀ fd, ¬ Returned.Opens ⟨frame, frame'⟩ fd := by
    rintro fd ⟨hopen, _⟩
    rw [hs] at hopen
    cases hopen
  rcases close_cases layout k hs with ⟨_, _, k1, hd, htable⟩ | ⟨_, k1, hd, htable⟩
  · rw [hd] at hcall
    cases hcall
    have hcloses : ∀ g, Returned.Closes ⟨frame, frame.answer 0⟩ g ↔ g = frame.rdi.toNat :=
      fun g => ⟨fun ⟨_, hg, _⟩ => hg.symm, fun hg => ⟨hs, hg.symm, rfl⟩⟩
    refine ⟨hrootfs.trans h.mounted, fun g => ?_, fun g hg => ?_, fun g f hg => ?_⟩
    · rw [live_cons, hcloses, ← h.live, htable]
      by_cases hg : g = frame.rdi.toNat
      · simp [hg, hnoopen]
      · simp [hg, hnoopen]
    · rcases live_cons.mp hg with hopen | hlive
      · exact absurd hopen (hnoopen g)
      · exact h.range g hlive.1
    · rw [htable] at hg
      by_cases hgf : g = frame.rdi.toNat
      · rw [hgf, Function.update_self] at hg
        cases hg
      · rw [Function.update_of_ne hgf] at hg
        exact h.files g f hg
  · rw [hd] at hcall
    cases hcall
    apply h.idle hrootfs htable hnoopen
    rintro fd ⟨_, _, hzero⟩
    rw [answer_neg_one] at hzero
    exact absurd hzero (by decide)

/-- After every run the map is what the calls of the run say. -/
theorem RunOf.tracks (h : RunOf layout image calls k) : Tracks image calls k := by
  induction h with
  | @boot _ console keyboard k _ h =>
    obtain ⟨_, data, user, rfl, _⟩ := start_user.starts_with h
    have hempty : ∀ fd, tableOf { mountedKernel layout image console keyboard with user } fd = none :=
      fun _ => rfl
    refine ⟨rfl, fun fd => ?_, fun fd hfd => absurd hfd (not_live_nil fd), fun fd f hf => ?_⟩
    · rw [hempty]
      simp [not_live_nil]
    · rw [hempty] at hf
      cases hf
  | store x _ _ _ ih => exact ih.same rfl rfl
  | key scan _ ih => exact ih.same rfl rfl
  | entry _ ih => exact ih.same rfl rfl
  | @call calls k k' frame frame' hrun hcall ih =>
    have hsound := hrun.reachable.sound
    have hrest := ((mantle_syscall_dispatch.keeps_all hsound frame).of_eq_ok hcall).2
    have hrootfs : k'.rootfs = k.rootfs := hrest.rootfs.trans (note_user_rest k).2.2.1
    by_cases ho : frame.service = .sys_open
    · exact ih.open hsound ho hrootfs hcall
    by_cases hc : frame.service = .sys_close
    · exact ih.close hc hrootfs hcall
    exact ih.idle hrootfs (other_calls_keep_the_table hsound ho hc hcall) (fun _ h => ho h.1)
      (fun _ h => hc h.1)

/-! ## The law -/

/-- Fewer than five numbers are live exactly when one from 3 to 7 is not. -/
theorem live_ncard_lt (h : ∀ fd, Live calls fd → 3 ≤ fd ∧ fd ≤ 7) :
    {fd | Live calls fd}.ncard < 5 ↔ ∃ fd, 3 ≤ fd ∧ fd ≤ 7 ∧ ¬ Live calls fd := by
  have hsub : {fd | Live calls fd} ⊆ Set.Icc 3 7 := fun fd hfd => h fd hfd
  have hcard : (Set.Icc 3 7).ncard = 5 := by
    rw [Set.ncard_eq_toFinset_card']
    rfl
  constructor
  · intro hlt
    by_contra hall
    have heq : {fd | Live calls fd} = Set.Icc 3 7 := by
      refine hsub.antisymm fun fd hfd => ?_
      by_contra hno
      exact hall ⟨fd, hfd.1, hfd.2, hno⟩
    rw [heq, hcard] at hlt
    omega
  · rintro ⟨fd, h3, h7, hno⟩
    rw [← hcard]
    exact Set.ncard_lt_ncard ⟨hsub, fun hall => hno (hall ⟨h3, h7⟩)⟩ (Set.finite_Icc 3 7)

/-- The call is an open of the string at `address`: it succeeds exactly when the string names
a file and fewer than five numbers are live, and then it binds the lowest number. -/
structure OpenLaw (calls : List Returned) (k k' : Kernel) (address : Nat) (rax : UInt64) :
    Prop where
  succeeds : rax ≠ -1 ↔ (∃ n file, Names k address n file) ∧ {fd | Live calls fd}.ncard < 5
  binds : rax ≠ -1 → ∃ n file fd, Names k address n file ∧ rax = .ofNat fd ∧ 3 ≤ fd ∧ fd ≤ 7 ∧
    ¬ Live calls fd ∧ (∀ g, 3 ≤ g → g < fd → Live calls g) ∧
    tableOf k' = Function.update (tableOf k) fd (some ⟨file, 0⟩)
  refuses : rax = -1 → tableOf k' = tableOf k

/-- The call is a close of `fd`: it returns 0 exactly when `fd` is live, and frees nothing
else. -/
structure CloseLaw (calls : List Returned) (k k' : Kernel) (fd : Nat) (rax : UInt64) : Prop where
  succeeds : rax = 0 ↔ Live calls fd
  frees : rax = 0 → tableOf k' = Function.update (tableOf k) fd none
  refuses : rax ≠ 0 → rax = -1 ∧ tableOf k' = tableOf k

theorem open_law (h : Tracks image calls k) (hsound : Sound layout k)
    (hs : frame.service = .sys_open) :
    ∃ k' frame', mantle_syscall_dispatch layout k frame = .ok (.returned k' frame') ∧
      OpenLaw calls k k' frame.rdi.toNat frame'.rax := by
  have hcount := live_ncard_lt h.range
  rcases open_cases hsound hs with
    ⟨n, file, fd, k', hnames, ⟨h3, h7, hfree, hbefore⟩, hd, htable⟩ | ⟨hwhy, k', hd, htable⟩
  · obtain ⟨hne, hrax, _⟩ := answer_int32 frame h7
    have hno : ¬ Live calls fd := by
      rw [← h.live, hfree]
      simp
    refine ⟨k', _, hd, ⟨fun _ => ⟨⟨n, file, hnames⟩, hcount.mpr ⟨fd, h3, h7, hno⟩⟩, fun _ => hne⟩,
      fun _ => ⟨n, file, fd, hnames, hrax, h3, h7, hno, fun g hg hlt => ?_, htable⟩,
      fun heq => absurd heq hne⟩
    exact (h.live g).mp (hbefore g hg hlt)
  · refine ⟨k', _, hd, ⟨fun hne => absurd (answer_neg_one frame) hne, ?_⟩,
      fun hne => absurd (answer_neg_one frame) hne, fun _ => htable⟩
    rintro ⟨hnames, hlt⟩
    obtain ⟨fd, h3, h7, hno⟩ := hcount.mp hlt
    rcases hwhy with hwhy | hwhy
    · exact absurd hnames hwhy
    · exact absurd ((h.live fd).mp (hwhy fd h3 h7)) hno

theorem close_law (h : Tracks image calls k) (layout : Layout) (hs : frame.service = .sys_close) :
    ∃ k' frame', mantle_syscall_dispatch layout k frame = .ok (.returned k' frame') ∧
      CloseLaw calls k k' frame.rdi.toNat frame'.rax := by
  rcases close_cases layout k hs with ⟨_, hsome, k', hd, htable⟩ | ⟨hno, k', hd, htable⟩
  · have hlive := (h.live _).mp hsome
    exact ⟨k', _, hd, ⟨fun _ => hlive, fun _ => rfl⟩, fun _ => htable, fun hne => absurd rfl hne⟩
  · have hnot : ¬ Live calls frame.rdi.toNat := fun hlive => hno
      ⟨by have := (h.range _ hlive).2; unfold MAX_FDS; omega, (h.live _).mpr hlive⟩
    have hne : (frame.answer (-1)).rax ≠ 0 := by
      rw [answer_neg_one]
      decide
    exact ⟨k', _, hd, ⟨fun hzero => absurd hzero hne, fun hlive => absurd hlive hnot⟩,
      fun hzero => absurd hzero hne, fun _ => ⟨answer_neg_one frame, htable⟩⟩

/-- After every run with a mounted image: the map holds exactly the live numbers, which are
from 3 to 7, each bound to a file of the image. An open and a close return and do what their
laws say, and no other call, whether it returns or not, changes the map. -/
theorem the_table_maps_the_live_descriptors (layout : Layout) (image : Blob)
    (calls : List Returned) (k : Kernel) (h : RunOf layout image calls k)
    (frame : mantle_syscall_frame) :
    Tracks image calls k ∧
    (frame.service = .sys_open → ∃ k' frame',
      mantle_syscall_dispatch layout k frame = .ok (.returned k' frame') ∧
        OpenLaw calls k k' frame.rdi.toNat frame'.rax) ∧
    (frame.service = .sys_close → ∃ k' frame',
      mantle_syscall_dispatch layout k frame = .ok (.returned k' frame') ∧
        CloseLaw calls k k' frame.rdi.toNat frame'.rax) ∧
    (frame.service ≠ .sys_open → frame.service ≠ .sys_close → ∀ outcome,
      mantle_syscall_dispatch layout k frame = .ok outcome → tableOf outcome.kernel = tableOf k) := by
  have htracks := h.tracks
  have hsound := h.reachable.sound
  exact ⟨htracks, open_law htracks hsound, close_law htracks layout,
    fun ho hc outcome hcall => other_calls_keep_the_table hsound ho hc hcall⟩

theorem helloKernel_run : RunOf someLayout helloImage [] helloKernel := .boot helloKernel_starts

/-- An open of the string at 0x401000. -/
def badOpen : mantle_syscall_frame := frameOf 2 0x401000 0 0

/-- The first open of a program returns 3. -/
theorem the_first_open_returns_three :
    RunOf someLayout helloImage [] helloKernel ∧ badOpen.service = .sys_open ∧
    ∃ k' frame', mantle_syscall_dispatch someLayout helloKernel badOpen = .ok (.returned k' frame') ∧
      OpenLaw [] helloKernel k' 0x401000 frame'.rax ∧ frame'.rax = 3 := by
  have hs : badOpen.service = .sys_open := by decide
  have hnames : ∃ file, namedFile helloKernel 0x401000 = some file := by
    rw [← Option.isSome_iff_exists]
    decide +kernel
  obtain ⟨file, hfile⟩ := hnames
  obtain ⟨n, hn⟩ := namedFile_iff.mp hfile
  obtain ⟨htracks, hopen, _⟩ := the_table_maps_the_live_descriptors someLayout helloImage []
    helloKernel helloKernel_run badOpen
  obtain ⟨k', frame', hcall, hlaw⟩ := hopen hs
  refine ⟨helloKernel_run, hs, k', frame', hcall, hlaw, ?_⟩
  have hfew := (live_ncard_lt htracks.range).mpr ⟨3, by omega, by omega, not_live_nil 3⟩
  obtain ⟨_, _, fd, _, hrax, h3, _, _, hbefore, _⟩ := hlaw.binds (hlaw.succeeds.mpr ⟨⟨n, file, hn⟩, hfew⟩)
  have hfd : fd = 3 := by
    by_contra hne
    exact not_live_nil 3 (hbefore 3 (by omega) (by omega))
  rw [hrax, hfd]
  rfl

end mantle.syscall
