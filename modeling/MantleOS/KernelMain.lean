-- `mantle_kernel_main` of `kernel/arch/x86_64/kernel.c` from the block of the
-- boot loader to ring 3, and what it makes of the files that
-- `build-rootfs.py` has packed.
import MantleOS.Framebuffer
import MantleOS.SyscallLaws

open checked bytes

namespace mantle.boot

open rootfs elf syscall

/-! ## The code -/

/-- The lines that `mantle_kernel_main` itself prints. -/
inductive marker
  | MANTLE_KERNEL_OK
  | MANTLE_MB2_MAGIC_OK
  | MANTLE_MB2_MAGIC_ERROR
  | MANTLE_GRAPHICS_OK
  | MANTLE_GRAPHICS_UNAVAILABLE
  | MANTLE_ROOTFS_NOT_FOUND
  | MANTLE_ROOTFS_INVALID
  | MANTLE_ROOTFS_MAPPING_ERROR
  | MANTLE_ROOTFS_OK
  | MANTLE_ELF_ERROR
  | MANTLE_ELF_OK
  | MANTLE_ROOTFS_ERROR
  deriving DecidableEq

/-- The processor halts, or it enters ring 3. -/
inductive ending
  | halted
  | entered (k : Kernel) (init_image : mantle_user_image)

abbrev Boot := List marker × ending

/-- What is before the search for the root file system. -/
def greeting (multiboot_magic : Nat) (graphics : Int) : List marker :=
  [.MANTLE_KERNEL_OK,
    if multiboot_magic = MULTIBOOT2_BOOTLOADER_MAGIC then .MANTLE_MB2_MAGIC_OK
    else .MANTLE_MB2_MAGIC_ERROR,
    if graphics = 0 then .MANTLE_GRAPHICS_OK else .MANTLE_GRAPHICS_UNAVAILABLE]

/-- The part behind MANTLE_ROOTFS_MAPPING_ERROR, on the bytes of the module. -/
def run_rootfs (layout : Layout) (image : Blob) (tss_loaded : Bool) (k : Kernel) :
    Checked Boot := do
  let mounted ← mantle_rootfs_mount (some image)
  if mounted.2 ≠ 0 then return ([.MANTLE_ROOTFS_INVALID, .MANTLE_ROOTFS_ERROR], .halted)
  else
    let user ← mantle_arch_user_memory_init layout k.user
    let process ← mantle_process_init k.process
    let loaded ← open_and_load layout { k with rootfs := mounted.1, user, process }
      (ascii "/bin/hello" ++ [0])
    match loaded.2 with
    | none => return ([.MANTLE_ROOTFS_OK, .MANTLE_ELF_ERROR], .halted)
    | some init_image =>
      let checked ← ring3_diagnostics layout tss_loaded loaded.1.user init_image.entry
        init_image.stack
      if checked.2 then
        return ([.MANTLE_ROOTFS_OK, .MANTLE_ELF_OK],
          .entered { loaded.1 with user := checked.1 } init_image)
      else return ([.MANTLE_ROOTFS_OK, .MANTLE_ELF_OK, .MANTLE_ROOTFS_ERROR], .halted)

/-- The search for the module, and what follows. `bytesOf` is what stands in its range. -/
def find_and_run (layout : Layout) (multiboot_magic : Nat) (info : BootInfo)
    (bytesOf : mantle_mb2_module → Blob) (tss_loaded : Bool) (k : Kernel) : Checked Boot :=
  if multiboot_magic ≠ MULTIBOOT2_BOOTLOADER_MAGIC then
    .ok ([.MANTLE_ROOTFS_NOT_FOUND, .MANTLE_ROOTFS_ERROR], .halted)
  else do
    match ← find_rootfs info with
    | .error lookup =>
      if lookup = -2 then return ([.MANTLE_ROOTFS_INVALID, .MANTLE_ROOTFS_ERROR], .halted)
      else return ([.MANTLE_ROOTFS_NOT_FOUND, .MANTLE_ROOTFS_ERROR], .halted)
    | .ok module =>
      if mapping_error module.start module.size then
        return ([.MANTLE_ROOTFS_MAPPING_ERROR, .MANTLE_ROOTFS_ERROR], .halted)
      else run_rootfs layout (bytesOf module) tss_loaded k

/-- The fuel is for the walk of `mantle_framebuffer_init`, which may never end. -/
def mantle_kernel_main (layout : Layout) (multiboot_magic : Nat) (info : BootInfo)
    (bytesOf : mantle_mb2_module → Blob) (tss_loaded : Bool) (screen : Screen) (k : Kernel)
    (fuel : Nat) : Option (Checked (Screen × Boot)) :=
  (mantle_framebuffer_init multiboot_magic info screen fuel).map fun drawn => do
    let graphics ← drawn
    let boot ← find_and_run layout multiboot_magic info bytesOf tss_loaded k
    return (graphics.2, greeting multiboot_magic graphics.1 ++ boot.1, boot.2)

/-! ## What the builder has packed -/

/-- The limits of mount. -/
def Mountable (files : List SourceFile) : Prop :=
  files.length ≤ MANTLE_ROOTFS_MAX_ENTRIES ∧ ∀ f ∈ files, f.path.length ≤ 255

instance (files : List SourceFile) : Decidable (Mountable files) :=
  inferInstanceAs (Decidable (_ ∧ _))

/-- The image of the builder as its table and the data behind it. -/
structure Packed (files : List SourceFile) (image before : Bytes) : Prop where
  data : image = before ++ ((files.map (·.data)).flatten ++ [])
  magic : wordOf image 0 4 = MANTLE_ROOTFS_MAGIC
  count : wordOf image 4 4 = files.length
  pos : 0 < files.length
  long : rootfs.headerSize ≤ image.length
  walk : walk image files.length rootfs.headerSize = viewsFrom before.length files
  walkable : Walkable image files.length rootfs.headerSize ↔ ∀ f ∈ files, f.path.length ≤ 255

theorem build_rootfs_packs {files : List SourceFile} {image : Bytes}
    (h : build_rootfs files = .ok image) : ∃ before, Packed files image before := by
  obtain ⟨hne, hlen, hslash, entries, hpack, himage⟩ := build_rootfs_eq h
  have htable := pack_entries_length hpack
  -- the header alone, and the header with the table
  obtain ⟨header, hheader⟩ : ∃ header, header = wordBytes 4 MANTLE_ROOTFS_MAGIC ++
      wordBytes 4 files.length := ⟨_, rfl⟩
  have hheader_length : header.length = 8 := by
    rw [hheader, List.length_append, wordBytes_length, wordBytes_length]
  have hbefore : (header ++ entries.flatten).length = 8 + table_size files := by
    rw [List.length_append, hheader_length, htable]
  have hsplit : image = header ++ (entries.flatten ++ (files.map (·.data)).flatten) := by
    rw [himage, hheader, List.append_assoc]
  have hpaths : ∀ f ∈ files, 0 < f.path.length := by
    intro f hf
    rw [List.length_pos_iff]
    intro hempty
    have hhead := hslash f hf
    rw [hempty] at hhead
    cases hhead
  have hlength : image.length = 8 + table_size files + (files.map (·.data)).flatten.length := by
    rw [hsplit, List.length_append, List.length_append, hheader_length, htable]
    omega
  have hwalk := walk_packed files (8 + table_size files) header (files.map (·.data)).flatten entries
    hpack hpaths (by rw [← hsplit, hlength])
  rw [← hsplit, hheader_length] at hwalk
  refine ⟨header ++ entries.flatten, ?_, ?_, ?_, List.length_pos_iff.mpr hne, ?_, ?_, hwalk.2⟩
  · rw [hsplit, List.append_nil, List.append_assoc]
  · have hmagic := wordOf_append (a := []) (i := 0) (n := 4) (v := MANTLE_ROOTFS_MAGIC)
      (c := wordBytes 4 files.length ++ (entries.flatten ++ (files.map (·.data)).flatten)) rfl
      (by decide)
    rw [himage]
    rwa [List.nil_append] at hmagic
  · rw [himage]
    exact wordOf_append (by rw [wordBytes_length]) (by simpa using hlen)
  · unfold rootfs.headerSize
    omega
  · rw [hbefore]
    exact hwalk.1

variable {files : List SourceFile} {image before : Bytes}

theorem Packed.accepts_iff (h : Packed files image before) : Accepts image ↔ Mountable files := by
  unfold Mountable
  rw [← h.walkable]
  constructor
  · intro ha
    have hle := ha.entries_le
    have hwalk := ha.walkable
    rw [h.count] at hle hwalk
    exact ⟨hle, hwalk⟩
  · rintro ⟨hle, hwalk⟩
    have hcount := h.count
    have hpos := h.pos
    exact ⟨h.long, h.magic, by omega, by rw [hcount]; exact hle, by rw [hcount]; exact hwalk⟩

/-- The mounted kernel finds the data of the first file with the path. -/
theorem Packed.fileAt_eq {blob : Blob} (h : Packed files blob.content before) (path : Bytes) :
    fileAt (mountedState blob) path = (files.find? (fun f => f.path = path)).map (·.data) := by
  have hentries : entriesOf (mountedState blob) = viewsFrom before.length files := by
    unfold entriesOf mountedState
    dsimp only
    rw [h.count, h.walk]
  have hlook := lookup_viewsFrom files before [] path
  rw [← h.data] at hlook
  unfold fileAt
  rw [hentries]
  cases hl : lookup (viewsFrom before.length files) path with
  | none =>
    rw [hlook.2.mp hl]
    rfl
  | some file =>
    obtain ⟨f, hf, hdata, _, _⟩ := hlook.1 file hl
    rw [hf, Option.map_some, ← hdata]
    rfl

/-! ## What the kernel makes of it -/

instance (image : Bytes) : Decidable (EntryPageExecutable image) :=
  decidable_of_iff ((lastMeeting (segments image) (pageOf (headerOf image).entry)).any executes)
    (by simp [EntryPageExecutable, Option.any_eq_true])

instance (image : Bytes) : Decidable (StackPageWritable image) :=
  decidable_of_iff ((lastMeeting (segments image) 511).all writes)
    (by simp [StackPageWritable, Option.all_eq_true])

/-- The boot as the list of the files decides it. -/
def bootOf (layout : Layout) (files : List SourceFile) (image : Blob) (tss_loaded : Bool)
    (console : Bytes) (keyboard : List UInt8) : Boot :=
  if ¬ Mountable files then ([.MANTLE_ROOTFS_INVALID, .MANTLE_ROOTFS_ERROR], .halted)
  else
    match files.find? (fun f => f.path = ascii "/bin/hello") with
    | none => ([.MANTLE_ROOTFS_OK, .MANTLE_ELF_ERROR], .halted)
    | some init =>
      if ¬ (HeaderAccepted init.data ∧ SegmentsAccepted init.data) then
        ([.MANTLE_ROOTFS_OK, .MANTLE_ELF_ERROR], .halted)
      else if tss_loaded = true ∧ EntryPageExecutable init.data ∧ StackPageWritable init.data then
        ([.MANTLE_ROOTFS_OK, .MANTLE_ELF_OK],
          .entered (bootedKernel layout image init.data console keyboard)
            { entry := (headerOf init.data).entry, stack := USER_STACK_TOP })
      else ([.MANTLE_ROOTFS_OK, .MANTLE_ELF_OK, .MANTLE_ROOTFS_ERROR], .halted)

/-- The diagnostics without a task register. -/
theorem ring3_diagnostics_without_tss (layout : Layout) (user : UserSpace) (entry stack : Nat) :
    ring3_diagnostics layout false user entry stack = .ok (user, false) := by
  unfold ring3_diagnostics
  rw [if_neg (by decide), if_pos (by decide)]

theorem run_rootfs_eq {image : Blob} (layout : Layout) (h : Packed files image.content before)
    (tss_loaded : Bool) (console : Bytes) (keyboard : List UInt8) :
    run_rootfs layout image tss_loaded (.start console keyboard) =
      .ok (bootOf layout files image tss_loaded console keyboard) := by
  obtain ⟨r, hr, hmount⟩ := mantle_rootfs_mount.spec image
  unfold run_rootfs bootOf
  rw [hr, ok_bind]
  rcases hmount with ⟨ha, rfl⟩ | ⟨hna, rfl⟩
  · rw [if_neg (by simp), if_neg (by rw [not_not]; exact h.accepts_iff.mp ha),
      mantle_arch_user_memory_init.eq, ok_bind, process_init_eq, ok_bind]
    have hopen := open_and_load.spec layout (mountedKernel layout image console keyboard)
      (ascii "/bin/hello" ++ [0]) (mountedKernel_sound layout image console keyboard ha).rootfs
      (by decide)
    have hcstr : cstring (ascii "/bin/hello" ++ [0]) = ascii "/bin/hello" := by decide
    have hfile := h.fileAt_eq (ascii "/bin/hello")
    change (open_and_load layout (mountedKernel layout image console keyboard) _ >>= _) = _
    rw [hopen, ok_bind, hcstr,
      show fileAt (mountedKernel layout image console keyboard).rootfs (ascii "/bin/hello") = _ from
        hfile]
    cases hfind : files.find? (fun f => f.path = ascii "/bin/hello") with
    | none => rfl
    | some init =>
      rw [Option.map_some]
      dsimp only
      by_cases hvalid : HeaderAccepted init.data ∧ SegmentsAccepted init.data
      · obtain ⟨hheader, hsegments⟩ := hvalid
        rw [if_neg (by rw [not_not]; exact ⟨hheader, hsegments⟩), loadM, if_pos hheader,
          if_pos hsegments]
        dsimp only
        have hpaging := paging_ok_after_load layout (mountedKernel layout image console keyboard).user
          init.data hheader hsegments
        cases tss_loaded with
        | false =>
          rw [ring3_diagnostics_without_tss, ok_bind, if_neg (by simp)]
          rfl
        | true =>
          rw [ring3_diagnostics.decides layout _ _ (entry_inWindow hheader), ok_bind]
          by_cases hready : EntryPageExecutable init.data ∧ StackPageWritable init.data
          · have hall : true = true ∧ EntryPageExecutable init.data ∧ StackPageWritable init.data :=
              ⟨rfl, hready⟩
            rw [hpaging.mpr hready, if_pos hall]
            rfl
          · have hrefused : paging_ok layout (placedUser layout
                (mountedKernel layout image console keyboard).user init.data).pages
                (headerOf init.data).entry USER_STACK_TOP = false := by
              rw [← Bool.not_eq_true, hpaging]
              exact hready
            have hnone : ¬ (true = true ∧ EntryPageExecutable init.data ∧
                StackPageWritable init.data) := fun hall => hready hall.2
            rw [hrefused, if_neg hnone]
            rfl
      · rw [if_pos hvalid]
        have hload : (loadM layout (mountedKernel layout image console keyboard).user init.data).2 =
            none := by
          unfold loadM
          split
          · rename_i hheader
            rw [if_neg fun hsegments => hvalid ⟨hheader, hsegments⟩]
          · rfl
        rw [hload]
        rfl
  · rw [if_pos (by decide), if_pos (fun hm => hna (h.accepts_iff.mpr hm))]
    rfl

/-! ## The law -/

/-- What enters ring 3 is the start of a run of system calls. -/
theorem run_rootfs_starts {layout : Layout} {image : Blob} {tss_loaded : Bool} {console : Bytes}
    {keyboard : List UInt8} {lines : List marker} {k : Kernel} {init_image : mantle_user_image}
    (h : run_rootfs layout image tss_loaded (.start console keyboard) =
      .ok (lines, .entered k init_image)) :
    start_user layout image tss_loaded (.start console keyboard) = .ok (some (k, init_image)) := by
  unfold run_rootfs at h
  unfold start_user
  obtain ⟨mounted, hmount, h⟩ := bind_eq_ok.mp h
  rw [hmount, ok_bind]
  split at h
  · cases h
  rename_i hstatus
  obtain ⟨user, huser, h⟩ := bind_eq_ok.mp h
  obtain ⟨process, hprocess, h⟩ := bind_eq_ok.mp h
  obtain ⟨loaded, hload, h⟩ := bind_eq_ok.mp h
  dsimp only
  rw [if_neg hstatus, huser, ok_bind, hprocess, ok_bind, hload, ok_bind]
  obtain ⟨k1, image1⟩ := loaded
  cases image1 with
  | none => cases h
  | some image1 =>
    obtain ⟨checked, hring, h⟩ := bind_eq_ok.mp h
    dsimp only at hring ⊢
    rw [hring, ok_bind]
    split at h
    · rename_i hentered
      cases h
      dsimp only
      rw [if_pos hentered]
      rfl
    · cases h

def helloFiles : List SourceFile := [⟨ascii "/bin/hello", helloFile⟩, ⟨ascii "/bad", badFile⟩]

theorem helloFiles_build : build_rootfs helloFiles = .ok helloImage.content := by
  have hsome : (build_rootfs helloFiles).toOption.isSome = true := by decide +kernel
  unfold helloImage
  unfold helloFiles at *
  dsimp only
  generalize build_rootfs _ = built at *
  cases built with
  | error e => cases hsome
  | ok content => rfl

end mantle.boot
