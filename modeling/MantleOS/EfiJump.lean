-- What stands in memory when `efi_main` jumps: the kernel, the root file
-- system and the block that leads to it, each in regions of its own.
import MantleOS.EfiMain

open checked bytes regions

namespace mantle.loader

/-! ## What stays -/

/-- What the loader had in use it still has, with the same contents. What was apart still is. -/
structure World.Grows (w w' : World) : Prop where
  inUse : ∀ r ∈ w.inUse, r ∈ w'.inUse
  allocated : ∀ p ∈ w.machine.allocated, p ∈ w'.machine.allocated
  kept : ∀ r ∈ w.inUse, contents w'.machine.memory r = contents w.machine.memory r
  apart : w.inUse.Pairwise Region.Apart → w'.inUse.Pairwise Region.Apart

variable {s : Services} {w w' w'' : World} {held : List Region} {files : Nat}

theorem World.Grows.trans (h : w.Grows w') (h' : w'.Grows w'') : w.Grows w'' := by
  constructor
  · exact fun r hr => h'.inUse r (h.inUse r hr)
  · exact fun p hp => h'.allocated p (h.allocated p hp)
  · exact fun r hr => (h'.kept r (h.inUse r hr)).trans (h.kept r hr)
  · exact fun hapart => h'.apart (h.apart hapart)

instance : Std.Symm Region.Apart := ⟨fun _ _ h => h.symm⟩

/-- New pools. -/
theorem World.Beyond.grows (h : w.Beyond w' held files) : w.Grows w' := by
  constructor
  · exact fun r hr => h.mem_inUse.mpr (.inr hr)
  · rw [h.pages]
    exact fun _ hp => hp
  · exact h.kept
  · intro hapart
    have hinUse : w'.inUse = held ++ w.inUse := by
      unfold inUse
      rw [h.pools, h.pages, List.append_assoc]
    rw [hinUse, List.pairwise_append]
    exact ⟨h.among.imp fun hd => hd.1, hapart, fun q hq r hr => (h.distinct q hq r hr).1.symm⟩

/-- New pages, before those that there were. -/
theorem World.pairwise_pages {pools new : List Region} {old : List Region}
    (h : (pools ++ old).Pairwise Region.Apart) (hnew : new.Pairwise Region.Apart)
    (hapart : ∀ q ∈ new, ∀ r ∈ pools ++ old, r.Apart q) :
    (pools ++ (new ++ old)).Pairwise Region.Apart := by
  have hperm : (new ++ (pools ++ old)).Perm (pools ++ (new ++ old)) :=
    List.perm_append_comm_assoc new pools old
  rw [← hperm.pairwise_iff Region.Apart.symm, List.pairwise_append]
  exact ⟨hnew, h, fun q hq r hr => (hapart q hq r hr).symm⟩

/-- The kernel is loaded. -/
theorem Loaded.grows {image : KernelImage} {m : Machine} {n : Nat} {new : List (Nat × Nat)}
    (h : Loaded w.pools image w.machine m n new) : w.Grows { w with machine := m } := by
  constructor
  · intro r hr
    unfold World.inUse at *
    dsimp only
    rw [h.allocated, List.map_append]
    rcases List.mem_append.mp hr with hr | hr
    · exact List.mem_append_left _ hr
    · exact List.mem_append_right _ (List.mem_append_right _ hr)
  · dsimp only
    rw [h.allocated]
    exact fun p hp => List.mem_append_right _ hp
  · intro r hr
    apply contents_congr
    intro a ha
    apply h.outside
    rintro ⟨p, hp, hin⟩
    exact (h.apart p hp r hr).not_holds ha hin
  · intro hapart
    unfold World.inUse
    dsimp only
    rw [h.allocated, List.map_append]
    refine World.pairwise_pages hapart h.among ?_
    intro q hq r hr
    obtain ⟨p, hp, rfl⟩ := List.mem_map.mp hq
    exact h.apart p hp r hr

/-- The block is put into its page. -/
theorem World.withInfo_grows {info : BootInfo} (hlength : info.content.length = 0x1000)
    (hapart : ∀ r ∈ w.inUse, r.Apart ⟨info.address, 0x1000⟩) :
    w.Grows (w.withInfo info) ∧
      pagesOf (info.address, 1) ∈ (w.withInfo info).inUse ∧
      contents (w.withInfo info).machine.memory ⟨info.address, 0x1000⟩ = info.content := by
  have hmemory : (w.withInfo info).machine.memory = fill w.machine.memory
      ⟨info.address, info.content.length⟩ fun i => info.content.getD i 0 := rfl
  have hpage : (w.withInfo info).inUse =
      w.pools ++ ([pagesOf (info.address, 1)] ++ w.machine.allocated.map pagesOf) := rfl
  have hone : pagesOf (info.address, 1) = ⟨info.address, 0x1000⟩ := by
    unfold pagesOf
    rw [Nat.one_mul]
  refine ⟨⟨?_, ?_, ?_, ?_⟩, ?_, ?_⟩
  · intro r hr
    rw [hpage]
    rcases List.mem_append.mp hr with hr | hr
    · exact List.mem_append_left _ hr
    · exact List.mem_append_right _ (List.mem_append_right _ hr)
  · exact fun p hp => List.mem_cons_of_mem _ hp
  · intro r hr
    rw [hmemory, hlength]
    exact contents_fill_apart (hapart r hr)
  · intro hpairwise
    rw [hpage]
    refine World.pairwise_pages hpairwise (List.pairwise_singleton _ _) ?_
    intro q hq r hr
    rw [List.mem_singleton.mp hq, hone]
    exact hapart r hr
  · rw [hpage]
    exact List.mem_append_right _ List.mem_cons_self
  · have hcontents := contents_fill w.machine.memory info.content 0 info.address
    rwa [← hmemory, hlength] at hcontents

/-- A segment that stands there stays. -/
theorem Placed.grows {image : Bytes} {program : elf64_program} (h : Placed image program w.machine)
    (hgrows : w.Grows w') : Placed image program w'.machine := by
  have hinUse : pagesOf program.pages ∈ w.inUse :=
    List.mem_append_right _ (List.mem_map_of_mem h.owned)
  exact h.of_same (hgrows.allocated _ h.owned) fun a ha =>
    eq_of_contents (hgrows.kept _ hinUse) ha

/-! ## The end of `efi_main` -/

/-- The map of the memory comes into a pool of its own, and the jump has the entry and the block. -/
theorem leave_services.grows (hs : s.Documented) {entry : Nat} {info : BootInfo} {j : Jump}
    (h : leave_services s w entry info = .ok j) :
    w.Grows j.world ∧ j.world.open_files = w.open_files ∧ j.entry = entry ∧ j.info = info := by
  unfold leave_services at h
  dsimp only at h
  split at h
  · cases h
  split at h
  · cases h
  rename_i hpool
  split at h
  · cases h
  split at h
  · cases h
  cases h
  rw [Bool.not_eq_true] at hpool
  have htake := (World.Beyond.refl w).take hs hpool
  have hput := htake.put List.mem_cons_self (hs.map _)
  exact ⟨hput.grows, hput.files, rfl, rfl⟩

theorem build_info_length {page : Option Page} {gop : Option GraphicsMode}
    {rootfs rootfs_size : UInt64} {info : BootInfo}
    (h : build_info page gop rootfs rootfs_size = some info) : info.content.length = 0x1000 := by
  cases page with
  | none => cases h
  | some page =>
    cases h
    dsimp only
    rw [info_page_eq, ← blockWrites, written_length (blockWrites_fit gop _ _)]
    exact List.length_replicate

/-- What `start_kernel` leaves for the jump. -/
structure Starts (kernel : KernelImage) (w : World) (rootfs : Region) (gop : Option GraphicsMode)
    (j : Jump) : Prop where
  grows : w.Grows j.world
  files : j.world.open_files = w.open_files
  entry : j.entry = wordOf kernel.bytes 24 8
  placed : ∀ index < phnum kernel, (header kernel index).type = 1 →
    Placed kernel.bytes (header kernel index) j.world.machine
  block : contents j.world.machine.memory ⟨j.info.address, 0x1000⟩ = j.info.content
  info : ∃ page, build_info (some page) gop (.ofNat rootfs.start) (.ofNat rootfs.size) = some j.info

theorem kernelImage_eq {image : KernelImage} {bytes : Bytes} (h : bytes.length < 2 ^ 64)
    (hbytes : bytes = image.bytes) : KernelImage.mk bytes h = image := by
  subst hbytes
  rfl

theorem start_kernel.starts (hs : s.Documented) {kernel rootfs : Region} {image : KernelImage}
    (himage : contents w.machine.memory kernel = image.bytes)
    (hno : ∀ index < phnum image, (header image index).type = 1 → NoWrap (header image index))
    {j : Jump} (h : start_kernel s w kernel rootfs = .ok (.ok j)) :
    Starts image w rootfs s.gop j := by
  unfold start_kernel at h
  split at h
  · rename_i hsize
    obtain ⟨r, hload, h⟩ := bind_eq_ok.mp h
    rw [kernelImage_eq _ himage] at hload
    cases r with
    | none => cases h
    | some loaded =>
      obtain ⟨m, entry⟩ := loaded
      obtain ⟨hentry, new, hloaded⟩ := load_kernel.loads (hs.pages w.pools) hno hload
      dsimp only at h
      cases hinfo : build_info (s.AllocateMaxAddress (World.inUse { w with machine := m })) s.gop
          (.ofNat rootfs.start) (.ofNat rootfs.size) with
      | none =>
        rw [hinfo] at h
        cases h
      | some info =>
        rw [hinfo] at h
        dsimp only at h
        rw [pure_eq_ok, Except.ok.injEq] at h
        obtain ⟨hleave, hfiles, hjentry, hjinfo⟩ := leave_services.grows hs h
        have hgrows := hloaded.grows
        cases hpage : s.AllocateMaxAddress (World.inUse { w with machine := m }) with
        | none =>
          rw [hpage] at hinfo
          cases hinfo
        | some page =>
          have hlength := build_info_length hinfo
          rw [hpage] at hinfo
          have haddress : info.address = page.address := by
            cases hinfo
            rfl
          obtain ⟨hblock_grows, hblock_inUse, hblock⟩ := World.withInfo_grows hlength
            (by rw [haddress]; exact hs.page _ page hpage)
          have hall := hgrows.trans (hblock_grows.trans hleave)
          have hplaced : ∀ index < phnum image, (header image index).type = 1 →
              Placed image.bytes (header image index) j.world.machine := fun index hi htype =>
            Placed.grows (w := { w with machine := m }) (hloaded.placed index hi htype).2
              (hblock_grows.trans hleave)
          have hinfo_kept := hleave.kept _ hblock_inUse
          unfold pagesOf at hinfo_kept
          rw [Nat.one_mul, hblock] at hinfo_kept
          refine ⟨hall, hfiles, hjentry.trans hentry, hplaced, ?_, page, ?_⟩
          · rw [hjinfo]
            exact hinfo_kept
          · rw [hjinfo]
            exact hinfo
  · cases h

/-! ## The law -/

/-- The firmware has the file: what it says of its size and gives of its bytes is right, where it
does not give an error. -/
structure Services.Serves (s : Services) (path file : Bytes) : Prop where
  size : ∀ n, EFI_ERROR (s.GetInfo path n).1 = false → wordOf (s.GetInfo path n).2 8 8 = file.length
  data : ∀ n, EFI_ERROR (s.Read path n).1 = false → (s.Read path n).2 = file.take n

variable {w0 : World} {path file : Bytes} {n : Nat} {buffer : Region}

theorem WholeFile.serves (h : WholeFile s w0 path n w buffer) (hserves : s.Serves path file) :
    buffer.size = file.length ∧ contents w.machine.memory buffer = file := by
  have hsize := h.size.trans (hserves.size n h.informed)
  refine ⟨hsize, ?_⟩
  rw [h.bytes, hserves.data _ h.read, hsize, List.take_length]

/-- The two files are read before anything else. -/
theorem efi_main.reads (hs : s.Documented) {j : Jump} (h : efi_main s w = .ok (.ok j)) :
    ∃ w1 w2 kernel rootfs, WholeFile s w kernelPath (s.GetInfo_size kernelPath).2 w1 kernel ∧
      WholeFile s w1 rootfsPath (s.GetInfo_size rootfsPath).2 w2 rootfs ∧
      start_kernel s w2 kernel rootfs = .ok (.ok j) := by
  unfold efi_main at h
  split at h
  · cases h
  obtain ⟨⟨w1, status1, buffer1⟩, hkernel, h⟩ := bind_eq_ok.mp h
  have hreads1 := (read_file.spec hs w kernelPath).of_eq_ok hkernel
  split at h
  · cases h
  rename_i hstatus1
  obtain ⟨⟨w2, status2, buffer2⟩, hrootfs, h⟩ := bind_eq_ok.mp h
  have hreads2 := (read_file.spec hs w1 rootfsPath).of_eq_ok hrootfs
  split at h
  · cases h
  rename_i hstatus2
  dsimp only at h hstatus1 hstatus2
  cases buffer1 with
  | none => exact absurd hreads1.1 hstatus1
  | some kernel =>
    cases buffer2 with
    | none => exact absurd hreads2.1 hstatus2
    | some rootfs =>
      dsimp only at h
      split at h
      · cases h
      · exact ⟨w1, w2, kernel, rootfs, hreads1.2, hreads2.2, h⟩

theorem plainServices_serves {files : Bytes → Option Bytes} {path file : Bytes}
    (h : files path = some file) (hsize : file.length < 2 ^ 64) :
    (plainServices files).Serves path file := by
  constructor
  · intro n hok
    unfold plainServices at hok ⊢
    dsimp only at hok ⊢
    split at hok
    · rw [too_small_is_error] at hok
      cases hok
    · rename_i hn
      rw [if_neg hn, h]
      dsimp only [Option.getD_some]
      have hword := wordOf_append (a := wordBytes 8 n) (c := []) (n := 8) (i := 8)
        (wordBytes_length 8 n).symm hsize
      rwa [List.append_nil] at hword
  · intro n _
    unfold plainServices
    dsimp only
    rw [h]
    rfl

theorem usualFiles_read : ∃ w1 w2,
    read_file (plainServices usualFiles) kernelPath emptyWorld =
        .ok (w1, EFI_SUCCESS, some ⟨0x1000051, 120⟩) ∧
      read_file (plainServices usualFiles) rootfsPath w1 =
        .ok (w2, EFI_SUCCESS, some ⟨0x30001e5, 3⟩) := by
  have h : (do
      let kernel ← read_file (plainServices usualFiles) kernelPath emptyWorld
      let rootfs ← read_file (plainServices usualFiles) rootfsPath kernel.1
      return (kernel.2, rootfs.2) : Checked _).toOption =
      some ((EFI_SUCCESS, some ⟨0x1000051, 120⟩), (EFI_SUCCESS, some ⟨0x30001e5, 3⟩)) := by
    decide +kernel
  cases hkernel : read_file (plainServices usualFiles) kernelPath emptyWorld with
  | error e =>
    rw [hkernel] at h
    cases h
  | ok kernel =>
    rw [hkernel, ok_bind] at h
    cases hrootfs : read_file (plainServices usualFiles) rootfsPath kernel.1 with
    | error e =>
      rw [hrootfs] at h
      cases h
    | ok rootfs =>
      rw [hrootfs] at h
      obtain ⟨w1, status1, buffer1⟩ := kernel
      obtain ⟨w2, status2, buffer2⟩ := rootfs
      cases h
      exact ⟨w1, w2, rfl, hrootfs⟩

/-- The usual kernel comes to its jump. -/
theorem usualFiles_jump : ∃ j, efi_main (plainServices usualFiles) emptyWorld = .ok (.ok j) := by
  obtain ⟨w1, w2, hread1, hread2⟩ := usualFiles_read
  have hs := plainServices_documented usualFiles
  have hwhole1 := ((read_file.spec hs emptyWorld kernelPath).of_eq_ok hread1).2
  have hwhole2 := ((read_file.spec hs w1 rootfsPath).of_eq_ok hread2).2
  have hpools := hwhole2.beyond.pools
  rw [hwhole1.beyond.pools] at hpools
  have hallocated := hwhole2.beyond.pages.trans hwhole1.beyond.pages
  have hserves : (plainServices usualFiles).Serves kernelPath usualKernel.bytes :=
    plainServices_serves rfl usualKernel.size_lt
  have hbytes := (hwhole1.serves hserves).2
  have hkept := hwhole2.beyond.kept ⟨0x1000051, 120⟩
    (hwhole1.beyond.mem_inUse.mpr (.inl (List.mem_singleton_self _)))
  rw [hbytes] at hkept
  have hfree : (carefulFirmware w2.pools).AllocatePages w2.machine.allocated 2 0x100000 =
      some 0x100000 := by
    rw [hpools, hallocated]
    decide
  have hload := usualKernel_loads hfree
  have hpage : (plainServices usualFiles).AllocateMaxAddress (World.inUse { w2 with machine :=
      { allocated := (0x100000, 2) :: w2.machine.allocated
        memory := withSegment usualKernel.bytes usualSegment w2.machine.memory } }) =
      some somePage := by
    unfold World.inUse
    dsimp only
    rw [hpools, hallocated]
    rfl
  unfold efi_main
  rw [if_neg (by decide), hread1, ok_bind]
  dsimp only
  rw [if_neg (by decide), hread2, ok_bind]
  dsimp only
  rw [if_neg (by decide), if_neg (by decide)]
  unfold start_kernel
  rw [dif_pos (by decide), kernelImage_eq _ hkept]
  dsimp only
  rw [show (plainServices usualFiles).AllocatePages w2.pools = carefulFirmware w2.pools from rfl,
    hload, ok_bind]
  dsimp only
  rw [hpage]
  exact ⟨_, rfl⟩

end mantle.loader
