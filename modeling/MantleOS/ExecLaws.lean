-- What a failed exec leaves of its caller, and what a new program is started
-- with. The loader clears the user memory before it checks the program
-- headers, so a file that fails these checks takes the caller with it.
import MantleOS.CallResults

open checked bytes

namespace mantle.syscall

open rootfs elf

/-! ## The file and its image in memory -/

/-- The bytes of the file that an exec with these registers names. -/
def execFile (k : Kernel) (frame : mantle_syscall_frame) : Option Bytes :=
  (userString k.user.memory frame.rdi.toNat).bind (fileAt k.rootfs)

/-- What the segments before the first refused one say of a byte of user memory. -/
def lastByte (data : Bytes) (i : Nat) : UInt8 :=
  ((placed data).reverse.findSome? (fun p => segmentByte data p i)).getD 0

/-- What the segments before the first refused one say of a page. -/
def lastPage (layout : Layout) (data : Bytes) (page : Nat) : Nat :=
  match lastMeeting (placed data) page with
  | some p => entryWith layout page (writes p) (!executes p)
  | none => entryWith layout page (decide (496 ≤ page)) true

/-- User memory and the page table are already what these segments say. -/
structure AlreadyPlaced (layout : Layout) (user : UserSpace) (data : Bytes) : Prop where
  memory : ∀ i < userSize, user.memory.cells i = lastByte data i
  pages : ∀ p < 512, user.pages p = lastPage layout data p

theorem placedUser_cells (layout : Layout) (user : UserSpace) (data : Bytes) {i : Nat}
    (h : i < userSize) : (placedUser layout user data).memory.cells i = lastByte data i := by
  have hzero : (user.memory.filled 0 0x200000 (fun _ => 0)).cells i = 0 := by
    unfold userSize at h
    simp only [Window.filled]
    rw [if_pos (by omega)]
  simp only [placedUser, overlay_apply, lastByte, hzero]

/-! ## A failed exec -/

/-- What the caller of a failed exec goes on with. -/
structure Unchanged (k k' : Kernel) (frame frame' : mantle_syscall_frame) : Prop where
  memory : ∀ i < userSize, k'.user.memory.cells i = k.user.memory.cells i
  pages : ∀ p < 512, k'.user.pages p = k.user.pages p
  descriptors : k'.descriptors = k.descriptors
  process : k'.process = k.process
  rip : frame'.rip = frame.rip
  rsp : frame'.rsp = frame.rsp

/-- A call that returns -1 leaves the caller as it was. -/
def FailureKeepsCaller (layout : Layout) (k : Kernel) (frame : mantle_syscall_frame) : Prop :=
  ∀ k' frame', mantle_syscall_dispatch layout k frame = .ok (.returned k' frame') →
    frame'.rax = -1 → Unchanged k k' frame frame'

variable {layout : Layout} {k : Kernel} {frame : mantle_syscall_frame}

/-- What an exec returns, by the file that it names. -/
theorem exec_returns (h : Sound layout k) (hs : frame.service = .sys_exec) :
    mantle_syscall_dispatch layout k frame = .ok
      (match execFile k frame with
        | none => answered frame (note_user k, -1)
        | some data =>
          match loadM layout k.user data with
          | (user, none) => answered frame ({ note_user k with user }, -1)
          | (user, some image) =>
            answered { frame with rip := .ofNat image.entry, rsp := .ofNat image.stack }
              ({ note_user k with user }, 0)) := by
  have hn := note_user_sound h
  obtain ⟨seen, origin, console, hk⟩ := note_user_eq k
  unfold mantle_syscall_dispatch
  simp only [hs]
  rw [syscall_exec.spec layout _ frame _ hn.rootfs, ok_bind]
  unfold execM execFile
  rw [hk]
  cases (userString k.user.memory frame.rdi.toNat).bind (fileAt k.rootfs) with
  | none => rfl
  | some data =>
    simp only
    rcases loadM layout k.user data with ⟨user, _ | image⟩ <;> rfl

/-- An answer of -1 that changed nothing of the user space keeps the caller. -/
theorem unchanged_of_user {user : UserSpace}
    (hm : ∀ i < userSize, user.memory.cells i = k.user.memory.cells i)
    (hp : ∀ p < 512, user.pages p = k.user.pages p) (result : Int) :
    Unchanged k { note_user k with user } frame (frame.answer result) := by
  obtain ⟨seen, origin, console, hk⟩ := note_user_eq k
  rw [hk]
  exact ⟨hm, hp, rfl, rfl, rfl, rfl⟩

/-- A failed exec keeps its caller exactly when the file that it names, if there is one, fails
the checks of its header, or passes all checks, or describes the user space as it is. -/
theorem failed_exec_keeps_its_caller_iff (layout : Layout) (k : Kernel) (h : Reachable layout k)
    (frame : mantle_syscall_frame) (hs : frame.rax.toNat % 2 ^ 32 = 6) :
    FailureKeepsCaller layout k frame ↔
      ∀ data, execFile k frame = some data → HeaderAccepted data →
        SegmentsAccepted data ∨ AlreadyPlaced layout k.user data := by
  have hservice : frame.service = .sys_exec := by
    simp only [mantle_syscall_frame.service, hs, serviceOf]
  have hreturns := exec_returns h.sound hservice
  have hsame : Unchanged k (note_user k) frame (frame.answer (-1)) := by
    obtain ⟨seen, origin, console, hk⟩ := note_user_eq k
    rw [hk]
    exact ⟨fun _ _ => rfl, fun _ _ => rfl, rfl, rfl, rfl, rfl⟩
  unfold FailureKeepsCaller
  rw [hreturns]
  cases hf : execFile k frame with
  | none =>
    refine ⟨fun _ data hd => (nomatch hd), fun _ k' frame' hk' _ => ?_⟩
    cases hk'
    exact hsame
  | some data =>
    by_cases hh : HeaderAccepted data
    swap
    · -- a refused header: nothing was cleared
      have hload : loadM layout k.user data = (k.user, none) := by rw [loadM, if_neg hh]
      simp only [hload]
      refine ⟨fun _ d hd hhd => absurd hhd (by cases hd; exact hh), fun _ k' frame' hk' _ => ?_⟩
      cases hk'
      exact unchanged_of_user (fun _ _ => rfl) (fun _ _ => rfl) (-1)
    by_cases hseg : SegmentsAccepted data
    · -- the file is started
      have hload : loadM layout k.user data = (placedUser layout k.user data,
          some { entry := (headerOf data).entry, stack := USER_STACK_TOP }) := by
        rw [loadM, if_pos hh, if_pos hseg]
      simp only [hload]
      refine ⟨fun _ d hd _ => Or.inl (by cases hd; exact hseg), fun _ k' frame' hk' hrax => ?_⟩
      cases hk'
      cases hrax
    · -- the clear and the segments before the first refused one stay
      have hload : loadM layout k.user data = (placedUser layout k.user data, none) := by
        rw [loadM, if_pos hh, if_neg hseg]
      simp only [hload]
      constructor
      · intro hkeeps d hd _
        cases hd
        have hun := hkeeps _ _ rfl (answer_neg_one frame)
        refine Or.inr ⟨fun i hi => ?_, fun p hp => ?_⟩
        · rw [← placedUser_cells layout k.user data hi]
          exact (hun.memory i hi).symm
        · have hpage := (hun.pages p hp).symm
          rw [show lastPage layout data p = (placedUser layout k.user data).pages p from
            (placedUser_pages layout k.user data p hp).symm]
          exact hpage
      · intro hcond k' frame' hk' _
        cases hk'
        obtain hacc | hplaced := hcond data rfl hh
        · exact absurd hacc hseg
        apply unchanged_of_user
        · intro i hi
          rw [placedUser_cells layout k.user data hi, hplaced.memory i hi]
        · intro p hp
          rw [placedUser_pages layout k.user data p hp, hplaced.pages p hp]
          rfl

/-- An exec of the string at 0x401000, which names the program that the loader refuses. -/
def badExec : mantle_syscall_frame := frameOf 6 0x401000 0 0

theorem failed_exec_of_the_bad_program :
    badExec.rax.toNat % 2 ^ 32 = 6 ∧
    (FailureKeepsCaller someLayout helloKernel badExec ↔
      ∀ data, execFile helloKernel badExec = some data → HeaderAccepted data →
        SegmentsAccepted data ∨ AlreadyPlaced someLayout helloKernel.user data) :=
  ⟨by decide, failed_exec_keeps_its_caller_iff someLayout helloKernel helloKernel_reachable badExec
    (by decide)⟩

theorem badExec_file : execFile helloKernel badExec = some badFile := by decide +kernel

/-- The exec returns -1, and the first instruction of its caller is gone. -/
theorem failed_exec_clears_its_caller :
    Reachable someLayout helloKernel ∧ badExec.rax.toNat % 2 ^ 32 = 6 ∧
    (∃ k' frame', mantle_syscall_dispatch someLayout helloKernel badExec =
        .ok (.returned k' frame') ∧ frame'.rax = -1 ∧
      helloKernel.user.memory.byte 0x400000 = 0xeb ∧ k'.user.memory.byte 0x400000 = 0) ∧
    ¬ FailureKeepsCaller someLayout helloKernel badExec := by
  have hload : loadM someLayout helloKernel.user badFile =
      (placedUser someLayout helloKernel.user badFile, none) := by
    rw [loadM, if_pos (by decide +kernel), if_neg (by decide +kernel)]
  have hreturns := @exec_returns someLayout helloKernel badExec helloKernel_reachable.sound (by decide)
  rw [badExec_file] at hreturns
  simp only [hload] at hreturns
  have hbefore : helloKernel.user.memory.byte 0x400000 = 0xeb := by decide +kernel
  have hafter : (placedUser someLayout helloKernel.user badFile).memory.byte 0x400000 = 0 := by
    decide +kernel
  refine ⟨helloKernel_reachable, by decide, ⟨_, _, hreturns, rfl, hbefore, hafter⟩, ?_⟩
  intro hkeeps
  have hun := (hkeeps _ _ hreturns rfl).memory 0 (by decide)
  have hsame : (placedUser someLayout helloKernel.user badFile).memory.byte 0x400000 =
      helloKernel.user.memory.byte 0x400000 := hun
  rw [hbefore, hafter] at hsame
  exact absurd hsame (by decide)

/-! ## The registers of a new program -/

/-- The file that the call hands to the loader. -/
def loaderFile (k : Kernel) (frame : mantle_syscall_frame) : Option Bytes :=
  match frame.service with
  | .sys_exec => execFile k frame
  | .sys_exit => initFile k
  | _ => none

/-- The loader accepts the file of the call, and user space after the call is what the loader
made of it. -/
def Replaces (layout : Layout) (k : Kernel) (frame : mantle_syscall_frame) (k' : Kernel)
    (data : Bytes) : Prop :=
  loaderFile k frame = some data ∧
    ∃ image, mantle_elf_load layout k.user (some data) = .ok (k'.user, some image)

/-- The frame starts the program at its entry, with an empty stack and 0 in `rax`, and the entry
is in an executable segment of the program. -/
structure HandedOver (data : Bytes) (frame frame' : mantle_syscall_frame) : Prop where
  frame : frame' = { frame with rip := .ofNat (headerOf data).entry, rsp := 0x600000, rax := 0 }
  window : InWindow (headerOf data).entry
  segment : ∃ p ∈ segments data, executes p = true ∧ p.vaddr ≤ (headerOf data).entry ∧
    (headerOf data).entry < p.vaddr + p.memsz

/-- Whenever the call returns with a new image, the frame is that of a fresh program. -/
def StartsFresh (layout : Layout) (k : Kernel) (frame : mantle_syscall_frame) : Prop :=
  ∀ k' frame' data, mantle_syscall_dispatch layout k frame = .ok (.returned k' frame') →
    Replaces layout k frame k' data → HandedOver data frame frame'

/-- The entry of an accepted program is in one of its executable segments. -/
theorem entry_in_segment {data : Bytes} (h : SegmentsAccepted data) :
    ∃ p ∈ segments data, executes p = true ∧ p.vaddr ≤ (headerOf data).entry ∧
      (headerOf data).entry < p.vaddr + p.memsz := by
  obtain ⟨hvalid, _, p, hp, hentry⟩ := h
  have hfits := fits_of_valid (hvalid p hp)
  have hend := hfits.end_le
  simp only [holds_entry, Bool.and_eq_true, decide_eq_true_eq] at hentry
  obtain ⟨⟨hx, hlow⟩, hhigh⟩ := hentry
  refine ⟨p, hp, by simpa [executes] using hx, hlow, ?_⟩
  rwa [Nat.mod_eq_of_lt (by omega)] at hhigh

theorem note_user_initFile (k : Kernel) : initFile (note_user k) = initFile k := by
  obtain ⟨seen, origin, console, hk⟩ := note_user_eq k
  rw [hk]
  rfl

/-- The hand-over of SYS_EXIT comes back with -1 in `rax`. -/
theorem exit_returns {data : Bytes} (h : Sound layout k) (hs : frame.service = .sys_exit)
    (hi : initFile k = some data) (hh : HeaderAccepted data) (hseg : SegmentsAccepted data) :
    ∃ k', mantle_syscall_dispatch layout k frame = .ok (.returned k'
        { frame with rip := .ofNat (headerOf data).entry, rsp := 0x600000, rax := -1 }) ∧
      k'.user = placedUser layout k.user data := by
  have hload : loadM layout (note_user k).user data = (placedUser layout k.user data,
      some { entry := (headerOf data).entry, stack := USER_STACK_TOP }) := by
    rw [(note_user_rest k).2.2.2, loadM, if_pos hh, if_pos hseg]
  unfold mantle_syscall_dispatch
  simp only [hs]
  rw [sys_exit.eq layout _ frame (note_user_sound h).rootfs]
  simp only [exitM, note_user_initFile, hi, hload]
  exact ⟨_, rfl, rfl⟩

/-- A call that replaces the image starts the new program as it should exactly when it is not
the hand-over of SYS_EXIT. -/
theorem a_new_program_starts_fresh_iff (layout : Layout) (k : Kernel) (h : Reachable layout k)
    (frame : mantle_syscall_frame) :
    StartsFresh layout k frame ↔
      ¬ (frame.rax.toNat % 2 ^ 32 = 11 ∧
        ∃ data, initFile k = some data ∧ HeaderAccepted data ∧ SegmentsAccepted data) := by
  constructor
  · rintro hfresh ⟨hnumber, data, hi, hh, hseg⟩
    have hs : frame.service = .sys_exit := by
      simp only [mantle_syscall_frame.service, hnumber, serviceOf]
    obtain ⟨k', hcall, huser⟩ := exit_returns h.sound hs hi hh hseg
    have hreplaces : Replaces layout k frame k' data := by
      refine ⟨by simp only [loaderFile, hs, hi],
        { entry := (headerOf data).entry, stack := USER_STACK_TOP }, ?_⟩
      rw [huser]
      exact mantle_elf_load.accepts layout k.user hh hseg
    have hrax := congrArg (·.rax) (hfresh _ _ _ hcall hreplaces).frame
    exact absurd hrax (by simp)
  · intro hno k' frame' data hcall hreplaces
    obtain ⟨hfile, image, hload⟩ := hreplaces
    obtain ⟨hh, hseg, huser, himage⟩ := mantle_elf_load.accepted hload
    cases hs : frame.service with
    | sys_exec =>
      have hloadM : loadM layout k.user data = (placedUser layout k.user data,
          some { entry := (headerOf data).entry, stack := USER_STACK_TOP }) := by
        rw [loadM, if_pos hh, if_pos hseg]
      simp only [loaderFile, hs] at hfile
      have hreturns := exec_returns h.sound hs
      rw [hfile] at hreturns
      simp only [hloadM] at hreturns
      rw [hreturns] at hcall
      cases hcall
      exact ⟨rfl, entry_inWindow hh, entry_in_segment hseg⟩
    | sys_exit =>
      simp only [loaderFile, hs] at hfile
      have hnumber := (@number_of_service (frame.rax.toNat % 2 ^ 32)).2.1 hs
      exact absurd ⟨hnumber, data, hfile, hh, hseg⟩ hno
    | _ => simp [loaderFile, hs] at hfile

/-- The image with the same program as `/bin/hello` and as `/sbin/init`. -/
def handOverImage : Blob :=
  { content := (build_rootfs [⟨ascii "/bin/hello", helloFile⟩,
      ⟨ascii "/sbin/init", helloFile⟩]).toOption.getD []
    size_lt := by decide +kernel }

/-- The kernel that runs the first of the two. -/
def handOverKernel : Kernel := bootedKernel someLayout handOverImage helloFile [] []

theorem handOverKernel_reachable : Reachable someLayout handOverKernel :=
  .boot (start_user.starts someLayout handOverImage [] [] (by decide +kernel) (by decide +kernel)
    (by decide +kernel) (by decide +kernel)
    ⟨⟨PT_LOAD, 5, 176, 0x400000, 2, 2, 0⟩, by decide +kernel, by decide +kernel⟩
    (fun p hp => by
      rw [show lastMeeting (segments helloFile) 511 = none by decide +kernel] at hp
      cases hp))

theorem an_exec_of_init_starts_fresh :
    StartsFresh someLayout handOverKernel (frameOf 6 0x401000 0 0) ↔
      ¬ ((frameOf 6 0x401000 0 0).rax.toNat % 2 ^ 32 = 11 ∧
        ∃ data, initFile handOverKernel = some data ∧ HeaderAccepted data ∧ SegmentsAccepted data) :=
  a_new_program_starts_fresh_iff someLayout handOverKernel handOverKernel_reachable
    (frameOf 6 0x401000 0 0)

theorem handOverKernel_init : initFile handOverKernel = some helloFile := by decide +kernel

/-- The first exit hands over to `/sbin/init`, which starts with -1 in `rax`. -/
theorem init_starts_with_neg_one :
    Reachable someLayout handOverKernel ∧
    (∃ k' frame', mantle_syscall_dispatch someLayout handOverKernel (frameOf 11 0 0 0) =
        .ok (.returned k' frame') ∧
      Replaces someLayout handOverKernel (frameOf 11 0 0 0) k' helloFile ∧ frame'.rax = -1) ∧
    ¬ StartsFresh someLayout handOverKernel (frameOf 11 0 0 0) := by
  have hh : HeaderAccepted helloFile := by decide +kernel
  have hseg : SegmentsAccepted helloFile := by decide +kernel
  obtain ⟨k', hcall, huser⟩ := @exit_returns someLayout handOverKernel (frameOf 11 0 0 0) helloFile
    handOverKernel_reachable.sound (by decide) handOverKernel_init hh hseg
  have hreplaces : Replaces someLayout handOverKernel (frameOf 11 0 0 0) k' helloFile := by
    refine ⟨handOverKernel_init,
      { entry := (headerOf helloFile).entry, stack := USER_STACK_TOP }, ?_⟩
    rw [huser]
    exact mantle_elf_load.accepts someLayout handOverKernel.user hh hseg
  refine ⟨handOverKernel_reachable, ⟨k', _, hcall, hreplaces, rfl⟩, fun hfresh => ?_⟩
  have hrax := congrArg (·.rax) (hfresh _ _ _ hcall hreplaces).frame
  exact absurd hrax (by simp)

end mantle.syscall
