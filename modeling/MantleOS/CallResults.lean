-- What a caller can tell from `rax`. A plain service that answers -1 has
-- changed nothing, and any other answer is its own result.
import MantleOS.SyscallLaws

open checked bytes

namespace mantle.syscall

/-- The services that the numbers 6, 11, 12 and 13 select, and no others. -/
theorem number_of_service {n : Nat} :
    (serviceOf n = .sys_exec → n = 6) ∧ (serviceOf n = .sys_exit → n = 11) ∧
      (serviceOf n = .sys_reboot → n = 12) ∧ (serviceOf n = .sys_readdir → n = 13) := by
  unfold serviceOf
  split <;> simp

/-- The marker goes to the console once, with the first call from user space. -/
theorem note_user_console (k : Kernel) :
    (note_user k).console = k.console ∨
      k.user_marker_seen = false ∧ (note_user k).user_marker_seen = true ∧
        (note_user k).console = k.console ++ ascii "MANTLE_USERSPACE_OK\n" := by
  unfold note_user
  split
  · rename_i hfirst
    rw [Bool.and_eq_true, Bool.not_eq_true'] at hfirst
    refine Or.inr ⟨hfirst.1, rfl, ?_⟩
    rw [mantle_console_write, cstring_append_nul (by decide)]
  · exact Or.inl rfl

theorem answer_nonneg (frame : mantle_syscall_frame) {result : Int} (h : 0 ≤ result) :
    (frame.answer result).rax = .ofNat result.toNat := by
  rw [mantle_syscall_frame.answer, if_neg (by omega)]

/-- A result that is not negative never looks like -1. -/
theorem answer_ne_neg_one (frame : mantle_syscall_frame) {result : Int} (h : 0 ≤ result)
    (hlt : result < 2 ^ 31) : (frame.answer result).rax ≠ -1 := by
  rw [answer_nonneg frame h]
  intro heq
  have hnat := congrArg UInt64.toNat heq
  rw [UInt64.toNat_ofNat', Nat.mod_eq_of_lt (by omega), show (-1 : UInt64).toNat = 2 ^ 64 - 1 from rfl]
    at hnat
  omega

/-! ## The law -/

/-- What the caller of a refused call finds: everything as it was, and at most the marker of
the first call on the console. -/
structure LeavesAll (k k' : Kernel) (frame frame' : mantle_syscall_frame) : Prop where
  user : k'.user = k.user
  descriptors : k'.descriptors = k.descriptors
  rootfs : k'.rootfs = k.rootfs
  process : k'.process = k.process
  frame : frame' = { frame with rax := -1 }
  console : k'.console = k.console ∨
    k.user_marker_seen = false ∧ k'.user_marker_seen = true ∧
      k'.console = k.console ++ ascii "MANTLE_USERSPACE_OK\n"

theorem leavesAll_of_refusal (k : Kernel) (frame : mantle_syscall_frame) :
    LeavesAll k (note_user k) frame (frame.answer (-1)) := by
  obtain ⟨hprocess, hdescriptors, hrootfs, huser⟩ := note_user_rest k
  exact ⟨huser, hdescriptors, hrootfs, hprocess, rfl, note_user_console k⟩

/-- From every reachable state, a call other than exec, exit, reboot and readdir that answers -1
leaves everything as it was, and one that answers something else answers the result of its
service, which is not negative. -/
theorem a_refused_call_changes_nothing (layout : Layout) (k : Kernel) (h : Reachable layout k)
    (frame : mantle_syscall_frame) (hnumber : ∀ n ∈ [6, 11, 12, 13], frame.rax.toNat % 2 ^ 32 ≠ n)
    (k' : Kernel) (frame' : mantle_syscall_frame)
    (hcall : mantle_syscall_dispatch layout k frame = .ok (.returned k' frame')) :
    (frame'.rax = -1 → LeavesAll k k' frame frame') ∧
    (frame'.rax ≠ -1 → ∃ result : Int, serviceResult (note_user k) frame = .ok (k', some result) ∧
      0 ≤ result ∧ result < 2 ^ 31 ∧ frame'.rax = .ofNat result.toNat) := by
  obtain ⟨hexec, hexit, hreboot, hreaddir⟩ := @number_of_service (frame.rax.toNat % 2 ^ 32)
  have hplain : Plain frame.service :=
    ⟨fun hs => hnumber 6 (by simp) (hexec hs), fun hs => hnumber 11 (by simp) (hexit hs),
      fun hs => hnumber 12 (by simp) (hreboot hs)⟩
  have hlist : frame.service ≠ .sys_readdir := fun hs => hnumber 13 (by simp) (hreaddir hs)
  have hpid : (note_user k).process.pid < 2 ^ 31 := by
    rw [(note_user_rest k).1, h.pid]
    decide
  obtain ⟨⟨k1, answer⟩, hr, hleaves⟩ := serviceResult.leaves (note_user_sound h.sound) frame
  rw [dispatch_of_plain layout k hplain, hr] at hcall
  cases answer with
  | none => cases hcall
  | some result =>
    cases hcall
    rcases hleaves.result hlist hpid result rfl with ⟨hk, hresult⟩ | ⟨hpos, hlt⟩
    · simp only at hk
      subst hk hresult
      exact ⟨fun _ => leavesAll_of_refusal k frame, fun hne => absurd (answer_neg_one frame) hne⟩
    · exact ⟨fun heq => absurd heq (answer_ne_neg_one frame hpos hlt),
        fun _ => ⟨result, hr, hpos, hlt, answer_nonneg frame hpos⟩⟩

/-- A call with a number that selects no service. -/
theorem a_call_without_service_changes_nothing :
    ((frameOf 99 0 0 0).answer (-1)).rax = -1 ∧
      LeavesAll helloKernel (note_user helloKernel) (frameOf 99 0 0 0) ((frameOf 99 0 0 0).answer (-1)) :=
  ⟨rfl, (a_refused_call_changes_nothing someLayout helloKernel helloKernel_reachable (frameOf 99 0 0 0)
    (by decide) (note_user helloKernel) ((frameOf 99 0 0 0).answer (-1)) rfl).1 rfl⟩

end mantle.syscall
