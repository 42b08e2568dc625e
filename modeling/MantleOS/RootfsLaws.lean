-- The laws of the root filesystem over whole runs. Mount checks each entry
-- once; open and list check nothing, and still never leave the image,
-- whatever calls came before them.
import MantleOS.RootfsWalk

open checked bytes
open Window (HoldsAll)

namespace mantle.rootfs

/-! ## The invariant of the static state -/

/-- What mount accepts. -/
structure Accepts (image : Bytes) : Prop where
  header_in : headerSize ≤ image.length
  magic : wordOf image 0 4 = MANTLE_ROOTFS_MAGIC
  entries_pos : 0 < wordOf image 4 4
  entries_le : wordOf image 4 4 ≤ MANTLE_ROOTFS_MAX_ENTRIES
  walkable : Walkable image (wordOf image 4 4) headerSize

instance (image : Bytes) : Decidable (Accepts image) :=
  decidable_of_iff (headerSize ≤ image.length ∧ wordOf image 0 4 = MANTLE_ROOTFS_MAGIC ∧
      0 < wordOf image 4 4 ∧ wordOf image 4 4 ≤ MANTLE_ROOTFS_MAX_ENTRIES ∧
      Walkable image (wordOf image 4 4) headerSize)
    ⟨fun h => ⟨h.1, h.2.1, h.2.2.1, h.2.2.2.1, h.2.2.2.2⟩, fun h => ⟨h.1, h.2, h.3, h.4, h.5⟩⟩

/-- The state after a mount of the image that returned 0. -/
def mountedState (blob : Blob) : rootfs_state :=
  { image := some blob, size := blob.content.length, entries := wordOf blob.content 4 4 }

/-- The state is empty, or it holds an image that mount accepts. -/
def Good (state : rootfs_state) : Prop :=
  state = .zero ∨ ∃ blob, Accepts blob.content ∧ state = mountedState blob

/-- The entries of the mounted image, in the order of the table. -/
def entriesOf (state : rootfs_state) : List Entry :=
  match state.image with
  | none => []
  | some blob => walk blob.content state.entries headerSize

/-! ## The specs -/

/-- Mount never leaves the image, and returns 0 exactly for the images it accepts. -/
theorem mantle_rootfs_mount.spec (blob : Blob) :
    Yields (mantle_rootfs_mount (some blob)) (fun r =>
      (Accepts blob.content ∧ r = (mountedState blob, 0)) ∨
      (¬ Accepts blob.content ∧ r = (.zero, -1))) := by
  unfold mantle_rootfs_mount
  simp only
  split
  · rename_i hshort
    rw [pure_eq_ok, yields_ok]
    exact Or.inr ⟨fun h => absurd h.header_in (by omega), rfl⟩
  · rename_i hlong
    unfold headerSize at hlong
    rw [wordAt_eq (by omega), ok_bind, wordAt_eq (by omega), ok_bind]
    split
    · rename_i hbad
      rw [pure_eq_ok, yields_ok]
      refine Or.inr ⟨fun h => ?_, rfl⟩
      have := h.entries_pos
      have := h.entries_le
      rcases hbad with h1 | h1 | h1
      · exact h1 h.magic
      · omega
      · omega
    · rename_i hgood
      simp only [not_or, not_not] at hgood
      apply (mount_loop.spec blob.content (wordOf blob.content 4 4) headerSize blob.size_lt).bind
      intro b hb
      cases b with
      | true =>
        rw [if_pos rfl, pure_eq_ok, yields_ok]
        exact Or.inl ⟨⟨by unfold headerSize; omega, hgood.1, by omega, by omega, hb.mp rfl⟩, rfl⟩
      | false =>
        rw [if_neg (by simp), pure_eq_ok, yields_ok]
        exact Or.inr ⟨fun h => absurd (hb.mpr h.walkable) (by simp), rfl⟩

/-- Open gives the file of the first entry with the path, or leaves `*file` as it was. -/
theorem mantle_rootfs_open.spec (state : rootfs_state) (path : Bytes) (file : mantle_rootfs_file)
    (h : Good state) (hnul : 0 ∈ path) :
    mantle_rootfs_open state (some path) file = .ok
      (match lookup (entriesOf state) (cstring path) with
        | some found => (0, found)
        | none => (-1, file)) := by
  rcases h with rfl | ⟨blob, ha, rfl⟩
  · rfl
  · simp only [mantle_rootfs_open, mountedState, entriesOf]
    rw [open_loop.spec blob.content path _ headerSize blob.size_lt hnul ha.walkable, ok_bind]
    cases lookup (walk blob.content (wordOf blob.content 4 4) headerSize) (cstring path) <;> rfl

theorem lookup_file_in {state : rootfs_state} {path : Bytes} {file : mantle_rootfs_file}
    (h : Good state) (hf : lookup (entriesOf state) path = some file) :
    file.data + file.size ≤ state.size := by
  simp only [lookup, Option.map_eq_some_iff] at hf
  obtain ⟨e, he, rfl⟩ := hf
  have hmem := List.mem_of_find?_eq_some he
  rcases h with rfl | ⟨blob, ha, rfl⟩
  · simp [entriesOf, rootfs_state.zero] at hmem
  · exact walk_file_in _ _ _ ha.walkable e hmem

/-- A C string stands at the address, with its NUL in the array. -/
def StringAt {base size : Nat} (memory : Window base size) (address : Nat) : Prop :=
  ∃ n, HoldsAll base size address (n + 1) ∧ memory.byte (address + n) = 0

/-- The listing never leaves the image or the memory, and changes the output buffer only. -/
theorem mantle_rootfs_list.spec {base size : Nat} (state : rootfs_state)
    (memory : Window base size) (path output output_size : Nat) (h : Good state)
    (hpath : path ≠ 0 → StringAt memory path) (hbuf : HoldsAll base size output output_size) :
    Yields (mantle_rootfs_list state memory path output output_size) (fun r =>
      memory.SameOutside r.1 output output_size) := by
  have hsame := Window.SameOutside.refl memory output output_size
  rcases h with rfl | ⟨blob, ha, rfl⟩
  · simpa [mantle_rootfs_list, rootfs_state.zero] using hsame
  simp only [mantle_rootfs_list, mountedState]
  split
  · simpa using hsame
  rename_i hargs
  obtain ⟨n, hholds, hzero⟩ := hpath (fun h0 => hargs (Or.inl h0))
  rw [Window.load_eq (by simpa using hholds 0 (by omega)), ok_bind]
  split
  · simpa using hsame
  rename_i hslash
  simp only [ne_eq, not_not] at hslash
  -- The first byte is '/', so the NUL is not there and the second byte is in the memory.
  have hn : n ≠ 0 := by
    rintro rfl
    rw [Nat.add_zero, hslash] at hzero
    exact absurd hzero (by decide)
  rw [Window.load_eq (hholds 1 (by omega)), ok_bind]
  split
  · simpa using hsame
  have hcount := ha.entries_le
  unfold MANTLE_ROOTFS_MAX_ENTRIES at hcount
  apply (list_loop.spec blob.content output output_size _ headerSize 0 memory blob.size_lt hbuf
    ha.walkable (by omega) (by omega)).bind
  rintro ⟨m, written⟩ ⟨hm, hbound⟩
  cases written with
  | none => simpa using hm
  | some w =>
    have := hbound w rfl
    simp only
    rw [add32_eq (by omega), ok_bind]
    split
    · simpa using hm
    · rename_i hfit
      simp only [not_or, not_le] at hfit
      have h1 := hbuf (w - 1) (by omega)
      have h2 := hbuf w (by omega)
      rw [show output + w - 1 = output + (w - 1) by omega, Window.store_eq _ h1, ok_bind,
        Window.store_eq _ h2, ok_bind]
      simp only [pure_eq_ok, yields_ok]
      exact (hm.trans (Window.SameOutside.put _ _ h1.1 (by omega))).trans
        (Window.SameOutside.put _ _ h2.1 (by omega))

/-! ## Whole runs -/

/-- One call of the interface, with its arguments. -/
inductive Call
  | mounts (image : Option Blob)
  | opens (path : Option Bytes) (file : mantle_rootfs_file)
  | lists {base size : Nat} (memory : Window base size) (path output output_size : Nat)

/-- What the C code is promised of the pointers: a path is null or a C string, and the
output buffer has `output_size` bytes. -/
def Call.Promised : Call → Prop
  | .mounts _ => True
  | .opens path _ => ∀ p, path = some p → 0 ∈ p
  | @Call.lists base size memory path output output_size =>
    (path ≠ 0 → StringAt memory path) ∧ HoldsAll base size output output_size

/-- The state, and the status of the last mount. -/
structure Run where
  state : rootfs_state
  status : Option Int

def Run.start : Run := { state := .zero, status := none }

def Run.call (run : Run) : Call → Checked Run
  | .mounts image => do
    let (state, status) ← mantle_rootfs_mount image
    return { state, status := some status }
  | .opens path file => do
    let _ ← mantle_rootfs_open run.state path file
    return run
  | .lists memory path output output_size => do
    let _ ← mantle_rootfs_list run.state memory path output output_size
    return run

def Run.calls (run : Run) (cs : List Call) : Checked Run := cs.foldlM Run.call run

/-- What holds between any two calls. -/
structure Run.Good (run : Run) : Prop where
  state : rootfs.Good run.state
  ready : mantle_rootfs_ready run.state = true ↔ run.status = some 0

/-- One call keeps the invariant, and never faults. -/
theorem Run.call.spec (run : Run) (c : Call) (h : run.Good) (hc : c.Promised) :
    Yields (run.call c) Run.Good := by
  cases c with
  | mounts image =>
    cases image with
    | none =>
      simp only [Run.call, mantle_rootfs_mount, ok_bind, pure_eq_ok, yields_ok]
      exact ⟨Or.inl rfl, by simp [mantle_rootfs_ready, rootfs_state.zero]⟩
    | some blob =>
      apply (mantle_rootfs_mount.spec blob).bind
      rintro r (⟨ha, rfl⟩ | ⟨_, rfl⟩)
      · simp only [pure_eq_ok, yields_ok]
        exact ⟨Or.inr ⟨blob, ha, rfl⟩, by simp [mantle_rootfs_ready, mountedState]⟩
      · simp only [pure_eq_ok, yields_ok]
        exact ⟨Or.inl rfl, by simp [mantle_rootfs_ready, rootfs_state.zero]⟩
  | opens path file =>
    cases path with
    | none => simpa [Run.call, mantle_rootfs_open] using h
    | some path =>
      simp only [Run.call]
      rw [mantle_rootfs_open.spec run.state path file h.state (hc path rfl)]
      simpa using h
  | lists memory path output output_size =>
    apply (mantle_rootfs_list.spec run.state memory path output output_size h.state hc.1 hc.2).bind
    intro r _
    simpa using h

theorem Run.calls.spec (run : Run) (cs : List Call) (h : run.Good) (hcs : ∀ c ∈ cs, c.Promised) :
    Yields (run.calls cs) Run.Good := by
  induction cs generalizing run with
  | nil => simpa [Run.calls] using h
  | cons c cs ih =>
    simp only [Run.calls, List.foldlM_cons]
    apply (Run.call.spec run c h (hcs c (by simp))).bind
    intro run' h'
    exact ih run' h' (fun d hd => hcs d (by simp [hd]))

theorem Run.good_start : Run.start.Good :=
  ⟨Or.inl rfl, by simp [Run.start, mantle_rootfs_ready, rootfs_state.zero]⟩

/-! ## The laws -/

/-- What a caller can rely on between any two calls. A call that yields a value read the
image below `state.size` only, and its cursor did not wrap. -/
structure Run.Safe (run : Run) : Prop where
  ready : mantle_rootfs_ready run.state = true ↔ run.status = some 0
  size : ∀ blob, run.state.image = some blob → run.state.size = blob.content.length
  opens : ∀ path file, 0 ∈ path →
    Yields (mantle_rootfs_open run.state (some path) file) (fun r =>
      (∃ e, (entriesOf run.state).find? (fun e => e.path = cstring path) = some e ∧
        r = (0, e.file) ∧ e.file.data + e.file.size ≤ run.state.size) ∨
      ((∀ e ∈ entriesOf run.state, e.path ≠ cstring path) ∧ r = (-1, file)))
  lists : ∀ (base size : Nat) (memory : Window base size) (path output output_size : Nat),
    (path ≠ 0 → StringAt memory path) → HoldsAll base size output output_size →
    Yields (mantle_rootfs_list run.state memory path output output_size) (fun r =>
      memory.SameOutside r.1 output output_size)

/-- After any sequence of mounts, opens and lists, no call has faulted, the filesystem is
ready exactly when the last mount returned 0, and the next open or list is safe. -/
theorem rootfs_is_safe_over_every_run (cs : List Call) (h : ∀ c ∈ cs, c.Promised) :
    Yields (Run.start.calls cs) Run.Safe := by
  apply (Run.calls.spec Run.start cs Run.good_start h).mono
  intro run hrun
  refine ⟨hrun.ready, ?_, ?_, ?_⟩
  · intro blob hblob
    rcases hrun.state with hz | ⟨blob', _, hb⟩
    · simp [hz, rootfs_state.zero] at hblob
    · rw [hb] at hblob ⊢
      cases hblob
      rfl
  · intro path file hnul
    rw [mantle_rootfs_open.spec run.state path file hrun.state hnul, yields_ok]
    cases hfind : (entriesOf run.state).find? (fun e => e.path = cstring path) with
    | some e =>
      have hlookup : lookup (entriesOf run.state) (cstring path) = some e.file := by
        simp [lookup, hfind]
      rw [hlookup]
      exact Or.inl ⟨e, rfl, rfl, lookup_file_in hrun.state hlookup⟩
    | none =>
      have hlookup : lookup (entriesOf run.state) (cstring path) = none := by
        simp [lookup, hfind]
      rw [hlookup]
      refine Or.inr ⟨fun e he => ?_, rfl⟩
      simpa using List.find?_eq_none.mp hfind e he
  · intro base size memory path output output_size hpath hbuf
    exact mantle_rootfs_list.spec run.state memory path output output_size hrun.state hpath hbuf

/-- An image with the one file `/a`, that holds `x`. -/
def smallImage : Blob :=
  { content := [0x52, 0x46, 0x53, 0x31, 1, 0, 0, 0, 2, 0, 0xed, 0x81, 22, 0, 0, 0, 1, 0, 0, 0,
      47, 97, 120]
    size_lt := by decide }

/-- A window with the path `/` at its start. -/
def smallWindow : Window 0x400000 0x200000 := ⟨fun i => if i = 0 then 47 else 0⟩

theorem rootfs_is_safe_over_a_short_run :
    Yields (Run.start.calls [.mounts (some smallImage), .opens (some (ascii "/a" ++ [0])) ⟨0, 0, 0⟩,
      .lists smallWindow 0x400000 0x400010 64, .mounts none, .opens none ⟨0, 0, 0⟩]) Run.Safe := by
  apply rootfs_is_safe_over_every_run
  have hlist : (Call.lists smallWindow 0x400000 0x400010 64).Promised := by
    refine ⟨fun _ => ⟨1, ?_, by decide⟩, ?_⟩
    · intro k hk
      exact ⟨by omega, by omega⟩
    · intro k hk
      exact ⟨by omega, by omega⟩
  simp only [List.forall_mem_cons, List.not_mem_nil, false_implies, implies_true, and_true]
  refine ⟨trivial, ?_, hlist, trivial, ?_⟩
  · intro p hp
    cases hp
    decide
  · intro p hp
    cases hp

end mantle.rootfs
