-- `efi_main` of `boot/efi/loader.c` up to its jump, and `read_file`: what they
-- hold of the firmware's pools, pages and files, and what stands in memory.
import Mathlib.Algebra.Order.BigOperators.Group.List
import MantleOS.KernelPlaced
import MantleOS.Loader

open checked bytes regions

namespace mantle.loader

/-! ## The firmware -/

abbrev EFI_STATUS := UInt64

def EFI_SUCCESS : EFI_STATUS := 0
def EFI_LOAD_ERROR : EFI_STATUS := 0x8000000000000001
def EFI_BUFFER_TOO_SMALL : EFI_STATUS := 0x8000000000000005
def EFI_OUT_OF_RESOURCES : EFI_STATUS := 0x8000000000000009

/-- The highest bit. A warning has it not. -/
def EFI_ERROR (status : EFI_STATUS) : Bool := 2 ^ 63 ≤ status.toNat

theorem load_error_is_error : EFI_ERROR EFI_LOAD_ERROR = true := by decide

/-- What the loader has: pages, pools and files that are open. -/
structure World where
  machine : Machine
  pools : List Region
  open_files : Nat

namespace World

/-- The regions that the firmware may not hand out again. -/
def inUse (w : World) : List Region := w.pools ++ w.machine.allocated.map pagesOf

/-- The firmware writes into a buffer of the loader. -/
def put (w : World) (address : Nat) (bs : Bytes) : World :=
  { w with machine := { w.machine with
      memory := fill w.machine.memory ⟨address, bs.length⟩ fun i => bs.getD i 0 } }

def take (w : World) (pool : Region) : World := { w with pools := pool :: w.pools }

/-- A read through a pointer, with one outside the pools as a fault. -/
def word (w : World) (address n : Nat) : Checked Nat :=
  if ∃ r ∈ w.pools, r.start ≤ address ∧ address + n ≤ r.start + r.size then
    .ok (leValue (contents w.machine.memory ⟨address, n⟩))
  else .error (.bounds address 0)

/-- A pool that is not there, or no more, is a fault. -/
def FreePool (w : World) (address : Nat) : Checked World :=
  match w.pools.find? (fun r => r.start = address) with
  | some r => .ok { w with pools := w.pools.erase r }
  | none => .error (.bounds address 0)

def opened (w : World) : World := { w with open_files := w.open_files + 1 }

def Close (w : World) : Checked World :=
  if w.open_files = 0 then .error (.bounds 0 0)
  else .ok { w with open_files := w.open_files - 1 }

end World

/-- The answers of the firmware, to a path, to a size, and to what is in use. A buffer that it
fills comes as the bytes that it puts there. -/
structure Services where
  LoadedImage : EFI_STATUS
  SimpleFileSystem : EFI_STATUS
  OpenVolume : EFI_STATUS
  Open : Bytes → EFI_STATUS
  /-- Without a buffer: the size of the record that there is. -/
  GetInfo_size : Bytes → EFI_STATUS × Nat
  GetInfo : Bytes → Nat → EFI_STATUS × Bytes
  Read : Bytes → Nat → EFI_STATUS × Bytes
  AllocatePool : List Region → Nat → EFI_STATUS × Nat
  /-- For the pools in use. -/
  AllocatePages : List Region → Firmware
  AllocateMaxAddress : List Region → Option Page
  gop : Option GraphicsMode
  /-- Without a buffer: the sizes of the map and of a descriptor. -/
  GetMemoryMap_size : EFI_STATUS × Nat × Nat
  GetMemoryMap : Nat → EFI_STATUS × Bytes
  ExitBootServices : EFI_STATUS

/-! ## The code -/

def open_root (s : Services) : EFI_STATUS :=
  if EFI_ERROR s.LoadedImage then s.LoadedImage
  else if EFI_ERROR s.SimpleFileSystem then s.SimpleFileSystem
  else s.OpenVolume

/-- The status, and `*buffer` with `*size` when both are set. -/
abbrev FileRead := World × EFI_STATUS × Option Region

/-- `read_file` from the second pool on, with the record of the file in the first. -/
def read_data (s : Services) (path : Bytes) (info : Nat) (w : World) : Checked FileRead := do
  let size ← w.word (info + 8) 8
  let buffer := s.AllocatePool w.inUse size
  if EFI_ERROR buffer.1 then
    let w ← w.FreePool info
    let w ← w.Close
    return (w, buffer.1, none)
  else
    let data := s.Read path size
    let w := (w.take ⟨buffer.2, size⟩).put buffer.2 data.2
    let w ← w.FreePool info
    let w ← w.Close
    if EFI_ERROR data.1 || data.2.length ≠ size then
      let w ← w.FreePool buffer.2
      return (w, EFI_LOAD_ERROR, none)
    else return (w, EFI_SUCCESS, some ⟨buffer.2, size⟩)

/-- `read_file` from the first pool on, for the record of the file. -/
def read_record (s : Services) (path : Bytes) (info_size : Nat) (w : World) : Checked FileRead :=
  let info := s.AllocatePool w.inUse info_size
  if EFI_ERROR info.1 then do
    let w ← w.Close
    return (w, info.1, none)
  else
    let record := s.GetInfo path info_size
    let w := (w.take ⟨info.2, info_size⟩).put info.2 record.2
    if EFI_ERROR record.1 then do
      let w ← w.FreePool info.2
      let w ← w.Close
      return (w, record.1, none)
    else read_data s path info.2 w

def read_file (s : Services) (path : Bytes) (w : World) : Checked FileRead :=
  if EFI_ERROR (s.Open path) then .ok (w, s.Open path, none)
  else
    let probe := s.GetInfo_size path
    if probe.1 ≠ EFI_BUFFER_TOO_SMALL then do
      let w ← w.opened.Close
      return (w, probe.1, none)
    else read_record s path probe.2 w.opened

def kernelPath : Bytes := ascii "\\boot\\mantle-kernel.elf"
def rootfsPath : Bytes := ascii "\\boot\\mantle-rootfs.mfs"

/-- What `jump_kernel` is called with, and what there is at that moment. -/
structure Jump where
  world : World
  entry : Nat
  info : BootInfo

/-- `efi_main` after `build_info`. -/
def leave_services (s : Services) (w : World) (entry : Nat) (info : BootInfo) :
    Except EFI_STATUS Jump :=
  let sizes := s.GetMemoryMap_size
  if sizes.1 ≠ EFI_BUFFER_TOO_SMALL then .error sizes.1
  else
    let map_size := (sizes.2.1 + sizes.2.2 * 2) % 2 ^ 64
    let pool := s.AllocatePool w.inUse map_size
    if EFI_ERROR pool.1 then .error pool.1
    else
      let map := s.GetMemoryMap map_size
      let w := (w.take ⟨pool.2, map_size⟩).put pool.2 map.2
      if EFI_ERROR map.1 then .error map.1
      else if EFI_ERROR s.ExitBootServices then .error s.ExitBootServices
      else .ok { world := w, entry, info }

/-- The page of the block with the block in it. -/
def World.withInfo (w : World) (info : BootInfo) : World :=
  World.put { w with machine := { w.machine with
    allocated := (info.address, 1) :: w.machine.allocated } } info.address info.content

/-- `efi_main` after the two files. The size of the kernel's file is a `UINTN`. -/
def start_kernel (s : Services) (w : World) (kernel rootfs : Region) :
    Checked (Except EFI_STATUS Jump) :=
  if hsize : kernel.size < 2 ^ 64 then do
    let image : KernelImage :=
      ⟨contents w.machine.memory kernel, by rw [contents_length]; exact hsize⟩
    match ← load_kernel (s.AllocatePages w.pools) image w.machine with
    | none => return .error EFI_LOAD_ERROR
    | some loaded =>
      let w := { w with machine := loaded.1 }
      match build_info (s.AllocateMaxAddress w.inUse) s.gop (.ofNat rootfs.start)
          (.ofNat rootfs.size) with
      | none => return .error EFI_OUT_OF_RESOURCES
      | some info => return leave_services s (w.withInfo info) loaded.2 info
  else .error (.wrap kernel.size)

/-- The jump, or the status that `efi_main` returns. A file without an error and without a buffer
leaves its size without a value. -/
def efi_main (s : Services) (w : World) : Checked (Except EFI_STATUS Jump) :=
  if EFI_ERROR (open_root s) then .ok (.error (open_root s))
  else do
    let kernel ← read_file s kernelPath w
    if EFI_ERROR kernel.2.1 then return .error kernel.2.1
    else
      let rootfs ← read_file s rootfsPath kernel.1
      if EFI_ERROR rootfs.2.1 then return .error rootfs.2.1
      else
        match kernel.2.2, rootfs.2.2 with
        | some kernel, some image =>
          if 0xffffffff < image.size then return .error EFI_LOAD_ERROR
          else start_kernel s rootfs.1 kernel image
        | _, _ => .error (.bounds 0 0)

/-! ## What the loader has beyond what it had -/

/-- The firmware as its specification has it: what it hands out is apart from what is in use, it
writes no more into a buffer than there is room, and a record of a file is never empty. -/
structure Services.Documented (s : Services) : Prop where
  probe : ∀ path, EFI_ERROR (s.GetInfo_size path).1 = true
  record : ∀ path n, (s.GetInfo path n).2.length ≤ n
  fixed : ∀ path n, EFI_ERROR (s.GetInfo path n).1 = false → 16 ≤ (s.GetInfo path n).2.length
  data : ∀ path n, (s.Read path n).2.length ≤ n
  map : ∀ n, (s.GetMemoryMap n).2.length ≤ n
  pool : ∀ inUse n, EFI_ERROR (s.AllocatePool inUse n).1 = false →
    ∀ r ∈ inUse, r.Apart ⟨(s.AllocatePool inUse n).2, n⟩ ∧ r.start ≠ (s.AllocatePool inUse n).2
  pages : ∀ pools, (s.AllocatePages pools).KeepsApart pools
  page : ∀ inUse p, s.AllocateMaxAddress inUse = some p → ∀ r ∈ inUse, r.Apart ⟨p.address, 0x1000⟩

/-- Apart, and not of one address either, so that `FreePool` tells them from each other. -/
def Distinct (r q : Region) : Prop := r.Apart q ∧ r.start ≠ q.start

theorem Distinct.symm {r q : Region} (h : Distinct r q) : Distinct q r := ⟨h.1.symm, h.2.symm⟩

instance : Std.Symm Distinct := ⟨fun _ _ h => h.symm⟩

/-- The loader has these pools and a number of open files more than it had, the newest pool first.
All that was in use is as it was. -/
structure World.Beyond (w0 w : World) (held : List Region) (files : Nat) : Prop where
  pools : w.pools = held ++ w0.pools
  pages : w.machine.allocated = w0.machine.allocated
  files : w.open_files = w0.open_files + files
  kept : ∀ r ∈ w0.inUse, contents w.machine.memory r = contents w0.machine.memory r
  distinct : ∀ q ∈ held, ∀ r ∈ w0.inUse, Distinct r q
  among : held.Pairwise Distinct

variable {s : Services} {w0 w : World} {held : List Region} {files : Nat} {q : Region} {path : Bytes}

@[simp] theorem World.put_memory (w : World) (address : Nat) (bs : Bytes) :
    (w.put address bs).machine.memory =
      fill w.machine.memory ⟨address, bs.length⟩ fun i => bs.getD i 0 := rfl

@[simp] theorem World.take_memory (w : World) (pool : Region) :
    (w.take pool).machine = w.machine := rfl

theorem World.Beyond.refl (w : World) : w.Beyond w [] 0 :=
  ⟨rfl, rfl, rfl, fun _ _ => rfl, nofun, .nil⟩

theorem World.Beyond.mem_inUse (h : w0.Beyond w held files) {r : Region} :
    r ∈ w.inUse ↔ r ∈ held ∨ r ∈ w0.inUse := by
  unfold inUse
  rw [h.pools, h.pages, List.append_assoc, List.mem_append]

theorem World.Beyond.opened (h : w0.Beyond w held files) : w0.Beyond w.opened held (files + 1) :=
  ⟨h.pools, h.pages, by rw [World.opened, h.files]; rfl, h.kept, h.distinct, h.among⟩

theorem World.Beyond.close (h : w0.Beyond w held (files + 1)) :
    Yields w.Close fun w' => w0.Beyond w' held files ∧ w'.machine = w.machine := by
  have hfiles := h.files
  unfold World.Close
  rw [if_neg (by omega), yields_ok]
  refine ⟨⟨h.pools, h.pages, ?_, h.kept, h.distinct, h.among⟩, rfl⟩
  dsimp only
  omega

/-- A new pool. -/
theorem World.Beyond.take (hs : s.Documented) (h : w0.Beyond w held files) {n : Nat}
    (hok : EFI_ERROR (s.AllocatePool w.inUse n).1 = false) :
    w0.Beyond (w.take ⟨(s.AllocatePool w.inUse n).2, n⟩)
      (⟨(s.AllocatePool w.inUse n).2, n⟩ :: held) files := by
  have hpool := hs.pool w.inUse n hok
  have hnew : ∀ r, r ∈ held ∨ r ∈ w0.inUse → Distinct r ⟨(s.AllocatePool w.inUse n).2, n⟩ :=
    fun r hr => hpool r (h.mem_inUse.mpr hr)
  refine ⟨?_, h.pages, h.files, h.kept, ?_, ?_⟩
  · unfold World.take
    rw [h.pools, List.cons_append]
  · intro q hq r hr
    rcases List.mem_cons.mp hq with rfl | hq
    · exact hnew r (.inr hr)
    · exact h.distinct q hq r hr
  · rw [List.pairwise_cons]
    exact ⟨fun r hr => (hnew r (.inl hr)).symm, h.among⟩

/-- The firmware fills a pool. -/
theorem World.Beyond.put (h : w0.Beyond w held files) (hq : q ∈ held) {bs : Bytes}
    (hfit : bs.length ≤ q.size) : w0.Beyond (w.put q.start bs) held files := by
  refine ⟨h.pools, h.pages, h.files, ?_, h.distinct, h.among⟩
  intro r hr
  have hapart : Region.Apart ⟨q.start, bs.length⟩ r :=
    (h.distinct q hq r hr).1.symm.of_le (Nat.le_refl q.start) (by dsimp only; omega)
  rw [World.put_memory, contents_fill_apart hapart.symm, h.kept r hr]

/-- A pool is freed once. -/
theorem World.Beyond.free (h : w0.Beyond w held files) (hq : q ∈ held) :
    Yields (w.FreePool q.start) fun w' =>
      w0.Beyond w' (held.erase q) files ∧ w'.machine = w.machine := by
  have hpools := h.pools
  have hfind : w.pools.find? (fun r => r.start = q.start) = some q := by
    cases hfind : w.pools.find? (fun r => r.start = q.start) with
    | none =>
      rw [List.find?_eq_none, hpools] at hfind
      have hno := hfind q (List.mem_append_left _ hq)
      simp at hno
    | some r =>
      have hstart : r.start = q.start := by simpa using List.find?_some hfind
      have hmem := List.mem_of_find?_eq_some hfind
      rw [hpools] at hmem
      rcases List.mem_append.mp hmem with hheld | hold
      · by_contra hne
        have hne' : r ≠ q := fun heq => hne (by rw [heq])
        exact (h.among.forall hheld hq hne').2 hstart
      · exact absurd hstart (h.distinct q hq r (List.mem_append_left _ hold)).2
  unfold World.FreePool
  rw [hfind]
  dsimp only
  rw [yields_ok]
  refine ⟨⟨?_, h.pages, h.files, h.kept, ?_, ?_⟩, rfl⟩
  · dsimp only
    rw [hpools, List.erase_append_left _ hq]
  · exact fun p hp => h.distinct p (List.mem_of_mem_erase hp)
  · exact h.among.sublist List.erase_sublist

/-! ## `read_file` -/

/-- The buffer is a new pool with the bytes of the file, as many as its record says. -/
structure WholeFile (s : Services) (w0 : World) (path : Bytes) (n : Nat) (w : World)
    (buffer : Region) : Prop where
  beyond : w0.Beyond w [buffer] 0
  informed : EFI_ERROR (s.GetInfo path n).1 = false
  size : buffer.size = wordOf (s.GetInfo path n).2 8 8
  read : EFI_ERROR (s.Read path buffer.size).1 = false
  bytes : contents w.machine.memory buffer = (s.Read path buffer.size).2

/-- What a read of a file comes to: all of it, or an error and nothing new. No file stays open. -/
def Reads (s : Services) (w0 : World) (path : Bytes) (n : Nat) (r : FileRead) : Prop :=
  match r.2.2 with
  | some buffer => r.2.1 = EFI_SUCCESS ∧ WholeFile s w0 path n r.1 buffer
  | none => EFI_ERROR r.2.1 = true ∧ w0.Beyond r.1 [] 0

theorem read_data.spec {info n : Nat} (hs : s.Documented) (h : w0.Beyond w [⟨info, n⟩] 1)
    (hinformed : EFI_ERROR (s.GetInfo path n).1 = false) (hn : 16 ≤ n)
    (hsize : leValue (contents w.machine.memory ⟨info + 8, 8⟩) =
      wordOf (s.GetInfo path n).2 8 8) :
    Yields (read_data s path info w) (Reads s w0 path n) := by
  have hinfo : Region.mk info n ∈ [Region.mk info n] := List.mem_singleton_self _
  have hword : w.word (info + 8) 8 = .ok (wordOf (s.GetInfo path n).2 8 8) := by
    unfold World.word
    rw [if_pos ⟨⟨info, n⟩, by simp [h.pools], by dsimp only; omega, by dsimp only; omega⟩, hsize]
  unfold read_data
  rw [hword, ok_bind]
  generalize hsizeOf : wordOf (s.GetInfo path n).2 8 8 = size
  dsimp only
  cases hpool : EFI_ERROR (s.AllocatePool w.inUse size).1 with
  | true =>
    rw [if_pos rfl]
    apply (h.free hinfo).bind
    rintro w1 ⟨h1, _⟩
    rw [List.erase_cons_head] at h1
    apply h1.close.bind
    rintro w2 ⟨h2, _⟩
    exact ⟨_, rfl, hpool, h2⟩
  | false =>
    rw [if_neg (by simp)]
    have htake := h.take hs hpool
    set buffer := Region.mk (s.AllocatePool w.inUse size).2 size with hbuffer
    have hmem : buffer ∈ [buffer, ⟨info, n⟩] := List.mem_cons_self
    have hput := htake.put hmem (hs.data path size)
    have hne : buffer ≠ ⟨info, n⟩ := by
      intro heq
      have hamong := htake.among
      rw [List.pairwise_cons] at hamong
      exact (hamong.1 _ hinfo).2 (by rw [heq])
    apply (hput.free (List.mem_cons_of_mem _ hinfo)).bind
    rintro w1 ⟨h1, hsame1⟩
    rw [List.erase_cons_tail (by simpa using hne), List.erase_cons_head] at h1
    apply h1.close.bind
    rintro w2 ⟨h2, hsame2⟩
    cases hshort : EFI_ERROR (s.Read path size).1 || (s.Read path size).2.length ≠ size with
    | true =>
      rw [if_pos rfl]
      apply (h2.free (List.mem_singleton_self buffer)).bind
      rintro w3 ⟨h3, _⟩
      rw [List.erase_cons_head] at h3
      exact ⟨_, rfl, load_error_is_error, h3⟩
    | false =>
      rw [if_neg (by simp)]
      rw [Bool.or_eq_false_iff, decide_eq_false_iff_not, not_not] at hshort
      obtain ⟨hread, hlength⟩ := hshort
      have hcontents := contents_fill w.machine.memory (s.Read path size).2 0 buffer.start
      have hmemory : w2.machine.memory = fill w.machine.memory
          ⟨buffer.start, (s.Read path size).2.length⟩ fun i => (s.Read path size).2.getD i 0 := by
        rw [hsame2, hsame1]
        rfl
      rw [← hmemory, hlength] at hcontents
      exact ⟨_, rfl, rfl, h2, hinformed, hsizeOf.symm, hread, hcontents⟩

theorem read_record.spec {n : Nat} (hs : s.Documented) (h : w0.Beyond w [] 1) :
    Yields (read_record s path n w) (Reads s w0 path n) := by
  unfold read_record
  dsimp only
  cases hpool : EFI_ERROR (s.AllocatePool w.inUse n).1 with
  | true =>
    rw [if_pos rfl]
    apply h.close.bind
    rintro w1 ⟨h1, _⟩
    exact ⟨_, rfl, hpool, h1⟩
  | false =>
    rw [if_neg (by simp)]
    have hmem := List.mem_singleton_self (Region.mk (s.AllocatePool w.inUse n).2 n)
    have hput := (h.take hs hpool).put hmem (hs.record path n)
    cases hrecord : EFI_ERROR (s.GetInfo path n).1 with
    | true =>
      rw [if_pos rfl]
      apply (hput.free hmem).bind
      rintro w1 ⟨h1, _⟩
      rw [List.erase_cons_head] at h1
      apply h1.close.bind
      rintro w2 ⟨h2, _⟩
      exact ⟨_, rfl, hrecord, h2⟩
    | false =>
      rw [if_neg (by simp)]
      have hfixed := hs.fixed path n hrecord
      apply read_data.spec hs hput hrecord (hfixed.trans (hs.record path n))
      rw [World.put_memory, contents_fill_part _ _ 0 _ hfixed]
      rfl

theorem read_file.spec (hs : s.Documented) (w : World) (path : Bytes) :
    Yields (read_file s path w) (Reads s w path (s.GetInfo_size path).2) := by
  unfold read_file
  cases hopen : EFI_ERROR (s.Open path) with
  | true =>
    rw [if_pos rfl]
    exact ⟨_, rfl, hopen, .refl w⟩
  | false =>
    rw [if_neg (by simp)]
    dsimp only
    have hopened := (World.Beyond.refl w).opened
    split
    · apply hopened.close.bind
      rintro w1 ⟨h1, _⟩
      exact ⟨_, rfl, hs.probe path, h1⟩
    · exact read_record.spec hs hopened

/-- Whatever the firmware answers, and wherever `read_file` stops: it gives the whole file in a new
pool, or an error and no new pool. It closes the file, frees no pool twice, and changes nothing that
was in use. -/
theorem a_file_is_read_whole_or_not_at_all (s : Services) (hs : s.Documented) (path : Bytes)
    (w : World) :
    ∃ w' status buffer, read_file s path w = .ok (w', status, buffer) ∧
      w'.open_files = w.open_files ∧ w'.machine.allocated = w.machine.allocated ∧
      w'.pools = buffer.toList ++ w.pools ∧
      (∀ r ∈ w.inUse, contents w'.machine.memory r = contents w.machine.memory r) ∧
      (∀ b, buffer = some b → status = EFI_SUCCESS ∧
        b.size = wordOf (s.GetInfo path (s.GetInfo_size path).2).2 8 8 ∧
        contents w'.machine.memory b = (s.Read path b.size).2 ∧ ∀ r ∈ w.inUse, r.Apart b) ∧
      (buffer = none → EFI_ERROR status = true) := by
  obtain ⟨⟨w', status, buffer⟩, hread, hreads⟩ := read_file.spec hs w path
  refine ⟨w', status, buffer, hread, ?_⟩
  cases buffer with
  | none =>
    obtain ⟨herror, hbeyond⟩ := hreads
    exact ⟨hbeyond.files, hbeyond.pages, hbeyond.pools, hbeyond.kept, nofun, fun _ => herror⟩
  | some buffer =>
    obtain ⟨hstatus, hwhole⟩ := hreads
    have hbeyond := hwhole.beyond
    refine ⟨hbeyond.files, hbeyond.pages, hbeyond.pools, hbeyond.kept, ?_, nofun⟩
    rintro b ⟨⟩
    exact ⟨hstatus, hwhole.size, hwhole.bytes,
      fun r hr => (hbeyond.distinct buffer (List.mem_singleton_self buffer) r hr).1⟩

/-! ## A firmware -/

/-- A firmware with these files that hands out new addresses all the time. -/
def plainServices (files : Bytes → Option Bytes) : Services :=
  { LoadedImage := EFI_SUCCESS
    SimpleFileSystem := EFI_SUCCESS
    OpenVolume := EFI_SUCCESS
    Open := fun path => if (files path).isSome then EFI_SUCCESS else EFI_LOAD_ERROR
    GetInfo_size := fun _ => (EFI_BUFFER_TOO_SMALL, 80)
    GetInfo := fun path n =>
      if n < 16 then (EFI_BUFFER_TOO_SMALL, [])
      else (EFI_SUCCESS, wordBytes 8 n ++ wordBytes 8 ((files path).getD []).length)
    Read := fun path n => (EFI_SUCCESS, ((files path).getD []).take n)
    AllocatePool := fun inUse _ =>
      (EFI_SUCCESS, 0x800000 + (inUse.map fun r => r.start + r.size + 1).sum)
    AllocatePages := carefulFirmware
    AllocateMaxAddress := fun inUse =>
      if ∀ r ∈ inUse, r.Apart ⟨0x9000, 0x1000⟩ then some somePage else none
    gop := none
    GetMemoryMap_size := (EFI_BUFFER_TOO_SMALL, 48, 48)
    GetMemoryMap := fun _ => (EFI_SUCCESS, [])
    ExitBootServices := EFI_SUCCESS }

theorem too_small_is_error : EFI_ERROR EFI_BUFFER_TOO_SMALL = true := by decide

theorem plainServices_documented (files : Bytes → Option Bytes) :
    (plainServices files).Documented := by
  constructor
  · exact fun _ => too_small_is_error
  · intro path n
    unfold plainServices
    dsimp only
    split
    · exact Nat.zero_le n
    · rw [List.length_append, wordBytes_length, wordBytes_length]
      omega
  · intro path n hok
    unfold plainServices at hok ⊢
    dsimp only at hok ⊢
    split at hok
    · rw [too_small_is_error] at hok
      cases hok
    · rename_i hn
      rw [if_neg hn, List.length_append, wordBytes_length, wordBytes_length]
  · intro path n
    exact List.length_take_le n _
  · exact fun n => Nat.zero_le n
  · intro inUse n _ r hr
    have hle := List.le_sum_of_mem (List.mem_map_of_mem (f := fun r => r.start + r.size + 1) hr)
    unfold plainServices Region.Apart
    dsimp only at hle ⊢
    omega
  · exact carefulFirmware_keepsApart
  · intro inUse p hp r hr
    unfold plainServices at hp
    dsimp only at hp
    split at hp
    · rename_i hapart
      cases hp
      exact hapart r hr
    · cases hp

/-- The kernel with one segment, and a root file system of three bytes. -/
def usualFiles (path : Bytes) : Option Bytes :=
  if path = kernelPath then some usualKernel.bytes
  else if path = rootfsPath then some [1, 2, 3]
  else none

def emptyWorld : World := { machine := emptyMachine, pools := [], open_files := 0 }

/-- The firmware serves a file of three bytes. -/
theorem a_file_of_three_bytes_is_read_whole :
    ∃ w' status buffer,
      read_file (plainServices usualFiles) rootfsPath emptyWorld = .ok (w', status, buffer) ∧
      w'.open_files = 0 ∧ w'.machine.allocated = [] ∧ w'.pools = buffer.toList ++ [] ∧
      (∀ r ∈ emptyWorld.inUse,
        contents w'.machine.memory r = contents emptyWorld.machine.memory r) ∧
      (∀ b, buffer = some b → status = EFI_SUCCESS ∧
        b.size = wordOf ((plainServices usualFiles).GetInfo rootfsPath 80).2 8 8 ∧
        contents w'.machine.memory b = ((plainServices usualFiles).Read rootfsPath b.size).2 ∧
        ∀ r ∈ emptyWorld.inUse, r.Apart b) ∧
      (buffer = none → EFI_ERROR status = true) :=
  a_file_is_read_whole_or_not_at_all (plainServices usualFiles)
    (plainServices_documented usualFiles) rootfsPath emptyWorld

end mantle.loader
