-- The boot partition of `boot/efi/make-esp.py`, and what a FAT16 reader finds
-- in it. The script writes the payload where it would stand, also when the
-- volume ends before it.
import MantleOS.Fat16

open bytes

namespace mantle.esp

def SECTOR : Nat := 512
def TOTAL_SECTORS : Nat := 32768
def ROOT_ENTRIES : Nat := 512
def FAT_SECTORS : Nat := 128
def ROOT_SECTORS : Nat := (ROOT_ENTRIES * 32 + SECTOR - 1) / SECTOR
def DATA_SECTOR : Nat := 1 + 2 * FAT_SECTORS + ROOT_SECTORS

/-! ## The script -/

/-- `struct.pack_into("<H", ..)`, with `none` for the error outside the buffer. -/
def fat16_set (fat : Bytes) (cluster value : Nat) : Option Bytes :=
  if cluster * 2 + 2 ≤ fat.length then some (splice fat (cluster * 2) (wordBytes 2 value)) else none

/-- `name.ljust(11, b" ")[:11]`. -/
def padded (name : Bytes) : Bytes := (name ++ List.replicate (11 - name.length) 32).take 11

def directory_entry (name : Bytes) (attr cluster size : Nat) : Bytes :=
  let entry := splice (List.replicate 32 0) 0 (padded name)
  let entry := splice entry 11 [.ofNat attr]
  let entry := splice entry 26 (wordBytes 2 cluster)
  splice entry 28 (wordBytes 4 size)

/-- The writes of the boot sector, in their order. -/
def boot_sector : List (Nat × Bytes) :=
  [(0, [0xeb, 0x3c, 0x90]), (3, ascii "MANTLEOS"), (11, wordBytes 2 SECTOR), (13, [1]),
    (14, wordBytes 2 1), (16, [2]), (17, wordBytes 2 ROOT_ENTRIES), (19, wordBytes 2 0), (21, [0xf8]),
    (22, wordBytes 2 FAT_SECTORS), (24, wordBytes 2 18), (26, wordBytes 2 2), (38, [0x29]),
    (39, wordBytes 4 0x4d544f53), (43, ascii "MANTLE EFI "), (54, ascii "FAT16   "),
    (32, wordBytes 4 TOTAL_SECTORS), (510, [0x55, 0xaa])]

/-- What the entry of a cluster of the payload is set to. -/
def next_cluster (cluster_count cluster : Nat) : Nat :=
  if cluster + 1 = cluster_count then 0xffff else 5 + cluster

def make_fat (cluster_count : Nat) : Option Bytes := do
  let fat := splice (List.replicate (FAT_SECTORS * SECTOR) 0) 0 (wordBytes 2 0xfff8)
  let fat := splice fat 2 (wordBytes 2 0xffff)
  let fat ← fat16_set fat 2 0xffff
  let fat ← fat16_set fat 3 0xffff
  (List.range cluster_count).foldlM
    (fun fat cluster => fat16_set fat (4 + cluster) (next_cluster cluster_count cluster)) fat

/-- The writes after the boot sector: the two FATs and the three directories. -/
def layout (fat : Bytes) (size : Nat) : List (Nat × Bytes) :=
  let root := SECTOR * (1 + 2 * FAT_SECTORS)
  let efi := SECTOR * DATA_SECTOR
  let boot := efi + SECTOR
  [(SECTOR, fat), (SECTOR * (1 + FAT_SECTORS), fat),
    (root, directory_entry (ascii "EFI") 0x10 2 0),
    (efi, directory_entry (ascii ".          ") 0x10 2 0),
    (efi + 32, directory_entry (ascii "..         ") 0x10 0 0),
    (efi + 64, directory_entry (ascii "BOOT") 0x10 3 0),
    (boot, directory_entry (ascii ".          ") 0x10 3 0),
    (boot + 32, directory_entry (ascii "..         ") 0x10 2 0),
    (boot + 64, directory_entry (ascii "BOOTX64 EFI") 0x20 4 size)]

def payload_offset : Nat := SECTOR * DATA_SECTOR + 2 * SECTOR

/-- The image that the script writes, or `none` when it raises an error. A slice assignment
past the end of the image makes it longer, as `splice` does. -/
def make_esp (payload : Bytes) : Option Bytes := do
  let cluster_count := (payload.length + SECTOR - 1) / SECTOR
  if cluster_count = 0 ∨ 65524 < cluster_count then none
  else
    let image := written (List.replicate (SECTOR * TOTAL_SECTORS) 0) boot_sector
    let fat ← make_fat cluster_count
    let image := written image (layout fat payload.length)
    return splice image payload_offset payload

/-! ## The FAT -/

/-- The loop writes each entry, and fails at the first one outside the FAT. -/
theorem fat_loop_eq (f : Nat → Nat) (l : List Nat) (fat : Bytes) :
    l.foldlM (fun fat cluster => fat16_set fat (4 + cluster) (f cluster)) fat =
      if ∀ c ∈ l, (4 + c) * 2 + 2 ≤ fat.length then
        some (written fat (l.map fun c => ((4 + c) * 2, wordBytes 2 (f c))))
      else none := by
  induction l generalizing fat with
  | nil => rfl
  | cons c l ih =>
    rw [List.foldlM_cons, fat16_set]
    by_cases hc : (4 + c) * 2 + 2 ≤ fat.length
    · have hlen : (splice fat ((4 + c) * 2) (wordBytes 2 (f c))).length = fat.length :=
        splice_length (by simpa using hc)
      rw [if_pos hc]
      simp only [Option.bind_eq_bind, Option.bind_some, ih, hlen, List.forall_mem_cons, hc, true_and]
      rfl
    · rw [if_neg hc, if_neg (fun h => hc (h c (by simp)))]
      rfl

/-- The entries before those of the payload. -/
def fat_head : List (Nat × Bytes) :=
  [(0, wordBytes 2 0xfff8), (2, wordBytes 2 0xffff), (4, wordBytes 2 0xffff), (6, wordBytes 2 0xffff)]

def fat_writes (cluster_count : Nat) : List (Nat × Bytes) :=
  fat_head ++ (List.range cluster_count).map fun c =>
    ((4 + c) * 2, wordBytes 2 (next_cluster cluster_count c))

def emptyFat : Bytes := List.replicate (FAT_SECTORS * SECTOR) 0

theorem emptyFat_length : emptyFat.length = 65536 := List.length_replicate

theorem written_emptyFat_length {writes : List (Nat × Bytes)} (h : WritesFit writes 65536) :
    (written emptyFat writes).length = 65536 := by
  rw [written_length (by rw [emptyFat_length]; exact h), emptyFat_length]

theorem fat16_set_eq {fat : Bytes} {cluster : Nat} (value : Nat) (h : cluster * 2 + 2 ≤ fat.length) :
    fat16_set fat cluster value = some (splice fat (cluster * 2) (wordBytes 2 value)) := if_pos h

/-- The four entries before those of the payload are always written. -/
theorem make_fat_head {fat : Bytes} (h : fat.length = 65536) (f : Bytes → Option Bytes) :
    (fat16_set (splice (splice fat 0 (wordBytes 2 0xfff8)) 2 (wordBytes 2 0xffff)) 2 0xffff >>=
      fun fat => fat16_set fat 3 0xffff >>= f) = f (written fat fat_head) := by
  have h2 : (written fat (fat_head.take 2)).length = 65536 := by
    rw [written_length (by rw [h]; simp [WritesFit, fat_head]), h]
  have h3 : (written fat (fat_head.take 3)).length = 65536 := by
    rw [written_length (by rw [h]; simp [WritesFit, fat_head]), h]
  have hset2 := @fat16_set_eq (written fat (fat_head.take 2)) 2 0xffff (by omega)
  have hset3 := @fat16_set_eq (written fat (fat_head.take 3)) 3 0xffff (by omega)
  rw [show splice (splice fat 0 (wordBytes 2 0xfff8)) 2 (wordBytes 2 0xffff) =
    written fat (fat_head.take 2) from rfl, hset2, Option.bind_eq_bind, Option.bind_some,
    show splice (written fat (fat_head.take 2)) (2 * 2) (wordBytes 2 0xffff) =
      written fat (fat_head.take 3) from rfl, hset3, Option.bind_some]
  rfl

/-- The FAT has room for 32764 clusters of the payload. -/
theorem make_fat_eq (cluster_count : Nat) :
    make_fat cluster_count =
      if cluster_count ≤ 32764 then some (written emptyFat (fat_writes cluster_count)) else none := by
  have h4 := @written_emptyFat_length fat_head (by simp [WritesFit, fat_head])
  rw [make_fat, ← emptyFat, make_fat_head emptyFat_length, fat_loop_eq, h4]
  by_cases hcount : cluster_count ≤ 32764
  · rw [if_pos hcount, if_pos, fat_writes, written_append]
    intro c hc
    rw [List.mem_range] at hc
    omega
  · rw [if_neg hcount, if_neg]
    intro hall
    have := hall 32764 (List.mem_range.mpr (by omega))
    omega

theorem next_cluster_lt {cluster_count c : Nat} (h : c < cluster_count) (hcount : cluster_count ≤ 32764) :
    next_cluster cluster_count c < 256 ^ 2 := by
  unfold next_cluster
  split <;> omega

theorem fat_writes_fit {cluster_count : Nat} (h : cluster_count ≤ 32764) :
    WritesFit (fat_writes cluster_count) 65536 := by
  intro w hw
  rcases List.mem_append.mp hw with hw | hw
  · have hhead : ∀ w ∈ fat_head, w.1 + w.2.length ≤ 65536 := by simp [fat_head]
    exact hhead w hw
  · obtain ⟨c, hc, rfl⟩ := List.mem_map.mp hw
    rw [List.mem_range] at hc
    simp only [wordBytes_length]
    omega

/-- The entries of the two directories end their chains at once. -/
theorem fat_directory {cluster_count c : Nat} (h : cluster_count ≤ 32764) (hc : c = 2 ∨ c = 3) :
    wordOf (written emptyFat (fat_writes cluster_count)) (2 * c) 2 = 0xffff := by
  have hfit := fat_writes_fit h
  rw [← emptyFat_length] at hfit
  have htail : ∀ w ∈ (List.range cluster_count).map fun c =>
      ((4 + c) * 2, wordBytes 2 (next_cluster cluster_count c)), 8 ≤ w.1 := by
    intro w hw
    obtain ⟨i, _, rfl⟩ := List.mem_map.mp hw
    simp only
    omega
  rcases hc with rfl | rfl
  · refine @wordOf_written emptyFat (fat_head.take 2) ((6, wordBytes 2 0xffff) :: _) 4 2 0xffff hfit
      (by omega) ?_
    intro w hw
    rcases List.mem_cons.mp hw with rfl | hw
    · simp
    · have := htail w hw
      omega
  · refine @wordOf_written emptyFat (fat_head.take 3) _ 6 2 0xffff hfit (by omega) ?_
    intro w hw
    have := htail w hw
    omega

/-- The entry of a cluster of the payload is what the loop set it to. -/
theorem fat_payload {cluster_count c : Nat} (h : cluster_count ≤ 32764) (hc : c < cluster_count) :
    wordOf (written emptyFat (fat_writes cluster_count)) (2 * (4 + c)) 2 =
      next_cluster cluster_count c := by
  have hfit := fat_writes_fit h
  rw [← emptyFat_length] at hfit
  have hsplit : fat_writes cluster_count =
      (fat_head ++ (List.range c).map fun c => ((4 + c) * 2, wordBytes 2 (next_cluster cluster_count c))) ++
      ((4 + c) * 2, wordBytes 2 (next_cluster cluster_count c)) ::
      (List.range' (c + 1) (cluster_count - c - 1)).map fun c =>
        ((4 + c) * 2, wordBytes 2 (next_cluster cluster_count c)) := by
    have hrange : List.range cluster_count =
        List.range c ++ c :: List.range' (c + 1) (cluster_count - c - 1) := by
      rw [List.range_eq_range', List.range_eq_range', ← List.range'_succ]
      have := @List.range'_append_1 0 c (cluster_count - c - 1 + 1)
      rw [Nat.zero_add] at this
      rw [this]
      congr 1
      omega
    rw [fat_writes, hrange, List.map_append, List.map_cons, List.append_assoc]
  rw [hsplit] at hfit ⊢
  rw [Nat.mul_comm 2]
  refine wordOf_written hfit (next_cluster_lt hc h) ?_
  intro w hw
  obtain ⟨i, hi, rfl⟩ := List.mem_map.mp hw
  rw [List.mem_range'_1] at hi
  simp only
  omega

/-! ## The image -/

def emptyImage : Bytes := List.replicate (SECTOR * TOTAL_SECTORS) 0

theorem emptyImage_length : emptyImage.length = 16777216 := List.length_replicate

/-- The image before the payload is written. -/
def frame (fat : Bytes) (size : Nat) : Bytes := written emptyImage (boot_sector ++ layout fat size)

theorem padded_length (name : Bytes) : (padded name).length = 11 := by
  rw [padded, List.length_take, List.length_append, List.length_replicate]
  omega

/-- The writes of a directory entry. -/
def entry_writes (name : Bytes) (attr cluster : Nat) : List (Nat × Bytes) :=
  [(0, padded name), (11, [.ofNat attr]), (26, wordBytes 2 cluster)]

theorem directory_entry_eq (name : Bytes) (attr cluster size : Nat) :
    directory_entry name attr cluster size =
      written (List.replicate 32 0) (entry_writes name attr cluster ++ [(28, wordBytes 4 size)]) := rfl

theorem entry_writes_fit (name : Bytes) (attr cluster size : Nat) :
    WritesFit (entry_writes name attr cluster ++ [(28, wordBytes 4 size)])
      (List.replicate 32 (0 : UInt8)).length := by
  rw [List.length_replicate]
  simp [WritesFit, entry_writes, padded_length]

theorem directory_entry_length (name : Bytes) (attr cluster size : Nat) :
    (directory_entry name attr cluster size).length = 32 := by
  rw [directory_entry_eq, written_length (entry_writes_fit name attr cluster size), List.length_replicate]

theorem boot_sector_fit : WritesFit boot_sector 512 := by
  unfold WritesFit
  decide

/-- A reader gets the cluster and the size of an entry back. -/
theorem directory_entry_fields (name : Bytes) (attr : Nat) {cluster size : Nat}
    (hc : cluster < 2 ^ 16) (hs : size < 2 ^ 32) :
    wordOf (directory_entry name attr cluster size) 26 2 = cluster ∧
      wordOf (directory_entry name attr cluster size) 28 4 = size := by
  have hfit := entry_writes_fit name attr cluster size
  rw [directory_entry_eq]
  constructor
  · exact @wordOf_written _ [(0, padded name), (11, [.ofNat attr])] [(28, wordBytes 4 size)] 26 2 cluster
      hfit hc (by simp)
  · exact wordOf_written hfit hs nofun

section Frame

variable {fat : Bytes} (hfat : fat.length = 65536) (size : Nat)

/-- The places of the layout, in increasing order. -/
theorem layout_eq (fat : Bytes) (size : Nat) : layout fat size =
    [(512, fat), (66048, fat), (131584, directory_entry (ascii "EFI") 0x10 2 0),
      (147968, directory_entry (ascii ".          ") 0x10 2 0),
      (148000, directory_entry (ascii "..         ") 0x10 0 0),
      (148032, directory_entry (ascii "BOOT") 0x10 3 0),
      (148480, directory_entry (ascii ".          ") 0x10 3 0),
      (148512, directory_entry (ascii "..         ") 0x10 2 0),
      (148544, directory_entry (ascii "BOOTX64 EFI") 0x20 4 size)] := rfl

include hfat

theorem layout_range : ∀ w ∈ layout fat size, 512 ≤ w.1 ∧ w.1 + w.2.length ≤ 148992 := by
  rw [layout_eq]
  simp [directory_entry_length, hfat]

theorem frame_fit : WritesFit (boot_sector ++ layout fat size) emptyImage.length := by
  rw [emptyImage_length]
  intro w hw
  rcases List.mem_append.mp hw with hw | hw
  · have := boot_sector_fit w hw
    omega
  · have := (layout_range hfat size w hw).2
    omega

theorem frame_length : (frame fat size).length = 16777216 := by
  rw [frame, written_length (frame_fit hfat size), emptyImage_length]

/-- What the layout put in its place is there. -/
theorem frame_slice (before : List (Nat × Bytes)) {after : List (Nat × Bytes)} {i : Nat} {bs : Bytes}
    (hsplit : layout fat size = before ++ (i, bs) :: after)
    (hafter : ∀ w ∈ after, i + bs.length ≤ w.1) : slice (frame fat size) i bs.length = bs := by
  have hfit := frame_fit hfat size
  have happ : boot_sector ++ layout fat size = (boot_sector ++ before) ++ (i, bs) :: after := by
    rw [hsplit, List.append_assoc]
  rw [happ] at hfit
  rw [frame, happ]
  exact slice_written_self hfit (fun w hw => Or.inl (hafter w hw))

/-- The boot sector alone. -/
def bootBytes : Bytes := written (List.replicate 512 0) boot_sector

theorem frame_boot {i n : Nat} (h : i + n ≤ 512) : slice (frame fat size) i n = slice bootBytes i n := by
  have hfit := frame_fit hfat size
  have hboot : WritesFit boot_sector emptyImage.length := fun w hw => hfit w (by simp [hw])
  have hlayout : WritesFit (layout fat size) (written emptyImage boot_sector).length := by
    rw [written_length hboot]
    exact fun w hw => hfit w (by simp [hw])
  rw [frame, written_append, slice_written hlayout]
  · rw [← slice_take h, take_written boot_sector_fit (by rw [emptyImage_length]; omega)]
    rw [bootBytes, emptyImage, List.take_replicate, Nat.min_eq_left (by decide)]
  · intro w hw
    have := (layout_range hfat size w hw).1
    omega

end Frame

/-! ## What a reader finds -/

open fat16

/-- The geometry that the boot sector declares. -/
def geometry : Geometry :=
  { sectorSize := 512, clusterSectors := 1, reserved := 1, fats := 2, rootEntries := 512
    fatSectors := 128, sectors := 32768 }

theorem geometry_bootBytes : geometryOf bootBytes = geometry := by decide

theorem geometry_clusters : geometry.clusters = 32479 := by decide

section Image

variable {fat : Bytes} (hfat : fat.length = 65536) (payload : Bytes)

/-- The image with a FAT and a payload. -/
def imageOf (fat payload : Bytes) : Bytes := splice (frame fat payload.length) payload_offset payload

theorem payload_offset_eq : payload_offset = 148992 := rfl

include hfat

theorem image_slice {i n : Nat} (h : i + n ≤ 148992) :
    slice (imageOf fat payload) i n = slice (frame fat payload.length) i n := by
  have hlen := frame_length hfat payload.length
  rw [imageOf, ← slice_take (m := payload_offset) (by rw [payload_offset_eq]; exact h),
    take_splice_before (by rw [payload_offset_eq]; omega), slice_take (by rw [payload_offset_eq]; exact h)]

theorem image_payload : (imageOf fat payload).drop 148992 =
    payload ++ (frame fat payload.length).drop (148992 + payload.length) := by
  have hlen := frame_length hfat payload.length
  exact drop_splice (by omega)

theorem image_geometry : geometryOf (imageOf fat payload) = geometry := by
  have hword : ∀ i n, i + n ≤ 512 → wordOf (imageOf fat payload) i n = wordOf bootBytes i n := by
    intro i n hi
    rw [wordOf, image_slice hfat payload (by omega), frame_boot hfat payload.length hi, wordOf]
  rw [← geometry_bootBytes]
  simp only [geometryOf, hword 11 2 (by omega), hword 13 1 (by omega), hword 14 2 (by omega),
    hword 16 1 (by omega), hword 17 2 (by omega), hword 22 2 (by omega), hword 19 2 (by omega),
    hword 32 4 (by omega)]

theorem image_fats : fatCopy geometry (imageOf fat payload) 0 = fat ∧
    fatCopy geometry (imageOf fat payload) 1 = fat := by
  constructor
  · have hslice := frame_slice hfat payload.length [] (layout_eq fat payload.length)
      (by simp [hfat])
    rw [hfat, ← image_slice hfat payload (by omega)] at hslice
    exact hslice
  · have hslice := frame_slice hfat payload.length [(512, fat)] (layout_eq fat payload.length)
      (by simp [hfat])
    rw [hfat, ← image_slice hfat payload (by omega)] at hslice
    exact hslice

/-- An entry of a directory is where the layout put it. -/
theorem image_entry (before : List (Nat × Bytes)) {after : List (Nat × Bytes)} {i : Nat} {name : Bytes}
    {attr cluster size : Nat}
    (hsplit : layout fat payload.length =
      before ++ (i, directory_entry name attr cluster size) :: after)
    (hi : i + 32 ≤ 148992) (hafter : ∀ w ∈ after, i + 32 ≤ w.1) :
    slice (imageOf fat payload) i 32 = directory_entry name attr cluster size := by
  have hslice := frame_slice hfat payload.length before hsplit
    (by rw [directory_entry_length]; exact hafter)
  rw [directory_entry_length] at hslice
  rw [image_slice hfat payload hi, hslice]

theorem image_slice_length {i n : Nat} (h : i + n ≤ 148992) :
    (slice (imageOf fat payload) i n).length = n := by
  have hlen := frame_length hfat payload.length
  rw [image_slice hfat payload h, slice_length (by omega)]

theorem root_finds_efi :
    findEntry (ascii "EFI        ") ((rootDirectory geometry (imageOf fat payload)).length / 32)
        (rootDirectory geometry (imageOf fat payload)) =
      some (entryOf (directory_entry (ascii "EFI") 0x10 2 0)) := by
  have hdir : rootDirectory geometry (imageOf fat payload) =
      slice (imageOf fat payload) 131584 16384 := rfl
  have hentry := image_entry hfat payload [(512, fat), (66048, fat)] (layout_eq fat payload.length)
    (by omega) (by simp)
  rw [hdir, image_slice_length hfat payload (by omega)]
  exact findEntry_first (by omega) hentry (by decide) (by decide)

theorem efi_finds_boot :
    findEntry (ascii "BOOT       ") ((slice (imageOf fat payload) 147968 512).length / 32)
        (slice (imageOf fat payload) 147968 512) =
      some (entryOf (directory_entry (ascii "BOOT") 0x10 3 0)) := by
  have hself := image_entry hfat payload ((layout fat payload.length).take 3)
    (layout_eq fat payload.length) (by omega) (by simp)
  have hparent := image_entry hfat payload ((layout fat payload.length).take 4)
    (layout_eq fat payload.length) (by omega) (by simp)
  have hboot := image_entry hfat payload ((layout fat payload.length).take 5)
    (layout_eq fat payload.length) (by omega) (by simp)
  rw [image_slice_length hfat payload (by omega),
    findEntry_next (by omega) hself (by decide) (by decide),
    findEntry_next (by omega) hparent (by decide) (by decide)]
  exact findEntry_first (by omega) hboot (by decide) (by decide)

theorem boot_finds_the_loader :
    findEntry (ascii "BOOTX64 EFI") ((slice (imageOf fat payload) 148480 512).length / 32)
        (slice (imageOf fat payload) 148480 512) =
      some (entryOf (directory_entry (ascii "BOOTX64 EFI") 0x20 4 payload.length)) := by
  have hself := image_entry hfat payload ((layout fat payload.length).take 6)
    (layout_eq fat payload.length) (by omega) (by simp)
  have hparent := image_entry hfat payload ((layout fat payload.length).take 7)
    (layout_eq fat payload.length) (by omega) (by simp)
  have hloader := image_entry hfat payload ((layout fat payload.length).take 8)
    (layout_eq fat payload.length) (by omega) (by simp)
  rw [image_slice_length hfat payload (by omega),
    findEntry_next (by omega) hself (by decide) (by decide),
    findEntry_next (by omega) hparent (by decide) (by decide)]
  exact findEntry_first (by omega) hloader nofun rfl

end Image

/-- The path of the file, each name as a directory entry has it. -/
def path : List Bytes := [ascii "EFI        ", ascii "BOOT       ", ascii "BOOTX64 EFI"]

/-- The image is a FAT16 volume with equal FATs, in which a reader finds the file, with a chain
of clusters of the volume that is free of repetition and that holds the payload. -/
structure ReadsBack (image payload : Bytes) : Prop where
  isFat16 : (geometryOf image).IsFat16
  fats : fatCopy (geometryOf image) image 0 = fatCopy (geometryOf image) image 1
  file : ∃ e l, openFile image path = some (e, l) ∧ l.Nodup ∧
    (contents (geometryOf image) image l).take e.size = payload

section Reading

variable {cluster_count : Nat} (hcount : cluster_count ≤ 32764) (payload : Bytes)

/-- The FAT of the script. -/
def fatOf (cluster_count : Nat) : Bytes := written emptyFat (fat_writes cluster_count)

include hcount

theorem fatOf_length : (fatOf cluster_count).length = 65536 :=
  written_emptyFat_length (fat_writes_fit hcount)

theorem link_eq (c : Nat) : link geometry (imageOf (fatOf cluster_count) payload) c =
    wordOf (fatOf cluster_count) (2 * c) 2 := by
  rw [link, (image_fats (fatOf_length hcount) payload).1]

theorem directory_chain {c : Nat} (hc : c = 2 ∨ c = 3) :
    chain geometry (imageOf (fatOf cluster_count) payload) geometry.clusters c = some [c] := by
  have hlink : link geometry (imageOf (fatOf cluster_count) payload) c = 0xffff := by
    rw [link_eq hcount, fatOf, fat_directory hcount hc]
  have hin : geometry.InVolume c := by
    rw [Geometry.InVolume, geometry_clusters]
    omega
  rw [geometry_clusters]
  exact chain_single hin (by rw [hlink]; rfl)

/-- The reader always finds the entry of the loader. -/
theorem lookup_loader :
    lookup geometry (imageOf (fatOf cluster_count) payload)
        (rootDirectory geometry (imageOf (fatOf cluster_count) payload)) path =
      some (entryOf (directory_entry (ascii "BOOTX64 EFI") 0x20 4 payload.length)) := by
  have hlen := fatOf_length hcount
  have hefi : contents geometry (imageOf (fatOf cluster_count) payload) [2] =
      slice (imageOf (fatOf cluster_count) payload) 147968 512 := List.append_nil _
  have hboot : contents geometry (imageOf (fatOf cluster_count) payload) [3] =
      slice (imageOf (fatOf cluster_count) payload) 148480 512 := List.append_nil _
  have hdir1 : (entryOf (directory_entry (ascii "EFI") 0x10 2 0)).isDirectory = true ∧
      (entryOf (directory_entry (ascii "EFI") 0x10 2 0)).cluster = 2 := by decide
  have hdir2 : (entryOf (directory_entry (ascii "BOOT") 0x10 3 0)).isDirectory = true ∧
      (entryOf (directory_entry (ascii "BOOT") 0x10 3 0)).cluster = 3 := by decide
  simp only [path, lookup, root_finds_efi hlen payload, Option.bind_eq_bind, Option.bind_some, hdir1,
    if_true, directory_chain hcount payload (Or.inl rfl), hefi, efi_finds_boot hlen payload, hdir2,
    directory_chain hcount payload (Or.inr rfl), hboot, boot_finds_the_loader hlen payload]

/-- The links of the payload, up to the last cluster. -/
theorem payload_links (hpos : 0 < cluster_count) :
    (∀ i < cluster_count - 1,
      isLast (link geometry (imageOf (fatOf cluster_count) payload) (4 + i)) = false ∧
        link geometry (imageOf (fatOf cluster_count) payload) (4 + i) = 4 + i + 1) ∧
    isLast (link geometry (imageOf (fatOf cluster_count) payload) (4 + (cluster_count - 1))) = true := by
  constructor
  · intro i hi
    have hlink : link geometry (imageOf (fatOf cluster_count) payload) (4 + i) = 4 + i + 1 := by
      rw [link_eq hcount, fatOf, fat_payload hcount (by omega), next_cluster, if_neg (by omega)]
      omega
    rw [hlink]
    refine ⟨?_, rfl⟩
    simp only [isLast, decide_eq_false_iff_not]
    omega
  · rw [link_eq hcount, fatOf, fat_payload hcount (by omega), next_cluster, if_pos (by omega)]
    rfl

/-- The clusters of the payload hold it, and then what is left of the image. -/
theorem payload_contents (h : payload.length ≤ cluster_count * 512) :
    (contents geometry (imageOf (fatOf cluster_count) payload)
      (List.range' 4 cluster_count)).take payload.length = payload := by
  rw [contents_range 4 cluster_count (by omega)]
  have hplace : (geometry.dataSector + (4 - 2) * geometry.clusterSectors) * geometry.sectorSize =
      148992 := by decide
  have hsize : geometry.clusterSectors * geometry.sectorSize = 512 := by decide
  rw [hplace, hsize, take_slice _ _ h, slice, image_payload (fatOf_length hcount), List.take_left']
  rfl

end Reading

/-! ## The round trip -/

/-- The number of clusters of a payload. -/
def clusterCount (payload : Bytes) : Nat := (payload.length + SECTOR - 1) / SECTOR

theorem le_clusterCount (payload : Bytes) : payload.length ≤ clusterCount payload * 512 := by
  unfold clusterCount SECTOR
  omega

/-- The script succeeds for 1 to 32764 clusters, and for no other number. -/
theorem make_esp_eq (payload : Bytes) :
    make_esp payload =
      if 0 < clusterCount payload ∧ clusterCount payload ≤ 32764 then
        some (imageOf (fatOf (clusterCount payload)) payload)
      else none := by
  have hscript : make_esp payload =
      if clusterCount payload = 0 ∨ 65524 < clusterCount payload then none
      else make_fat (clusterCount payload) >>= fun fat => some (splice
        (written (written emptyImage boot_sector) (layout fat payload.length)) payload_offset payload) := rfl
  rw [hscript, make_fat_eq]
  by_cases hzero : clusterCount payload = 0
  · rw [if_pos (Or.inl hzero), if_neg (by omega)]
  by_cases hcount : clusterCount payload ≤ 32764
  · rw [if_neg (by omega), if_pos hcount, if_pos ⟨by omega, hcount⟩, imageOf, frame, written_append]
    rfl
  · have hno : ¬ (0 < clusterCount payload ∧ clusterCount payload ≤ 32764) := fun h => hcount h.2
    rw [if_neg hcount, if_neg hno]
    split <;> rfl

theorem of_make_esp {payload image : Bytes} (h : make_esp payload = some image) :
    0 < clusterCount payload ∧ clusterCount payload ≤ 32764 ∧
      image = imageOf (fatOf (clusterCount payload)) payload := by
  rw [make_esp_eq] at h
  split at h
  · rename_i hcount
    exact ⟨hcount.1, hcount.2, (Option.some.inj h).symm⟩
  · cases h

/-- What can be read back is in the volume. -/
theorem clusterCount_of_readsBack {payload : Bytes} (hpos : 0 < clusterCount payload)
    (hcount : clusterCount payload ≤ 32764)
    (h : ReadsBack (imageOf (fatOf (clusterCount payload)) payload) payload) :
    clusterCount payload ≤ 32477 := by
  obtain ⟨e, l, hopen, _⟩ := h.file
  have hlen : payload.length < 2 ^ 32 := by
    have := le_clusterCount payload
    omega
  have hcluster : (entryOf (directory_entry (ascii "BOOTX64 EFI") 0x20 4 payload.length)).cluster = 4 :=
    (directory_entry_fields (ascii "BOOTX64 EFI") 0x20 (by omega : 4 < 2 ^ 16) hlen).1
  unfold openFile at hopen
  simp only [image_geometry (fatOf_length hcount) payload, lookup_loader hcount payload,
    Option.bind_eq_bind, Option.bind_some] at hopen
  obtain ⟨l', hchain, _⟩ := Option.bind_eq_some_iff.mp hopen
  rw [hcluster] at hchain
  have hin := inVolume_of_chain hchain (payload_links hcount payload hpos).1
  rw [Geometry.InVolume, geometry_clusters] at hin
  omega

/-- What is in the volume can be read back. -/
theorem readsBack_of_clusterCount {payload : Bytes} (hpos : 0 < clusterCount payload)
    (hcount : clusterCount payload ≤ 32477) :
    ReadsBack (imageOf (fatOf (clusterCount payload)) payload) payload := by
  have hcount' : clusterCount payload ≤ 32764 := by omega
  have hgeometry := image_geometry (fatOf_length hcount') payload
  have hlen : payload.length < 2 ^ 32 := by
    have := le_clusterCount payload
    omega
  obtain ⟨hcluster, hsize⟩ := directory_entry_fields (ascii "BOOTX64 EFI") 0x20
    (by omega : 4 < 2 ^ 16) hlen
  obtain ⟨hlinks, hlast⟩ := payload_links hcount' payload hpos
  have hleft : clusterCount payload - 1 < geometry.clusters := by
    rw [geometry_clusters]
    omega
  have hchain := chain_of_links hleft
    (fun i hi => by
      rw [Geometry.InVolume, geometry_clusters]
      omega) hlinks hlast
  rw [Nat.sub_add_cancel hpos] at hchain
  refine ⟨?_, ?_, entryOf (directory_entry (ascii "BOOTX64 EFI") 0x20 4 payload.length),
    List.range' 4 (clusterCount payload), ?_, List.nodup_range', ?_⟩
  · rw [hgeometry, Geometry.IsFat16, geometry_clusters]
    omega
  · rw [hgeometry]
    obtain ⟨h0, h1⟩ := image_fats (fatOf_length hcount') payload
    rw [h0, h1]
  · unfold openFile
    simp only [hgeometry, lookup_loader hcount' payload, Option.bind_eq_bind, Option.bind_some]
    rw [entryOf, hcluster, hchain]
    rfl
  · rw [hgeometry, entryOf, hsize]
    exact payload_contents hcount' payload (le_clusterCount payload)

/-- Whenever the script succeeds, the payload can be read back from the volume exactly when it
has at most 32477 clusters. -/
theorem the_payload_reads_back_iff (payload image : Bytes) (h : make_esp payload = some image) :
    ReadsBack image payload ↔ payload.length ≤ 32477 * 512 := by
  obtain ⟨hpos, hcount, himage⟩ := of_make_esp h
  have hle := le_clusterCount payload
  rw [himage]
  constructor
  · intro hreads
    have hin := clusterCount_of_readsBack hpos hcount hreads
    exact Nat.le_trans hle (Nat.mul_le_mul_right 512 hin)
  · intro hlen
    have hin : clusterCount payload ≤ 32477 := by
      unfold clusterCount SECTOR
      omega
    exact readsBack_of_clusterCount hpos hin

theorem a_payload_of_one_byte_reads_back :
    ∃ image, make_esp [77] = some image ∧ ReadsBack image [77] := by
  have h : make_esp [77] = some (imageOf (fatOf 1) [77]) := by
    rw [make_esp_eq]
    exact if_pos (by decide)
  exact ⟨_, h, (the_payload_reads_back_iff [77] _ h).mpr (by decide)⟩

/-- A payload of 32478 clusters: the script succeeds, and its last cluster is outside the
volume. -/
theorem a_payload_past_the_volume_is_lost :
    ∃ image, make_esp (List.replicate (32477 * 512 + 1) 0) = some image ∧
      ¬ ReadsBack image (List.replicate (32477 * 512 + 1) 0) := by
  have hcount : clusterCount (List.replicate (32477 * 512 + 1) 0) = 32478 := by
    rw [clusterCount, List.length_replicate]
    rfl
  refine ⟨imageOf (fatOf (clusterCount (List.replicate (32477 * 512 + 1) 0)))
    (List.replicate (32477 * 512 + 1) 0), ?_, fun hreads => ?_⟩
  · rw [make_esp_eq, if_pos (by rw [hcount]; omega)]
  · have := clusterCount_of_readsBack (by rw [hcount]; omega) (by rw [hcount]; omega) hreads
    omega

/-! ## The volume that the boot sector declares -/

/-- The image has the bytes that its boot sector declares, and every cluster of the chain of the
file is one of the data area. -/
structure FitsVolume (image : Bytes) : Prop where
  sectors : (geometryOf image).sectors = TOTAL_SECTORS ∧ (geometryOf image).sectorSize = 512
  length : image.length = TOTAL_SECTORS * 512
  clusters : ∃ e, lookup (geometryOf image) image (rootDirectory (geometryOf image) image) path =
    some e ∧ ∀ c, OnChain (geometryOf image) image e.cluster c → (geometryOf image).InVolume c

/-- The payload makes the image longer where it goes past its end. -/
theorem image_length {fat : Bytes} (hfat : fat.length = 65536) (payload : Bytes) :
    (imageOf fat payload).length = max 16777216 (148992 + payload.length) := by
  have hlen := frame_length hfat payload.length
  have htake : ((frame fat payload.length).take payload_offset).length = 148992 := by
    rw [List.length_take, hlen]
    rfl
  rw [imageOf, splice, List.length_append, List.length_append, htake, List.length_drop, hlen,
    payload_offset_eq]
  omega

/-- The chain of the payload leaves the volume exactly when it has too many clusters. -/
theorem chain_in_volume_iff {cluster_count : Nat} (hpos : 0 < cluster_count)
    (hcount : cluster_count ≤ 32764) (payload : Bytes) :
    (∀ c, OnChain geometry (imageOf (fatOf cluster_count) payload) 4 c → geometry.InVolume c) ↔
      cluster_count ≤ 32477 := by
  obtain ⟨hlinks, hlast⟩ := payload_links hcount payload hpos
  simp only [onChain_iff hlinks hlast, Geometry.InVolume, geometry_clusters]
  constructor
  · intro h
    have := h (4 + (cluster_count - 1)) ⟨_, Nat.le_refl _, rfl⟩
    omega
  · rintro h c ⟨i, hi, rfl⟩
    omega

/-- Whenever the script succeeds, the image is the volume that its boot sector declares, with the
chain of the payload inside, exactly when the payload has at most 32477 clusters. -/
theorem the_image_fits_its_volume_iff (payload image : Bytes) (h : make_esp payload = some image) :
    FitsVolume image ↔ payload.length ≤ 32477 * 512 := by
  obtain ⟨hpos, hcount, himage⟩ := of_make_esp h
  have hfat := fatOf_length hcount
  have hgeometry := image_geometry hfat payload
  have hlookup := lookup_loader hcount payload
  have hlength := image_length hfat payload
  rw [← himage] at hgeometry hlookup hlength
  have hsize : payload.length < 2 ^ 32 := by
    have := le_clusterCount payload
    omega
  have hcluster : (entryOf (directory_entry (ascii "BOOTX64 EFI") 0x20 4 payload.length)).cluster = 4 :=
    (directory_entry_fields (ascii "BOOTX64 EFI") 0x20 (by omega : 4 < 2 ^ 16) hsize).1
  constructor
  · intro hfits
    have htotal := hfits.length
    rw [hlength, TOTAL_SECTORS] at htotal
    omega
  · intro hlen
    have hin : clusterCount payload ≤ 32477 := by
      unfold clusterCount SECTOR
      omega
    have hchain := (chain_in_volume_iff hpos hcount payload).mpr hin
    rw [← himage, ← hcluster] at hchain
    refine ⟨by rw [hgeometry]; exact ⟨rfl, rfl⟩, ?_, ?_⟩
    · rw [hlength, TOTAL_SECTORS]
      omega
    · rw [hgeometry]
      exact ⟨_, hlookup, hchain⟩

theorem a_payload_of_one_byte_fits_the_volume :
    ∃ image, make_esp [77] = some image ∧ FitsVolume image := by
  have h : make_esp [77] = some (imageOf (fatOf 1) [77]) := by
    rw [make_esp_eq]
    exact if_pos (by decide)
  exact ⟨_, h, (the_image_fits_its_volume_iff [77] _ h).mpr (by decide)⟩

/-- A payload of 32478 clusters: the image is a byte longer than its volume, and the last cluster
of the chain is outside of it. -/
theorem a_payload_makes_the_image_longer :
    ∃ image, make_esp (List.replicate (32477 * 512 + 1) 0) = some image ∧
      image.length = TOTAL_SECTORS * 512 + 1 ∧ ¬ FitsVolume image := by
  have hcount : clusterCount (List.replicate (32477 * 512 + 1) 0) = 32478 := by
    rw [clusterCount, List.length_replicate]
    rfl
  have hlength : (imageOf (fatOf (clusterCount (List.replicate (32477 * 512 + 1) 0)))
      (List.replicate (32477 * 512 + 1) 0)).length = TOTAL_SECTORS * 512 + 1 := by
    rw [image_length (fatOf_length (by rw [hcount]; omega)), List.length_replicate, TOTAL_SECTORS]
    omega
  refine ⟨_, ?_, hlength, fun hfits => ?_⟩
  · rw [make_esp_eq, if_pos (by rw [hcount]; omega)]
  · have := hfits.length
    omega

end mantle.esp
