-- A FAT16 volume as a reader sees it: the geometry of the boot sector, the
-- links of the first FAT, the clusters of a chain and the entries of a
-- directory. A cluster outside the volume is not read.
import MantleOS.Bytes

open bytes

namespace fat16

/-! ## The volume -/

/-- The fields of the boot sector that a reader needs. -/
structure Geometry where
  sectorSize : Nat
  clusterSectors : Nat
  reserved : Nat
  fats : Nat
  rootEntries : Nat
  fatSectors : Nat
  sectors : Nat
  deriving DecidableEq

/-- The boot sector. The 16-bit number of sectors is 0 when the 32-bit one counts. -/
def geometryOf (image : Bytes) : Geometry :=
  { sectorSize := wordOf image 11 2
    clusterSectors := wordOf image 13 1
    reserved := wordOf image 14 2
    fats := wordOf image 16 1
    rootEntries := wordOf image 17 2
    fatSectors := wordOf image 22 2
    sectors := if wordOf image 19 2 ≠ 0 then wordOf image 19 2 else wordOf image 32 4 }

namespace Geometry

def rootSector (g : Geometry) : Nat := g.reserved + g.fats * g.fatSectors

def dataSector (g : Geometry) : Nat :=
  g.rootSector + (g.rootEntries * 32 + g.sectorSize - 1) / g.sectorSize

/-- The number of clusters that the volume has. The first one is cluster 2. -/
def clusters (g : Geometry) : Nat := (g.sectors - g.dataSector) / g.clusterSectors

/-- The number of clusters makes it a FAT16 volume. -/
def IsFat16 (g : Geometry) : Prop := 4085 ≤ g.clusters ∧ g.clusters < 65525

def InVolume (g : Geometry) (c : Nat) : Prop := 2 ≤ c ∧ c < g.clusters + 2

instance (g : Geometry) (c : Nat) : Decidable (g.InVolume c) := inferInstanceAs (Decidable (_ ∧ _))

end Geometry

section Reader

variable (g : Geometry) (image : Bytes)

/-- A copy of the FAT. -/
def fatCopy (i : Nat) : Bytes :=
  slice image ((g.reserved + i * g.fatSectors) * g.sectorSize) (g.fatSectors * g.sectorSize)

/-- The entry of a cluster in the first FAT. -/
def link (c : Nat) : Nat := wordOf (fatCopy g image 0) (2 * c) 2

/-- The mark of the last cluster. -/
def isLast (entry : Nat) : Bool := 0xfff8 ≤ entry

def cluster (c : Nat) : Bytes :=
  slice image ((g.dataSector + (c - 2) * g.clusterSectors) * g.sectorSize)
    (g.clusterSectors * g.sectorSize)

/-- The clusters from `c` on, with the number of clusters that may still come. -/
def chain : Nat → Nat → Option (List Nat)
  | 0, _ => none
  | left + 1, c =>
    if g.InVolume c then
      if isLast (link g image c) then some [c] else (chain left (link g image c)).map (c :: ·)
    else none

/-- A cluster that the links lead to from a first one, in the volume or not. -/
inductive OnChain (first : Nat) : Nat → Prop
  | start : OnChain first first
  | next {c : Nat} (h : OnChain first c) (hmore : isLast (link g image c) = false) :
      OnChain first (link g image c)

/-- The bytes of the clusters, one after the other. -/
def contents (l : List Nat) : Bytes := l.flatMap (cluster g image)

end Reader

/-! ## Directories -/

structure Entry where
  name : Bytes
  attr : Nat
  cluster : Nat
  size : Nat
  deriving DecidableEq

def entryOf (b : Bytes) : Entry :=
  { name := b.take 11, attr := wordOf b 11 1, cluster := wordOf b 26 2, size := wordOf b 28 4 }

def Entry.isDirectory (e : Entry) : Bool := e.attr / 16 % 2 = 1

/-- The entry with a name among the next `n` entries. A name that starts with 0 ends the
directory. -/
def findEntry (name : Bytes) : Nat → Bytes → Option Entry
  | 0, _ => none
  | n + 1, dir =>
    if (dir.take 32).head? = some 0 then none
    else if (dir.take 32).take 11 = name then some (entryOf (dir.take 32))
    else findEntry name n (dir.drop 32)

/-- The entry at the end of a path, from a directory on. -/
def lookup (g : Geometry) (image : Bytes) : Bytes → List Bytes → Option Entry
  | _, [] => none
  | dir, [name] => findEntry name (dir.length / 32) dir
  | dir, name :: rest => do
    let e ← findEntry name (dir.length / 32) dir
    if e.isDirectory then
      let l ← chain g image g.clusters e.cluster
      lookup g image (contents g image l) rest
    else none

def rootDirectory (g : Geometry) (image : Bytes) : Bytes :=
  slice image (g.rootSector * g.sectorSize) (g.rootEntries * 32)

/-- The entry of a file and the clusters of its chain. -/
def openFile (image : Bytes) (path : List Bytes) : Option (Entry × List Nat) := do
  let g := geometryOf image
  let e ← lookup g image (rootDirectory g image) path
  let l ← chain g image g.clusters e.cluster
  return (e, l)

/-! ## Chains and their bytes -/

variable {g : Geometry} {image : Bytes}

/-- The chain of one cluster. -/
theorem chain_single {c left : Nat} (hin : g.InVolume c) (hlast : isLast (link g image c) = true) :
    chain g image (left + 1) c = some [c] := by
  rw [chain, if_pos hin, if_pos hlast]

/-- Clusters that are linked one after the other, up to a last one, are a chain. -/
theorem chain_of_links {first count left : Nat} (hleft : count < left)
    (hin : ∀ i ≤ count, g.InVolume (first + i))
    (hlink : ∀ i < count, isLast (link g image (first + i)) = false ∧
      link g image (first + i) = first + i + 1)
    (hlast : isLast (link g image (first + count)) = true) :
    chain g image left first = some (List.range' first (count + 1)) := by
  induction count generalizing first left with
  | zero =>
    obtain ⟨left, rfl⟩ := Nat.exists_eq_add_of_lt hleft
    exact chain_single (hin 0 (Nat.le_refl _)) hlast
  | succ count ih =>
    cases left with
    | zero => omega
    | succ left =>
      obtain ⟨hno, hnext⟩ := hlink 0 (by omega)
      rw [Nat.add_zero] at hno hnext
      have hshift : ∀ i, first + 1 + i = first + (i + 1) := fun i => by omega
      have hrest := @ih (first + 1) left (by omega)
        (fun i hi => by rw [hshift]; exact hin (i + 1) (by omega))
        (fun i hi => by rw [hshift]; exact hlink (i + 1) (by omega))
        (by rw [hshift]; exact hlast)
      have hfirst := hin 0 (by omega)
      rw [Nat.add_zero] at hfirst
      rw [chain, if_pos hfirst, if_neg (by simp [hno]), hnext, hrest]
      rfl

/-- A chain never leaves the volume: where the links lead is a cluster of the volume. -/
theorem inVolume_of_chain {first count left : Nat} {l : List Nat}
    (h : chain g image left first = some l)
    (hlink : ∀ i < count, isLast (link g image (first + i)) = false ∧
      link g image (first + i) = first + i + 1) :
    g.InVolume (first + count) := by
  induction count generalizing first left l with
  | zero =>
    cases left with
    | zero => cases h
    | succ left =>
      rw [chain] at h
      split at h
      · rename_i hin
        exact hin
      · cases h
  | succ count ih =>
    cases left with
    | zero => cases h
    | succ left =>
      obtain ⟨hno, hnext⟩ := hlink 0 (by omega)
      rw [Nat.add_zero] at hno hnext
      rw [chain] at h
      split at h
      · rw [if_neg (by simp [hno]), hnext] at h
        obtain ⟨l', hl', _⟩ := Option.map_eq_some_iff.mp h
        have hshift : ∀ i, first + 1 + i = first + (i + 1) := fun i => by omega
        rw [← hshift]
        exact ih hl' (fun i hi => by rw [hshift]; exact hlink (i + 1) (by omega))
      · cases h

/-- Clusters that are linked one after the other, up to a last one, are those of the chain. -/
theorem onChain_iff {first count c : Nat}
    (hlink : ∀ i < count, isLast (link g image (first + i)) = false ∧
      link g image (first + i) = first + i + 1)
    (hlast : isLast (link g image (first + count)) = true) :
    OnChain g image first c ↔ ∃ i ≤ count, c = first + i := by
  constructor
  · intro h
    induction h with
    | start => exact ⟨0, Nat.zero_le _, rfl⟩
    | next _ hmore ih =>
      obtain ⟨i, hi, rfl⟩ := ih
      have hne : i ≠ count := by
        rintro rfl
        rw [hlast] at hmore
        cases hmore
      exact ⟨i + 1, by omega, (hlink i (by omega)).2⟩
  · rintro ⟨i, hi, rfl⟩
    induction i with
    | zero => exact .start
    | succ i ih =>
      obtain ⟨hmore, hnext⟩ := hlink i (by omega)
      have hstep := OnChain.next (ih (by omega)) hmore
      rwa [hnext] at hstep

/-- The first entry of a directory that stands in an image has the name. -/
theorem findEntry_first {name b e : Bytes} {i k n : Nat} (hn : 32 ≤ n) (he : slice b i 32 = e)
    (hhead : e.head? ≠ some 0) (hname : e.take 11 = name) :
    findEntry name (k + 1) (slice b i n) = some (entryOf e) := by
  rw [findEntry, take_slice b i hn, he, if_neg hhead, if_pos hname]

/-- The first entry has another name, and the reader goes on. -/
theorem findEntry_next {name b e : Bytes} {i k n : Nat} (hn : 32 ≤ n) (he : slice b i 32 = e)
    (hhead : e.head? ≠ some 0) (hname : e.take 11 ≠ name) :
    findEntry name (k + 1) (slice b i n) = findEntry name k (slice b (i + 32) (n - 32)) := by
  rw [findEntry, take_slice b i hn, drop_slice, he, if_neg hhead, if_neg hname]

/-- The bytes of neighbouring clusters are one piece of the image. -/
theorem contents_range (first count : Nat) (hfirst : 2 ≤ first) :
    contents g image (List.range' first count) =
      slice image ((g.dataSector + (first - 2) * g.clusterSectors) * g.sectorSize)
        (count * (g.clusterSectors * g.sectorSize)) := by
  induction count generalizing first with
  | zero => simp [contents, slice_zero]
  | succ count ih =>
    have hnext : (g.dataSector + (first + 1 - 2) * g.clusterSectors) * g.sectorSize =
        (g.dataSector + (first - 2) * g.clusterSectors) * g.sectorSize +
          g.clusterSectors * g.sectorSize := by
      obtain ⟨k, rfl⟩ := Nat.exists_eq_add_of_le hfirst
      simp only [Nat.add_sub_cancel_left, show 2 + k + 1 - 2 = k + 1 by omega]
      ring
    rw [show (count + 1) * (g.clusterSectors * g.sectorSize) =
      g.clusterSectors * g.sectorSize + count * (g.clusterSectors * g.sectorSize) by ring, slice_add,
      ← hnext, ← ih (first + 1) (by omega), List.range'_succ]
    rfl

end fat16
