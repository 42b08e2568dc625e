-- The log daemon of `system/mantle-logd.c`: the turns of its loop, and what its
-- two files hold after any number of them, with the daemon killed and started
-- again in between.
import MantleOS.Bytes
import MantleOS.Runs

open bytes runs

namespace mantle.logd

/-! ## The loop -/

/-- The files `mantleos.log` and `mantleos.log.1`. A file that is not there is empty. -/
structure Disk where
  file : Bytes
  rotated : Bytes
  deriving DecidableEq

def LIMIT : Nat := 1024 * 1024

/-- `rename(file,"/var/log/mantleos.log.1")`, which may fail. -/
def rotate (renames : Bool) (d : Disk) : Disk :=
  if renames then { file := [], rotated := d.file } else d

/-- A turn of the loop with what `read` has got: the files, and the bytes counted, or none when the
`fwrite` goes through the null pointer of a `fopen` that failed. -/
def turn (renames opens : Bool) (d : Disk) (bytes : Nat) (line : Bytes) : Disk × Option Nat :=
  if LIMIT < bytes + line.length then
    let d := rotate renames d
    if opens then ({ d with file := d.file ++ line }, some 0) else (d, none)
  else ({ d with file := d.file ++ line }, some (bytes + line.length))

/-! ## The runs -/

/-- The files, and what the daemon has counted when it is there. -/
structure State where
  disk : Disk
  counted : Option Nat

/-- What the daemon takes from the pipe, or that it ends or is started again. -/
inductive event
  | took (line : Bytes)
  | crashed (line : Bytes)
  | killed
  | started
  deriving DecidableEq

/-- `read` gives at most 1023 bytes, and a turn without any changes nothing. `fails` says whether a
`rename` may fail. -/
inductive Step (fails : Bool) : State → event → State → Prop
  | took {d d' : Disk} {bytes bytes' : Nat} {line : Bytes} {renames opens : Bool} :
      line.length ≤ 1023 → (renames = false → fails = true) →
      turn renames opens d bytes line = (d', some bytes') →
      Step fails { disk := d, counted := some bytes } (.took line)
        { disk := d', counted := some bytes' }
  | crashed {d d' : Disk} {bytes : Nat} {line : Bytes} {renames opens : Bool} :
      line.length ≤ 1023 → (renames = false → fails = true) →
      turn renames opens d bytes line = (d', none) →
      Step fails { disk := d, counted := some bytes } (.crashed line)
        { disk := d', counted := none }
  | killed {s : State} : Step fails s .killed { s with counted := none }
  | started {d : Disk} :
      Step fails { disk := d, counted := none } .started { disk := d, counted := some 0 }

/-- The text that the daemon has taken and not lost in a crash. -/
def event.text : event → Bytes
  | .took line => line
  | _ => []

def event.starts : event → Bool
  | .started => true
  | _ => false

variable {fails : Bool} {s t : State} {e : event} {es : List event}

/-! ## The end of the log -/

/-- Whatever a turn does to the files, it is one of these. -/
theorem turn_cases {renames opens : Bool} {d d' : Disk} {bytes : Nat} {line : Bytes}
    {counted : Option Nat} (h : turn renames opens d bytes line = (d', counted)) :
    (bytes + line.length ≤ LIMIT ∧ d' = { d with file := d.file ++ line } ∧
      counted = some (bytes + line.length)) ∨
    (LIMIT < bytes + line.length ∧ counted = some 0 ∧
      d' = { rotate renames d with file := (rotate renames d).file ++ line }) ∨
    (LIMIT < bytes + line.length ∧ counted = none ∧ d' = rotate renames d) := by
  unfold turn at h
  split at h
  · rename_i hover
    split at h
    · cases h
      exact .inr (.inl ⟨hover, rfl, rfl⟩)
    · cases h
      exact .inr (.inr ⟨hover, rfl, rfl⟩)
  · cases h
    exact .inl ⟨by omega, rfl, rfl⟩

/-- The files hold the end of a text: all of it, or at least a whole count but for one read. What the
running daemon has counted is in its file. -/
structure Holds (text : Bytes) (s : State) : Prop where
  tail : ∃ dropped, text = dropped ++ s.disk.rotated ++ s.disk.file ∧
    (dropped = [] ∨ LIMIT < s.disk.rotated.length + 1023)
  counted : ∀ bytes, s.counted = some bytes → bytes ≤ s.disk.file.length

theorem rotate_holds {text : Bytes} {d : Disk} {bytes : Nat} (renames : Bool) {line : Bytes}
    (h : Holds text { disk := d, counted := some bytes }) (hline : line.length ≤ 1023)
    (hover : LIMIT < bytes + line.length) :
    ∃ dropped, text = dropped ++ (rotate renames d).rotated ++ (rotate renames d).file ∧
      (dropped = [] ∨ LIMIT < (rotate renames d).rotated.length + 1023) := by
  unfold rotate
  split
  · obtain ⟨dropped, htext, _⟩ := h.tail
    have hfile := h.counted bytes rfl
    refine ⟨dropped ++ d.rotated, by simpa using htext, .inr ?_⟩
    dsimp only at hfile ⊢
    omega
  · exact h.tail

theorem Step.holds {text : Bytes} (h : Step fails s e t) (hs : Holds text s) :
    Holds (text ++ e.text) t := by
  cases h with
  | @took d d' bytes bytes' line renames opens hline _ hturn =>
    obtain ⟨_, rfl, hcounted⟩ | ⟨hover, hcounted, rfl⟩ | ⟨_, hcounted, _⟩ := turn_cases hturn
    · cases hcounted
      obtain ⟨dropped, htext, hlong⟩ := hs.tail
      refine ⟨⟨dropped, by simp [event.text, htext], hlong⟩, ?_⟩
      rintro n ⟨⟩
      have hfile : bytes ≤ d.file.length := hs.counted bytes rfl
      rw [List.length_append]
      omega
    · cases hcounted
      obtain ⟨dropped, htext, hlong⟩ := rotate_holds renames hs hline hover
      refine ⟨⟨dropped, ?_, hlong⟩, ?_⟩
      · simp only [event.text]
        rw [htext, List.append_assoc]
      · rintro n ⟨⟩
        exact Nat.zero_le _
    · cases hcounted
  | @crashed d d' bytes line renames opens hline _ hturn =>
    obtain ⟨_, _, hcounted⟩ | ⟨_, hcounted, _⟩ | ⟨hover, _, rfl⟩ := turn_cases hturn
    · cases hcounted
    · cases hcounted
    · obtain ⟨dropped, htext, hlong⟩ := rotate_holds renames hs hline hover
      refine ⟨⟨dropped, ?_, hlong⟩, ?_⟩
      · rw [← htext]
        exact List.append_nil text
      · rintro n ⟨⟩
  | killed =>
    refine ⟨by simpa [event.text] using hs.tail, ?_⟩
    rintro n ⟨⟩
  | started =>
    refine ⟨by simpa [event.text] using hs.tail, ?_⟩
    rintro n ⟨⟩
    exact Nat.zero_le _

theorem Run.holds {text : Bytes} (h : Run (Step fails) s es t) (hs : Holds text s) :
    Holds (text ++ es.flatMap event.text) t := by
  induction h with
  | nil => simpa using hs
  | snoc _ hstep ih =>
    rw [List.flatMap_append, List.flatMap_singleton, ← List.append_assoc]
    exact hstep.holds ih

/-- After a number of starts the file has at most a MiB for each, and what was there, or the read
that made the last rotation. -/
structure Fits (base starts : Nat) (s : State) : Prop where
  running : ∀ bytes, s.counted = some bytes →
    bytes ≤ LIMIT ∧ LIMIT ≤ LIMIT * starts ∧
      s.disk.file.length + LIMIT ≤ base + LIMIT * starts + bytes
  down : s.counted = none → s.disk.file.length ≤ base + LIMIT * starts

theorem Fits.file {base starts : Nat} (h : Fits base starts s) :
    s.disk.file.length ≤ base + LIMIT * starts := by
  cases hcounted : s.counted with
  | none => exact h.down hcounted
  | some bytes =>
    obtain ⟨hlimit, _, hfile⟩ := h.running bytes hcounted
    omega

theorem Step.fits {base starts : Nat} (h : Step false s e t) (hbase : 1023 ≤ base)
    (hs : Fits base starts s) : Fits base (starts + if e.starts then 1 else 0) t := by
  have hfile := hs.file
  cases h with
  | @took d d' bytes bytes' line renames opens hline hrenames hturn =>
    have hrenames : renames = true := by
      cases renames with
      | true => rfl
      | false => cases hrenames rfl
    obtain ⟨hlimit, hstarts, hroom⟩ := hs.running bytes rfl
    dsimp only at hroom hfile
    rw [if_neg (by simp [event.starts]), Nat.add_zero]
    obtain ⟨hle, rfl, hcounted⟩ | ⟨_, hcounted, rfl⟩ | ⟨_, hcounted, _⟩ := turn_cases hturn
    · cases hcounted
      refine ⟨?_, by simp⟩
      rintro n ⟨⟩
      dsimp only
      rw [List.length_append]
      exact ⟨hle, hstarts, by omega⟩
    · cases hcounted
      refine ⟨?_, by simp⟩
      rintro n ⟨⟩
      simp only [rotate, hrenames, if_true, List.nil_append]
      exact ⟨Nat.zero_le _, hstarts, by omega⟩
    · cases hcounted
  | @crashed d d' bytes line renames opens hline hrenames hturn =>
    have hrenames : renames = true := by
      cases renames with
      | true => rfl
      | false => cases hrenames rfl
    dsimp only at hfile
    rw [if_neg (by simp [event.starts]), Nat.add_zero]
    obtain ⟨_, _, hcounted⟩ | ⟨_, hcounted, _⟩ | ⟨_, _, rfl⟩ := turn_cases hturn
    · cases hcounted
    · cases hcounted
    · refine ⟨by simp, fun _ => ?_⟩
      simp only [rotate, hrenames, if_true, List.length_nil]
      omega
  | killed =>
    rw [if_neg (by simp [event.starts]), Nat.add_zero]
    exact ⟨by simp, fun _ => hfile⟩
  | started =>
    rename_i d
    have hone : LIMIT * (starts + 1) = LIMIT * starts + LIMIT := Nat.mul_succ LIMIT starts
    dsimp only at hfile
    simp only [event.starts, if_true]
    refine ⟨?_, by simp⟩
    rintro n ⟨⟩
    dsimp only
    exact ⟨Nat.zero_le _, by omega, by omega⟩

theorem Run.fits {base starts : Nat} (h : Run (Step false) s es t) (hbase : 1023 ≤ base)
    (hs : Fits base starts s) : Fits base (starts + es.countP event.starts) t := by
  induction h with
  | nil => exact hs
  | snoc _ hstep ih =>
    rw [List.countP_append, List.countP_singleton, ← Nat.add_assoc]
    exact hstep.fits hbase ih

/-- A daemon that has counted few enough bytes takes so many more with no rotation. -/
theorem takes_without_rotation (n : Nat) (d : Disk) (bytes : Nat) (h : bytes + n ≤ LIMIT) :
    ∃ es d', Run (Step false) ⟨d, some bytes⟩ es ⟨d', some (bytes + n)⟩ ∧
      es.countP event.starts = 0 ∧ d'.file.length = d.file.length + n := by
  induction n using Nat.strong_induction_on with
  | _ n ih =>
    by_cases hn : n = 0
    · subst hn
      exact ⟨[], d, .nil, rfl, rfl⟩
    · obtain ⟨es, d', hrun, hstarts, hlength⟩ := ih (n - min n 1023) (by omega) (by omega)
      have hturn : turn true true d' (bytes + (n - min n 1023)) (List.replicate (min n 1023) 10) =
          ({ d' with file := d'.file ++ List.replicate (min n 1023) 10 }, some (bytes + n)) := by
        unfold turn
        rw [List.length_replicate, if_neg (by omega)]
        simp only [Prod.mk.injEq, Option.some.injEq, true_and]
        omega
      refine ⟨_, _, hrun.snoc (.took (by rw [List.length_replicate]; omega) (by simp) hturn), ?_, ?_⟩
      · rw [List.countP_append, hstarts]
        rfl
      · dsimp only
        rw [List.length_append, List.length_replicate, hlength]
        omega

/-- Each start of the daemon counts from 0, whatever the file already has. So the file gets no more
than a MiB longer with each start, beside the one read that is not counted, and it can get that
much longer with every one. -/
theorem the_log_gets_a_MiB_longer_with_each_start (d : Disk) :
    (∀ es t, Run (Step false) ⟨d, none⟩ es t →
      t.disk.file.length ≤ max d.file.length 1023 + LIMIT * es.countP event.starts) ∧
    ∀ k, ∃ es t, Run (Step false) ⟨d, none⟩ es t ∧ es.countP event.starts = k ∧
      t.disk.file.length = d.file.length + LIMIT * k := by
  constructor
  · intro es t h
    have hstart : Fits (max d.file.length 1023) 0 ⟨d, none⟩ := by
      refine ⟨by simp, fun _ => ?_⟩
      dsimp only
      omega
    have hfits := Run.fits h (by omega) hstart
    rw [Nat.zero_add] at hfits
    exact hfits.file
  · intro k
    have hdown : ∃ es d', Run (Step false) ⟨d, none⟩ es ⟨d', none⟩ ∧
        es.countP event.starts = k ∧ d'.file.length = d.file.length + LIMIT * k := by
      induction k with
      | zero => exact ⟨[], d, .nil, rfl, rfl⟩
      | succ k ih =>
        obtain ⟨es, d', hrun, hstarts, hlength⟩ := ih
        obtain ⟨more, d'', htakes, hnone, hlonger⟩ :=
          takes_without_rotation LIMIT d' 0 (by rw [Nat.zero_add])
        have hrun := ((hrun.snoc .started).append htakes).snoc .killed
        refine ⟨_, d'', hrun, ?_, ?_⟩
        · rw [List.countP_append, List.countP_append, List.countP_append, hstarts, hnone]
          rfl
        · rw [hlonger, hlength, Nat.mul_succ]
          omega
    obtain ⟨es, d', hrun, hstarts, hlength⟩ := hdown
    exact ⟨es, _, hrun, hstarts, hlength⟩

end mantle.logd
