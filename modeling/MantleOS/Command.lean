-- `scripting/mantle-command.c`: a command file is read in pieces of its buffer,
-- and each piece is taken for a line. The commands are those of the lines, each
-- with its line, exactly when no line is cut where that shows.
import MantleOS.ScriptPass

open bytes ctext

namespace mantle.command

/-! ## The interpreter -/

/-- A command that was executed, with the number of its line. The number is not in the program. -/
structure Executed where
  line : Nat
  argv : List Bytes
  deriving DecidableEq

/-- How a command comes back, after the commands that were executed before it. -/
abbrev Host := List (List Bytes) → List Bytes → script.ending

/-- The status that `run` makes of it. -/
def status : script.ending → Nat
  | .exited s => s
  | .signalled => 128
  | .not_started => 127

/-- The separators of `strtok` in `run`. -/
def separates (b : UInt8) : Bool := b = 32 || b = 9 || b = 13 || b = 10

def isblank (b : UInt8) : Bool := b = 32 || b = 9

/-- `char buf[4096]` and `char *a[64]`. -/
def buf_size : Nat := 4096
def max_args : Nat := 63

/-- `run(line)`: the commands executed so far and its result. -/
def run (h : Host) (number : Nat) (done : List Executed) (line : Bytes) : List Executed × Nat :=
  match (tokensOf separates (line.take (buf_size - 1))).take max_args with
  | [] => (done, 0)
  | argv => (done ++ [⟨number, argv⟩], status (h (done.map Executed.argv) argv))

/-- The loop of `main` over the pieces that `fgets` gives, with the last result. -/
def main_loop (h : Host) (number : Nat) (done : List Executed) (r : Nat) : List Bytes → List Executed × Nat
  | [] => (done, r)
  | piece :: rest =>
    let number' := if piece.getLast? = some 10 then number + 1 else number
    let p := (cstring piece).dropWhile isblank
    if p.head? = none ∨ p.head? = some 35 ∨ p.head? = some 10 then main_loop h number' done r rest
    else
      let (done, r) := run h number done p
      if r ≠ 0 then (done, r) else main_loop h number' done r rest

/-- What `mantle-command` executes of a file, and its status. -/
def command_file (h : Host) (text : Bytes) : List Executed × Nat :=
  main_loop h 0 [] 0 (fgetsAll buf_size text)

/-! ## The commands of the lines -/

/-- A line whose first byte after blanks is a `#`. -/
def isComment (line : Bytes) : Bool := (line.dropWhile isblank).head? = some 35

/-- A line that is neither blank nor a comment is one command, the words of the line. -/
def command_of (line : Bytes) : List (List Bytes) :=
  if isComment line then [] else if tokensOf separates line = [] then [] else [tokensOf separates line]

/-- What belongs to each line, with its number. -/
def numbered (f : Bytes → List (List Bytes)) (number : Nat) : List Bytes → List Executed
  | [] => []
  | line :: rest => (f line).map (Executed.mk number) ++ numbered f (number + 1) rest

/-- The commands are executed in order, up to the first whose status is not zero. -/
def execute_all (h : Host) (done : List Executed) : List Executed → List Executed × Nat
  | [] => (done, 0)
  | c :: rest =>
    let r := status (h (done.map Executed.argv) c.argv)
    if r ≠ 0 then (done ++ [c], r) else execute_all h (done ++ [c]) rest

/-- Whatever the commands do, the file is executed line by line. -/
def Faithful (text : Bytes) : Prop :=
  ∀ h, command_file h text = execute_all h [] (numbered command_of 0 (text.splitOn 10))

/-! ## Pieces of a line -/

/-- The commands that a piece of a line is taken for. -/
def command_in (piece : Bytes) : List (List Bytes) :=
  if isComment piece then []
  else if tokensOf separates piece = [] then [] else [(tokensOf separates piece).take max_args]

/-- The commands that a line is taken for, piece by piece. -/
def commands_in (line : Bytes) : List (List Bytes) := (fgetsAll buf_size line).flatMap command_in

/-- A piece of a line, with or without the end of the line. -/
structure PieceOf (body piece : Bytes) : Prop where
  no_newline : 10 ∉ body
  no_nul : 0 ∉ body
  ending : piece = body ∨ piece = body ++ [10]
  length : piece.length < buf_size

/-- The loop goes on unless a command has failed. -/
def andThen (r : List Executed × Nat) (k : List Executed → List Executed × Nat) : List Executed × Nat :=
  if r.2 ≠ 0 then r else k r.1

variable {h : Host}

theorem execute_all_append (done a b : List Executed) :
    execute_all h done (a ++ b) = andThen (execute_all h done a) (fun done => execute_all h done b) := by
  induction a generalizing done with
  | nil => rfl
  | cons c a ih =>
    rw [List.cons_append, execute_all, execute_all]
    by_cases hr : status (h (done.map Executed.argv) c.argv) ≠ 0
    · rw [if_pos hr, if_pos hr, andThen, if_pos hr]
    · rw [if_neg hr, if_neg hr, ih]

theorem andThen_assoc (r : List Executed × Nat) (k l : List Executed → List Executed × Nat) :
    andThen (andThen r k) l = andThen r (fun done => andThen (k done) l) := by
  unfold andThen
  by_cases hr : r.2 ≠ 0
  · rw [if_pos hr, if_pos hr, if_pos hr]
  · rw [if_neg hr, if_neg hr]

theorem separates_of_blank {b : UInt8} (hb : isblank b = true) : separates b = true := by
  simp only [isblank, Bool.or_eq_true, decide_eq_true_eq] at hb
  rcases hb with rfl | rfl <;> rfl

/-- The blanks before a line are in no word. -/
theorem tokensOf_dropWhile (line : Bytes) :
    tokensOf separates (line.dropWhile isblank) = tokensOf separates line := by
  have hblank : ∀ b ∈ line.takeWhile isblank, separates b = true :=
    fun b hb => separates_of_blank (List.mem_takeWhile_imp hb)
  rw [← tokensOf_append_left hblank, List.takeWhile_append_dropWhile]

theorem run_words {number : Nat} {done : List Executed} {line : Bytes} {w : Bytes} {ws : List Bytes}
    (hwords : tokensOf separates (line.take (buf_size - 1)) = w :: ws) :
    run h number done line =
      (done ++ [⟨number, (w :: ws).take max_args⟩], status (h (done.map Executed.argv) ((w :: ws).take max_args))) := by
  rw [run, hwords]
  rfl

theorem run_blank {number : Nat} {done : List Executed} {line : Bytes}
    (hwords : tokensOf separates (line.take (buf_size - 1)) = []) : run h number done line = (done, 0) := by
  rw [run, hwords]
  rfl

theorem execute_one (number : Nat) (done : List Executed) (argv : List Bytes) :
    execute_all h done ([argv].map (Executed.mk number)) =
      (done ++ [⟨number, argv⟩], status (h (done.map Executed.argv) argv)) := by
  rw [List.map_cons, List.map_nil, execute_all]
  dsimp only
  by_cases hr : status (h (done.map Executed.argv) argv) ≠ 0
  · rw [if_pos hr]
  · rw [if_neg hr, execute_all, not_not.mp hr]

/-- A piece is a string, and its words are those of its part of the line. -/
theorem PieceOf.words {body piece : Bytes} (hpiece : PieceOf body piece) :
    cstring piece = piece ∧ ∃ ending, (ending = [] ∨ ending = [10]) ∧
      piece.dropWhile isblank = body.dropWhile isblank ++ ending ∧
      tokensOf separates ((body.dropWhile isblank ++ ending).take (buf_size - 1)) = tokensOf separates body := by
  obtain ⟨ending, hending, hsplit⟩ : ∃ ending : Bytes, (ending = [] ∨ ending = [10]) ∧ piece = body ++ ending := by
    rcases hpiece.ending with hp | hp
    · exact ⟨[], .inl rfl, by rw [hp, List.append_nil]⟩
    · exact ⟨[10], .inr rfl, hp⟩
  have hsep : ∀ b ∈ ending, separates b = true := by
    rcases hending with rfl | rfl
    · simp
    · simp [separates]
  have hdrop : piece.dropWhile isblank = body.dropWhile isblank ++ ending := by
    have hend : ending.dropWhile isblank = ending := by
      rcases hending with rfl | rfl <;> rfl
    rw [hsplit, List.dropWhile_append, hend]
    cases body.dropWhile isblank <;> rfl
  have hshort : (body.dropWhile isblank ++ ending).length < buf_size := by
    rw [← hdrop]
    exact Nat.lt_of_le_of_lt (List.dropWhile_suffix _).length_le hpiece.length
  refine ⟨?_, ending, hending, hdrop, ?_⟩
  · apply cstring_of_notMem
    rw [hsplit, List.mem_append, not_or]
    refine ⟨hpiece.no_nul, ?_⟩
    rcases hending with rfl | rfl <;> decide
  · rw [List.take_of_length_le (by omega), tokensOf_append_right hsep, tokensOf_dropWhile]

/-- One turn of the loop. -/
theorem main_loop_piece {number : Nat} {done : List Executed} {body piece : Bytes} (rest : List Bytes)
    (hpiece : PieceOf body piece) :
    main_loop h number done 0 (piece :: rest) =
      andThen (execute_all h done ((command_in body).map (Executed.mk number))) (fun done =>
        main_loop h (if piece.getLast? = some 10 then number + 1 else number) done 0 rest) := by
  obtain ⟨hstring, ending, hending, hdrop, hwords⟩ := hpiece.words
  rw [main_loop, command_in, isComment]
  dsimp only
  rw [hstring, hdrop]
  cases hbody : body.dropWhile isblank with
  | nil =>
    have hnone : tokensOf separates body = [] := by
      rw [← tokensOf_dropWhile, hbody]
      rfl
    have hskip : ([] ++ ending).head? = none ∨ ([] ++ ending).head? = some 35 ∨ ([] ++ ending).head? = some 10 := by
      rcases hending with rfl | rfl
      · exact .inl rfl
      · exact .inr (.inr rfl)
    rw [if_pos hskip, hnone]
    rfl
  | cons c more =>
    have hc : c ≠ 10 := by
      rintro rfl
      exact hpiece.no_newline ((List.dropWhile_suffix isblank).mem (hbody ▸ List.mem_cons_self))
    by_cases hcomment : c = 35
    · subst hcomment
      rfl
    · rw [hbody] at hwords
      have hno : ¬ decide ((c :: more).head? = some 35) = true := by simpa using hcomment
      rw [if_neg (by simp [hc, hcomment]), if_neg hno]
      cases hargs : tokensOf separates body with
      | nil =>
        rw [run_blank (hwords.trans hargs), if_pos rfl]
        rfl
      | cons w ws =>
        rw [run_words (hwords.trans hargs), if_neg (List.cons_ne_nil _ _), execute_one, andThen]
        dsimp only
        by_cases hr : status (h (done.map Executed.argv) ((w :: ws).take max_args)) ≠ 0
        · rw [if_pos hr, if_pos hr]
        · rw [if_neg hr, if_neg hr, not_not.mp hr]

/-- The pieces of a line with its end: those of the line without it, and the end with the last. -/
theorem fgets_pieces {n : Nat} {start body : Bytes} (hstart : 10 ∉ start) (hbody : 10 ∉ body) :
    ∃ front last, fgets_loop n start (body ++ [10]) = front ++ [last ++ [10]] ∧
      fgets_loop n start body = front ++ (if last = [] then [] else [last]) ∧
      (∀ piece ∈ front, 10 ∉ piece) ∧ 10 ∉ last := by
  induction body generalizing start with
  | nil =>
    refine ⟨[], start, ?_, ?_, by simp, hstart⟩
    · simp [fgets_loop]
    · simp [fgets_loop]
  | cons b body ih =>
    rw [List.mem_cons, not_or] at hbody
    have hnext : 10 ∉ start ++ [b] := by
      rw [List.mem_append, List.mem_singleton, not_or]
      exact ⟨hstart, hbody.1⟩
    rw [List.cons_append, fgets_loop, fgets_loop]
    split
    · obtain ⟨front, last, hfull, hcut, hfront, hlast⟩ := @ih [] (by simp) hbody.2
      refine ⟨(start ++ [b]) :: front, last, by rw [hfull]; rfl, by rw [hcut]; rfl, ?_, hlast⟩
      intro piece hpiece
      rcases List.mem_cons.mp hpiece with rfl | hpiece
      · exact hnext
      · exact hfront piece hpiece
    · exact ih hnext hbody.2

theorem main_loop_front {number : Nat} {done : List Executed} {front : List Bytes} (rest : List Bytes)
    (hfront : ∀ piece ∈ front, PieceOf piece piece) :
    main_loop h number done 0 (front ++ rest) =
      andThen (execute_all h done ((front.flatMap command_in).map (Executed.mk number))) (fun done =>
        main_loop h number done 0 rest) := by
  induction front generalizing done with
  | nil => rfl
  | cons piece front ih =>
    have hpiece := hfront piece List.mem_cons_self
    have hnumber : piece.getLast? ≠ some 10 := fun hlast =>
      hpiece.no_newline (List.mem_of_getLast? hlast)
    rw [List.cons_append, main_loop_piece _ hpiece, if_neg hnumber, List.flatMap_cons, List.map_append,
      execute_all_append, andThen_assoc]
    congr 1
    funext done
    exact ih fun piece hp => hfront piece (List.mem_cons_of_mem _ hp)

/-- The pieces of one line, and then the rest of the file. -/
theorem main_loop_line {number : Nat} {done : List Executed} {line : Bytes} (rest : List Bytes)
    (h10 : 10 ∉ line) (h0 : 0 ∉ line) :
    main_loop h number done 0 (fgetsAll buf_size (line ++ [10]) ++ rest) =
      andThen (execute_all h done ((commands_in line).map (Executed.mk number))) (fun done =>
        main_loop h (number + 1) done 0 rest) := by
  obtain ⟨front, last, hfull, hcut, hfront, hlast⟩ := @fgets_pieces (buf_size - 1) [] line (by simp) h10
  have hsize : 1 < buf_size := by decide
  have hlength : ∀ piece ∈ fgetsAll buf_size (line ++ [10]), piece.length < buf_size :=
    fun piece hp => fgetsAll_length_lt hsize hp
  have hbytes : ∀ piece ∈ fgetsAll buf_size (line ++ [10]), 0 ∉ piece := by
    intro piece hp hzero
    have := (infix_of_fgetsAll hp).subset hzero
    rw [List.mem_append, List.mem_singleton] at this
    rcases this with hin | hin
    · exact h0 hin
    · cases hin
  rw [fgetsAll, hfull] at hlength hbytes
  have hfronts : ∀ piece ∈ front, PieceOf piece piece := fun piece hp =>
    ⟨hfront piece hp, hbytes piece (List.mem_append_left _ hp), .inl rfl, hlength piece (List.mem_append_left _ hp)⟩
  have hend : last ++ [10] ∈ front ++ [last ++ [10]] := List.mem_append_right _ List.mem_cons_self
  have hlastPiece : PieceOf last (last ++ [10]) :=
    ⟨hlast, fun h => hbytes _ hend (List.mem_append_left _ h), .inr rfl, hlength _ hend⟩
  have hcommands : (front ++ if last = [] then [] else [last]).flatMap command_in =
      front.flatMap command_in ++ command_in last := by
    rw [List.flatMap_append]
    split
    · rename_i hnil
      rw [hnil]
      rfl
    · simp
  rw [fgetsAll, hfull, List.append_assoc, main_loop_front _ hfronts, commands_in, fgetsAll, hcut, hcommands,
    List.map_append, execute_all_append, andThen_assoc]
  congr 1
  funext done
  rw [List.singleton_append, main_loop_piece rest hlastPiece, if_pos (by simp)]

/-- The last line, which has no end. -/
theorem main_loop_last {number : Nat} {done : List Executed} {line : Bytes} (h10 : 10 ∉ line) (h0 : 0 ∉ line) :
    main_loop h number done 0 (fgetsAll buf_size line) =
      execute_all h done ((commands_in line).map (Executed.mk number)) := by
  have hsize : 1 < buf_size := by decide
  have hpieces : ∀ piece ∈ fgetsAll buf_size line, PieceOf piece piece := fun piece hp =>
    ⟨fun h => h10 ((infix_of_fgetsAll hp).subset h), fun h => h0 ((infix_of_fgetsAll hp).subset h), .inl rfl,
      fgetsAll_length_lt hsize hp⟩
  have hloop := @main_loop_front h number done _ [] hpieces
  rw [List.append_nil] at hloop
  rw [hloop, commands_in, andThen]
  split
  · rfl
  · rename_i hr
    rw [main_loop, ← not_not.mp hr]

/-- What is executed of a file is what its lines are taken for. By induction on the lines. -/
theorem main_loop_lines {number : Nat} {done : List Executed} {lines : List Bytes} (hlines : lines ≠ [])
    (hbytes : ∀ line ∈ lines, 10 ∉ line ∧ 0 ∉ line) :
    main_loop h number done 0 (fgetsAll buf_size ([10].intercalate lines)) =
      execute_all h done (numbered commands_in number lines) := by
  induction lines generalizing number done with
  | nil => exact absurd rfl hlines
  | cons first rest ih =>
    obtain ⟨h10, h0⟩ := hbytes first List.mem_cons_self
    rcases rest with _ | ⟨second, rest⟩
    · rw [List.intercalate_singleton, main_loop_last h10 h0, numbered, numbered, List.append_nil]
    · rw [List.intercalate_cons_cons, fgetsAll_append, main_loop_line _ h10 h0, numbered, execute_all_append]
      congr 1
      funext done
      exact ih (List.cons_ne_nil _ _) fun line hline => hbytes line (List.mem_cons_of_mem _ hline)

theorem command_file_eq {text : Bytes} (h0 : 0 ∉ text) :
    command_file h text = execute_all h [] (numbered commands_in 0 (text.splitOn 10)) := by
  have hbytes : ∀ line ∈ text.splitOn 10, 10 ∉ line ∧ 0 ∉ line := fun line hline =>
    ⟨notMem_of_mem_splitOn hline, fun hzero => h0 ((infix_of_mem_splitOn hline).subset hzero)⟩
  have hloop := @main_loop_lines h 0 [] _ (List.splitOn_ne_nil 10 text) hbytes
  rw [List.intercalate_splitOn] at hloop
  exact hloop

/-! ## The lines that are not cut where it shows -/

theorem line_of_numbered {f : Bytes → List (List Bytes)} {number : Nat} {lines : List Bytes} :
    ∀ c ∈ numbered f number lines, number ≤ c.line := by
  induction lines generalizing number with
  | nil => simp [numbered]
  | cons line rest ih =>
    intro c hc
    rw [numbered] at hc
    rcases List.mem_append.mp hc with hc | hc
    · obtain ⟨argv, -, rfl⟩ := List.mem_map.mp hc
      exact Nat.le_refl number
    · exact Nat.le_of_succ_le (ih c hc)

/-- The commands of the first line have its number, and no other has it. -/
theorem filter_numbered (f : Bytes → List (List Bytes)) (number : Nat) (line : Bytes) (rest : List Bytes) :
    (numbered f number (line :: rest)).filter (fun c => c.line = number) = (f line).map (Executed.mk number) := by
  have hrest : (numbered f (number + 1) rest).filter (fun c => c.line = number) = [] := by
    rw [List.filter_eq_nil_iff]
    intro c hc
    have := line_of_numbered c hc
    simp only [decide_eq_true_eq]
    omega
  rw [numbered, List.filter_append, hrest, List.append_nil, List.filter_eq_self]
  intro c hc
  obtain ⟨argv, -, rfl⟩ := List.mem_map.mp hc
  simp

/-- The commands of two readings of the lines agree exactly when they agree line by line. -/
theorem numbered_inj {f g : Bytes → List (List Bytes)} {number : Nat} {lines : List Bytes} :
    numbered f number lines = numbered g number lines ↔ ∀ line ∈ lines, f line = g line := by
  constructor
  · intro heq
    induction lines generalizing number with
    | nil => simp
    | cons line rest ih =>
      have hmk : Function.Injective (Executed.mk number) := fun a b hab => (Executed.mk.inj hab).2
      have hfirst : (f line).map (Executed.mk number) = (g line).map (Executed.mk number) := by
        rw [← filter_numbered f number line rest, ← filter_numbered g number line rest, heq]
      rw [numbered, numbered, hfirst, List.append_cancel_left_eq] at heq
      rw [List.forall_mem_cons]
      exact ⟨List.map_injective_iff.mpr hmk hfirst, ih heq⟩
  · intro hall
    induction lines generalizing number with
    | nil => rfl
    | cons line rest ih =>
      rw [numbered, numbered, hall line List.mem_cons_self]
      rw [ih fun l hl => hall l (List.mem_cons_of_mem _ hl)]

/-- When every command succeeds, all are executed. -/
theorem execute_all_succeeding (done cs : List Executed) :
    execute_all (fun _ _ => .exited 0) done cs = (done ++ cs, 0) := by
  induction cs generalizing done with
  | nil => rw [execute_all, List.append_nil]
  | cons c rest ih =>
    rw [execute_all]
    simp [status, ih]

theorem faithful_iff_lines {text : Bytes} (h0 : 0 ∉ text) :
    Faithful text ↔ ∀ line ∈ text.splitOn 10, commands_in line = command_of line := by
  constructor
  · intro hfaithful
    have hall := hfaithful fun _ _ => .exited 0
    rw [command_file_eq h0, execute_all_succeeding, execute_all_succeeding] at hall
    exact numbered_inj.mp (Prod.ext_iff.mp hall).1
  · intro hlines h
    rw [command_file_eq h0, numbered_inj.mpr hlines]

/-- A piece without a word. -/
def isBlankPiece (piece : Bytes) : Bool := piece.all separates

/-- The line is executed as it should be: it is blank; or it is a comment, and each piece of it is
blank or begins with a `#` too; or all its words are in one piece that does not begin with a `#`,
and they are 63 at most. -/
def LineFits (line : Bytes) : Prop :=
  isBlankPiece line = true ∨
    (isComment line = true ∧ ∀ piece ∈ fgetsAll buf_size line, isBlankPiece piece = true ∨ isComment piece = true) ∨
    (isComment line = false ∧ ∃ before piece after, fgetsAll buf_size line = before ++ piece :: after ∧
      (∀ other ∈ before ++ after, isBlankPiece other = true) ∧ isComment piece = false ∧
      (tokensOf separates piece).length ≤ max_args)

theorem tokens_of_blank {piece : Bytes} : tokensOf separates piece = [] ↔ isBlankPiece piece = true := by
  rw [tokensOf_eq_nil_iff, isBlankPiece, List.all_eq_true]

/-- The pieces together are the line. -/
theorem flatten_fgets {n : Nat} (start body : Bytes) : (fgets_loop n start body).flatten = start ++ body := by
  induction body generalizing start with
  | nil =>
    rw [fgets_loop]
    split <;> simp_all
  | cons b body ih =>
    rw [fgets_loop]
    split
    · rw [List.flatten_cons, ih]
      simp
    · rw [ih]
      simp

theorem command_in_nil_iff {piece : Bytes} :
    command_in piece = [] ↔ isBlankPiece piece = true ∨ isComment piece = true := by
  rw [command_in, ← tokens_of_blank]
  split
  · simp_all
  · split <;> simp_all

/-- One command comes out of a list of pieces exactly when one piece gives it and the others none. -/
theorem flatMap_eq_singleton {pieces : List Bytes} {argv : List Bytes} :
    pieces.flatMap command_in = [argv] ↔
      ∃ before piece after, pieces = before ++ piece :: after ∧ command_in piece = [argv] ∧
        ∀ other ∈ before ++ after, command_in other = [] := by
  constructor
  · intro hone
    induction pieces with
    | nil => cases hone
    | cons piece rest ih =>
      rw [List.flatMap_cons] at hone
      cases hpiece : command_in piece with
      | nil =>
        rw [hpiece, List.nil_append] at hone
        obtain ⟨before, piece', after, hsplit, hcommand, hothers⟩ := ih hone
        refine ⟨piece :: before, piece', after, by rw [hsplit]; rfl, hcommand, ?_⟩
        rw [List.cons_append, List.forall_mem_cons]
        exact ⟨hpiece, hothers⟩
      | cons a more =>
        rw [hpiece, List.cons_append, List.cons.injEq, List.append_eq_nil_iff] at hone
        obtain ⟨rfl, rfl, hrest⟩ := hone
        exact ⟨[], piece, rest, rfl, hpiece, List.flatMap_eq_nil_iff.mp hrest⟩
  · rintro ⟨before, piece, after, rfl, hcommand, hothers⟩
    have hbefore : before.flatMap command_in = [] :=
      List.flatMap_eq_nil_iff.mpr fun o ho => hothers o (List.mem_append_left _ ho)
    have hafter : after.flatMap command_in = [] :=
      List.flatMap_eq_nil_iff.mpr fun o ho => hothers o (List.mem_append_right _ ho)
    rw [List.flatMap_append, List.flatMap_cons, hbefore, hafter, hcommand]
    rfl

/-- Pieces without a word around a piece leave its words. -/
theorem tokens_of_pieces {before after : List Bytes} {piece : Bytes}
    (hothers : ∀ other ∈ before ++ after, isBlankPiece other = true) :
    tokensOf separates (before ++ piece :: after).flatten = tokensOf separates piece := by
  have hsep : ∀ l : List Bytes, (∀ o ∈ l, isBlankPiece o = true) → ∀ b ∈ l.flatten, separates b = true := by
    intro l hl b hb
    obtain ⟨o, ho, hbo⟩ := List.mem_flatten.mp hb
    exact List.all_eq_true.mp (hl o ho) b hbo
  rw [List.flatten_append, List.flatten_cons,
    tokensOf_append_left (hsep before fun o ho => hothers o (List.mem_append_left _ ho)),
    tokensOf_append_right (hsep after fun o ho => hothers o (List.mem_append_right _ ho))]

/-- When the first words of a piece are all words of the line, they are all words of the piece too,
and no other piece has one. -/
theorem blank_of_tokens {before after : List Bytes} {piece : Bytes}
    (hwords : (tokensOf separates piece).take max_args = tokensOf separates (before ++ piece :: after).flatten) :
    (∀ other ∈ before ++ after, isBlankPiece other = true) ∧ (tokensOf separates piece).length ≤ max_args := by
  have hcount := congrArg (fun ws => ws.flatten.length) hwords
  have hpiece := congrArg List.length (flatten_tokensOf separates piece)
  have hsplit : (tokensOf separates piece).flatten.length =
      ((tokensOf separates piece).take max_args).flatten.length +
        ((tokensOf separates piece).drop max_args).flatten.length := by
    rw [← List.length_append, ← List.flatten_append, List.take_append_drop]
  rw [flatten_tokensOf, List.flatten_append, List.flatten_cons, List.filter_append, List.filter_append,
    List.length_append, List.length_append] at hcount
  constructor
  · have hnone : ∀ l : List Bytes, (l.flatten.filter (fun b => !separates b)).length = 0 →
        ∀ o ∈ l, isBlankPiece o = true := by
      intro l hl o ho
      rw [List.length_eq_zero_iff, List.filter_eq_nil_iff] at hl
      rw [isBlankPiece, List.all_eq_true]
      intro b hb
      simpa using hl b (List.mem_flatten.mpr ⟨o, ho, hb⟩)
    intro other hother
    rcases List.mem_append.mp hother with ho | ho
    · exact hnone before (by omega) other ho
    · exact hnone after (by omega) other ho
  · have hdrop : ((tokensOf separates piece).drop max_args).flatten = [] := by
      rw [← List.length_eq_zero_iff]
      omega
    rw [List.flatten_eq_nil_iff] at hdrop
    have hempty : (tokensOf separates piece).drop max_args = [] := by
      rw [List.eq_nil_iff_forall_not_mem]
      intro w hw
      exact ne_nil_of_mem_tokensOf (List.mem_of_mem_drop hw) (hdrop w hw)
    exact List.drop_eq_nil_iff.mp hempty

/-- A line is taken for its command exactly when it fits. -/
theorem line_fits_iff (line : Bytes) : commands_in line = command_of line ↔ LineFits line := by
  have hflat : (fgetsAll buf_size line).flatten = line := by
    rw [fgetsAll, flatten_fgets, List.nil_append]
  rw [commands_in, command_of, LineFits]
  generalize fgetsAll buf_size line = pieces at hflat
  by_cases hblank : isBlankPiece line = true
  · have hall : pieces.flatMap command_in = [] := by
      rw [List.flatMap_eq_nil_iff]
      intro piece hpiece
      refine command_in_nil_iff.mpr (.inl ?_)
      rw [isBlankPiece, List.all_eq_true] at hblank ⊢
      intro b hb
      exact hblank b (hflat ▸ List.mem_flatten.mpr ⟨piece, hpiece, hb⟩)
    rw [hall, if_pos (tokens_of_blank.mpr hblank), ite_self]
    exact iff_of_true rfl (.inl hblank)
  by_cases hcomment : isComment line = true
  · rw [if_pos hcomment, List.flatMap_eq_nil_iff]
    simp only [command_in_nil_iff]
    simp [hblank, hcomment]
  · have hwords : tokensOf separates line ≠ [] := fun hnil => hblank (tokens_of_blank.mp hnil)
    rw [if_neg hcomment, if_neg hwords, flatMap_eq_singleton]
    rw [Bool.not_eq_true] at hcomment
    simp only [hblank, hcomment, Bool.false_eq_true, false_and, false_or, true_and]
    constructor
    · rintro ⟨before, piece, after, hsplit, hcommand, -⟩
      have hno : isComment piece = false := by
        by_contra hyes
        rw [Bool.not_eq_false] at hyes
        rw [command_in, if_pos hyes] at hcommand
        cases hcommand
      have hsome : tokensOf separates piece ≠ [] := by
        intro hnil
        rw [command_in, if_neg (by simp [hno]), if_pos hnil] at hcommand
        cases hcommand
      rw [command_in, if_neg (by simp [hno]), if_neg hsome, List.cons.injEq] at hcommand
      rw [hsplit] at hflat
      obtain ⟨hothers, hlength⟩ := @blank_of_tokens before after piece (by rw [hflat]; exact hcommand.1)
      exact ⟨before, piece, after, hsplit, hothers, hno, hlength⟩
    · rintro ⟨before, piece, after, hsplit, hothers, hno, hlength⟩
      rw [hsplit] at hflat
      have hsame := @tokens_of_pieces before after piece hothers
      rw [hflat] at hsame
      refine ⟨before, piece, after, hsplit, ?_, fun o ho => command_in_nil_iff.mpr (.inl (hothers o ho))⟩
      rw [command_in, if_neg (by simp [hno]), if_neg (hsame ▸ hwords), List.take_of_length_le hlength, hsame]

/-! ## The law -/

/-- For every file: whatever its commands do, those that are executed are the ones of its lines, one
for each line that is neither blank nor a comment, up to the first that fails, exactly when every
line fits. -/
theorem every_line_is_one_command_iff (text : Bytes) (h0 : 0 ∉ text) :
    Faithful text ↔ ∀ line ∈ text.splitOn 10, LineFits line := by
  rw [faithful_iff_lines h0]
  exact forall₂_congr fun line _ => line_fits_iff line

/-- As many bytes as a piece has room for are the next piece. -/
theorem fgets_full {n : Nat} (start : Bytes) {body : Bytes} (rest : Bytes) (hbody : 10 ∉ body) (hne : body ≠ [])
    (hlength : start.length + body.length = n) :
    fgets_loop n start (body ++ rest) = (start ++ body) :: fgets_loop n [] rest := by
  induction body generalizing start with
  | nil => exact absurd rfl hne
  | cons b body ih =>
    rw [List.mem_cons, not_or] at hbody
    rw [List.length_cons] at hlength
    have hstart : (start ++ [b]).length = start.length + 1 := by simp
    rw [List.cons_append, fgets_loop]
    by_cases hlast : body = []
    · rw [if_pos (.inr (by rw [hstart, ← hlength, hlast, List.length_nil])), hlast]
      rfl
    · have hmore : 0 < body.length := List.length_pos_iff.mpr hlast
      have hgo : ¬ (b = 10 ∨ (start ++ [b]).length = n) := by
        rintro (hb | hfull)
        · exact hbody.1 hb.symm
        · omega
      rw [if_neg hgo, ih (start ++ [b]) hbody.2 hlast (by omega)]
      simp

/-- The rest of a line is one piece when there is room for it. -/
theorem fgets_rest {n : Nat} (start : Bytes) {body : Bytes} (hbody : 10 ∉ body)
    (hlength : start.length + body.length < n) :
    fgets_loop n start body = if start ++ body = [] then [] else [start ++ body] := by
  induction body generalizing start with
  | nil =>
    rw [fgets_loop, List.append_nil]
  | cons b body ih =>
    rw [List.mem_cons, not_or] at hbody
    rw [List.length_cons] at hlength
    have hstart : (start ++ [b]).length = start.length + 1 := by simp
    have hgo : ¬ (b = 10 ∨ (start ++ [b]).length = n) := by
      rintro (hb | hfull)
      · exact hbody.1 hb.symm
      · omega
    rw [fgets_loop, if_neg hgo, ih (start ++ [b]) hbody.2 (by omega)]
    simp

/-- A line with room for it in the buffer fits when it has 63 words at most. -/
theorem line_fits_short {line : Bytes} (h10 : 10 ∉ line) (hlength : line.length < buf_size - 1)
    (hwords : (tokensOf separates line).length ≤ max_args) : LineFits line := by
  have hpieces : fgetsAll buf_size line = if line = [] then [] else [line] := by
    rw [fgetsAll, fgets_rest [] h10 (by simpa using hlength), List.nil_append]
  unfold LineFits
  rw [hpieces]
  by_cases hnil : line = []
  · rw [hnil]
    exact .inl rfl
  rw [if_neg hnil]
  cases hcomment : isComment line with
  | true => exact .inr (.inl ⟨rfl, by simp [hcomment]⟩)
  | false => exact .inr (.inr ⟨rfl, [], line, [], rfl, by simp, hcomment, hwords⟩)

theorem a_short_file_is_executed_line_by_line : Faithful (ascii "# first\nmantle update\n\n  mantle clean\n") := by
  refine (every_line_is_one_command_iff (ascii "# first\nmantle update\n\n  mantle clean\n") (by decide)).mpr ?_
  intro line hline
  apply line_fits_short (notMem_of_mem_splitOn hline)
  · revert line
    decide
  · revert line
    decide +kernel

/-- What stands behind the first 4095 bytes of a comment is executed. -/
theorem the_end_of_a_long_comment_is_executed :
    ¬ Faithful (35 :: (List.replicate 4094 97 ++ ascii "reboot")) := by
  have hstart : ∀ b : UInt8, b ≠ 35 → b ≠ 97 → b ∉ 35 :: List.replicate 4094 (97 : UInt8) := by
    intro b h35 h97 hb
    rcases List.mem_cons.mp hb with hb | hb
    · exact h35 hb
    · exact h97 (List.eq_of_mem_replicate hb)
  have htext : ∀ b : UInt8, b ≠ 35 → b ≠ 97 → b ∉ ascii "reboot" →
      b ∉ 35 :: (List.replicate 4094 97 ++ ascii "reboot") := by
    intro b h35 h97 hreboot hb
    rw [← List.cons_append] at hb
    exact (List.mem_append.mp hb).elim (hstart b h35 h97) hreboot
  have h0 := htext 0 (by decide) (by decide) (by decide)
  have h10 := htext 10 (by decide) (by decide) (by decide)
  have hone : (35 :: (List.replicate 4094 97 ++ ascii "reboot") : Bytes).splitOn 10 =
      [35 :: (List.replicate 4094 97 ++ ascii "reboot")] := by
    rw [List.splitOn_eq_splitOnP]
    apply List.splitOnP_eq_singleton
    intro b hb
    rw [beq_eq_false_iff_ne]
    rintro rfl
    exact h10 hb
  rw [faithful_iff_lines h0, hone]
  intro hall
  have hline := hall _ List.mem_cons_self
  have hpieces : fgetsAll buf_size (35 :: (List.replicate 4094 97 ++ ascii "reboot")) =
      [35 :: List.replicate 4094 97, ascii "reboot"] := by
    have hfirst := @fgets_full 4095 [] (35 :: List.replicate 4094 97) (ascii "reboot")
      (hstart 10 (by decide) (by decide)) (List.cons_ne_nil _ _)
      (by rw [List.length_nil, List.length_cons, List.length_replicate])
    rw [fgetsAll, ← List.cons_append, show buf_size - 1 = 4095 from rfl, hfirst,
      fgets_rest [] (by decide) (by decide)]
    rfl
  rw [commands_in, hpieces] at hline
  have hcomment : command_in (35 :: List.replicate 4094 97) = [] := rfl
  have hcommand : command_of (35 :: (List.replicate 4094 97 ++ ascii "reboot")) = [] := rfl
  rw [List.flatMap_cons, hcomment, hcommand] at hline
  revert hline
  decide +kernel

end mantle.command
