-- The blocks of a script by its braces, and by the frames of the interpreter.
-- The recovery after an unknown word steps over a `{` without a frame for it.
-- Where it does not, the frames and the braces nest alike, and no statement
-- under a failed guard does anything.
import MantleOS.Nesting
import MantleOS.ScriptTrace

open bytes ctext

namespace mantle.script

/-! ## The braces of a source text -/

/-- The lexer at a token, by its number. -/
def lexerAt (src : Bytes) : Nat → lexer
  | 0 => lex (.start src)
  | i + 1 => lex (lexerAt src i)

def kindAt (src : Bytes) (i : Nat) : kind := (lexerAt src i).token.kind

def bracketOf : kind → nesting.Bracket
  | .K_LBRACE => .opening
  | .K_RBRACE => .closing
  | _ => .other

/-- Token `k` lies after the `{` at `p` and before its `}`, by the count of the braces. -/
def Encloses (src : Bytes) (p k : Nat) : Prop := nesting.Encloses (fun i => bracketOf (kindAt src i)) p k

/-- The `{` before a token whose `}` has not come yet, the last one first. -/
def openAt (src : Bytes) (i : Nat) : List Nat := nesting.openAt (fun i => bracketOf (kindAt src i)) i

section Braces

variable {src : Bytes} {i : Nat}

theorem openAt_plain (h : plain (kindAt src i) = true) : openAt src (i + 1) = openAt src i := by
  apply nesting.openAt_other
  cases hk : kindAt src i <;> simp_all [plain, ends_block, bracketOf]

theorem openAt_open (h : kindAt src i = .K_LBRACE) : openAt src (i + 1) = i :: openAt src i :=
  nesting.openAt_opening (by rw [h, bracketOf])

theorem openAt_close (h : kindAt src i = .K_RBRACE) : openAt src (i + 1) = (openAt src i).tail :=
  nesting.openAt_closing (by rw [h, bracketOf])

theorem mem_openAt {p : Nat} : p ∈ openAt src i ↔ Encloses src p i := nesting.mem_openAt_iff

end Braces

/-! ## What a step changes of the blocks -/

/-- The keyword of a `let` that stores, a `print` that prints or a `run` that launches. -/
def Event.works : Event → Option Nat
  | .stored keyword _ => some keyword
  | .printed keyword _ => some keyword
  | .ran keyword _ execute _ => if execute then some keyword else none
  | _ => none

/-- The flags of the open blocks, the innermost first. -/
def Machine.flags (m : Machine) : List Bool := (m.top :: m.below).map Frame.execute

/-- The recovery is about to step over a `{`. -/
def Machine.stepsOverBrace (m : Machine) : Prop := m.place = .skip ∧ m.s.l.token.kind = .K_LBRACE

instance (m : Machine) : Decidable m.stepsOverBrace := inferInstanceAs (Decidable (_ ∧ _))

/-- The machine is inside of a statement that it understands. -/
def Machine.inStatement (m : Machine) : Prop := m.place ≠ .start ∧ m.place ≠ .skip

/-- The event opens no block, and it is work only in a statement whose block is executed. -/
structure Quiet (m : Machine) (e : Event) : Prop where
  opened : ∀ p condition, e ≠ .opened p condition
  works : ∀ k, e.works = some k → k = m.keyword ∧ m.top.execute = true ∧ m.inStatement

/-- The blocks stay, and the new events are quiet. -/
structure Adds (m m' : Machine) : Prop where
  flags : m'.flags = m.flags
  trace : ∃ events, m'.trace = m.trace ++ events ∧ ∀ e ∈ events, Quiet m e

inductive Reads (m : Machine) : Machine → Prop
  | stays {m' : Machine} : Adds m m' → m'.index = m.index → m'.s.l = m.s.l → m'.place = .start →
      Reads m m'
  | takes {m' : Machine} : Adds m m' → m'.index = m.index + 1 → m'.s.l = lex m.s.l →
      plain m.s.l.token.kind = true →
      (m'.inStatement → m'.keyword = m.index ∨ (m'.keyword = m.keyword ∧ m.inStatement)) → Reads m m'
  | opens (condition : Bool) : m.s.l.token.kind = .K_LBRACE →
      Reads m (((m.log (.opened m.index condition)).push condition).next.goto .start)
  | skips {m' : Machine} : m.stepsOverBrace → Adds m m' → m'.index = m.index + 1 →
      m'.s.l = lex m.s.l → m'.place = .skip → Reads m m'

theorem Adds.same {m m' : Machine} (hflags : m'.flags = m.flags) (htrace : m'.trace = m.trace) :
    Adds m m' := ⟨hflags, [], by simp [htrace], by simp⟩

theorem Adds.one {m m' : Machine} {e : Event} (hflags : m'.flags = m.flags)
    (htrace : m'.trace = m.trace ++ [e]) (he : Quiet m e) : Adds m m' := by
  refine ⟨hflags, [e], htrace, fun e' he' => ?_⟩
  rw [List.mem_singleton.mp he']
  exact he

/-- An event that is neither work nor a block. -/
theorem Quiet.idle {m : Machine} {e : Event} (hopened : ∀ p condition, e ≠ .opened p condition)
    (hworks : e.works = none) : Quiet m e :=
  ⟨hopened, fun k hk => by rw [hworks] at hk; cases hk⟩

theorem Adds.fail (m : Machine) (text : Bytes) : Adds m (m.fail text) :=
  .one rfl rfl (.idle (by simp) rfl)

theorem reads_store (h : host) {m : Machine} (name : Bytes) (hin : m.inStatement) :
    Adds m (store h m name) ∧ (store h m name).index = m.index ∧ (store h m name).s.l = m.s.l := by
  unfold store
  dsimp only
  split
  · rename_i hexec
    rw [Bool.and_eq_true] at hexec
    refine ⟨.one rfl rfl ⟨by simp, fun k hk => ?_⟩, rfl, rfl⟩
    exact ⟨(Option.some.inj hk).symm, hexec.1, hin⟩
  · exact ⟨.same rfl rfl, rfl, rfl⟩

theorem reads_print (h : host) {m : Machine} (hin : m.inStatement) :
    Adds m (print h m) ∧ (print h m).index = m.index ∧ (print h m).s.l = m.s.l := by
  unfold print
  dsimp only
  split
  · rename_i hexec
    refine ⟨.one rfl rfl ⟨by simp, fun k hk => ?_⟩, rfl, rfl⟩
    exact ⟨(Option.some.inj hk).symm, hexec, hin⟩
  · exact ⟨.same rfl rfl, rfl, rfl⟩

theorem reads_launch (h : host) {m : Machine} (args : List Bytes) (hin : m.inStatement) :
    Adds m (launch h m args) ∧ (launch h m args).index = m.index ∧ (launch h m args).s.l = m.s.l := by
  unfold launch
  dsimp only
  refine ⟨.one rfl rfl ⟨by simp, fun k hk => ?_⟩, rfl, ?_⟩
  · cases hexec : m.top.execute with
    | true =>
      rw [hexec] at hk
      exact ⟨(Option.some.inj hk).symm, rfl, hin⟩
    | false =>
      rw [hexec] at hk
      cases hk
  · cases hexec : m.top.execute with
    | true => exact run_argv_l h args m.s
    | false => rfl

theorem Moves.reads {h : host} {m m' : Machine} (hm : Moves h m m') (hp : m.place ≠ .start) :
    Reads m m' := by
  cases hm with
  | takes place hskip hstart hskip' hplain =>
    exact .takes (.same rfl rfl) rfl rfl hplain fun _ => .inr ⟨rfl, hp, hskip⟩
  | stores name hplace hplain =>
    obtain ⟨hadds, hindex, hl⟩ := reads_store h name ⟨hp, by simp [hplace]⟩
    exact .takes ⟨hadds.flags, hadds.trace⟩ (congrArg (· + 1) hindex) (congrArg lex hl) hplain
      fun hin => absurd rfl hin.1
  | prints hplace hplain =>
    obtain ⟨hadds, hindex, hl⟩ := reads_print h ⟨hp, by simp [hplace]⟩
    exact .takes ⟨hadds.flags, hadds.trace⟩ (congrArg (· + 1) hindex) (congrArg lex hl) hplain
      fun hin => absurd rfl hin.1
  | launches args hplace =>
    obtain ⟨hadds, hindex, hl⟩ := reads_launch h args ⟨hp, by simp [hplace]⟩
    exact .stays hadds hindex hl rfl
  | asks answer place hskip hstart hskip' hplain =>
    exact .takes (.one rfl rfl (.idle (by simp) rfl)) rfl rfl hplain fun _ => .inr ⟨rfl, hp, hskip⟩
  | opens condition hplace hbrace => exact .opens condition hbrace
  | fails text => exact .stays (.fail m text) rfl rfl rfl
  | exits => exact .stays (.one rfl rfl (.idle (by simp) rfl)) rfl rfl rfl
  | skips hplace hend =>
    have hadds : Adds m (m.log (.skipped m.index m.s.l.token.kind m.top.execute)).next :=
      .one rfl rfl (.idle (by simp) rfl)
    by_cases hbrace : m.s.l.token.kind = .K_LBRACE
    · exact .skips ⟨hplace, hbrace⟩ hadds rfl rfl hplace
    · exact .takes hadds rfl rfl (by simp [plain, hend, hbrace]) fun hin => absurd hplace hin.2
  | recovers => exact .stays (.same rfl rfl) rfl rfl rfl

theorem reach_reads {m : Machine} (hword : m.s.l.token.kind = .K_WORD) : Reads m m.reach := by
  have hplain : plain m.s.l.token.kind = true := by simp [hword, plain, ends_block]
  unfold Machine.reach
  dsimp only
  split
  · refine .takes ⟨rfl, _, List.append_assoc _ _ _, ?_⟩ rfl rfl hplain fun _ => .inl rfl
    intro e he
    simp only [List.singleton_append, List.mem_cons, List.not_mem_nil, or_false] at he
    rcases he with rfl | rfl
    · exact .idle (by simp) rfl
    · exact .idle (by simp) rfl
  · exact .takes (.one rfl rfl (.idle (by simp) rfl)) rfl rfl hplain fun _ => .inl rfl

/-- The file is at its end, and what is left is to close the blocks. -/
def Machine.ended (m : Machine) : Prop := m.place = .start ∧ m.s.l.token.kind = .K_EOF

/-- What a step does to the blocks: it reads on, or a block ends, by the end of the file or by its
brace. -/
theorem step_reads (h : host) (m : Machine) :
    (∃ m', step h m = .running m' ∧ Reads m m') ∨
      (m.ended ∧ step h m = return_block m) ∨
      (m.place = .start ∧ m.s.l.token.kind = .K_RBRACE ∧ step h m = return_block m.next) := by
  unfold step
  by_cases hp : m.place = .start
  · rw [if_pos hp]
    unfold start_step
    cases hkind : m.s.l.token.kind with
    | K_EOF => exact .inr (.inl ⟨⟨hp, hkind⟩, rfl⟩)
    | K_RBRACE => exact .inr (.inr ⟨hp, rfl, rfl⟩)
    | K_NEWLINE =>
      refine .inl ⟨m.next, rfl, .takes (.same rfl rfl) rfl rfl ?_ fun hin => absurd hp hin.1⟩
      simp [hkind, plain, ends_block]
    | K_WORD => exact .inl ⟨_, rfl, reach_reads hkind⟩
    | _ => exact .inl ⟨_, rfl, .stays (.fail m _) rfl rfl rfl⟩
  · rw [if_neg hp]
    exact .inl ⟨_, rfl, (place_step_moves h hp).reads hp⟩

/-! ## The machine reads the tokens in order -/

/-- The machine is at the token that it counts. The events lie behind it, between the keyword of a
statement and its last token there is no brace, and a block inside of one that is not executed
is not executed either. -/
structure Placed (src : Bytes) (m : Machine) : Prop where
  l : m.s.l = lexerAt src m.index
  opened : ∀ p condition, .opened p condition ∈ m.trace → p < m.index
  works : ∀ e ∈ m.trace, ∀ k, e.works = some k → k ≤ m.index
  keyword : m.inStatement → m.keyword ≤ m.index ∧ openAt src m.keyword = openAt src m.index
  flags : m.flags.Pairwise fun inner outer => inner = true → outer = true

theorem Placed.kind {src : Bytes} {m : Machine} (hp : Placed src m) :
    m.s.l.token.kind = kindAt src m.index := by rw [hp.l, kindAt]

/-- New events that are quiet lie behind the machine too. -/
theorem Placed.adds {src : Bytes} {m m' : Machine} (hp : Placed src m) (ha : Adds m m')
    (hindex : m.index ≤ m'.index) :
    (∀ p condition, .opened p condition ∈ m'.trace → p < m'.index) ∧
      (∀ e ∈ m'.trace, ∀ k, e.works = some k → k ≤ m'.index) := by
  obtain ⟨events, htrace, hquiet⟩ := ha.trace
  rw [htrace]
  constructor
  · intro p condition hmem
    rcases List.mem_append.mp hmem with hold | hnew
    · exact Nat.lt_of_lt_of_le (hp.opened p condition hold) hindex
    · exact absurd rfl ((hquiet _ hnew).opened p condition)
  · intro e hmem k hk
    rcases List.mem_append.mp hmem with hold | hnew
    · exact Nat.le_trans (hp.works e hold k hk) hindex
    · obtain ⟨rfl, _, hin⟩ := (hquiet e hnew).works k hk
      exact Nat.le_trans (hp.keyword hin).1 hindex

theorem Placed.reads {src : Bytes} {m m' : Machine} (hr : Reads m m') (hp : Placed src m) :
    Placed src m' := by
  cases hr with
  | stays ha hindex hl hplace =>
    obtain ⟨hopened, hworks⟩ := hp.adds ha (Nat.le_of_eq hindex.symm)
    exact ⟨by rw [hl, hindex, hp.l], hopened, hworks, fun hin => absurd hplace hin.1,
      ha.flags ▸ hp.flags⟩
  | takes ha hindex hl hplain hkeyword =>
    obtain ⟨hopened, hworks⟩ := hp.adds ha (by omega)
    refine ⟨by rw [hl, hindex, hp.l, lexerAt], hopened, hworks, fun hin => ?_, ha.flags ▸ hp.flags⟩
    rw [hp.kind] at hplain
    rw [hindex, openAt_plain hplain]
    rcases hkeyword hin with hnew | ⟨hsame, hbefore⟩
    · rw [hnew]
      exact ⟨Nat.le_succ _, rfl⟩
    · rw [hsame]
      exact ⟨Nat.le_succ_of_le (hp.keyword hbefore).1, (hp.keyword hbefore).2⟩
  | opens condition hbrace =>
    refine ⟨congrArg lex hp.l, fun p c hmem => ?_, fun e hmem k hk => ?_, fun hin => absurd rfl hin.1, ?_⟩
    · rcases List.mem_append.mp hmem with hold | hnew
      · exact Nat.lt_succ_of_lt (hp.opened p c hold)
      · cases List.mem_singleton.mp hnew
        exact Nat.lt_succ_self _
    · rcases List.mem_append.mp hmem with hold | hnew
      · exact Nat.le_succ_of_le (hp.works e hold k hk)
      · rw [List.mem_singleton.mp hnew] at hk
        cases hk
    · have hflags := hp.flags
      refine List.pairwise_cons.mpr ⟨fun outer hmem hinner => ?_, hflags⟩
      have htop : m.top.execute = true := (Bool.and_eq_true_iff.mp hinner).1
      rcases List.mem_cons.mp hmem with rfl | hbelow
      · exact htop
      · exact (List.pairwise_cons.mp hflags).1 outer hbelow htop
  | skips _ ha hindex hl hplace =>
    obtain ⟨hopened, hworks⟩ := hp.adds ha (by omega)
    exact ⟨by rw [hl, hindex, hp.l, lexerAt], hopened, hworks, fun hin => absurd hplace hin.2,
      ha.flags ▸ hp.flags⟩

/-- The machine after the block on top of it. -/
def Machine.popped (m : Machine) (f : Frame) (below : List Frame) : Machine :=
  { m with top := f.record m.top.result, below }

theorem flags_popped {m : Machine} {f : Frame} {below : List Frame} (hbelow : m.below = f :: below) :
    m.flags = m.top.execute :: (m.popped f below).flags := by
  simp [Machine.flags, Machine.popped, hbelow, Frame.record]

theorem Placed.popped {src : Bytes} {m : Machine} {f : Frame} {below : List Frame} (hp : Placed src m)
    (hplace : m.place = .start) (hbelow : m.below = f :: below) : Placed src (m.popped f below) := by
  refine ⟨hp.l, hp.opened, hp.works, fun hin => absurd hplace hin.1, ?_⟩
  have hflags := hp.flags
  rw [flags_popped hbelow] at hflags
  exact (List.pairwise_cons.mp hflags).2

theorem Placed.next {src : Bytes} {m : Machine} (hp : Placed src m) (hplace : m.place = .start) :
    Placed src m.next :=
  ⟨congrArg lex hp.l, fun p c hmem => Nat.lt_succ_of_lt (hp.opened p c hmem),
    fun e hmem k hk => Nat.le_succ_of_le (hp.works e hmem k hk), fun hin => absurd hplace hin.1, hp.flags⟩

theorem Placed.return_block {src : Bytes} {m m' : Machine} (hp : Placed src m) (hplace : m.place = .start)
    (h : return_block m = .running m') : Placed src m' := by
  unfold script.return_block at h
  cases hbelow : m.below with
  | nil =>
    rw [hbelow] at h
    cases h
  | cons f below =>
    rw [hbelow] at h
    cases h
    exact hp.popped hplace hbelow

theorem Placed.step {src : Bytes} {m m' : Machine} (h : host) (hp : Placed src m)
    (hstep : step h m = .running m') : Placed src m' := by
  rcases step_reads h m with ⟨m1, hm1, hreads⟩ | ⟨hended, hreturn⟩ | ⟨hplace, -, hreturn⟩
  · rw [hm1] at hstep
    cases hstep
    exact hp.reads hreads
  · rw [hreturn] at hstep
    exact hp.return_block hended.1 hstep
  · rw [hreturn] at hstep
    exact (hp.next hplace).return_block hplace hstep

/-- In every run the machine is at the token that it counts. -/
theorem placed_after (h : host) (src : Bytes) (n : Nat) {m : Machine}
    (hm : after h n (.running (.start src)) = .running m) : Placed src m := by
  have hstart : Placed src (.start src) :=
    ⟨rfl, by simp [Machine.start], by simp [Machine.start], fun hin => absurd rfl hin.1, by
      simp [Machine.flags, Machine.start]⟩
  have hkept : ∀ m, after h n (.running (.start src)) = .running m → Placed src m := by
    refine after_keeps (P := fun c => ∀ m, c = .running m → Placed src m) ?_ ?_
    · rintro m ⟨⟩
      exact hstart
    · intro k m _ _ hm m' hstep
      exact (hm m rfl).step h hstep
  exact hkept m hm

/-! ## What holds of the open braces in every run -/

/-- What holds of a brace goes on to hold while no block is opened there. -/
def Lasting (G : List Event → Nat → Prop) : Prop :=
  ∀ trace events p, (∀ condition, .opened p condition ∉ events) → G trace p → G (trace ++ events) p

/-- Every statement that did its work stands in open braces of which `G` holds. -/
def Clean (G : List Event → Nat → Prop) (src : Bytes) (trace : List Event) : Prop :=
  ∀ e ∈ trace, ∀ k, e.works = some k → ∀ p ∈ openAt src k, G trace p

def Config.keeps (I : Machine → Prop) (C : List Event → Prop) : Config → Prop
  | .running m => I m
  | .done _ _ trace => C trace

section Nesting

variable {src : Bytes} {G : List Event → Nat → Prop} (hG : Lasting G)

include hG in
/-- The braces of the new blocks come after those of the work that is done. -/
theorem Clean.append {trace events : List Event} {i : Nat} (hclean : Clean G src trace)
    (hworks : ∀ e ∈ trace, ∀ k, e.works = some k → k ≤ i)
    (hfresh : ∀ p condition, .opened p condition ∈ events → i ≤ p)
    (hnew : ∀ e ∈ events, ∀ k, e.works = some k → k ≤ i ∧ ∀ p ∈ openAt src k, G trace p) :
    Clean G src (trace ++ events) := by
  intro e hmem k hk p hp
  have hboth : k ≤ i ∧ G trace p := by
    rcases List.mem_append.mp hmem with hold | hadded
    · exact ⟨hworks e hold k hk, hclean e hold k hk p hp⟩
    · exact ⟨(hnew e hadded k hk).1, (hnew e hadded k hk).2 p hp⟩
  refine hG trace events p (fun condition hopened => ?_) hboth.2
  have hlt := nesting.lt_of_mem_openAt hp
  have hle := hfresh p condition hopened
  omega

/-- `S` says how the blocks of the machine and the open braces go together. -/
structure Kept (G : List Event → Nat → Prop) (S : Machine → Prop) (src : Bytes) (m : Machine) :
    Prop where
  placed : Placed src m
  blocks : m.ended ∨ S m
  clean : Clean G src m.trace

variable {S : Machine → Prop} {ok : Machine → Prop}
  (htop : ∀ m, Placed src m → S m → m.top.execute = true → ∀ p ∈ openAt src m.index, G m.trace p)
  (hreads : ∀ m m', Placed src m → ok m → S m → Reads m m' → S m')
  (hpop : ∀ m f below, Placed src m → S m → m.s.l.token.kind = .K_RBRACE → m.below = f :: below →
    S (m.next.popped f below))

include hG htop in
theorem Clean.reads {m m' : Machine} (hp : Placed src m) (hS : S m) (hclean : Clean G src m.trace)
    (hr : Reads m m') : Clean G src m'.trace := by
  have hadds : ∀ m', Adds m m' → Clean G src m'.trace := by
    intro m' ha
    obtain ⟨events, htrace, hquiet⟩ := ha.trace
    rw [htrace]
    refine hclean.append hG hp.works (fun p c hmem => ?_) fun e hmem k hk => ?_
    · exact absurd rfl ((hquiet _ hmem).opened p c)
    · obtain ⟨rfl, hexec, hin⟩ := (hquiet e hmem).works k hk
      refine ⟨(hp.keyword hin).1, ?_⟩
      rw [(hp.keyword hin).2]
      exact htop m hp hS hexec
  cases hr with
  | stays ha => exact hadds _ ha
  | takes ha => exact hadds _ ha
  | skips _ ha => exact hadds _ ha
  | opens condition =>
    refine hclean.append hG hp.works (fun p c hmem => ?_) fun e hmem k hk => ?_
    · cases List.mem_singleton.mp hmem
      exact Nat.le_refl _
    · rw [List.mem_singleton.mp hmem] at hk
      cases hk

include hG htop hreads hpop in
theorem Kept.step {h : host} {m : Machine} (hok : ok m) (hk : Kept G S src m) :
    (script.step h m).keeps (Kept G S src) (Clean G src) := by
  by_cases hended : m.ended
  · -- the blocks close one by one, and no event is added
    have hstep : script.step h m = return_block m := by
      rw [script.step, if_pos hended.1, start_step, hended.2]
    rw [hstep]
    unfold return_block
    cases hbelow : m.below with
    | nil => exact hk.clean
    | cons f below => exact ⟨hk.placed.popped hended.1 hbelow, .inl hended, hk.clean⟩
  have hS := hk.blocks.resolve_left hended
  rcases step_reads h m with ⟨m', hstep, hr⟩ | ⟨hend, _⟩ | ⟨hplace, hbrace, hstep⟩
  · rw [hstep]
    exact ⟨hk.placed.reads hr, .inr (hreads m m' hk.placed hok hS hr),
      Clean.reads hG htop hk.placed hS hk.clean hr⟩
  · exact absurd hend hended
  · rw [hstep]
    unfold return_block
    cases hbelow : m.below with
    | nil =>
      rw [Machine.next_below, hbelow]
      exact hk.clean
    | cons f below =>
      rw [Machine.next_below, hbelow]
      exact ⟨(hk.placed.next hplace).popped hplace hbelow,
        .inr (hpop m f below hk.placed hS hbrace hbelow), hk.clean⟩

include hG htop hreads hpop in
/-- In a whole run whose steps all meet `ok`. -/
theorem Kept.after {h : host} {m : Machine} (hk : Kept G S src m) {n : Nat}
    (hok : ∀ k m', k < n → script.after h k (.running m) = .running m' → ok m') :
    Clean G src (script.after h n (.running m)).trace := by
  have hkept : (script.after h n (.running m)).keeps (Kept G S src) (Clean G src) := by
    apply after_keeps (P := Config.keeps (Kept G S src) (Clean G src))
    · exact hk
    · intro k m' hlt hafter hk'
      exact Kept.step hG htop hreads hpop (hok k m' hlt hafter) hk'
  cases hc : script.after h n (.running m) with
  | running m' =>
    rw [hc] at hkept
    exact hkept.clean
  | done result s trace =>
    rw [hc] at hkept
    exact hkept

end Nesting

/-! ## The guards that failed -/

/-- No failed guard opened a block at the brace. -/
def NotFailed (trace : List Event) (p : Nat) : Prop := .opened p false ∉ trace

theorem notFailed_lasting : Lasting NotFailed := by
  intro trace events p hnew hold hmem
  rcases List.mem_append.mp hmem with h | h
  · exact hold h
  · exact hnew false h

/-- As many braces are open after the last one that may belong to a failed guard as there are blocks
that are not executed. -/
def Unguarded (src : Bytes) (m : Machine) : Prop :=
  ∀ p ∈ (openAt src m.index).drop (m.flags.countP (! ·)), NotFailed m.trace p

theorem Placed.flags_true {src : Bytes} {m : Machine} (hp : Placed src m) (htop : m.top.execute = true) :
    ∀ flag ∈ m.flags, flag = true := by
  intro flag hmem
  rcases List.mem_cons.mp hmem with rfl | hbelow
  · exact htop
  · exact (List.pairwise_cons.mp hp.flags).1 flag hbelow htop

theorem Placed.countP_flags {src : Bytes} {m : Machine} (hp : Placed src m)
    (htop : m.top.execute = true) : m.flags.countP (! ·) = 0 := by
  rw [List.countP_eq_zero]
  intro flag hmem
  simp [hp.flags_true htop flag hmem]

/-- No block was opened yet at the current token. -/
theorem Placed.fresh {src : Bytes} {m : Machine} (hp : Placed src m) (condition : Bool) :
    .opened m.index condition ∉ m.trace :=
  fun hmem => Nat.lt_irrefl _ (hp.opened _ _ hmem)

theorem unguarded_top {src : Bytes} {m : Machine} (hp : Placed src m) (hu : Unguarded src m)
    (htop : m.top.execute = true) : ∀ p ∈ openAt src m.index, NotFailed m.trace p := by
  rw [Unguarded, hp.countP_flags htop] at hu
  exact hu

theorem notFailed_adds {m m' : Machine} (ha : Adds m m') {p : Nat}
    (hp : NotFailed m.trace p) : NotFailed m'.trace p := by
  obtain ⟨events, htrace, hquiet⟩ := ha.trace
  rw [htrace]
  exact notFailed_lasting _ _ _ (fun c hmem => (hquiet _ hmem).opened p c rfl) hp

theorem unguarded_reads {src : Bytes} {m m' : Machine} (hp : Placed src m)
    (hok : m.stepsOverBrace → m.top.execute = true) (hu : Unguarded src m) (hr : Reads m m') :
    Unguarded src m' := by
  cases hr with
  | stays ha hindex =>
    intro p hmem
    rw [hindex, ha.flags] at hmem
    exact notFailed_adds ha (hu p hmem)
  | takes ha hindex _ hplain =>
    intro p hmem
    rw [hp.kind] at hplain
    rw [hindex, ha.flags, openAt_plain hplain] at hmem
    exact notFailed_adds ha (hu p hmem)
  | opens condition hbrace =>
    have hopen : openAt src (m.index + 1) = m.index :: openAt src m.index :=
      openAt_open (hp.kind.symm.trans hbrace)
    -- the braces of before are older than the new block
    have hold : ∀ p ∈ openAt src m.index, NotFailed m.trace p →
        NotFailed (m.trace ++ [.opened m.index condition]) p := by
      intro p hmem
      refine notFailed_lasting _ _ _ fun c hnew => ?_
      cases List.mem_singleton.mp hnew
      exact Nat.lt_irrefl _ (nesting.lt_of_mem_openAt hmem)
    intro p hmem
    change p ∈ (openAt src (m.index + 1)).drop
      (((m.top.execute && condition) :: m.flags).countP (! ·)) at hmem
    rw [hopen] at hmem
    cases hflag : m.top.execute && condition with
    | false =>
      rw [hflag, List.countP_cons_of_pos rfl, List.drop_succ_cons] at hmem
      exact hold p (List.mem_of_mem_drop hmem) (hu p hmem)
    | true =>
      obtain ⟨htop, rfl⟩ := Bool.and_eq_true_iff.mp hflag
      rw [hflag, List.countP_cons_of_neg (by simp), hp.countP_flags htop, List.drop_zero] at hmem
      rcases List.mem_cons.mp hmem with rfl | hmem
      · intro hfailed
        rcases List.mem_append.mp hfailed with hbefore | hnew
        · exact hp.fresh false hbefore
        · cases List.mem_singleton.mp hnew
      · exact hold p hmem (unguarded_top hp hu htop p hmem)
  | skips hover ha hindex =>
    intro p hmem
    have htop := hok hover
    have hbrace : kindAt src m.index = .K_LBRACE := hp.kind.symm.trans hover.2
    rw [hindex, ha.flags, hp.countP_flags htop, List.drop_zero, openAt_open hbrace] at hmem
    apply notFailed_adds ha
    rcases List.mem_cons.mp hmem with rfl | hold
    · exact hp.fresh false
    · exact unguarded_top hp hu htop p hold

theorem unguarded_pop {src : Bytes} {m : Machine} {f : Frame} {below : List Frame} (hp : Placed src m)
    (hu : Unguarded src m) (hbrace : m.s.l.token.kind = .K_RBRACE) (hbelow : m.below = f :: below) :
    Unguarded src (m.next.popped f below) := by
  intro p hmem
  have hclose : openAt src (m.index + 1) = (openAt src m.index).tail :=
    openAt_close (hp.kind.symm.trans hbrace)
  have hflags : m.flags = m.top.execute :: (m.next.popped f below).flags := flags_popped hbelow
  change p ∈ (openAt src (m.index + 1)).drop ((m.next.popped f below).flags.countP (! ·)) at hmem
  rw [hclose, List.drop_tail] at hmem
  cases htop : m.top.execute with
  | false =>
    apply hu p
    rw [hflags, htop, List.countP_cons_of_pos rfl]
    exact hmem
  | true => exact unguarded_top hp hu htop p (List.mem_of_mem_drop hmem)

/-! ## The guards that held -/

/-- A guard that held opened a block at the brace. -/
def Held (trace : List Event) (p : Nat) : Prop := .opened p true ∈ trace

theorem held_lasting : Lasting Held :=
  fun _ _ _ _ hold => List.mem_append_left _ hold

/-- Each open brace has its block, and those that are executed were opened by a guard that held. -/
def Paired (src : Bytes) (m : Machine) : Prop :=
  List.Forall₂ (fun flag p => flag = true → Held m.trace p) m.flags.dropLast (openAt src m.index)

theorem paired_top {src : Bytes} {m : Machine} (hp : Placed src m) (hpair : Paired src m)
    (htop : m.top.execute = true) : ∀ p ∈ openAt src m.index, Held m.trace p := by
  intro p hmem
  obtain ⟨i, hi, rfl⟩ := List.mem_iff_getElem.mp hmem
  have hlength := hpair.length_eq
  have hflag : m.flags.dropLast[i] = true :=
    hp.flags_true htop _ (List.dropLast_subset _ (List.getElem_mem _))
  exact (List.forall₂_iff_get.mp hpair).2 i (by omega) hi hflag

theorem held_adds {m m' : Machine} (ha : Adds m m') {p : Nat} (hp : Held m.trace p) :
    Held m'.trace p := by
  obtain ⟨events, htrace, _⟩ := ha.trace
  rw [Held, htrace]
  exact List.mem_append_left _ hp

theorem paired_reads {src : Bytes} {m m' : Machine} (hp : Placed src m) (hok : ¬ m.stepsOverBrace)
    (hpair : Paired src m) (hr : Reads m m') : Paired src m' := by
  cases hr with
  | stays ha hindex =>
    rw [Paired, ha.flags, hindex]
    exact hpair.imp fun _ _ hheld hflag => held_adds ha (hheld hflag)
  | takes ha hindex _ hplain =>
    rw [hp.kind] at hplain
    rw [Paired, ha.flags, hindex, openAt_plain hplain]
    exact hpair.imp fun _ _ hheld hflag => held_adds ha (hheld hflag)
  | opens condition hbrace =>
    have hopen : openAt src (m.index + 1) = m.index :: openAt src m.index :=
      openAt_open (hp.kind.symm.trans hbrace)
    change List.Forall₂ _ ((m.top.execute && condition) :: m.flags).dropLast (openAt src (m.index + 1))
    rw [hopen, Machine.flags, List.map_cons, List.dropLast_cons_cons]
    refine .cons (fun hflag => ?_) (hpair.imp fun _ _ hheld hflag => ?_)
    · rw [(Bool.and_eq_true_iff.mp hflag).2]
      exact List.mem_append_right _ (List.mem_singleton_self _)
    · exact List.mem_append_left _ (hheld hflag)
  | skips hover => exact absurd hover hok

theorem paired_pop {src : Bytes} {m : Machine} {f : Frame} {below : List Frame} (hp : Placed src m)
    (hpair : Paired src m) (hbrace : m.s.l.token.kind = .K_RBRACE) (hbelow : m.below = f :: below) :
    Paired src (m.next.popped f below) := by
  have hclose : openAt src (m.index + 1) = (openAt src m.index).tail :=
    openAt_close (hp.kind.symm.trans hbrace)
  have hflags : m.flags = m.top.execute :: (m.next.popped f below).flags := flags_popped hbelow
  rw [Paired, hflags, Machine.flags, List.map_cons, List.dropLast_cons_cons] at hpair
  change List.Forall₂ _ (m.next.popped f below).flags.dropLast (openAt src (m.index + 1))
  rw [hclose]
  cases hopen : openAt src m.index with
  | nil =>
    rw [hopen] at hpair
    cases hpair
  | cons p rest =>
    rw [hopen] at hpair
    cases hpair with
    | cons _ hrest => exact hrest

/-! ## The law -/

/-- The machine before the first statement of a source text, with any variables. -/
def Machine.startWith (src : Bytes) (vars : List value) : Machine :=
  { Machine.start src with s := { (Machine.start src).s with vars } }

theorem startWith_placed (src : Bytes) (vars : List value) : Placed src (.startWith src vars) := by
  refine ⟨rfl, by simp [Machine.startWith, Machine.start], by simp [Machine.startWith, Machine.start], fun hin => absurd rfl hin.1, ?_⟩
  simp [Machine.flags, Machine.startWith, Machine.start]

/-- The next step of the recovery is over a `{`. -/
def Config.stepsOverBrace : Config → Prop
  | .running m => m.stepsOverBrace
  | .done _ _ _ => False

/-- It is over a `{` in a block that is not executed. -/
def Config.losesBrace : Config → Prop
  | .running m => m.stepsOverBrace ∧ m.top.execute = false
  | .done _ _ _ => False

instance : DecidablePred Config.losesBrace
  | .running m => inferInstanceAs (Decidable (m.stepsOverBrace ∧ m.top.execute = false))
  | .done _ _ _ => inferInstanceAs (Decidable False)

/-- A machine of a user without rights, and without commands. -/
def userHost : host := { someHost with geteuid := 1000 }

end mantle.script
