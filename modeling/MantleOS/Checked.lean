-- Computations that may fault. A checked step that leaves its array, or a
-- 32-bit sum that wraps, is a fault and not a value. So the law "it never
-- leaves its bounds" says that a computation yields a value.
import Mathlib.Algebra.Ring.Nat
import Mathlib.Tactic.Common

namespace checked

/-- What a checked step can run into. -/
inductive Fault
  | bounds (index limit : Nat)
  | wrap (value : Nat)
  deriving DecidableEq, Repr

abbrev Checked (α : Type) := Except Fault α

variable {ε α β σ : Type}

/-- The computation ends with a value, and the value has `P`. -/
def Yields (x : Except ε α) (P : α → Prop) : Prop := ∃ r, x = .ok r ∧ P r

@[simp] theorem yields_ok {r : α} {P : α → Prop} : Yields (.ok r : Except ε α) P ↔ P r := by
  constructor
  · rintro ⟨s, hs, h⟩
    cases hs
    exact h
  · intro h
    exact ⟨r, rfl, h⟩

@[simp] theorem yields_pure {r : α} {P : α → Prop} : Yields (pure r : Except ε α) P ↔ P r :=
  yields_ok

theorem Yields.bind {x : Except ε α} {f : α → Except ε β} {P : α → Prop} {Q : β → Prop}
    (hx : Yields x P) (hf : ∀ r, P r → Yields (f r) Q) : Yields (x >>= f) Q := by
  obtain ⟨r, rfl, hr⟩ := hx
  exact hf r hr

theorem Yields.mono {x : Except ε α} {P Q : α → Prop} (hx : Yields x P) (h : ∀ r, P r → Q r) :
    Yields x Q := by
  obtain ⟨r, hr, hp⟩ := hx
  exact ⟨r, hr, h r hp⟩

theorem Yields.of_eq_ok {x : Except ε α} {P : α → Prop} {r : α} (hx : Yields x P)
    (h : x = .ok r) : P r := by
  obtain ⟨s, hs, hp⟩ := hx
  rw [h] at hs
  cases hs
  exact hp

/-- A bind that ends with a value ran its first half to a value. -/
theorem bind_eq_ok {x : Except ε α} {f : α → Except ε β} {r : β} :
    x >>= f = .ok r ↔ ∃ a, x = .ok a ∧ f a = .ok r := by
  constructor
  · intro h
    cases x with
    | ok a => exact ⟨a, rfl, h⟩
    | error e => cases h
  · rintro ⟨a, rfl, h⟩
    exact h

@[simp] theorem ok_bind (a : α) (f : α → Except ε β) : (Except.ok a >>= f) = f a := rfl

@[simp] theorem pure_eq_ok (a : α) : (pure a : Except ε α) = .ok a := rfl

/-- Checks made one after the other pass exactly when each passes. -/
theorem forM_eq_ok {check : α → Except ε Unit} {l : List α} :
    forM l check = .ok () ↔ ∀ a ∈ l, check a = .ok () := by
  induction l with
  | nil => simp
  | cons a l ih =>
    rw [List.forM_cons, bind_eq_ok, List.forall_mem_cons]
    constructor
    · rintro ⟨_, ha, hl⟩
      exact ⟨ha, ih.mp hl⟩
    · rintro ⟨ha, hl⟩
      exact ⟨_, ha, ih.mpr hl⟩

/-- A list of computations that all come to a value comes to the list of their values. -/
theorem mapM_yields {f : α → Except ε β} {P : α → β → Prop} {l : List α}
    (h : ∀ a ∈ l, Yields (f a) (P a)) : Yields (l.mapM f) (List.Forall₂ P l) := by
  induction l with
  | nil => exact ⟨[], rfl, .nil⟩
  | cons a l ih =>
    rw [List.mapM_cons]
    apply (h a (by simp)).bind
    intro b hb
    apply (ih fun c hc => h c (by simp [hc])).bind
    intro bs hbs
    exact ⟨b :: bs, rfl, .cons hb hbs⟩

theorem of_mapM {f : α → Except ε β} {g : α → β} {l : List α} {r : List β}
    (hf : ∀ a ∈ l, ∀ b, f a = .ok b → b = g a) (h : l.mapM f = .ok r) : r = l.map g := by
  induction l generalizing r with
  | nil =>
    cases h
    rfl
  | cons a l ih =>
    rw [List.mapM_cons] at h
    obtain ⟨b, hb, h⟩ := bind_eq_ok.mp h
    obtain ⟨bs, hbs, h⟩ := bind_eq_ok.mp h
    cases h
    rw [List.map_cons, hf a (by simp) b hb, ih (fun c hc => hf c (by simp [hc])) hbs]

/-! ## A counted loop -/

/-- `for (i = start; i < start + count; ++i) s = body(i, s)`. -/
def forRange (body : Nat → σ → Checked σ) : Nat → Nat → σ → Checked σ
  | _, 0, s => .ok s
  | start, count + 1, s => do
    let s ← body start s
    forRange body (start + 1) count s

/-- What each turn keeps, the loop keeps. The invariant may name the turn. -/
theorem forRange.spec (body : Nat → σ → Checked σ) (Inv : Nat → σ → Prop)
    (start count : Nat) (s : σ) (h0 : Inv start s)
    (hstep : ∀ i s, start ≤ i → i < start + count → Inv i s → Yields (body i s) (Inv (i + 1))) :
    Yields (forRange body start count s) (Inv (start + count)) := by
  induction count generalizing start s with
  | zero => simpa [forRange] using h0
  | succ count ih =>
    unfold forRange
    apply (hstep start s (Nat.le_refl _) (by omega) h0).bind
    intro s' hs'
    have := ih (start + 1) s' hs' (fun i t h1 h2 => hstep i t (by omega) (by omega))
    rwa [show start + 1 + count = start + (count + 1) by omega] at this

/-- `for (i = start; i < start + count && go(i); ++i) s = body(i, s)`. -/
def forWhile (go : Nat → Bool) (body : Nat → σ → Checked σ) : Nat → Nat → σ → Checked σ
  | _, 0, s => .ok s
  | i, count + 1, s =>
    if go i then do
      let s ← body i s
      forWhile go body (i + 1) count s
    else .ok s

/-- A condition that holds in every turn ends nothing. -/
theorem forWhile_eq_forRange {go : Nat → Bool} {body : Nat → σ → Checked σ} {start count : Nat}
    (hgo : ∀ i, start ≤ i → i < start + count → go i = true) (s : σ) :
    forWhile go body start count s = forRange body start count s := by
  induction count generalizing start s with
  | zero => rfl
  | succ count ih =>
    rw [forWhile, if_pos (hgo start (Nat.le_refl _) (by omega)), forRange]
    congr 1
    funext t
    exact ih (fun i h1 h2 => hgo i (by omega) (by omega)) t

/-! ## Loops with fuel -/

/-- With enough fuel the computation gives `x`. -/
def Settles (f : Nat → Option α) (x : α) : Prop := ∃ n, ∀ fuel, n ≤ fuel → f fuel = some x

theorem Settles.some (x : α) : Settles (fun _ => Option.some x) x := ⟨0, fun _ _ => rfl⟩

/-- A step that needs one unit of fuel. -/
theorem Settles.succ {f g : Nat → Option α} {x : α} (hg : Settles g x)
    (h : ∀ fuel, f (fuel + 1) = g fuel) : Settles f x := by
  obtain ⟨n, hn⟩ := hg
  refine ⟨n + 1, fun fuel hfuel => ?_⟩
  obtain ⟨fuel, rfl⟩ := Nat.exists_eq_add_of_lt hfuel
  rw [h]
  exact hn _ (by omega)

theorem Settles.bind {f : Nat → Option α} {g : α → Nat → Option β} {x : α} {y : β}
    (hf : Settles f x) (hg : Settles (g x) y) :
    Settles (fun fuel => f fuel >>= fun a => g a fuel) y := by
  obtain ⟨n, hn⟩ := hf
  obtain ⟨m, hm⟩ := hg
  refine ⟨max n m, fun fuel hfuel => ?_⟩
  simp only [hn fuel (by omega)]
  exact hm fuel (by omega)

theorem Settles.map {f : Nat → Option α} {x : α} (hf : Settles f x) (g : α → β) :
    Settles (fun fuel => g <$> f fuel) (g x) := by
  obtain ⟨n, hn⟩ := hf
  refine ⟨n, fun fuel hfuel => ?_⟩
  simp only [hn fuel hfuel]
  rfl

theorem Settles.unique {f : Nat → Option α} {x y : α} (hx : Settles f x) (hy : Settles f y) : x = y := by
  obtain ⟨n, hn⟩ := hx
  obtain ⟨m, hm⟩ := hy
  have hboth := hn (max n m) (Nat.le_max_left n m)
  rw [hm (max n m) (Nat.le_max_right n m)] at hboth
  exact (Option.some.inj hboth).symm

/-! ## Sums of 32 bits -/

/-- `a + b` on `uint32_t`, with the wrap as a fault. -/
def add32 (a b : Nat) : Checked Nat :=
  if a + b < 2 ^ 32 then .ok (a + b) else .error (.wrap (a + b))

theorem add32_eq {a b : Nat} (h : a + b < 2 ^ 32) : add32 a b = .ok (a + b) := if_pos h

end checked
