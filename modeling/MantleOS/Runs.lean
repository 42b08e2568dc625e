-- Runs of a system that takes labelled steps, one after the other, and the
-- rules for what holds along them. Nothing here is about one system.
import Mathlib.Data.List.Basic
import Mathlib.Tactic.Common

namespace runs

variable {σ ε : Type} {step : σ → ε → σ → Prop} {s t u : σ} {e : ε} {es es' : List ε}

/-- A run of any length, with its labels. -/
inductive Run (step : σ → ε → σ → Prop) : σ → List ε → σ → Prop
  | nil {s : σ} : Run step s [] s
  | snoc {s t u : σ} {es : List ε} {e : ε} :
      Run step s es t → step t e u → Run step s (es ++ [e]) u

theorem Run.single (h : step s e t) : Run step s [e] t := .snoc .nil h

theorem Run.append (h : Run step s es t) (h' : Run step t es' u) : Run step s (es ++ es') u := by
  induction h' with
  | nil => rwa [List.append_nil]
  | snoc _ hstep ih =>
    rw [← List.append_assoc]
    exact .snoc ih hstep

/-- What each step keeps, each run keeps. -/
theorem Run.invariant {P : σ → Prop} (h : Run step s es t) (hs : P s)
    (hstep : ∀ s e t, step s e t → P s → P t) : P t := by
  induction h with
  | nil => exact hs
  | snoc _ hlast ih => exact hstep _ _ _ hlast ih

/-- The same for steps with a label that the run may take, and with what each of its labels then
says. -/
theorem Run.keeps {P : σ → Prop} {Q R : ε → Prop} (h : Run step s es t) (hs : P s)
    (hes : ∀ e ∈ es, Q e) (hstep : ∀ s e t, step s e t → Q e → P s → P t ∧ R e) :
    P t ∧ ∀ e ∈ es, R e := by
  induction h with
  | nil => exact ⟨hs, by simp⟩
  | @snoc t u es e _ hlast ih =>
    obtain ⟨ht, hbefore⟩ := ih fun e he => hes e (List.mem_append_left _ he)
    obtain ⟨hu, hlabel⟩ := hstep t e u hlast (hes e (by simp)) ht
    refine ⟨hu, fun e' he' => ?_⟩
    rw [List.mem_append, List.mem_singleton] at he'
    obtain he' | rfl := he'
    · exact hbefore e' he'
    · exact hlabel

/-- A number from which each step takes what its label counts for. -/
theorem Run.counts {P : σ → Prop} {Q : ε → Prop} {f : σ → Nat} {p : ε → Bool} (h : Run step s es t)
    (hs : P s) (hes : ∀ e ∈ es, Q e)
    (hstep : ∀ s e t, step s e t → Q e → P s → P t ∧ f t + (if p e then 1 else 0) ≤ f s) :
    P t ∧ f t + es.countP p ≤ f s := by
  induction h with
  | nil => exact ⟨hs, by simp⟩
  | @snoc t u es e _ hlast ih =>
    obtain ⟨ht, hbefore⟩ := ih fun e he => hes e (List.mem_append_left _ he)
    obtain ⟨hu, hnow⟩ := hstep t e u hlast (hes e (by simp)) ht
    refine ⟨hu, ?_⟩
    rw [List.countP_append, List.countP_singleton]
    omega

/-- A list from which each step takes what its label shows, in this order. -/
theorem Run.shows {α : Type} {f : σ → List α} {out : ε → List α} (h : Run step s es t)
    (hstep : ∀ s e t, step s e t → (out e ++ f t).Sublist (f s)) :
    (es.flatMap out ++ f t).Sublist (f s) := by
  induction h with
  | nil => exact List.Sublist.refl _
  | @snoc t u es e _ hlast ih =>
    rw [List.flatMap_append, List.flatMap_singleton, List.append_assoc]
    exact ((hstep t e u hlast).append_left _).trans ih

end runs
