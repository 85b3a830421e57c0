import Mathlib.Data.List.Basic
import Mathlib.Tactic.Common

/-!
# Sequences that may stop anywhere

A sequence of actions can be given up after any of them. `Safe` says that a property
holds at every such point, and one action that is done leaves the rest safe.
-/

namespace Lib

variable {σ α : Type} (effect : σ → α → σ) (I : σ → Prop)

/-- Before the actions, between any two of them and after the last. -/
def Safe : σ → List α → Prop
  | s, [] => I s
  | s, a :: as => I s ∧ Safe (effect s a) as

variable {effect I}

namespace Safe

theorem now {s : σ} {as : List α} (h : Safe effect I s as) : I s := by
  cases as with
  | nil => exact h
  | cons a as => exact h.1

theorem append {s : σ} {as bs : List α} (ha : Safe effect I s as)
    (hb : I (as.foldl effect s) → Safe effect I (as.foldl effect s) bs) : Safe effect I s (as ++ bs) := by
  induction as generalizing s with
  | nil => exact hb ha
  | cons a as ih => exact ⟨ha.1, ih ha.2 hb⟩

theorem mono {J : σ → Prop} (hJ : ∀ s, J s → I s) {s : σ} {as : List α} (h : Safe effect J s as) :
    Safe effect I s as := by
  induction as generalizing s with
  | nil => exact hJ s h
  | cons a as ih => exact ⟨hJ s h.1, ih h.2⟩

/-- Actions each of which keeps the property. -/
theorem of_kept {s : σ} {as : List α} (hs : I s) (hk : ∀ a ∈ as, ∀ s, I s → I (effect s a)) :
    Safe effect I s as := by
  induction as generalizing s with
  | nil => exact hs
  | cons a as ih =>
    exact ⟨hs, ih (hk a (List.mem_cons_self ..) s hs) fun b hb => hk b (List.mem_cons_of_mem _ hb)⟩

end Safe

end Lib
