import Mathlib.Data.List.Nodup
import Mathlib.Data.List.Perm.Basic
import Mathlib.Tactic.Common

/-!
# Actions on one key each

A state is viewed key by key, and an action changes the view of its own key only.
Actions on distinct keys, one after the other, leave every other key alone, do on each
key what the one action does there, and may come in any order.
-/

namespace Lib

variable {σ α κ ν : Type}

structure LocalActions (act : σ → α → σ) (view : σ → κ → ν) (key : α → κ) : Prop where
  frame : ∀ s a k, k ≠ key a → view (act s a) k = view s k
  comm : ∀ s a b, key a ≠ key b → act (act s a) b = act (act s b) a

namespace LocalActions

variable {act : σ → α → σ} {view : σ → κ → ν} {key : α → κ}

theorem foldl_frame (h : LocalActions act view key) {l : List α} {k : κ} (hk : k ∉ l.map key) (s : σ) :
    view (l.foldl act s) k = view s k := by
  induction l generalizing s with
  | nil => rfl
  | cons a l ih =>
    rw [List.map_cons, List.mem_cons, not_or] at hk
    rw [List.foldl_cons, ih hk.2, h.frame s a k hk.1]

/-- What an action does on its key does not depend on the others. -/
theorem foldl_own (h : LocalActions act view key) (f : α → ν → ν)
    (own : ∀ s a, view (act s a) (key a) = f a (view s (key a))) {l : List α} (distinct : (l.map key).Nodup)
    {a : α} (ha : a ∈ l) (s : σ) : view (l.foldl act s) (key a) = f a (view s (key a)) := by
  induction l generalizing s with
  | nil => cases ha
  | cons b l ih =>
    rw [List.map_cons, List.nodup_cons] at distinct
    rw [List.foldl_cons]
    rcases List.mem_cons.mp ha with rfl | ha
    · rw [h.foldl_frame distinct.1, own]
    · have hne : key a ≠ key b := fun e => distinct.1 (e ▸ List.mem_map_of_mem ha)
      rw [ih distinct.2 ha, h.frame s b _ hne]

theorem foldl_perm (h : LocalActions act view key) {l l' : List α} (hp : l.Perm l') (distinct : (l.map key).Nodup)
    (s : σ) : l.foldl act s = l'.foldl act s := by
  refine hp.foldl_eq' (fun a ha b hb s => ?_) s
  by_cases hab : key a = key b
  · rw [List.inj_on_of_nodup_map distinct ha hb hab]
  · exact h.comm s a b hab

end LocalActions

end Lib
