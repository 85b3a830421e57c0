import Mathlib.Algebra.Order.Group.Defs
import Mathlib.Algebra.Order.Sub.Basic
import Mathlib.Data.List.Sort
import Mathlib.Tactic.Common

/-!
# A sliding window over admitted times

A limiter keeps the times it admitted in a queue, oldest first, and drops from
its front those that have left the window when it is asked again. The queue
between two questions may hold more than the window; what it holds after the
pruning is the window of the whole history.
-/

namespace Lib.SlidingWindow

variable {T : Type} [AddCommGroup T] [LinearOrder T]

/-- The times in `(n - w, n]`. -/
def window (w n : T) (times : List T) : List T := times.filter fun t => n - w < t ∧ t ≤ n

def prune (w n : T) (queue : List T) : List T := queue.dropWhile fun t => t ≤ n - w

/-- The queue holds the admitted times (newest first) but for some that have left the window. -/
structure Tracks (w now : T) (history queue : List T) : Prop where
  sorted : history.Pairwise (· ≥ ·)
  past : ∀ t ∈ history, t ≤ now
  kept : ∃ old, history.reverse = old ++ queue ∧ ∀ t ∈ old, t ≤ now - w

/-- No time was admitted into a full window. -/
def Spaced (w : T) (limit : ℕ) : List T → Prop
  | [] => True
  | t :: earlier => (window w t earlier).length < limit ∧ Spaced w limit earlier

theorem prune_eq_filter {w n : T} {queue : List T} (h : queue.Pairwise (· ≤ ·)) :
    prune w n queue = queue.filter fun t => n - w < t := by
  induction queue with
  | nil => rfl
  | cons t queue ih =>
    obtain ⟨hle, hrest⟩ := List.pairwise_cons.mp h
    by_cases ht : t ≤ n - w
    · rw [prune, List.dropWhile_cons_of_pos (by simpa using ht), ← prune, ih hrest,
        List.filter_cons_of_neg (by simpa using ht)]
    · have hall : ∀ u ∈ t :: queue, n - w < u := by
        intro u hu
        rcases List.mem_cons.mp hu with rfl | hu
        · exact not_le.mp ht
        · exact (not_le.mp ht).trans_le (hle u hu)
      rw [prune, List.dropWhile_cons_of_neg (by simpa using ht), List.filter_eq_self.mpr (by simpa using hall)]

namespace Tracks

variable {w now n : T} {history queue : List T}

theorem start (w now : T) : Tracks w now [] [] :=
  ⟨List.Pairwise.nil, by simp, [], rfl, by simp⟩

theorem later [IsOrderedAddMonoid T] (h : Tracks w now history queue) (hn : now ≤ n) : Tracks w n history queue := by
  obtain ⟨old, hsplit, hold⟩ := h.kept
  refine ⟨h.sorted, fun t ht => (h.past t ht).trans hn, old, hsplit, fun t ht => ?_⟩
  exact (hold t ht).trans (sub_le_sub_right hn w)

theorem prune_eq (h : Tracks w now history queue) : prune w now queue = (window w now history).reverse := by
  obtain ⟨old, hsplit, hold⟩ := h.kept
  have hsorted : (old ++ queue).Pairwise (· ≤ ·) := by
    rw [← hsplit]
    exact List.pairwise_reverse.mpr h.sorted
  have hwindow : window w now history = history.filter fun t => now - w < t := by
    refine List.filter_congr fun t ht => ?_
    simp only [h.past t ht, and_true]
  have hgone : old.filter (fun t => decide (now - w < t)) = [] :=
    List.filter_eq_nil_iff.mpr fun t ht => by simpa using hold t ht
  rw [prune_eq_filter (List.pairwise_append.mp hsorted).2.1, hwindow, ← List.filter_reverse, hsplit,
    List.filter_append, hgone, List.nil_append]

theorem prune_length (h : Tracks w now history queue) :
    (prune w now queue).length = (window w now history).length := by
  rw [h.prune_eq, List.length_reverse]

theorem pruned (h : Tracks w now history queue) : Tracks w now history (prune w now queue) := by
  obtain ⟨old, hsplit, hold⟩ := h.kept
  refine ⟨h.sorted, h.past, old ++ queue.takeWhile (fun t => t ≤ now - w), ?_, ?_⟩
  · rw [hsplit, List.append_assoc, prune, List.takeWhile_append_dropWhile]
  · intro t ht
    rcases List.mem_append.mp ht with ht | ht
    · exact hold t ht
    · have hall := List.all_eq_true.mp (List.all_takeWhile ..) t ht
      exact of_decide_eq_true hall

theorem push (h : Tracks w now history queue) : Tracks w now (now :: history) (queue ++ [now]) := by
  obtain ⟨old, hsplit, hold⟩ := h.kept
  refine ⟨List.pairwise_cons.mpr ⟨h.past, h.sorted⟩, ?_, old, ?_, hold⟩
  · intro t ht
    rcases List.mem_cons.mp ht with rfl | ht
    · exact le_rfl
    · exact h.past t ht
  · rw [List.reverse_cons, hsplit, List.append_assoc]

end Tracks

/-- A window that ends after the newest admitted time is part of the one that ends there. -/
theorem window_length_le [IsOrderedAddMonoid T] {w t n : T} {earlier : List T} (h : t ≤ n) (past : ∀ u ∈ earlier, u ≤ t) :
    (window w n earlier).length ≤ (window w t earlier).length := by
  rw [window, window, ← List.countP_eq_length_filter, ← List.countP_eq_length_filter]
  refine List.countP_mono_left fun u hu hin => ?_
  have hcut : n - w < u := (of_decide_eq_true hin).1
  exact decide_eq_true ⟨(sub_le_sub_right h w).trans_lt hcut, past u hu⟩

theorem window_le_limit [IsOrderedAddMonoid T] {w : T} {limit : ℕ} {history : List T} (sorted : history.Pairwise (· ≥ ·))
    (spaced : Spaced w limit history) (n : T) : (window w n history).length ≤ limit := by
  induction history with
  | nil => exact Nat.zero_le _
  | cons t earlier ih =>
    obtain ⟨hle, hrest⟩ := List.pairwise_cons.mp sorted
    by_cases ht : n - w < t ∧ t ≤ n
    · have hcons : window w n (t :: earlier) = t :: window w n earlier :=
        List.filter_cons_of_pos (decide_eq_true ht)
      have hpart := window_length_le (w := w) ht.2 hle
      have hroom := spaced.1
      rw [hcons, List.length_cons]
      omega
    · have hcons : window w n (t :: earlier) = window w n earlier :=
        List.filter_cons_of_neg (by simpa using ht)
      rw [hcons]
      exact ih hrest spaced.2

end Lib.SlidingWindow
