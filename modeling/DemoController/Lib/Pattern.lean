import Mathlib.Computability.Language
import Mathlib.Tactic.Common

/-!
# Patterns as languages

The operations of regular expressions that Mathlib's languages lack: character
classes, bounded and positive repetition. Membership in a pattern that is built
on a character class is a property of the characters and of the length.
-/

namespace Lib.Pattern

variable {α : Type}

/-- `[...]`, one symbol of the class. -/
def cls (p : α → Bool) : Language α := {w | ∃ a, w = [a] ∧ p a = true}

def literal (w : List α) : Language α := {w}

/-- `l{m,n}`. -/
def between (m n : ℕ) (l : Language α) : Language α := {w | ∃ k, m ≤ k ∧ k ≤ n ∧ w ∈ l ^ k}

/-- `l+`. -/
def plus (l : Language α) : Language α := l * KStar.kstar l

variable {p : α → Bool} {l : Language α} {w : List α}

@[simp] theorem mem_literal {v : List α} : w ∈ literal v ↔ w = v := Iff.rfl

theorem mem_mul_literal_mul {m : Language α} {v : List α} :
    w ∈ l * (literal v * m) ↔ ∃ a b, w = a ++ (v ++ b) ∧ a ∈ l ∧ b ∈ m := by
  constructor
  · rintro ⟨a, ha, _, ⟨_, rfl, b, hb, rfl⟩, rfl⟩
    exact ⟨a, b, rfl, ha, hb⟩
  · rintro ⟨a, b, rfl, ha, hb⟩
    exact ⟨a, ha, v ++ b, ⟨v, rfl, b, hb, rfl⟩, rfl⟩

theorem mem_cls_mul : w ∈ cls p * l ↔ ∃ a v, w = a :: v ∧ p a = true ∧ v ∈ l := by
  constructor
  · rintro ⟨_, ⟨a, rfl, ha⟩, v, hv, rfl⟩
    exact ⟨a, v, rfl, ha, hv⟩
  · rintro ⟨a, v, rfl, ha, hv⟩
    exact ⟨[a], ⟨a, rfl, ha⟩, v, hv, rfl⟩

theorem mem_cls_pow {k : ℕ} : w ∈ cls p ^ k ↔ w.length = k ∧ w.all p = true := by
  induction k generalizing w with
  | zero =>
    rw [pow_zero, Language.mem_one, List.length_eq_zero_iff]
    exact ⟨fun h => ⟨h, h ▸ rfl⟩, fun h => h.1⟩
  | succ k ih =>
    rw [pow_succ', mem_cls_mul]
    constructor
    · rintro ⟨a, v, rfl, ha, hv⟩
      obtain ⟨hlen, hall⟩ := ih.mp hv
      exact ⟨by rw [List.length_cons, hlen], by rw [List.all_cons, ha, hall, Bool.and_self]⟩
    · rintro ⟨hlen, hall⟩
      cases w with
      | nil => cases hlen
      | cons a v =>
        rw [List.all_cons, Bool.and_eq_true] at hall
        exact ⟨a, v, rfl, hall.1, ih.mpr ⟨Nat.succ.inj hlen, hall.2⟩⟩

theorem mem_cls_between {m n : ℕ} : w ∈ between m n (cls p) ↔ m ≤ w.length ∧ w.length ≤ n ∧ w.all p = true := by
  constructor
  · rintro ⟨k, hm, hn, hw⟩
    obtain ⟨rfl, hall⟩ := mem_cls_pow.mp hw
    exact ⟨hm, hn, hall⟩
  · rintro ⟨hm, hn, hall⟩
    exact ⟨w.length, hm, hn, mem_cls_pow.mpr ⟨rfl, hall⟩⟩

theorem mem_cls_kstar : w ∈ KStar.kstar (cls p) ↔ w.all p = true := by
  rw [Language.kstar_eq_iSup_pow, Language.mem_iSup]
  constructor
  · rintro ⟨k, hk⟩
    exact (mem_cls_pow.mp hk).2
  · exact fun h => ⟨w.length, mem_cls_pow.mpr ⟨rfl, h⟩⟩

theorem mem_cls_plus : w ∈ plus (cls p) ↔ w ≠ [] ∧ w.all p = true := by
  rw [plus, mem_cls_mul]
  constructor
  · rintro ⟨a, v, rfl, ha, hv⟩
    exact ⟨List.cons_ne_nil _ _, by rw [List.all_cons, ha, mem_cls_kstar.mp hv, Bool.and_self]⟩
  · rintro ⟨hne, hall⟩
    cases w with
    | nil => exact absurd rfl hne
    | cons a v =>
      rw [List.all_cons, Bool.and_eq_true] at hall
      exact ⟨a, v, rfl, hall.1, mem_cls_kstar.mpr hall.2⟩

theorem mem_optional : w ∈ between 0 1 l ↔ w = [] ∨ w ∈ l := by
  constructor
  · rintro ⟨k, -, hk, hw⟩
    rcases Nat.le_one_iff_eq_zero_or_eq_one.mp hk with rfl | rfl
    · exact .inl (by simpa using hw)
    · exact .inr (by simpa using hw)
  · rintro (rfl | hw)
    · exact ⟨0, le_rfl, zero_le_one, by simp⟩
    · exact ⟨1, zero_le_one, le_rfl, by simpa using hw⟩

theorem mem_plus_of_mem (h : w ∈ l) : w ∈ plus l :=
  ⟨w, h, [], Language.nil_mem_kstar l, List.append_nil w⟩

theorem append_mem_plus {v : List α} (h : v ∈ l) (hw : w ∈ plus l) : v ++ w ∈ plus l := by
  refine ⟨v, h, w, ?_, rfl⟩
  obtain ⟨a, ha, b, hb, rfl⟩ := hw
  obtain ⟨L, rfl, hL⟩ := Language.mem_kstar.mp hb
  refine Language.mem_kstar.mpr ⟨a :: L, rfl, ?_⟩
  intro y hy
  rcases List.mem_cons.mp hy with rfl | hy
  · exact ha
  · exact hL y hy

theorem exists_of_mem_plus (h : w ∈ plus l) : ∃ a L, w = (a :: L).flatten ∧ ∀ y ∈ a :: L, y ∈ l := by
  obtain ⟨a, ha, b, hb, rfl⟩ := h
  obtain ⟨L, rfl, hL⟩ := Language.mem_kstar.mp hb
  exact ⟨a, L, rfl, List.forall_mem_cons.mpr ⟨ha, hL⟩⟩

end Lib.Pattern
