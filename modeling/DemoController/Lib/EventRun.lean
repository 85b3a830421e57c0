import Mathlib.Data.List.Basic
import Mathlib.Tactic.Common

/-!
# Runs that record events

A system is a partial step function on states. An action carries every choice
made outside the system (the order of the steps, the clock, the answer of a
remote call), so a step is deterministic, and it returns the events it emits.
A run collects them in a history, newest event first. `permits` restricts the
steps of a run to those an assumption on the environment allows.
-/

namespace Lib

variable {σ α ε : Type}

inductive Run (step : σ → α → Option (σ × List ε)) (permits : σ → List ε → α → Prop)
    (s₀ : σ) (h₀ : List ε) : σ → List ε → Prop
  | start : Run step permits s₀ h₀ s₀ h₀
  | next {s t : σ} {h es : List ε} {a : α} : Run step permits s₀ h₀ s h → permits s h a →
      step s a = some (t, es) → Run step permits s₀ h₀ t (es ++ h)

def anyStep : σ → List ε → α → Prop := fun _ _ _ => True

def execute (step : σ → α → Option (σ × List ε)) : List α → σ → List ε → Option (σ × List ε)
  | [], s, h => some (s, h)
  | a :: as, s, h => (step s a).bind fun p => execute step as p.1 (p.2 ++ h)

/-- The same, refusing an action that fails a test in the state and after the history it meets. -/
def executeIf (step : σ → α → Option (σ × List ε)) (test : σ → List ε → α → Bool) :
    List α → σ → List ε → Option (σ × List ε)
  | [], s, h => some (s, h)
  | a :: as, s, h =>
    if test s h a then (step s a).bind fun p => executeIf step test as p.1 (p.2 ++ h) else none

theorem execute_of_executeIf {step : σ → α → Option (σ × List ε)} {test : σ → List ε → α → Bool} {as : List α}
    {s t : σ} {h k : List ε} (he : executeIf step test as s h = some (t, k)) : execute step as s h = some (t, k) := by
  induction as generalizing s h with
  | nil => exact he
  | cons a as ih =>
    rw [executeIf] at he
    split at he
    · obtain ⟨⟨u, es⟩, hs, hr⟩ := Option.bind_eq_some_iff.mp he
      rw [execute, hs]
      exact ih hr
    · cases he

namespace Run

variable {step : σ → α → Option (σ × List ε)} {permits : σ → List ε → α → Prop}
  {s₀ : σ} {h₀ : List ε}

theorem invariant {I : σ → List ε → Prop} {s : σ} {h : List ε} (run : Run step permits s₀ h₀ s h)
    (start : I s₀ h₀)
    (keep : ∀ {s h a t es}, I s h → permits s h a → step s a = some (t, es) → I t (es ++ h)) :
    I s h := by
  induction run with
  | start => exact start
  | next _ hp hs ih => exact keep ih hp hs

theorem trans {s t : σ} {h k : List ε} (first : Run step permits s₀ h₀ s h)
    (second : Run step permits s h t k) : Run step permits s₀ h₀ t k := by
  induction second with
  | start => exact first
  | next _ hp hs ih => exact ih.next hp hs

theorem mono {permits' : σ → List ε → α → Prop} (weaker : ∀ s h a, permits s h a → permits' s h a) {s : σ} {h : List ε}
    (run : Run step permits s₀ h₀ s h) : Run step permits' s₀ h₀ s h := by
  induction run with
  | start => exact .start
  | next _ hp hs ih => exact ih.next (weaker _ _ _ hp) hs

/-- A run of a system is a run of the component whose step each of its steps is, or which
it leaves alone. -/
theorem project {τ β : Type} {step' : τ → β → Option (τ × List ε)} {permits' : τ → List ε → β → Prop} (f : τ → σ)
    (sim : ∀ {s h b t es}, permits' s h b → step' s b = some (t, es) →
      f t = f s ∧ es = [] ∨ ∃ a, permits (f s) h a ∧ step (f s) a = some (f t, es))
    {s t : τ} {h k : List ε} (run : Run step' permits' s h t k) : Run step permits (f s) h (f t) k := by
  induction run with
  | start => exact .start
  | next _ hp hs ih =>
    rcases sim hp hs with ⟨hf, rfl⟩ | ⟨a, ha, hstep⟩
    · rw [hf]
      exact ih
    · exact ih.next ha hstep

theorem of_execute (as : List α) {s t : σ} {h k : List ε} (allowed : ∀ s h a, a ∈ as → permits s h a)
    (hrun : Run step permits s₀ h₀ s h) (he : execute step as s h = some (t, k)) :
    Run step permits s₀ h₀ t k := by
  induction as generalizing s h with
  | nil =>
    cases he
    exact hrun
  | cons a as ih =>
    obtain ⟨⟨u, es⟩, hs, hr⟩ := Option.bind_eq_some_iff.mp he
    have hu := hrun.next (allowed s h a (List.mem_cons_self ..)) hs
    exact ih (fun s h b hb => allowed s h b (List.mem_cons_of_mem _ hb)) hu hr

theorem of_executeIf {test : σ → List ε → α → Bool} (as : List α) {s t : σ} {h k : List ε}
    (sound : ∀ s h a, a ∈ as → test s h a = true → permits s h a) (hrun : Run step permits s₀ h₀ s h)
    (he : executeIf step test as s h = some (t, k)) : Run step permits s₀ h₀ t k := by
  induction as generalizing s h with
  | nil =>
    cases he
    exact hrun
  | cons a as ih =>
    rw [executeIf] at he
    split at he
    · next ht =>
      obtain ⟨⟨u, es⟩, hs, hr⟩ := Option.bind_eq_some_iff.mp he
      have hu := hrun.next (sound s h a (List.mem_cons_self ..) ht) hs
      exact ih (fun s h b hb => sound s h b (List.mem_cons_of_mem _ hb)) hu hr
    · cases he

/-- A run that can always go on below a weight comes to an end. -/
theorem reaches {I final : σ → Prop} (weight : σ → ℕ)
    (progress : ∀ s h, I s → ¬ final s → ∃ a, permits s h a ∧ (step s a).isSome = true)
    (keep : ∀ {s h a t es}, I s → permits s h a → step s a = some (t, es) → I t ∧ weight t < weight s)
    (s : σ) (h : List ε) (hs : I s) : ∃ t k, Run step permits s h t k ∧ I t ∧ final t := by
  induction hw : weight s using Nat.strongRecOn generalizing s h with
  | _ n ih =>
    by_cases hf : final s
    · exact ⟨s, h, .start, hs, hf⟩
    · obtain ⟨a, hp, hsome⟩ := progress s h hs hf
      obtain ⟨⟨u, es⟩, hu⟩ := Option.isSome_iff_exists.mp hsome
      have hk := keep hs hp hu
      obtain ⟨t, k, run, ht, hend⟩ := ih (weight u) (hw ▸ hk.2) u (es ++ h) hk.1 rfl
      exact ⟨t, k, trans (.next .start hp hu) run, ht, hend⟩

end Run

end Lib
