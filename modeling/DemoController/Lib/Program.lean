import Mathlib.Data.Option.Basic
import Mathlib.Tactic.Common

/-!
# Coroutines as programs of operations

A coroutine is the tree of the operations it performs: what it does next depends
on the result of each, and it ends by returning a value or raising an exception.
The operations have no meaning here. `run` gives them one for a program that
runs alone, `Follows` says which sequences of operations a program keeps to
whatever their results are, and `Lockstep` compares two programs whose
operations have related results.
-/

namespace Lib

inductive Program (ω : Type) (ρ : ω → Type) (ε α : Type) where
  | done (a : α)
  | raise (e : ε)
  | perform (op : ω) (next : ρ op → Program ω ρ ε α)

namespace Program

variable {ω : Type} {ρ : ω → Type} {ε α β : Type}

def ofExcept : Except ε α → Program ω ρ ε α
  | .ok a => .done a
  | .error e => .raise e

/-- What every way to compose programs is a case of: the second one starts where the
first one ends, with its value or its exception. -/
def andThen : Program ω ρ ε α → (Except ε α → Program ω ρ ε β) → Program ω ρ ε β
  | .done a, k => k (.ok a)
  | .raise e, k => k (.error e)
  | .perform op next, k => .perform op fun r => (next r).andThen k

def onValue (f : α → Program ω ρ ε β) : Except ε α → Program ω ρ ε β
  | .ok a => f a
  | .error e => .raise e

def onError (handler : ε → Program ω ρ ε α) : Except ε α → Program ω ρ ε α
  | .ok a => .done a
  | .error e => handler e

/-- An operation performed whether the program returns or raises. -/
def ensuring (p : Program ω ρ ε α) (op : ω) : Program ω ρ ε α :=
  p.andThen fun result => .perform op fun _ => ofExcept result

def catching (p : Program ω ρ ε α) (handler : ε → Program ω ρ ε α) : Program ω ρ ε α :=
  p.andThen (onError handler)

def call (op : ω) : Program ω ρ ε (ρ op) := .perform op .done

instance : Monad (Program ω ρ ε) where
  pure := .done
  bind p f := p.andThen (onValue f)

instance : MonadExceptOf ε (Program ω ρ ε) where
  throw := .raise
  tryCatch := catching

theorem bind_eq (p : Program ω ρ ε α) (f : α → Program ω ρ ε β) : p >>= f = p.andThen (onValue f) := rfl

@[simp] theorem call_andThen (op : ω) (k : Except ε (ρ op) → Program ω ρ ε β) :
    (call op).andThen k = .perform op fun r => k (.ok r) := rfl

@[simp] theorem ofExcept_andThen (r : Except ε α) (k : Except ε α → Program ω ρ ε β) :
    (ofExcept r).andThen k = k r := by
  cases r <;> rfl

@[simp] theorem onValue_ok (f : α → Program ω ρ ε β) (a : α) : onValue f (.ok a) = f a := rfl

@[simp] theorem onError_error (handler : ε → Program ω ρ ε α) (e : ε) :
    onError handler (.error e) = handler e := rfl

/-! ### A program that runs alone -/

section

variable {σ : Type} (step : σ → (op : ω) → Option (ρ op × σ))

/-- `none` where an operation cannot be performed, so that the program hangs. -/
def run : Program ω ρ ε α → σ → Option (Except ε α × σ)
  | .done a, s => some (.ok a, s)
  | .raise e, s => some (.error e, s)
  | .perform op next, s => (step s op).bind fun p => (next p.1).run p.2

theorem run_ofExcept (r : Except ε α) (s : σ) : (ofExcept r : Program ω ρ ε α).run step s = some (r, s) := by
  cases r <;> rfl

theorem run_perform {op : ω} {next : ρ op → Program ω ρ ε α} {s t : σ} {r : ρ op}
    (h : step s op = some (r, t)) : (perform op next).run step s = (next r).run step t := by
  rw [run, h, Option.bind_some]

theorem run_andThen (p : Program ω ρ ε α) (k : Except ε α → Program ω ρ ε β) (s : σ) :
    (p.andThen k).run step s = (p.run step s).bind fun q => (k q.1).run step q.2 := by
  induction p generalizing s with
  | done a => rfl
  | raise e => rfl
  | perform op next ih =>
    simp only [andThen, run, Option.bind_assoc]
    congr 1
    funext q
    exact ih q.1 q.2

theorem run_ensuring (p : Program ω ρ ε α) (op : ω) (s : σ) :
    (p.ensuring op).run step s = (p.run step s).bind fun q => (step q.2 op).map fun t => (q.1, t.2) := by
  rw [ensuring, run_andThen]
  congr 1
  funext q
  rw [run, Option.map_eq_bind]
  congr 1
  funext t
  exact run_ofExcept ..

/-- An operation whose result is a value or an exception. -/
theorem run_call_ofExcept (op : ω) (f : ρ op → Except ε α) {s t : σ} {r : ρ op} (h : step s op = some (r, t)) :
    (call op >>= fun r => ofExcept (f r)).run step s = some (f r, t) := by
  rw [bind_eq, call_andThen, run_perform step h, onValue_ok, run_ofExcept]

variable {step} {s t : σ} {r : Except ε α} {p : Program ω ρ ε α}

theorem run_andThen_of (k : Except ε α → Program ω ρ ε β) (h : p.run step s = some (r, t)) :
    (p.andThen k).run step s = (k r).run step t := by
  rw [run_andThen, h, Option.bind_some]

theorem run_bind_of (f : α → Program ω ρ ε β) (h : p.run step s = some (r, t)) :
    (p >>= f).run step s = (onValue f r).run step t :=
  run_andThen_of _ h

theorem run_catching_of (handler : ε → Program ω ρ ε α) (h : p.run step s = some (r, t)) :
    (p.catching handler).run step s = (onError handler r).run step t :=
  run_andThen_of _ h

end

/-! ### What a program keeps to -/

/-- A protocol names the phases of a program: which operations each allows, and
which phase follows the result of one. -/
structure Protocol (ω : Type) (ρ : ω → Type) (φ : Type) where
  allows : φ → ω → Prop
  next : φ → (op : ω) → ρ op → φ

section

variable {φ : Type} (protocol : Protocol ω ρ φ)

/-- From the phase on, whatever the results of its operations are, the program
performs only operations that are allowed and ends as `post` says. -/
def Follows (post : φ → Except ε α → Prop) : φ → Program ω ρ ε α → Prop
  | x, .done a => post x (.ok a)
  | x, .raise e => post x (.error e)
  | x, .perform op next => protocol.allows x op ∧ ∀ r, Follows post (protocol.next x op r) (next r)

variable {protocol}

theorem Follows.ofExcept {post : φ → Except ε α → Prop} {x : φ} {r : Except ε α} (h : post x r) :
    Follows protocol post x (ofExcept r : Program ω ρ ε α) := by
  cases r <;> exact h

theorem Follows.andThen {mid : φ → Except ε α → Prop} {post : φ → Except ε β → Prop} {x : φ}
    {p : Program ω ρ ε α} {k : Except ε α → Program ω ρ ε β} (h : Follows protocol mid x p)
    (hk : ∀ y r, mid y r → Follows protocol post y (k r)) : Follows protocol post x (p.andThen k) := by
  induction p generalizing x with
  | done a => exact hk x _ h
  | raise e => exact hk x _ h
  | perform op next ih => exact ⟨h.1, fun r => ih r (h.2 r)⟩

end

/-! ### Two programs side by side -/

/-- The same operations one by one, as long as their results are related by `E`, and
related ends. -/
inductive Lockstep (E : (op : ω) → ρ op → ρ op → Prop) (R : Except ε α → Except ε β → Prop) :
    Program ω ρ ε α → Program ω ρ ε β → Prop
  | ended {r : Except ε α} {r' : Except ε β} : R r r' → Lockstep E R (ofExcept r) (ofExcept r')
  | perform {op : ω} {next : ρ op → Program ω ρ ε α} {next' : ρ op → Program ω ρ ε β} :
      (∀ r r', E op r r' → Lockstep E R (next r) (next' r')) →
      Lockstep E R (.perform op next) (.perform op next')

section

variable {E : (op : ω) → ρ op → ρ op → Prop} {R : Except ε α → Except ε α → Prop}
  {S : Except ε β → Except ε β → Prop}

theorem Lockstep.andThen {p q : Program ω ρ ε α} {k l : Except ε α → Program ω ρ ε β}
    (h : Lockstep E R p q) (hk : ∀ r r', R r r' → Lockstep E S (k r) (l r')) :
    Lockstep E S (p.andThen k) (q.andThen l) := by
  induction h with
  | ended hr =>
    rw [ofExcept_andThen, ofExcept_andThen]
    exact hk _ _ hr
  | perform _ ih => exact .perform ih

theorem Lockstep.run {σ : Type} {step : σ → (op : ω) → Option (ρ op × σ)} {I : σ → σ → Prop}
    {p q : Program ω ρ ε α} (h : Lockstep E R p q)
    (keep : ∀ s t op, I s t → Option.Rel (fun x y => E op x.1 y.1 ∧ I x.2 y.2) (step s op) (step t op))
    {s t : σ} (hst : I s t) :
    Option.Rel (fun x y => R x.1 y.1 ∧ I x.2 y.2) (p.run step s) (q.run step t) := by
  induction h generalizing s t with
  | ended hr =>
    rw [run_ofExcept, run_ofExcept]
    exact .some ⟨hr, hst⟩
  | @perform op next next' _ ih =>
    have hstep := keep s t op hst
    simp only [Program.run]
    generalize step s op = x at hstep
    generalize step t op = y at hstep
    cases hstep with
    | none => exact .none
    | some hxy => exact ih _ _ hxy.1 hxy.2

end

end Program

end Lib
