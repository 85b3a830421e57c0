import Mathlib.Data.List.Basic
import Mathlib.Tactic.Common

/-!
# Readers

A reader takes a value off the front of a list of tokens, or fails. It reads a writing
when it gives the value back whatever comes behind, as long as that begins as `follow`
allows.
-/

namespace Lib

variable {τ α β : Type}

abbrev Reader (τ α : Type) := List τ → Option (α × List τ)

namespace Reader

def Reads (r : Reader τ α) (follow : List τ → Prop) (w : List τ) (v : α) : Prop :=
  ∀ rest, follow rest → r (w ++ rest) = some (v, rest)

def anything : List τ → Prop := fun _ => True

def map (f : α → β) (r : Reader τ α) : Reader τ β := fun t => (r t).map fun p => (f p.1, p.2)

def andThen (r : Reader τ α) (k : α → Reader τ β) : Reader τ β := fun t => (r t).bind fun p => k p.1 p.2

variable {r : Reader τ α} {follow behind : List τ → Prop} {w u : List τ} {v : α}

theorem Reads.map (h : r.Reads follow w v) (f : α → β) : (r.map f).Reads follow w (f v) := by
  intro rest hrest
  rw [Reader.map, h rest hrest]
  rfl

theorem Reads.andThen {k : α → Reader τ β} {x : β} (h : r.Reads follow w v) (hk : (k v).Reads behind u x)
    (hfollow : ∀ rest, behind rest → follow (u ++ rest)) : (r.andThen k).Reads behind (w ++ u) x := by
  intro rest hrest
  rw [Reader.andThen, List.append_assoc, h _ (hfollow rest hrest), Option.bind_some, hk rest hrest]

theorem Reads.mono (h : r.Reads follow w v) (hb : ∀ rest, behind rest → follow rest) : r.Reads behind w v :=
  fun rest hrest => h rest (hb rest hrest)

/-- Whatever the reader gives, it is as `P` says. -/
def Yields (r : Reader τ α) (P : α → Prop) : Prop := ∀ t v rest, r t = some (v, rest) → P v

variable {P : α → Prop} {Q : β → Prop}

theorem Yields.map {f : α → β} (h : r.Yields P) (hf : ∀ v, P v → Q (f v)) : (r.map f).Yields Q := by
  intro t x rest hx
  obtain ⟨⟨v, u⟩, hv, he⟩ := Option.map_eq_some_iff.mp hx
  cases he
  exact hf v (h t v u hv)

/-! ### Repetition -/

variable [DecidableEq τ]

/-- One reading after the other up to the token `stop` (`fuel` bounds their number). -/
def upTo (stop : τ) (unit : Reader τ α) : ℕ → Reader τ (List α)
  | 0, _ => none
  | _ + 1, [] => none
  | fuel + 1, c :: t =>
    if c = stop then some ([], t)
    else (unit (c :: t)).bind fun p => (upTo stop unit fuel p.2).map fun q => (p.1 :: q.1, q.2)

theorem reads_upTo {stop : τ} {unit : Reader τ α} {ps : List (List τ × α)}
    (hunit : ∀ p ∈ ps, unit.Reads anything p.1 p.2) (hhead : ∀ p ∈ ps, ∃ c t, p.1 = c :: t ∧ c ≠ stop)
    {fuel : ℕ} (hfuel : ps.length < fuel) :
    (upTo stop unit fuel).Reads anything ((ps.map Prod.fst).flatten ++ [stop]) (ps.map Prod.snd) := by
  intro rest _
  induction ps generalizing fuel with
  | nil =>
    obtain ⟨n, rfl⟩ : ∃ n, fuel = n + 1 := ⟨fuel - 1, by simp at hfuel; omega⟩
    exact if_pos rfl
  | cons p ps ih =>
    obtain ⟨n, rfl⟩ : ∃ n, fuel = n + 1 := ⟨fuel - 1, by omega⟩
    obtain ⟨c, t, hp, hc⟩ := hhead p (List.mem_cons_self ..)
    have hrest := @ih (fun q hq => hunit q (List.mem_cons_of_mem _ hq))
      (fun q hq => hhead q (List.mem_cons_of_mem _ hq)) n (by simpa using hfuel)
    have hfirst := hunit p (List.mem_cons_self ..) ((ps.map Prod.fst).flatten ++ [stop] ++ rest) trivial
    rw [hp, List.cons_append] at hfirst
    rw [List.map_cons, List.flatten_cons, hp, List.append_assoc, List.append_assoc, List.cons_append, upTo,
      if_neg hc, ← List.append_assoc (ps.map Prod.fst).flatten, hfirst, Option.bind_some, hrest]
    rfl

/-- Items with `sep` between them, up to `close`; `skip` passes over what may stand around
them. -/
def separated (skip : List τ → List τ) (sep close : τ) (item : Reader τ α) : ℕ → Reader τ (List α)
  | 0, _ => none
  | fuel + 1, t => (item t).bind fun p =>
    match skip p.2 with
    | [] => none
    | c :: rest =>
      if c = close then some ([p.1], rest)
      else if c = sep then (separated skip sep close item fuel (skip rest)).map fun q => (p.1 :: q.1, q.2)
      else none

theorem yields_separated {skip : List τ → List τ} {sep close : τ} {item : Reader τ α} (h : item.Yields P) (fuel : ℕ) :
    (separated skip sep close item fuel).Yields fun vs => ∀ v ∈ vs, P v := by
  induction fuel with
  | zero =>
    intro t vs rest hvs
    cases hvs
  | succ fuel ih =>
    intro t vs rest hvs
    rw [separated] at hvs
    obtain ⟨⟨v, u⟩, hv, hvs⟩ := Option.bind_eq_some_iff.mp hvs
    have hfirst := h t v u hv
    dsimp only at hvs
    split at hvs
    · cases hvs
    · split at hvs
      · cases hvs
        exact fun w hw => List.mem_singleton.mp hw ▸ hfirst
      · split at hvs
        · obtain ⟨⟨ws, u'⟩, hws, he⟩ := Option.map_eq_some_iff.mp hvs
          cases he
          exact List.forall_mem_cons.mpr ⟨hfirst, ih _ _ _ hws⟩
        · cases hvs

theorem reads_separated {skip : List τ → List τ} {sep close : τ} (hne : sep ≠ close) {item : Reader τ α}
    {ps : List (List τ × α)} (hps : ps ≠ []) (hitem : ∀ p ∈ ps, item.Reads follow p.1 p.2)
    (hskip : ∀ p ∈ ps, ∀ t, skip (p.1 ++ t) = p.1 ++ t)
    (hclose : ∀ t, skip (close :: t) = close :: t ∧ follow (close :: t))
    (hsep : ∀ t, skip (sep :: t) = sep :: t ∧ follow (sep :: t)) {fuel : ℕ} (hfuel : ps.length ≤ fuel) :
    (separated skip sep close item fuel).Reads anything (List.intercalate [sep] (ps.map Prod.fst) ++ [close])
      (ps.map Prod.snd) := by
  intro rest _
  induction ps generalizing fuel with
  | nil => exact absurd rfl hps
  | cons p ps ih =>
    obtain ⟨n, rfl⟩ : ∃ n, fuel = n + 1 := ⟨fuel - 1, by simp at hfuel; omega⟩
    have hfirst := hitem p (List.mem_cons_self ..)
    cases ps with
    | nil =>
      rw [List.map_singleton, List.intercalate_singleton, List.append_assoc, List.singleton_append, separated,
        hfirst _ (hclose rest).2, Option.bind_some]
      dsimp only
      rw [(hclose rest).1]
      exact if_pos rfl
    | cons q ps =>
      have hrest := @ih (List.cons_ne_nil _ _) (fun x hx => hitem x (List.mem_cons_of_mem _ hx))
        (fun x hx => hskip x (List.mem_cons_of_mem _ hx)) n (by simpa using hfuel)
      obtain ⟨tail, htail⟩ : ∃ tail, List.intercalate [sep] ((q :: ps).map Prod.fst) ++ [close] ++ rest =
          q.1 ++ tail := by
        cases ps with
        | nil => exact ⟨[close] ++ rest, by rw [List.map_singleton, List.intercalate_singleton, List.append_assoc]⟩
        | cons x ps =>
          refine ⟨[sep] ++ (List.intercalate [sep] ((x :: ps).map Prod.fst) ++ ([close] ++ rest)), ?_⟩
          simp only [List.map_cons, List.intercalate_cons_cons, List.append_assoc]
      have hwhole : List.intercalate [sep] ((p :: q :: ps).map Prod.fst) ++ [close] ++ rest =
          p.1 ++ sep :: (q.1 ++ tail) := by
        rw [← htail]
        simp only [List.map_cons, List.intercalate_cons_cons, List.append_assoc, List.cons_append, List.nil_append]
      rw [hwhole, separated, hfirst _ (hsep _).2, Option.bind_some]
      dsimp only
      rw [(hsep _).1]
      dsimp only
      rw [if_neg hne, if_pos rfl, hskip q (by simp) tail, ← htail, hrest]
      rfl

end Reader

end Lib
