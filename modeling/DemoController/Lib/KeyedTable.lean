import Mathlib.Data.List.Nodup
import Mathlib.Data.List.Basic
import Mathlib.Tactic.Common

/-!
# Tables with a primary key

A table is a list of rows in scan order together with a proof that no two rows
have the same key, so a table with a duplicate key cannot be written down. The
statements are the ones a relational store offers on a key: select, insert,
insert-or-update, update and delete. Insertion appends, so the list order is
the order in which a scan without an index returns the rows.
-/

namespace Lib

variable {κ ρ : Type}

structure Table (key : ρ → κ) where
  rows : List ρ
  unique : (rows.map key).Nodup

namespace Table

variable {key : ρ → κ}

@[ext] theorem ext {t u : Table key} (h : t.rows = u.rows) : t = u := by
  cases t
  cases u
  cases h
  rfl

def empty : Table key := ⟨[], List.nodup_nil⟩

theorem row_inj (t : Table key) {r q : ρ} (hr : r ∈ t.rows) (hq : q ∈ t.rows)
    (h : key r = key q) : r = q :=
  List.inj_on_of_nodup_map t.unique hr hq h

/-! ### Rewriting rows in place -/

def mapRows (t : Table key) (f : ρ → ρ) (hf : ∀ r, key (f r) = key r) : Table key where
  rows := t.rows.map f
  unique := by
    have h : (t.rows.map f).map key = t.rows.map key := by
      rw [List.map_map]
      exact List.map_congr_left fun r _ => hf r
    rw [h]
    exact t.unique

def filterRows (t : Table key) (p : ρ → Bool) : Table key where
  rows := t.rows.filter p
  unique := t.unique.sublist (List.filter_sublist.map key)

variable [DecidableEq κ]

/-! ### Statements on one key -/

def get (t : Table key) (k : κ) : Option ρ := t.rows.find? fun r => key r = k

/-- `UPDATE ... WHERE key = k`: no row is touched when the key is absent. -/
def update (t : Table key) (k : κ) (f : ρ → ρ) (hf : ∀ r, key (f r) = key r) : Table key :=
  t.mapRows (fun r => if key r = k then f r else r) fun r => by
    split
    · exact hf r
    · rfl

def erase (t : Table key) (k : κ) : Table key := t.filterRows fun r => key r ≠ k

/-- `INSERT`: the primary key refuses a second row, leaving the table as it is. -/
def insert (t : Table key) (r : ρ) : Table key :=
  if h : key r ∈ t.rows.map key then t
  else ⟨t.rows ++ [r], by
    rw [List.map_append]
    exact t.unique.append (List.nodup_singleton _) (by simpa using h)⟩

def upsert (t : Table key) (r : ρ) (f : ρ → ρ) (hf : ∀ q, key (f q) = key q) : Table key :=
  if key r ∈ t.rows.map key then t.update (key r) f hf else t.insert r

theorem get_eq_some_iff {t : Table key} {k : κ} {r : ρ} :
    t.get k = some r ↔ r ∈ t.rows ∧ key r = k := by
  constructor
  · intro h
    exact ⟨List.mem_of_find?_eq_some h, by simpa using List.find?_some h⟩
  · rintro ⟨hr, rfl⟩
    cases h : t.get (key r) with
    | none =>
      have hn := List.find?_eq_none.mp h r hr
      simp at hn
    | some q =>
      have hq : key q = key r := by simpa using List.find?_some h
      rw [t.row_inj (List.mem_of_find?_eq_some h) hr hq]

theorem get_eq_none_iff {t : Table key} {k : κ} : t.get k = none ↔ k ∉ t.rows.map key := by
  simp only [get, List.find?_eq_none, decide_eq_true_eq, List.mem_map, not_exists, not_and]

theorem get_key {t : Table key} {k : κ} {r : ρ} (h : t.get k = some r) : key r = k :=
  (get_eq_some_iff.mp h).2

theorem key_mem_of_get {t : Table key} {k : κ} {r : ρ} (h : t.get k = some r) :
    k ∈ t.rows.map key :=
  List.mem_map.mpr ⟨r, get_eq_some_iff.mp h⟩

theorem get_of_mem {t : Table key} {r : ρ} (h : r ∈ t.rows) : t.get (key r) = some r :=
  get_eq_some_iff.mpr ⟨h, rfl⟩

theorem mem_of_get {t : Table key} {k : κ} {r : ρ} (h : t.get k = some r) : r ∈ t.rows :=
  (get_eq_some_iff.mp h).1

/-! ### How the statements compose with selection -/

theorem get_mapRows (t : Table key) (k : κ) (f : ρ → ρ) (hf : ∀ r, key (f r) = key r) :
    (t.mapRows f hf).get k = (t.get k).map f := by
  have hp : ((fun r => decide (key r = k)) ∘ f) = fun r => decide (key r = k) := by
    funext r
    simp only [Function.comp_apply, hf]
  simp only [get, mapRows, List.find?_map, hp]

@[simp] theorem get_update_self (t : Table key) (k : κ) (f : ρ → ρ) (hf : ∀ r, key (f r) = key r) :
    (t.update k f hf).get k = (t.get k).map f := by
  rw [update, get_mapRows]
  cases h : t.get k with
  | none => rfl
  | some r => simp only [Option.map_some, get_key h, if_true]

theorem get_update_of_ne (t : Table key) {k j : κ} (f : ρ → ρ) (hf : ∀ r, key (f r) = key r)
    (h : j ≠ k) : (t.update k f hf).get j = t.get j := by
  rw [update, get_mapRows]
  cases hj : t.get j with
  | none => rfl
  | some r =>
    have hr : key r ≠ k := fun e => h (by rw [← get_key hj, e])
    simp only [Option.map_some, if_neg hr]

theorem get_filterRows (t : Table key) (p : ρ → Bool) (k : κ) :
    (t.filterRows p).get k = (t.get k).filter p := by
  cases h : t.get k with
  | none =>
    rw [Option.filter_none, get_eq_none_iff]
    intro hk
    obtain ⟨r, hr, rfl⟩ := List.mem_map.mp hk
    have hg := get_of_mem (List.mem_filter.mp hr).1
    rw [h] at hg
    cases hg
  | some r =>
    have hr := get_eq_some_iff.mp h
    by_cases hp : p r = true
    · rw [Option.filter_some_pos hp]
      exact get_eq_some_iff.mpr ⟨List.mem_filter.mpr ⟨hr.1, hp⟩, hr.2⟩
    · rw [Option.filter_some_neg (by simpa using hp), get_eq_none_iff]
      intro hk
      obtain ⟨q, hq, hqk⟩ := List.mem_map.mp hk
      have hq' := List.mem_filter.mp hq
      have he : q = r := t.row_inj hq'.1 hr.1 (hqk.trans hr.2.symm)
      exact hp (he ▸ hq'.2)

@[simp] theorem get_erase_self (t : Table key) (k : κ) : (t.erase k).get k = none := by
  rw [erase, get_filterRows]
  cases h : t.get k with
  | none => rfl
  | some r => exact Option.filter_some_neg (by simp [get_key h])

theorem get_erase_of_ne (t : Table key) {k j : κ} (h : j ≠ k) : (t.erase k).get j = t.get j := by
  rw [erase, get_filterRows]
  cases hj : t.get j with
  | none => rfl
  | some r => exact Option.filter_some_pos (by simpa [get_key hj] using h)

theorem insert_rows (t : Table key) {r : ρ} (h : t.get (key r) = none) :
    (t.insert r).rows = t.rows ++ [r] := by
  simp only [insert, dif_neg (get_eq_none_iff.mp h)]

theorem insert_present (t : Table key) {r q : ρ} (h : t.get (key r) = some q) : t.insert r = t := by
  simp only [insert, dif_pos (key_mem_of_get h)]

theorem get_insert_self (t : Table key) {r : ρ} (h : t.get (key r) = none) :
    (t.insert r).get (key r) = some r := by
  rw [get_eq_some_iff, insert_rows t h]
  simp

theorem get_insert_of_ne (t : Table key) {r : ρ} {j : κ} (h : j ≠ key r) :
    (t.insert r).get j = t.get j := by
  cases hr : t.get (key r) with
  | some q => rw [insert_present t hr]
  | none =>
    have hj : decide (key r = j) = false := decide_eq_false h.symm
    simp only [get, insert_rows t hr, List.find?_append, List.find?_cons, hj, List.find?_nil,
      Option.or_none]

theorem upsert_absent (t : Table key) {r : ρ} (f : ρ → ρ) (hf : ∀ q, key (f q) = key q)
    (h : t.get (key r) = none) : t.upsert r f hf = t.insert r := by
  rw [upsert, if_neg (get_eq_none_iff.mp h)]

theorem upsert_present (t : Table key) {r q : ρ} (f : ρ → ρ) (hf : ∀ q, key (f q) = key q)
    (h : t.get (key r) = some q) : t.upsert r f hf = t.update (key r) f hf := by
  rw [upsert, if_pos (key_mem_of_get h)]

theorem get_upsert_of_ne (t : Table key) {r : ρ} {j : κ} (f : ρ → ρ) (hf : ∀ q, key (f q) = key q)
    (h : j ≠ key r) : (t.upsert r f hf).get j = t.get j := by
  cases hr : t.get (key r) with
  | none => rw [upsert_absent t f hf hr, get_insert_of_ne t h]
  | some q => rw [upsert_present t f hf hr, get_update_of_ne t f hf h]

/-! ### Two statements -/

theorem update_update (t : Table key) (k : κ) (f g : ρ → ρ) (hf : ∀ r, key (f r) = key r)
    (hg : ∀ r, key (g r) = key r) :
    (t.update k f hf).update k g hg = t.update k (g ∘ f) fun r => (hg (f r)).trans (hf r) := by
  apply Table.ext
  show (t.rows.map _).map _ = t.rows.map _
  rw [List.map_map]
  refine List.map_congr_left fun r _ => ?_
  by_cases hr : key r = k
  · simp only [Function.comp_apply, if_pos hr, hf]
  · simp only [Function.comp_apply, if_neg hr]

theorem erase_update (t : Table key) (k : κ) (f : ρ → ρ) (hf : ∀ r, key (f r) = key r) :
    (t.update k f hf).erase k = t.erase k := by
  apply Table.ext
  show (t.rows.map _).filter _ = t.rows.filter _
  rw [List.filter_map]
  have hkept : ((fun r => decide (key r ≠ k)) ∘ fun r => if key r = k then f r else r) = fun r => decide (key r ≠ k) := by
    funext r
    by_cases hr : key r = k
    · simp only [Function.comp_apply, if_pos hr, hf]
    · simp only [Function.comp_apply, if_neg hr]
  rw [hkept]
  refine (List.map_congr_left fun r hr => ?_).trans (List.map_id _)
  exact if_neg (of_decide_eq_true (List.mem_filter.mp hr).2)

theorem update_comm (t : Table key) {k j : κ} (h : k ≠ j) (f g : ρ → ρ) (hf : ∀ r, key (f r) = key r)
    (hg : ∀ r, key (g r) = key r) : (t.update k f hf).update j g hg = (t.update j g hg).update k f hf := by
  apply Table.ext
  show (t.rows.map _).map _ = (t.rows.map _).map _
  rw [List.map_map, List.map_map]
  refine List.map_congr_left fun r _ => ?_
  by_cases hk : key r = k
  · have hj : key r ≠ j := hk ▸ h
    simp only [Function.comp_apply, if_pos hk, if_neg hj, hf]
  · by_cases hj : key r = j
    · simp only [Function.comp_apply, if_neg hk, if_pos hj, hg]
    · simp only [Function.comp_apply, if_neg hk, if_neg hj]

theorem update_erase_comm (t : Table key) (k j : κ) (f : ρ → ρ) (hf : ∀ r, key (f r) = key r) :
    (t.update k f hf).erase j = (t.erase j).update k f hf := by
  apply Table.ext
  show (t.rows.map _).filter _ = (t.rows.filter _).map _
  rw [List.filter_map]
  refine congrArg _ (List.filter_congr fun r _ => ?_)
  by_cases hk : key r = k
  · simp only [Function.comp_apply, if_pos hk, hf]
  · simp only [Function.comp_apply, if_neg hk]

theorem erase_comm (t : Table key) (k j : κ) : (t.erase k).erase j = (t.erase j).erase k := by
  apply Table.ext
  show (t.rows.filter _).filter _ = (t.rows.filter _).filter _
  rw [List.filter_filter, List.filter_filter]
  exact List.filter_congr fun r _ => Bool.and_comm ..

/-! ### The rows of some keys

A view of a table selects the rows whose keys satisfy a test, in scan order. A
statement on one key acts on the view as on the table when the key is selected,
and not at all when it is not. -/

def restrict (t : Table key) (q : κ → Bool) : Table key := t.filterRows fun r => q (key r)

theorem restrict_update (t : Table key) (q : κ → Bool) (k : κ) (f : ρ → ρ)
    (hf : ∀ r, key (f r) = key r) : (t.update k f hf).restrict q = (t.restrict q).update k f hf := by
  have hq : ((fun r => q (key r)) ∘ fun r => if key r = k then f r else r) = fun r => q (key r) := by
    funext r
    by_cases hr : key r = k
    · simp only [Function.comp_apply, if_pos hr, hf]
    · simp only [Function.comp_apply, if_neg hr]
  apply Table.ext
  simp only [restrict, update, filterRows, mapRows, List.filter_map, hq]

theorem restrict_erase (t : Table key) (q : κ → Bool) (k : κ) :
    (t.erase k).restrict q = (t.restrict q).erase k := by
  apply Table.ext
  simp only [restrict, erase, filterRows, List.filter_filter, Bool.and_comm]

end Table

end Lib
