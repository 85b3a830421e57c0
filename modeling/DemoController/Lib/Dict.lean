import Mathlib.Data.List.Nodup
import Mathlib.Data.List.Perm.Basic
import Mathlib.Tactic.Common

/-!
# Python's `dict`

The items in insertion order. Setting a name that is there replaces its value in
place, so of the values given for one name the last is kept.
-/

namespace Lib.Dict

variable {κ ν : Type} [DecidableEq κ]

def set (d : List (κ × ν)) (k : κ) (v : ν) : List (κ × ν) :=
  if k ∈ d.map Prod.fst then d.map fun p => if p.1 = k then (k, v) else p else d ++ [(k, v)]

/-- `{key: value for key, value in items}`. -/
def ofItems (items : List (κ × ν)) : List (κ × ν) := items.foldl (fun d p => set d p.1 p.2) []

variable {d items : List (κ × ν)} {k : κ} {v : ν}

theorem map_fst_set : (set d k v).map Prod.fst =
    if k ∈ d.map Prod.fst then d.map Prod.fst else d.map Prod.fst ++ [k] := by
  unfold set
  split
  · rw [List.map_map]
    refine List.map_congr_left fun p _ => ?_
    rw [Function.comp_apply]
    split
    · next hp => exact hp.symm
    · rfl
  · rw [List.map_append, List.map_singleton]

@[simp] theorem lookup_set [BEq κ] [LawfulBEq κ] : (set d k v).lookup k = some v := by
  unfold set
  split
  · next hk =>
    induction d with
    | nil => cases hk
    | cons p d ih =>
      rw [List.map_cons]
      by_cases hp : p.1 = k
      · rw [if_pos hp, List.lookup_cons, beq_self_eq_true]
      · rw [if_neg hp]
        have hrest : k ∈ d.map Prod.fst := by
          rw [List.map_cons, List.mem_cons] at hk
          exact hk.resolve_left (Ne.symm hp)
        obtain ⟨key, value⟩ := p
        rw [List.lookup_cons, beq_false_of_ne (Ne.symm hp)]
        exact ih hrest
  · next hk =>
    have hnone : d.lookup k = none := by
      rw [List.lookup_eq_none_iff]
      intro p hp
      have hne : k ≠ p.1 := by
        rintro rfl
        exact hk (List.mem_map_of_mem hp)
      exact bne_iff_ne.mpr hne
    rw [List.lookup_append, hnone, List.lookup_cons, beq_self_eq_true]
    rfl

theorem nodup_set (h : (d.map Prod.fst).Nodup) : ((set d k v).map Prod.fst).Nodup := by
  rw [map_fst_set]
  split
  · exact h
  · next hk => exact h.append (List.nodup_singleton k) (by simpa using hk)

theorem nodup_foldl (h : (d.map Prod.fst).Nodup) :
    ((items.foldl (fun d p => set d p.1 p.2) d).map Prod.fst).Nodup := by
  induction items generalizing d with
  | nil => exact h
  | cons p items ih => exact ih (nodup_set h)

theorem nodup_ofItems (items : List (κ × ν)) : ((ofItems items).map Prod.fst).Nodup := nodup_foldl List.nodup_nil

theorem mem_of_set {p : κ × ν} (h : p ∈ set d k v) : p = (k, v) ∨ p ∈ d := by
  unfold set at h
  split at h
  · obtain ⟨q, hq, rfl⟩ := List.mem_map.mp h
    split
    · exact .inl rfl
    · exact .inr hq
  · rcases List.mem_append.mp h with h | h
    · exact .inr h
    · exact .inl (List.mem_singleton.mp h)

theorem mem_of_ofItems {p : κ × ν} (h : p ∈ ofItems items) : p ∈ items := by
  have hfold : ∀ d : List (κ × ν), p ∈ items.foldl (fun d p => set d p.1 p.2) d → p ∈ d ∨ p ∈ items := by
    clear h
    induction items with
    | nil => exact fun d hp => .inl hp
    | cons q items ih =>
      intro d hp
      rcases ih _ hp with hp | hp
      · rcases mem_of_set hp with rfl | hp
        · exact .inr (List.mem_cons_self ..)
        · exact .inl hp
      · exact .inr (List.mem_cons_of_mem _ hp)
  exact (hfold [] h).resolve_left List.not_mem_nil

theorem filter_map_replace (q : κ → Bool) (d : List (κ × ν)) (k : κ) (v : ν) :
    (d.map fun p => if p.1 = k then (k, v) else p).filter (fun p => q p.1) =
      (d.filter fun p => q p.1).map fun p => if p.1 = k then (k, v) else p := by
  rw [List.filter_map]
  refine congrArg _ (List.filter_congr fun p _ => ?_)
  rw [Function.comp_apply]
  split
  · next hp => rw [hp]
  · rfl

theorem filter_set (q : κ → Bool) (d : List (κ × ν)) (k : κ) (v : ν) :
    (set d k v).filter (fun p => q p.1) =
      if q k then set (d.filter fun p => q p.1) k v else d.filter fun p => q p.1 := by
  have hmem : q k = true → (k ∈ (d.filter fun p => q p.1).map Prod.fst ↔ k ∈ d.map Prod.fst) := by
    intro hk
    simp only [List.mem_map, List.mem_filter]
    constructor
    · rintro ⟨p, ⟨hp, -⟩, hpk⟩
      exact ⟨p, hp, hpk⟩
    · rintro ⟨p, hp, hpk⟩
      exact ⟨p, ⟨hp, by rw [hpk]; exact hk⟩, hpk⟩
  by_cases hk : q k = true
  · rw [if_pos hk, set, set]
    by_cases hin : k ∈ d.map Prod.fst
    · rw [if_pos hin, if_pos ((hmem hk).mpr hin), filter_map_replace]
    · rw [if_neg hin, if_neg fun h => hin ((hmem hk).mp h), List.filter_append, List.filter_cons,
        if_pos hk, List.filter_nil]
  · rw [if_neg hk, set]
    split
    · rw [filter_map_replace]
      refine (List.map_congr_left fun p hp => ?_).trans (List.map_id _)
      refine if_neg ?_
      rintro rfl
      exact hk (List.mem_filter.mp hp).2
    · rw [List.filter_append, List.filter_cons, if_neg hk, List.filter_nil, List.append_nil]

theorem filter_ofItems (q : κ → Bool) (items : List (κ × ν)) :
    (ofItems items).filter (fun p => q p.1) = ofItems (items.filter fun p => q p.1) := by
  have h : ∀ d : List (κ × ν), (items.foldl (fun d p => set d p.1 p.2) d).filter (fun p => q p.1) =
      (items.filter fun p => q p.1).foldl (fun d p => set d p.1 p.2) (d.filter fun p => q p.1) := by
    induction items with
    | nil => exact fun d => rfl
    | cons p items ih =>
      intro d
      rw [List.foldl_cons, ih, filter_set, List.filter_cons]
      split
      · rfl
      · rfl
  exact h []

theorem set_of_notMem (h : k ∉ d.map Prod.fst) : set d k v = d ++ [(k, v)] := if_neg h

theorem ofItems_of_nodup (h : (items.map Prod.fst).Nodup) : ofItems items = items := by
  have hfold : ∀ d : List (κ × ν), ((d ++ items).map Prod.fst).Nodup →
      items.foldl (fun d p => set d p.1 p.2) d = d ++ items := by
    clear h
    induction items with
    | nil => exact fun d _ => (List.append_nil d).symm
    | cons p items ih =>
      intro d hd
      rw [List.append_cons] at hd
      have hnotin : p.1 ∉ d.map Prod.fst := by
        rw [List.map_append, List.map_append] at hd
        have hdisjoint := List.disjoint_of_nodup_append (List.Nodup.of_append_left hd)
        exact fun hp => hdisjoint hp (List.mem_singleton.mpr rfl)
      rw [List.foldl_cons, set_of_notMem hnotin, ih _ hd, ← List.append_cons]
  exact hfold [] h

theorem filter_set_self (h : (d.map Prod.fst).Nodup) :
    (set d k v).filter (fun p => decide (p.1 = k)) = [(k, v)] := by
  rw [filter_set (fun n => decide (n = k)), if_pos (decide_eq_true rfl), set]
  have hsub : ((d.filter fun p => decide (p.1 = k)).map Prod.fst).Nodup := h.sublist (List.filter_sublist.map _)
  have hall : ∀ p ∈ d.filter (fun p => decide (p.1 = k)), p.1 = k := fun p hp =>
    of_decide_eq_true (List.mem_filter.mp hp).2
  generalize d.filter (fun p => decide (p.1 = k)) = e at hsub hall
  match e with
  | [] => rfl
  | [p] =>
    have hp := hall p (List.mem_cons_self ..)
    rw [if_pos (List.mem_map.mpr ⟨p, List.mem_cons_self .., hp⟩), List.map_singleton, if_pos hp]
  | p :: q :: e =>
    have hpq : p.1 = q.1 := (hall p (by simp)).trans (hall q (by simp)).symm
    rw [List.map_cons, List.map_cons, hpq] at hsub
    exact absurd (List.mem_cons_self ..) (List.nodup_cons.mp hsub).1

end Lib.Dict
