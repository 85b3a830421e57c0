import DemoController.StoreHistory

/-!
# Which row a hostname is routed to

The lookup scans the routable rows and takes the first whose hostname matches.
The hostname holds the pull request and the slug of the project, so it decides
between rows exactly as far as these do.
-/

namespace DemoController

open Lib

variable {cm : CaseMapping}

/-- The two demos have one hostname: the same pull request number and the same 40
slug characters of the project name. -/
def SharesHost (cm : CaseMapping) (q r : DemoRecord) : Prop :=
  q.pr = r.pr ∧ (slug cm (projectOf q.repository)).take 40 = (slug cm (projectOf r.repository)).take 40

theorem mem_sinceDeletion_key {k : Key} {h : List (StoreEvent cm)} {e : StoreEvent cm}
    (he : e ∈ sinceDeletion k h) : e.key = k := by
  induction h with
  | nil => cases he
  | cons f h ih =>
    rw [sinceDeletion] at he
    split at he
    · next hk =>
      split at he
      · cases he
      · rcases List.mem_cons.mp he with rfl | he
        · exact hk
        · exact ih he
    · exact ih he

theorem request_of_desired {s : Store} {h : List (StoreEvent cm)} (hr : RecordsAll s h) {row : DemoRecord}
    (hm : row ∈ s.demos.rows) (hd : row.desiredPresent = true) :
    ∃ request : DeployRequest cm, request.repository = row.repository ∧ request.pr = row.pr := by
  have hrow := hr row.key
  rw [Table.get_of_mem hm] at hrow
  obtain ⟨e, he, hv⟩ := List.exists_of_findSome?_eq_some (Describes.delivery hrow)
  have hk := mem_sinceDeletion_key he
  cases e with
  | deployed request hash now => exact ⟨request, congrArg Prod.fst hk, congrArg Prod.snd hk⟩
  | destroyed =>
    rw [hd] at hv
    cases hv
  | updated | deleted => cases hv

theorem pr_pos_of_desired {s : Store} {h : List (StoreEvent cm)} (hr : RecordsAll s h) {row : DemoRecord}
    (hm : row ∈ s.demos.rows) (hd : row.desiredPresent = true) : 0 ≤ row.pr := by
  obtain ⟨request, -, hpr⟩ := request_of_desired hr hm hd
  have hp := request.pr_ok.1
  omega

theorem desired_of_routable {r : DemoRecord} (h : r.routable = true) : r.desiredPresent = true := by
  simp only [DemoRecord.routable, Bool.and_eq_true] at h
  exact h.1.1

theorem hostname_eq_iff_sharesHost {s : Store} {h : List (StoreEvent cm)} (hr : RecordsAll s h)
    {q r : DemoRecord} (hq : q ∈ s.demos.rows) (hqr : q.routable = true) (hm : r ∈ s.demos.rows)
    (hrr : r.routable = true) (suffix : Text) :
    hostname cm q.repository q.pr suffix = hostname cm r.repository r.pr suffix ↔ SharesHost cm q r :=
  hostname_eq_iff cm (pr_pos_of_desired hr hq (desired_of_routable hqr))
    (pr_pos_of_desired hr hm (desired_of_routable hrr))

/-- In every reachable store the lookup with the hostname of a routable row returns a
routable row that shares its host, and returns the row itself exactly when no routable
row before it in the table shares its host. -/
theorem hostname_routes_first {s : Store} {h : List (StoreEvent cm)}
    (run : Run storeStep anyStep Store.empty [] s h) (suffix : Text) {r : DemoRecord}
    (hm : r ∈ s.demos.rows) (hrr : r.routable = true) :
    (∃ q ∈ s.demos.rows, q.routable = true ∧ SharesHost cm q r ∧
      s.getReadyByHostname cm suffix (Store.status cm suffix r).hostname = some q) ∧
    (s.getReadyByHostname cm suffix (Store.status cm suffix r).hostname = some r ↔
      ∃ before after, s.demos.rows = before ++ r :: after ∧
        ∀ q ∈ before, q.routable = true → ¬ SharesHost cm q r) := by
  have hr := recordsAll_of_run run
  have hscan : s.getReadyByHostname cm suffix (Store.status cm suffix r).hostname =
      s.demos.rows.find? fun q => q.routable &&
        decide (hostname cm q.repository q.pr suffix = hostname cm r.repository r.pr suffix) := by
    simp only [Store.getReadyByHostname, Store.status, List.find?_filter, Bool.decide_and,
      Bool.decide_eq_true]
    rfl
  have hiff (q : DemoRecord) (hq : q ∈ s.demos.rows) (hqr : q.routable = true) :=
    hostname_eq_iff_sharesHost hr hq hqr hm hrr suffix
  rw [hscan]
  constructor
  · obtain ⟨q, hfind⟩ : ∃ q, (s.demos.rows.find? fun q => q.routable &&
        decide (hostname cm q.repository q.pr suffix = hostname cm r.repository r.pr suffix)) = some q := by
      rw [← Option.isSome_iff_exists, List.find?_isSome]
      exact ⟨r, hm, by simp [hrr]⟩
    have hq := List.mem_of_find?_eq_some hfind
    have hp := List.find?_some hfind
    simp only [Bool.and_eq_true, decide_eq_true_eq] at hp
    exact ⟨q, hq, hp.1, (hiff q hq hp.1).mp hp.2, hfind⟩
  · rw [List.find?_eq_some_iff_append]
    constructor
    · rintro ⟨-, before, after, hsplit, hno⟩
      refine ⟨before, after, hsplit, fun q hq hqr hshare => ?_⟩
      have hqm : q ∈ s.demos.rows := hsplit ▸ List.mem_append_left _ hq
      have hn := hno q hq
      simp [hqr, (hiff q hqm hqr).mpr hshare] at hn
    · rintro ⟨before, after, hsplit, hno⟩
      refine ⟨by simp [hrr], before, after, hsplit, fun q hq => ?_⟩
      have hqm : q ∈ s.demos.rows := hsplit ▸ List.mem_append_left _ hq
      by_cases hqr : q.routable = true
      · have hne : hostname cm q.repository q.pr suffix ≠ hostname cm r.repository r.pr suffix :=
          fun e => hno q hq hqr ((hiff q hqm hqr).mp e)
        simpa [hqr] using hne
      · simp [hqr]

/-! ### Two repositories with one hostname -/

def otherDeploy : DeployRequest CaseMapping.ascii where
  repository := "other/example".toList
  pr := 8
  commitSha := List.replicate 40 'c'
  image := "ghcr.io/other/example@sha256:".toList ++ exampleDigest
  deliveryId := "delivery-1".toList
  repository_ok := by decide
  pr_ok := exampleDeploy.pr_ok
  commitSha_ok := by decide
  image_ok := by decide
  deliveryId_ok := by decide

def twoOwners : List (StoreCall CaseMapping.ascii) :=
  [.upsertDeploy exampleDeploy exampleHash 100,
    .updateState exampleKey.1 exampleKey.2 .ready [] (some 2) (some 8000) 110,
    .upsertDeploy otherDeploy exampleHash 120,
    .updateState "other/example".toList 8 .ready [] (some 1) (some 9000) 130]

def otherRow : DemoRecord :=
  (DemoRecord.ofDeploy otherDeploy exampleHash 120 120).withState .ready [] (some 1) (some 9000) 130

theorem hostname_routes_first_example :
    ∃ q ∈ (runCalls twoOwners).1.demos.rows, q.routable = true ∧ SharesHost CaseMapping.ascii q otherRow ∧
      (runCalls twoOwners).1.getReadyByHostname CaseMapping.ascii "demos.canonical.com".toList
        (Store.status CaseMapping.ascii "demos.canonical.com".toList otherRow).hostname = some q :=
  (hostname_routes_first (run_of_calls twoOwners) "demos.canonical.com".toList (by decide) (by decide)).1

/-- The second owner's demo is routable, yet its hostname leads to the first owner's. -/
theorem hostname_shared_by_owners : ¬ ∀ (s : Store) (h : List (StoreEvent CaseMapping.ascii)),
    Run storeStep anyStep Store.empty [] s h → ∀ suffix, ∀ r ∈ s.demos.rows, r.routable = true →
      s.getReadyByHostname CaseMapping.ascii suffix (Store.status CaseMapping.ascii suffix r).hostname =
        some r := by
  intro all
  have hroute := all _ _ (run_of_calls twoOwners) "demos.canonical.com".toList otherRow (by decide) (by decide)
  revert hroute
  decide

end DemoController
