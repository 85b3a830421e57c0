import DemoController.Readiness
import DemoController.Images

/-!
# Which pods the log action reads (`demo_logs.py`)

The charm selects a demo's pods by the labels the controller renders: it hashes the
repository as the operator wrote it, where the controller hashes the lower-case name
of the deploy request.
-/

namespace DemoController

open Lib

/-! ### The action -/

/-- `[A-Za-z0-9_.-]+/[A-Za-z0-9_.-]+`. -/
def isOwnerName (t : Text) : Bool :=
  let part := fun p : Text => !p.isEmpty && p.all fun c => c.isAlphanum || c == '_' || c == '.' || c == '-'
  match cut '/' t with
  | none => false
  | some (owner, name) => part owner && part name

def repositoryHash (repository : Text) : Text := (sha256 (encode repository)).take 16

def demoPodSelector (repository : Text) (pr : ℤ) : Labels :=
  [("demos.canonical.com/repository-hash".toList, repositoryHash repository),
    ("demos.canonical.com/pr".toList, decimal pr)]

/-- The selector `_demo_logs_action` lists pods with, `none` where it fails before. -/
def demoLogsSelector (repository : Text) (pr : ℤ) : Option Labels :=
  let repository := strip isSpace repository
  if isOwnerName repository then some (demoPodSelector repository pr) else none

/-- The operator's repository and pull request name the demo of the record, up to
letter case. -/
def DemoRecord.NamedBy (record : DemoRecord) (repository : Text) (pr : ℤ) : Prop :=
  repository.map Char.toLower = record.repository.map Char.toLower ∧ pr = record.pr

/-! ### Letter case -/

/-- The name of a repository is in lower case. -/
theorem repository_not_upper {repository : Text} (h : isRepository repository = true) :
    ∀ c ∈ repository, c.isUpper = false := by
  obtain ⟨owner, name, rfl, howner, hname⟩ := repository_parts h
  intro c hc
  rcases List.mem_append.mp hc with hc | hc
  · exact (segment_lowerAscii howner c hc).2
  · rcases List.mem_cons.mp hc with rfl | hc
    · decide
    · exact (segment_lowerAscii hname c hc).2

theorem eq_iff_same_upTo_case {t repository : Text} (h : ∀ c ∈ repository, c.isUpper = false) :
    t = repository ↔ t.map Char.toLower = repository.map Char.toLower ∧ ∀ c ∈ t, c.isUpper = false := by
  constructor
  · intro he
    exact ⟨by rw [he], by rw [he]; exact h⟩
  · rintro ⟨hmap, ht⟩
    rw [map_toLower_eq_self ht, map_toLower_eq_self h] at hmap
    exact hmap

theorem lower_guard_iff (same lower pull : Prop) :
    ((same ∧ lower) ∧ pull ↔ same ∧ pull) ↔ (same ∧ pull → lower) := by
  tauto

/-! ### Selector and labels -/

theorem selector_subset_iff (cm : CaseMapping) (record : DemoRecord) (project : ProjectConfig) (version : PyInt)
    (ns owner : Text) (repository : Text) (pr : ℤ) :
    demoPodSelector repository pr ⊆ (renderResources cm record project version ns owner).deployment.podLabels ↔
      repositoryHash repository = repositoryHash record.repository ∧ decimal pr = decimal record.pr := by
  have hlabels : (renderResources cm record project version ns owner).deployment.podLabels =
      repositoryLabels record.repository record.pr owner ++
        [("app".toList, resourceName cm record.repository record.pr)] := rfl
  have h1 : "demos.canonical.com/repository-hash".toList ≠ "app.kubernetes.io/managed-by".toList := by decide
  have h2 : "demos.canonical.com/repository-hash".toList ≠ "demos.canonical.com/pr".toList := by decide
  have h3 : "demos.canonical.com/repository-hash".toList ≠ "app".toList := by decide
  have h4 : "demos.canonical.com/pr".toList ≠ "app.kubernetes.io/managed-by".toList := by decide
  have h5 : "demos.canonical.com/pr".toList ≠ "app".toList := by decide
  rw [hlabels, demoPodSelector, List.cons_subset, List.cons_subset, repositoryLabels]
  simp only [List.mem_append, List.mem_cons, Prod.mk.injEq, h1, h2, h3, h4, h5, h2.symm, false_and, true_and,
    false_or, or_false, List.not_mem_nil, List.nil_subset, and_true]
  exact Iff.rfl

/-- The log action's selector is contained in the labels of a deployed demo's pods for the
demo named, and for no other one, exactly when it is not the demo named or the operator
wrote its repository in lower case. -/
theorem log_selector_iff (cm : CaseMapping) {repository : Text} {pr : ℤ} {selector : Labels}
    (haction : demoLogsSelector repository pr = some selector) (request : DeployRequest cm) {record : DemoRecord}
    (hkey : record.key = (request.repository, request.pr)) (project : ProjectConfig) (version : PyInt) (ns owner : Text)
    (hcollision : strip isSpace repository ≠ record.repository →
      repositoryHash (strip isSpace repository) ≠ repositoryHash record.repository) :
    (selector ⊆ (renderResources cm record project version ns owner).deployment.podLabels ↔
        record.NamedBy (strip isSpace repository) pr) ↔
      (record.NamedBy (strip isSpace repository) pr → ∀ c ∈ strip isSpace repository, c.isUpper = false) := by
  obtain ⟨hrepository, hpr⟩ := Prod.mk.inj hkey
  have hlower : ∀ c ∈ record.repository, c.isUpper = false := by
    rw [hrepository]
    exact repository_not_upper request.repository_ok
  have hnonneg : 0 ≤ record.pr := by
    have hp := request.pr_ok.1
    rw [hpr]
    omega
  have hselector : selector = demoPodSelector (strip isSpace repository) pr := by
    unfold demoLogsSelector at haction
    dsimp only at haction
    split at haction
    · exact (Option.some.inj haction).symm
    · cases haction
  have hhash : repositoryHash (strip isSpace repository) = repositoryHash record.repository ↔
      strip isSpace repository = record.repository := by
    constructor
    · intro h
      by_contra hne
      exact hcollision hne h
    · exact congrArg repositoryHash
  have hdecimal : decimal pr = decimal record.pr ↔ pr = record.pr :=
    ⟨decimal_eq_of_nonneg hnonneg, congrArg decimal⟩
  rw [hselector, selector_subset_iff, hhash, hdecimal, eq_iff_same_upTo_case hlower, DemoRecord.NamedBy]
  exact lower_guard_iff _ _ _

theorem log_selector_iff_example :
    (demoPodSelector "canonical/example".toList 8 ⊆
          (renderResources .ascii exampleRecord exampleConfig (.int 2) "default".toList
            "demo-controller".toList).deployment.podLabels ↔
        exampleRecord.NamedBy "canonical/example".toList 8) ↔
      (exampleRecord.NamedBy "canonical/example".toList 8 → ∀ c ∈ "canonical/example".toList, c.isUpper = false) :=
  @log_selector_iff .ascii " canonical/example\n".toList 8 _ rfl exampleDeploy exampleRecord rfl exampleConfig
    (.int 2) _ _ fun hne => absurd rfl hne

/-- `Canonical/Example` names a demo of `canonical/example`, and its hash is another one. -/
theorem capital_repository_not_selected : ¬ ∀ (repository : Text) (pr : ℤ) (selector : Labels)
    (request : DeployRequest .ascii) (record : DemoRecord), demoLogsSelector repository pr = some selector →
    record.key = (request.repository, request.pr) → record.NamedBy (strip isSpace repository) pr →
    selector ⊆ (renderResources .ascii record exampleConfig (.int 2) "default".toList
      "owner".toList).deployment.podLabels := by
  intro all
  have hselected := all "Canonical/Example".toList 8 _ exampleDeploy exampleRecord rfl rfl ⟨by decide, rfl⟩
  have hhash : repositoryHash "Canonical/Example".toList ≠ repositoryHash "canonical/example".toList := by
    decide +kernel
  exact hhash ((selector_subset_iff ..).mp hselected).1

end DemoController
