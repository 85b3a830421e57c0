import DemoController.Kubernetes

/-!
# Which demos share their Kubernetes objects

`resource_name` ends with the pull request, so the cut at 63 characters falls on
its digits: the slug and the digest always stay, and of the digits as many as the
slug has left room for. Two demos of one repository share a name exactly when
their numbers agree in those digits.
-/

namespace DemoController

open Lib

/-! ### The name after the cut -/

def nameDigest (repository : Text) : Text := (sha256 (encode repository)).take 8

theorem nameDigest_length (repository : Text) : (nameDigest repository).length = 8 := by
  rw [nameDigest, List.length_take, sha256_length]
  rfl

theorem dash_notMem_nameDigest (repository : Text) : '-' ∉ nameDigest repository := by
  intro h
  have hx := hex_digits _ _ (List.mem_of_mem_take h)
  revert hx
  decide

/-- The slug in the name. -/
def nameSlug (cm : CaseMapping) (repository : Text) : Text :=
  (strip (· == '-') (collapse false ((cm.lower repository).map fun c => if c = '/' then '-' else c))).take 39

/-- How many digits of the pull request the cut leaves. -/
def digitsKept (cm : CaseMapping) (repository : Text) : ℕ := 45 - (nameSlug cm repository).length

theorem nameSlug_length (cm : CaseMapping) (repository : Text) : (nameSlug cm repository).length ≤ 39 :=
  List.length_take_le ..

theorem resourceName_eq (cm : CaseMapping) (repository : Text) {pr : ℤ} (hpr : 0 ≤ pr) :
    resourceName cm repository pr =
      ("demo-".toList ++ nameSlug cm repository ++ "-".toList ++ nameDigest repository ++ "-pr".toList) ++
        '-' :: (decimal pr).take (digitsKept cm repository) := by
  have hslug := nameSlug_length cm repository
  have hroom : (decimal pr).take (digitsKept cm repository) ≠ [] := by
    intro h
    rcases List.take_eq_nil_iff.mp h with h | h
    · have hkept : digitsKept cm repository = 45 - (nameSlug cm repository).length := rfl
      omega
    · exact decimal_ne_nil hpr h
  have hdigits : ∀ c ∈ (decimal pr).take (digitsKept cm repository), (c == '-') = false := by
    intro c hc
    have hd := decimal_digits hpr c (List.mem_of_mem_take hc)
    rw [beq_eq_false_iff_ne]
    rintro rfl
    revert hd
    decide
  have hfull : resourceName cm repository pr = rstrip (· == '-')
      (("demo-".toList ++ nameSlug cm repository ++ "-".toList ++ nameDigest repository ++ "-pr-".toList ++
        decimal pr).take 63) := rfl
  have hlength : ("demo-".toList ++ nameSlug cm repository ++ "-".toList ++ nameDigest repository ++
      "-pr-".toList).length = 18 + (nameSlug cm repository).length := by
    simp only [List.length_append, nameDigest_length]
    have h1 : "demo-".toList.length = 5 := rfl
    have h2 : "-".toList.length = 1 := rfl
    have h3 : "-pr-".toList.length = 4 := rfl
    omega
  have hcut : 63 - (18 + (nameSlug cm repository).length) = digitsKept cm repository := by
    have hkept : digitsKept cm repository = 45 - (nameSlug cm repository).length := rfl
    omega
  rw [hfull, List.take_append, hlength, hcut, List.take_of_length_le (by omega), rstrip_of_last hroom hdigits]
  simp only [List.append_assoc]
  rfl

theorem resourceName_split (cm : CaseMapping) {repository repository' : Text} {pr pr' : ℤ}
    (hpr : 0 ≤ pr) (hpr' : 0 ≤ pr') (h : resourceName cm repository pr = resourceName cm repository' pr') :
    nameDigest repository = nameDigest repository' ∧
      (decimal pr).take (digitsKept cm repository) = (decimal pr').take (digitsKept cm repository') := by
  have nodash {n : ℤ} (hn : 0 ≤ n) (k : ℕ) : '-' ∉ (decimal n).take k := by
    intro hc
    have hd := decimal_digits hn _ (List.mem_of_mem_take hc)
    revert hd
    decide
  rw [resourceName_eq cm repository hpr, resourceName_eq cm repository' hpr'] at h
  obtain ⟨hfront, hdigits⟩ := append_cons_inj (nodash hpr _) (nodash hpr' _) h
  have hdigest := List.append_cancel_right hfront
  have hdash (r : Text) : "demo-".toList ++ nameSlug cm r ++ "-".toList ++ nameDigest r =
      ("demo-".toList ++ nameSlug cm r) ++ '-' :: nameDigest r := by
    rw [List.append_assoc _ "-".toList]
    rfl
  rw [hdash, hdash] at hdigest
  exact ⟨(append_cons_inj (dash_notMem_nameDigest _) (dash_notMem_nameDigest _) hdigest).2, hdigits⟩

/-! ### When two demos share a name -/

/-- The digits the cut leaves tell the two pull requests of one repository apart. -/
def DigitsTellApart (cm : CaseMapping) (repository : Text) (pr pr' : ℤ) : Prop :=
  pr = pr' ∨ (decimal pr).take (digitsKept cm repository) ≠ (decimal pr').take (digitsKept cm repository)

/-- No call made for the demo `key` changes an object under the name. -/
def KeepsObjects (cm : CaseMapping) (key : Key) (name : Text) : Prop :=
  ∀ (call : Call) (c : Cluster) (kind : Kind),
    (call ∈ deleteCalls cm key.1 key.2 ∨ ∃ record project version ns owner, record.key = key ∧
      call ∈ applyCalls (renderResources cm record project version ns owner)) →
    call.effect c kind name = c kind name

theorem keepsObjects_of_ne {cm : CaseMapping} {key : Key} {name : Text}
    (h : resourceName cm key.1 key.2 ≠ name) : KeepsObjects cm key name := by
  intro call c kind hcall
  refine Call.effect_of_ne c call kind ?_
  rcases hcall with hd | ⟨record, project, version, ns, owner, rfl, ha⟩
  · rw [deleteCalls_name call hd]
    exact h.symm
  · rw [applyCalls_name cm record project version ns owner call ha]
    exact h.symm

/-- Two demos whose repositories differ in the digest keep apart, in name and
objects, exactly when they are of different repositories or the digits left by the cut
tell their pull requests apart. -/
theorem demos_apart_iff (cm : CaseMapping) {repository repository' : Text} {pr pr' : ℤ}
    (hpr : 1 ≤ pr) (hpr' : 1 ≤ pr')
    (hdigest : repository ≠ repository' →
      (sha256 (encode repository)).take 8 ≠ (sha256 (encode repository')).take 8) :
    ((resourceName cm repository pr = resourceName cm repository' pr' →
        (repository, pr) = (repository', pr')) ∧
      ((repository, pr) ≠ (repository', pr') →
        KeepsObjects cm (repository, pr) (resourceName cm repository' pr'))) ↔
      (repository = repository' → DigitsTellApart cm repository pr pr') := by
  constructor
  · rintro ⟨hinj, -⟩ rfl
    by_cases hd : (decimal pr).take (digitsKept cm repository) = (decimal pr').take (digitsKept cm repository)
    · have hname : resourceName cm repository pr = resourceName cm repository pr' := by
        rw [resourceName_eq cm repository (by omega), resourceName_eq cm repository (by omega), hd]
      exact .inl (Prod.mk.inj (hinj hname)).2
    · exact .inr hd
  · intro hcond
    have hinj : resourceName cm repository pr = resourceName cm repository' pr' →
        (repository, pr) = (repository', pr') := by
      intro hname
      obtain ⟨hdig, hdec⟩ := resourceName_split cm (by omega) (by omega) hname
      have heq : repository = repository' := by
        by_contra hne
        exact hdigest hne hdig
      subst heq
      rcases hcond rfl with hp | hp
      · rw [hp]
      · exact absurd hdec hp
    exact ⟨hinj, fun hne => keepsObjects_of_ne fun hname => hne (hinj hname)⟩

theorem demos_apart_iff_example : ((resourceName .ascii "canonical/example".toList 8 =
        resourceName .ascii "canonical/other".toList 8 →
          ("canonical/example".toList, (8 : ℤ)) = ("canonical/other".toList, 8)) ∧
      (("canonical/example".toList, (8 : ℤ)) ≠ ("canonical/other".toList, 8) →
        KeepsObjects .ascii ("canonical/example".toList, 8) (resourceName .ascii "canonical/other".toList 8))) ↔
      ("canonical/example".toList = "canonical/other".toList →
        DigitsTellApart .ascii "canonical/example".toList 8 8) :=
  demos_apart_iff .ascii (by decide) (by decide) fun _ => by decide +kernel

/-- Seven digits do not fit after a long slug: these two demos are given one name. -/
theorem long_slug_shares_name : ¬ ∀ (repository repository' : Text) (pr pr' : ℤ),
    isRepository repository = true → isRepository repository' = true →
    1 ≤ pr ∧ pr ≤ 2147483647 → 1 ≤ pr' ∧ pr' ≤ 2147483647 →
    (repository ≠ repository' → (sha256 (encode repository)).take 8 ≠ (sha256 (encode repository')).take 8) →
    resourceName .ascii repository pr = resourceName .ascii repository' pr' →
    (repository, pr) = (repository', pr') := by
  intro all
  have hname : resourceName .ascii "canonical/ubuntu-desktop-documentation-website".toList 1234567 =
      resourceName .ascii "canonical/ubuntu-desktop-documentation-website".toList 1234568 := by
    rw [resourceName_eq _ _ (by decide), resourceName_eq _ _ (by decide)]
    decide +kernel
  have heq := all _ _ 1234567 1234568 (by decide) (by decide) (by decide) (by decide)
    (fun hne => absurd rfl hne) hname
  exact absurd (Prod.mk.inj heq).2 (by decide)

/-- The demos of a repository whose slug leaves room for ten digits have names of their
own; every longer slug makes two of them share one. -/
theorem repository_apart_iff (cm : CaseMapping) (repository : Text) :
    (∀ pr pr' : ℤ, 1 ≤ pr ∧ pr ≤ 2147483647 → 1 ≤ pr' ∧ pr' ≤ 2147483647 →
      resourceName cm repository pr = resourceName cm repository pr' → pr = pr') ↔
      (nameSlug cm repository).length ≤ 35 := by
  have hkept : digitsKept cm repository = 45 - (nameSlug cm repository).length := rfl
  constructor
  · intro hinj
    by_contra hlong
    have hname : resourceName cm repository 1000000000 = resourceName cm repository 1000000001 := by
      have hdec : ∀ k ≤ 9, (decimal 1000000000).take k = (decimal 1000000001).take k := by decide
      rw [resourceName_eq cm repository (by omega), resourceName_eq cm repository (by omega),
        hdec _ (by omega)]
    have heq := hinj _ _ (by omega) (by omega) hname
    omega
  · intro hshort pr pr' hpr hpr' hname
    have hdec := (resourceName_split cm (by omega) (by omega) hname).2
    have whole {n : ℤ} (hn : 1 ≤ n ∧ n ≤ 2147483647) : (decimal n).take (digitsKept cm repository) = decimal n := by
      refine List.take_of_length_le ?_
      have hlen := decimal_length (n := n) (by omega) hn.2
      omega
    rw [whole hpr, whole hpr'] at hdec
    exact decimal_inj (by omega) (by omega) hdec

end DemoController
