import DemoController.Images
import DemoController.ObjectNames

/-!
# The derived names as DNS labels

A repository's name begins with a letter or a digit, so stripping and cutting its slug
leaves that character in front; at the other end both names close with digits of the
pull request.
-/

namespace DemoController

open Lib

/-! ### Labels -/

/-- One label of a DNS name: at most 63 of `[a-z0-9-]`, no hyphen at either end. -/
structure IsDnsLabel (t : Text) : Prop where
  length_le : t.length ≤ 63
  chars : ∀ c ∈ t, isSlugChar c = true
  head : ∃ c, t.head? = some c ∧ isAlnum c = true
  last : ∃ c, t.getLast? = some c ∧ isAlnum c = true

theorem alnum_of_digit {c : Char} (h : c.isDigit = true) : isAlnum c = true := by
  rw [isAlnum, h, Bool.or_true]

theorem getLast_append_digits {ds : Text} (hds : ds ≠ []) (hdigits : ∀ c ∈ ds, c.isDigit = true) (t : Text) :
    ∃ c, (t ++ ds).getLast? = some c ∧ isAlnum c = true := by
  refine ⟨ds.getLast hds, ?_, alnum_of_digit (hdigits _ (List.getLast_mem hds))⟩
  rw [List.getLast?_append, List.getLast?_eq_getLast_of_ne_nil hds]
  rfl

/-! ### The object name -/

theorem resourceName_length (cm : CaseMapping) (repository : Text) (pr : ℤ) :
    (resourceName cm repository pr).length ≤ 63 := by
  unfold resourceName
  dsimp only
  have hstrip := (List.rdropWhile_prefix (· == '-') (l := List.take 63 ("demo-".toList ++
    (strip (· == '-') (collapse false ((cm.lower repository).map fun c => if c = '/' then '-' else c))).take 39 ++
      "-".toList ++ (sha256 (encode repository)).take 8 ++ "-pr-".toList ++ decimal pr))).length_le
  have htake := List.length_take_le 63 ("demo-".toList ++
    (strip (· == '-') (collapse false ((cm.lower repository).map fun c => if c = '/' then '-' else c))).take 39 ++
      "-".toList ++ (sha256 (encode repository)).take 8 ++ "-pr-".toList ++ decimal pr)
  exact hstrip.trans htake

theorem resourceName_head (cm : CaseMapping) (repository : Text) {pr : ℤ} (hpr : 0 ≤ pr) :
    (resourceName cm repository pr).head? = some 'd' := by
  rw [resourceName_eq cm repository hpr]
  rfl

theorem resourceName_last (cm : CaseMapping) (repository : Text) {pr : ℤ} (hpr : 0 ≤ pr) :
    ∃ c, (resourceName cm repository pr).getLast? = some c ∧ isAlnum c = true := by
  have hslug := nameSlug_length cm repository
  have hkept : digitsKept cm repository = 45 - (nameSlug cm repository).length := rfl
  have hroom : (decimal pr).take (digitsKept cm repository) ≠ [] := by
    intro h
    rcases List.take_eq_nil_iff.mp h with h | h
    · omega
    · exact decimal_ne_nil hpr h
  have hdigits : ∀ c ∈ (decimal pr).take (digitsKept cm repository), c.isDigit = true :=
    fun c hc => decimal_digits hpr c (List.mem_of_mem_take hc)
  rw [resourceName_eq cm repository hpr, List.append_cons]
  exact getLast_append_digits hroom hdigits _

theorem resourceName_isDnsLabel (cm : CaseMapping) (repository : Text) {pr : ℤ} (hpr : 0 ≤ pr) :
    IsDnsLabel (resourceName cm repository pr) where
  length_le := resourceName_length cm repository pr
  chars := resourceName_chars cm repository pr
  head := ⟨'d', resourceName_head cm repository hpr, rfl⟩
  last := resourceName_last cm repository hpr

/-! ### The first label of the hostname -/

/-- The text `hostname` puts before the dot. -/
def hostLabel (cm : CaseMapping) (repository : Text) (pr : ℤ) : Text :=
  (slug cm (projectOf repository)).take 40 ++ "-pr-".toList ++ decimal pr

theorem hostname_eq_hostLabel (cm : CaseMapping) (repository : Text) (pr : ℤ) (suffix : Text) :
    hostname cm repository pr suffix = hostLabel cm repository pr ++ '.' :: suffix := by
  rw [hostname, List.append_assoc]
  rfl

theorem projectOf_isSegment {repository : Text} (h : isRepository repository = true) :
    isSegment 99 (projectOf repository) = true := by
  obtain ⟨owner, name, rfl, -, hname⟩ := repository_parts h
  have hslash : '/' ∉ name := fun hc => absurd (segment_chars hname '/' hc) (by decide)
  have hproject : projectOf (owner ++ '/' :: name) = name := afterLast_append_cons owner hslash
  rw [hproject]
  exact hname

theorem strip_head (p : Char → Bool) {c : Char} (h : p c = false) (t : Text) :
    (strip p (c :: t)).head? = some c := by
  have hkeep : strip p (c :: t) = (c :: t).rdropWhile p := by
    rw [strip, List.dropWhile_cons_of_neg (by rw [h]; decide)]
  have hne : (c :: t).rdropWhile p ≠ [] := by
    intro hnil
    have hall := List.rdropWhile_eq_nil_iff.mp hnil c (List.mem_cons_self ..)
    rw [h] at hall
    cases hall
  obtain ⟨rest, hrest⟩ := List.rdropWhile_prefix p (l := c :: t)
  rw [hkeep]
  cases hd : (c :: t).rdropWhile p with
  | nil => exact absurd hd hne
  | cons d ds =>
    rw [hd] at hrest
    rw [(List.cons.inj hrest).1]
    rfl

theorem slug_head (cm : CaseMapping) {n : ℕ} {name : Text} (h : isSegment n name = true) :
    ∃ c, (slug cm name).head? = some c ∧ isAlnum c = true := by
  have hlower : cm.lower name = name := lower_of_ascii cm (segment_lowerAscii h)
  cases name with
  | nil => cases h
  | cons c cs =>
    simp only [isSegment, Bool.and_eq_true] at h
    have halnum := h.1.1
    have hslug : isSlugChar c = true := by
      rw [isSlugChar, ← isAlnum, halnum, Bool.true_or]
    have hdash : (c == '-') = false := by
      rw [beq_eq_false_iff_ne]
      intro hc
      rw [hc] at halnum
      exact absurd halnum (by decide)
    refine ⟨c, ?_, halnum⟩
    rw [slug, hlower, collapse, if_pos hslug]
    exact strip_head (· == '-') hdash (collapse false cs)

theorem slug_chars (cm : CaseMapping) (t : Text) : ∀ c ∈ slug cm t, isSlugChar c = true := by
  intro c hc
  have hstrip := List.IsPrefix.mem hc (List.rdropWhile_prefix ..)
  exact collapse_chars _ _ c ((List.dropWhile_sublist _).mem hstrip)

theorem hostLabel_chars (cm : CaseMapping) (repository : Text) (pr : ℤ) :
    ∀ c ∈ hostLabel cm repository pr, isSlugChar c = true := by
  intro c hc
  rw [hostLabel, List.mem_append, List.mem_append] at hc
  rcases hc with (hc | hc) | hc
  · exact slug_chars cm _ c (List.mem_of_mem_take hc)
  · have hpr : "-pr-".toList.all isSlugChar = true := by decide
    exact List.all_eq_true.mp hpr c hc
  · rcases decimal_chars pr c hc with hd | rfl
    · exact slugChar_of_digit hd
    · decide

theorem hostLabel_length (cm : CaseMapping) (repository : Text) {pr : ℤ} (hpr : 0 ≤ pr ∧ pr ≤ 2147483647) :
    (hostLabel cm repository pr).length ≤ 54 := by
  have hslug := List.length_take_le 40 (slug cm (projectOf repository))
  have hdigits := decimal_length hpr.1 hpr.2
  have hmiddle : "-pr-".toList.length = 4 := rfl
  rw [hostLabel, List.length_append, List.length_append]
  omega

theorem hostLabel_isDnsLabel (cm : CaseMapping) {repository : Text} (hrepo : isRepository repository = true)
    {pr : ℤ} (hpr : 0 ≤ pr ∧ pr ≤ 2147483647) : IsDnsLabel (hostLabel cm repository pr) where
  length_le := (hostLabel_length cm repository hpr).trans (by decide)
  chars := hostLabel_chars cm repository pr
  head := by
    obtain ⟨c, hc, halnum⟩ := slug_head cm (projectOf_isSegment hrepo)
    refine ⟨c, ?_, halnum⟩
    cases hslug : slug cm (projectOf repository) with
    | nil =>
      rw [hslug] at hc
      cases hc
    | cons d ds =>
      rw [hslug] at hc
      rw [hostLabel, hslug]
      exact hc
  last := getLast_append_digits (decimal_ne_nil hpr.1) (decimal_digits hpr.1) _

/-- The names derived from a valid repository and pull request are DNS labels: the object
name begins with a letter, and the hostname is one label above the suffix. -/
theorem derived_names_are_labels (cm : CaseMapping) {repository : Text} (hrepo : isRepository repository = true)
    {pr : ℤ} (hpr : 1 ≤ pr ∧ pr ≤ 2147483647) :
    (IsDnsLabel (resourceName cm repository pr) ∧
        ∃ c, (resourceName cm repository pr).head? = some c ∧ c.isLower = true) ∧
      ∀ suffix : Text, ∃ label, IsDnsLabel label ∧ hostname cm repository pr suffix = label ++ '.' :: suffix := by
  have hnonneg : 0 ≤ pr := by omega
  constructor
  · exact ⟨resourceName_isDnsLabel cm repository hnonneg, 'd', resourceName_head cm repository hnonneg, rfl⟩
  · intro suffix
    exact ⟨hostLabel cm repository pr, hostLabel_isDnsLabel cm hrepo ⟨hnonneg, hpr.2⟩,
      hostname_eq_hostLabel cm repository pr suffix⟩

theorem derived_names_are_labels_example : (IsDnsLabel (resourceName .ascii "canonical/snapcraft.io".toList 5932) ∧
      ∃ c, (resourceName .ascii "canonical/snapcraft.io".toList 5932).head? = some c ∧ c.isLower = true) ∧
    ∀ suffix : Text, ∃ label, IsDnsLabel label ∧
      hostname .ascii "canonical/snapcraft.io".toList 5932 suffix = label ++ '.' :: suffix :=
  derived_names_are_labels .ascii (by decide) ⟨by decide, by decide⟩

end DemoController
