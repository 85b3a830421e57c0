import DemoController.Lib.PyText

/-!
# Names of a demo (`naming.py`)

The Kubernetes object name, the public hostname and the ownership labels of a
demo are computed from its repository and pull request.
-/

namespace DemoController

open Lib

def isSlugChar (c : Char) : Bool := c.isLower || c.isDigit || c == '-'

/-- `re.sub(r"[^a-z0-9-]+", "-", t)`; `inRun` says that the previous character
already belonged to the run being replaced. -/
def collapse (inRun : Bool) : Text → Text
  | [] => []
  | c :: cs =>
    if isSlugChar c then c :: collapse false cs
    else if inRun then collapse true cs
    else '-' :: collapse true cs

/-- `re.sub(r"[^a-z0-9-]+", "-", t.lower()).strip("-")`, the slug of both names. -/
def slug (cm : CaseMapping) (t : Text) : Text := strip (· == '-') (collapse false (cm.lower t))

def resourceName (cm : CaseMapping) (repository : Text) (pr : ℤ) : Text :=
  let flat := (cm.lower repository).map fun c => if c = '/' then '-' else c
  let slug := strip (· == '-') (collapse false flat)
  let digest := (sha256 (encode repository)).take 8
  let full := "demo-".toList ++ slug.take 39 ++ "-".toList ++ digest ++ "-pr-".toList ++ decimal pr
  rstrip (· == '-') (full.take 63)

/-- `repository.rsplit("/", 1)[1]`. Every stored repository has a slash
(`isRepository`); on a text without one the source would raise `IndexError`. -/
def projectOf (repository : Text) : Text := afterLast '/' repository

def hostname (cm : CaseMapping) (repository : Text) (pr : ℤ) (suffix : Text) : Text :=
  (slug cm (projectOf repository)).take 40 ++ "-pr-".toList ++ decimal pr ++ ".".toList ++ suffix

def repositoryLabels (repository : Text) (pr : ℤ) (owner : Text) : List (Text × Text) :=
  [("app.kubernetes.io/managed-by".toList, owner),
    ("demos.canonical.com/repository-hash".toList, (sha256 (encode repository)).take 16),
    ("demos.canonical.com/pr".toList, decimal pr)]

theorem collapse_chars (inRun : Bool) (t : Text) : ∀ c ∈ collapse inRun t, isSlugChar c = true := by
  induction t generalizing inRun with
  | nil => exact fun c hc => absurd hc List.not_mem_nil
  | cons d t ih =>
    intro c hc
    rw [collapse] at hc
    split at hc
    · next hd =>
      rcases List.mem_cons.mp hc with rfl | hc
      · exact hd
      · exact ih false c hc
    · split at hc
      · exact ih true c hc
      · rcases List.mem_cons.mp hc with rfl | hc
        · decide
        · exact ih true c hc

theorem slugChar_of_digit {c : Char} (h : c.isDigit = true) : isSlugChar c = true := by
  rw [isSlugChar, h, Bool.or_true, Bool.true_or]

theorem resourceName_chars (cm : CaseMapping) (repository : Text) (pr : ℤ) :
    ∀ c ∈ resourceName cm repository pr, isSlugChar c = true := by
  intro c hc
  unfold resourceName at hc
  dsimp only at hc
  have hfull := List.mem_of_mem_take (List.IsPrefix.mem hc (List.rdropWhile_prefix ..))
  simp only [List.mem_append] at hfull
  rcases hfull with ((((hc | hc) | hc) | hc) | hc) | hc
  · have hdemo : "demo-".toList.all isSlugChar = true := by decide
    exact List.all_eq_true.mp hdemo c hc
  · have hslug := List.IsPrefix.mem (List.mem_of_mem_take hc) (List.rdropWhile_prefix ..)
    exact collapse_chars _ _ c ((List.dropWhile_sublist _).mem hslug)
  · have hdash : "-".toList.all isSlugChar = true := by decide
    exact List.all_eq_true.mp hdash c hc
  · have hhex : "0123456789abcdef".toList.all isSlugChar = true := by decide
    exact List.all_eq_true.mp hhex c (hex_digits _ c (List.mem_of_mem_take hc))
  · have hpr : "-pr-".toList.all isSlugChar = true := by decide
    exact List.all_eq_true.mp hpr c hc
  · rcases decimal_chars pr c hc with hd | rfl
    · exact slugChar_of_digit hd
    · decide

/-- A hostname tells the pull request and the 40 slug characters of the project,
and nothing else: the owner does not enter it. -/
theorem hostname_eq_iff (cm : CaseMapping) {repo repo' suffix : Text} {pr pr' : ℤ}
    (hpr : 0 ≤ pr) (hpr' : 0 ≤ pr') :
    hostname cm repo pr suffix = hostname cm repo' pr' suffix ↔
      pr = pr' ∧ (slug cm (projectOf repo)).take 40 = (slug cm (projectOf repo')).take 40 := by
  constructor
  · intro h
    have hcut := List.append_cancel_right (List.append_cancel_right h)
    have hd : '-' ∉ decimal pr := fun hc => by simpa using decimal_digits hpr _ hc
    have hd' : '-' ∉ decimal pr' := fun hc => by simpa using decimal_digits hpr' _ hc
    have hsplit : ∀ a d : Text, a ++ "-pr-".toList ++ d = (a ++ "-pr".toList) ++ '-' :: d := by
      intro a d
      simp
    rw [hsplit, hsplit] at hcut
    obtain ⟨hslug, hnum⟩ := append_cons_inj hd hd' hcut
    exact ⟨decimal_inj hpr hpr' hnum, List.append_cancel_right hslug⟩
  · rintro ⟨rfl, h⟩
    rw [hostname, h, ← hostname]

end DemoController
