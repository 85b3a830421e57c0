import DemoController.Images
import DemoController.Lib.Pattern

/-!
# Which images are accepted (`models.py`, `api.py`, `reconciler.py`)

The regular expressions of the models are written down as languages, and the
functions that match them accept exactly their members. An image is accepted by
the request model and the deploy handler when it is the registry, the repository
and a digest; the namespace of the configuration can then only be the repository.
-/

namespace DemoController

open Lib Lib.Pattern

variable {app : App}

/-! ### The patterns -/

def segmentRe (n : ℕ) : Language Char := cls isAlnum * between 0 n (cls isSegmentChar)

/-- `REPOSITORY_RE`. -/
def repositoryRe : Language Char := segmentRe 38 * (literal "/".toList * segmentRe 99)

def isHostChar (c : Char) : Bool := isAlnum c || c == '.' || c == '-'

/-- The registry group of `IMAGE_RE`. -/
def registryRe : Language Char :=
  plus (cls isHostChar) * between 0 1 (literal ":".toList * between 1 5 (cls Char.isDigit))

/-- The repo group of `IMAGE_RE`. -/
def imagePathRe : Language Char :=
  cls isAlnum * (plus (KStar.kstar (cls isSegmentChar) * literal "/".toList) * plus (cls isSegmentChar))

/-! ### The functions match the patterns -/

theorem isSegment_iff {n : ℕ} {t : Text} : isSegment n t = true ↔ t ∈ segmentRe n := by
  rw [segmentRe, mem_cls_mul]
  cases t with
  | nil =>
    refine iff_of_false Bool.false_ne_true ?_
    rintro ⟨a, v, h, -⟩
    cases h
  | cons c cs =>
    simp only [isSegment, Bool.and_eq_true, decide_eq_true_eq, mem_cls_between, List.cons.injEq]
    constructor
    · rintro ⟨⟨hc, hcs⟩, hlen⟩
      exact ⟨c, cs, ⟨rfl, rfl⟩, hc, Nat.zero_le _, hlen, hcs⟩
    · rintro ⟨c, cs, ⟨rfl, rfl⟩, hc, -, hlen, hcs⟩
      exact ⟨⟨hc, hcs⟩, hlen⟩

theorem slash_notMem {p : Char → Bool} {t : Text} (hp : p '/' = false) (h : t.all p = true) : '/' ∉ t := by
  intro hc
  have hslash := List.all_eq_true.mp h _ hc
  rw [hp] at hslash
  cases hslash

theorem segment_notMem {n : ℕ} {t : Text} (h : t ∈ segmentRe n) : '/' ∉ t := by
  obtain ⟨c, cs, rfl, hc, hcs⟩ := mem_cls_mul.mp h
  have hall := (mem_cls_between.mp hcs).2.2
  intro hm
  rcases List.mem_cons.mp hm with rfl | hm
  · cases hc
  · exact slash_notMem rfl hall hm

theorem isRepository_iff {t : Text} : isRepository t = true ↔ t ∈ repositoryRe := by
  rw [repositoryRe, mem_mul_literal_mul]
  constructor
  · intro h
    obtain ⟨owner, name, ht, howner, hname⟩ := repository_parts h
    exact ⟨owner, name, ht, isSegment_iff.mp howner, isSegment_iff.mp hname⟩
  · rintro ⟨owner, name, rfl, howner, hname⟩
    have hcut : cut '/' (owner ++ ("/".toList ++ name)) = some (owner, name) :=
      cut_append (segment_notMem howner) name
    rw [isRepository, hcut, Bool.and_eq_true, isSegment_iff, isSegment_iff]
    exact ⟨howner, hname⟩

theorem host_iff {t : Text} : (!t.isEmpty && t.all isHostChar) = true ↔ t ∈ plus (cls isHostChar) := by
  rw [mem_cls_plus, Bool.and_eq_true, Bool.not_eq_true', List.isEmpty_eq_false_iff]

theorem port_iff {t : Text} : t ∈ between 1 5 (cls Char.isDigit) ↔
    t.all Char.isDigit = true ∧ 1 ≤ t.length ∧ t.length ≤ 5 := by
  rw [mem_cls_between]
  tauto

theorem registry_notMem {t : Text} (h : t ∈ registryRe) : '/' ∉ t := by
  obtain ⟨host, hhost, rest, hrest, rfl⟩ := h
  intro hc
  rcases List.mem_append.mp hc with hc | hc
  · exact slash_notMem rfl (mem_cls_plus.mp hhost).2 hc
  · rcases mem_optional.mp hrest with rfl | ⟨_, rfl, port, hport, rfl⟩
    · exact List.not_mem_nil hc
    · rcases List.mem_cons.mp hc with heq | hc
      · cases heq
      · exact slash_notMem rfl (port_iff.mp hport).1 hc

theorem isRegistry_iff {t : Text} : isRegistry t = true ↔ t ∈ registryRe := by
  have hcolon {h : Text} (hh : h ∈ plus (cls isHostChar)) : ':' ∉ h := by
    intro hc
    have hmem := List.all_eq_true.mp (mem_cls_plus.mp hh).2 _ hc
    cases hmem
  unfold isRegistry registryRe
  dsimp only
  constructor
  · intro h
    split at h
    · exact ⟨t, host_iff.mp h, [], mem_optional.mpr (.inl rfl), List.append_nil t⟩
    · next host port hcut =>
      simp only [Bool.and_eq_true, decide_eq_true_eq] at h
      obtain ⟨⟨⟨hhost, hdigits⟩, hone⟩, hfive⟩ := h
      have hport : ':' :: port ∈ literal ":".toList * between 1 5 (cls Char.isDigit) :=
        ⟨[':'], rfl, port, port_iff.mpr ⟨hdigits, hone, hfive⟩, rfl⟩
      exact ⟨host, host_iff.mp (Bool.and_eq_true_iff.mpr hhost), ':' :: port, mem_optional.mpr (.inr hport),
        (cut_eq_some hcut).1.symm⟩
  · rintro ⟨host, hhost, rest, hrest, rfl⟩
    have hfound := host_iff.mpr hhost
    rcases mem_optional.mp hrest with rfl | ⟨_, rfl, port, hport, rfl⟩
    · dsimp only
      rw [List.append_nil]
      split
      · exact hfound
      · next h p hcut =>
        have hin : ':' ∈ host := by
          rw [(cut_eq_some hcut).1]
          exact List.mem_append_right _ (List.mem_cons_self ..)
        exact absurd hin (hcolon hhost)
    · obtain ⟨hdigits, hone, hfive⟩ := port_iff.mp hport
      have hcut : cut ':' (host ++ (":".toList ++ port)) = some (host, port) := cut_append (hcolon hhost) port
      dsimp only
      split
      · next hnone =>
        rw [hcut] at hnone
        cases hnone
      · next h p hsome =>
        cases hcut.symm.trans hsome
        simp only [Bool.and_eq_true, decide_eq_true_eq]
        exact ⟨⟨⟨Bool.and_eq_true_iff.mp hfound, hdigits⟩, hone⟩, hfive⟩

def isPathChar (d : Char) : Bool := isSegmentChar d || d == '/'

/-- `(?:[a-z0-9_.-]*/)+` is any text of the characters of a path that ends in a slash. -/
theorem directories_iff {t : Text} : t ∈ plus (KStar.kstar (cls isSegmentChar) * literal "/".toList) ↔
    ∃ a, t = a ++ ['/'] ∧ a.all isPathChar = true := by
  constructor
  · intro h
    obtain ⟨x, L, rfl, hall⟩ := exists_of_mem_plus h
    clear h
    induction L generalizing x with
    | nil =>
      obtain ⟨s, hs, _, rfl, rfl⟩ := hall x (List.mem_cons_self ..)
      have hseg := mem_cls_kstar.mp hs
      refine ⟨s, by simp, List.all_eq_true.mpr fun d hd => ?_⟩
      rw [isPathChar, List.all_eq_true.mp hseg d hd, Bool.true_or]
    | cons y L ih =>
      obtain ⟨a, ha, hpath⟩ := ih y fun z hz => hall z (List.mem_cons_of_mem _ hz)
      obtain ⟨s, hs, _, rfl, rfl⟩ := hall x (List.mem_cons_self ..)
      have hseg := mem_cls_kstar.mp hs
      refine ⟨s ++ '/' :: a, ?_, ?_⟩
      · rw [List.flatten_cons, ha]
        simp
      · rw [List.all_append, List.all_cons, hpath, Bool.and_true, Bool.and_eq_true]
        refine ⟨List.all_eq_true.mpr fun d hd => ?_, rfl⟩
        rw [isPathChar, List.all_eq_true.mp hseg d hd, Bool.true_or]
  · rintro ⟨a, rfl, hpath⟩
    induction a with
    | nil => exact mem_plus_of_mem ⟨[], Language.nil_mem_kstar _, ['/'], rfl, rfl⟩
    | cons d a ih =>
      rw [List.all_cons, Bool.and_eq_true] at hpath
      have hrest := ih hpath.2
      by_cases hslash : d = '/'
      · subst hslash
        exact append_mem_plus (v := ['/']) ⟨[], Language.nil_mem_kstar _, ['/'], rfl, rfl⟩ hrest
      · have hd : isSegmentChar d = true := by
          have hor := hpath.1
          rw [isPathChar, Bool.or_eq_true, beq_iff_eq] at hor
          exact hor.resolve_right hslash
        -- the character extends the first directory of the rest
        obtain ⟨_, ⟨s, hs, _, rfl, rfl⟩, rest, hmore, heq⟩ := hrest
        refine ⟨d :: s ++ "/".toList, ⟨d :: s, ?_, _, rfl, rfl⟩, rest, hmore, ?_⟩
        · refine mem_cls_kstar.mpr ?_
          rw [List.all_cons, hd, mem_cls_kstar.mp hs, Bool.and_self]
        · exact congrArg (List.cons d) heq

theorem imageName_iff {t : Text} :
    t ∈ plus (KStar.kstar (cls isSegmentChar) * literal "/".toList) * plus (cls isSegmentChar) ↔
      t.all isPathChar = true ∧ '/' ∈ t ∧ t.getLast? ≠ some '/' := by
  constructor
  · rintro ⟨_, hdirs, b, hb, rfl⟩
    obtain ⟨a, rfl, ha⟩ := directories_iff.mp hdirs
    obtain ⟨hne, hseg⟩ := mem_cls_plus.mp hb
    refine ⟨?_, by simp, ?_⟩
    · rw [List.all_append, List.all_append, ha, Bool.true_and, Bool.and_eq_true]
      refine ⟨rfl, List.all_eq_true.mpr fun d hd => ?_⟩
      rw [isPathChar, List.all_eq_true.mp hseg d hd, Bool.true_or]
    · dsimp only
      rw [List.getLast?_append_of_ne_nil _ hne]
      intro hlast
      exact slash_notMem rfl hseg (List.mem_of_getLast? hlast)
  · rintro ⟨hall, hin, hlast⟩
    obtain ⟨as, bs, hrev, has⟩ := List.eq_append_cons_of_mem (List.mem_reverse.mpr hin)
    have hsplit : t = (bs.reverse ++ ['/']) ++ as.reverse := by
      rw [← List.reverse_reverse t, hrev]
      simp
    rw [hsplit, List.all_append, List.all_append, Bool.and_eq_true, Bool.and_eq_true] at hall
    refine ⟨bs.reverse ++ ['/'], directories_iff.mpr ⟨_, rfl, hall.1.1⟩, as.reverse, ?_, hsplit.symm⟩
    refine mem_cls_plus.mpr ⟨?_, List.all_eq_true.mpr fun d hd => ?_⟩
    · intro hnil
      rw [hsplit, hnil, List.append_nil] at hlast
      exact hlast (List.getLast?_concat ..)
    · have hd' := List.all_eq_true.mp hall.2 d hd
      rw [isPathChar, Bool.or_eq_true, beq_iff_eq] at hd'
      refine hd'.resolve_right ?_
      rintro rfl
      exact has (List.mem_reverse.mp hd)

theorem isImagePath_iff {t : Text} : isImagePath t = true ↔ t ∈ imagePathRe := by
  rw [imagePathRe, mem_cls_mul]
  cases t with
  | nil =>
    refine iff_of_false Bool.false_ne_true ?_
    rintro ⟨a, v, h, -⟩
    cases h
  | cons c cs =>
    simp only [isImagePath, Bool.and_eq_true, bne_iff_ne, List.contains_iff_mem, List.cons.injEq, imageName_iff]
    constructor
    · rintro ⟨⟨⟨hc, hall⟩, hin⟩, hlast⟩
      exact ⟨c, cs, ⟨rfl, rfl⟩, hc, hall, hin, hlast⟩
    · rintro ⟨c, cs, ⟨rfl, rfl⟩, hc, hall, hin, hlast⟩
      exact ⟨⟨⟨hc, hall⟩, hin⟩, hlast⟩

/-- The groups of a match of `IMAGE_RE`: there is one way to match. -/
theorem imageRepository_iff {t repository : Text} : imageRepository t = some repository ↔
    ∃ registry hex, t = (registry ++ '/' :: repository) ++ '@' :: ("sha256:".toList ++ hex) ∧
      registry ∈ registryRe ∧ repository ∈ imagePathRe ∧ hex ∈ cls isHexDigit ^ 64 := by
  constructor
  · intro h
    obtain ⟨registry, hex, ht, hreg, hpath, hlen, hhex⟩ := imageRepository_eq_some h
    exact ⟨registry, hex, ht, isRegistry_iff.mp hreg, isImagePath_iff.mp hpath, mem_cls_pow.mpr ⟨hlen, hhex⟩⟩
  · rintro ⟨registry, hex, rfl, hreg, hpath, hhex⟩
    obtain ⟨hlen, hdigits⟩ := mem_cls_pow.mp hhex
    have hreg' := isRegistry_iff.mpr hreg
    have hpath' := isImagePath_iff.mpr hpath
    have hslash : cut '/' ((registry ++ '/' :: repository) ++ '@' :: ("sha256:".toList ++ hex)) =
        some (registry, repository ++ '@' :: ("sha256:".toList ++ hex)) := by
      rw [List.append_assoc]
      exact cut_append (registry_notMem hreg) _
    have hat : cut '@' (repository ++ '@' :: ("sha256:".toList ++ hex)) =
        some (repository, "sha256:".toList ++ hex) :=
      cut_append (fun hc => (isImageChar_spec (isImagePath_chars hpath' _ hc)).2 rfl) _
    have hsha : "sha256:".toList.isPrefixOf ("sha256:".toList ++ hex) = true :=
      List.isPrefixOf_iff_prefix.mpr (List.prefix_append ..)
    simp only [imageRepository, hslash, hat, removePrefix_append, hreg', hpath', hsha, hlen, hdigits, beq_self_eq_true,
      Bool.and_self, if_true]

theorem imagePath_of_repository {t : Text} (h : t ∈ repositoryRe) : t ∈ imagePathRe := by
  rw [repositoryRe, mem_mul_literal_mul] at h
  obtain ⟨owner, name, rfl, howner, hname⟩ := h
  obtain ⟨c, cs, rfl, hc, hcs⟩ := mem_cls_mul.mp howner
  obtain ⟨d, ds, rfl, hd, hds⟩ := mem_cls_mul.mp hname
  have hsegment : (d :: ds).all isSegmentChar = true := by
    rw [List.all_cons, isSegmentChar, hd, (mem_cls_between.mp hds).2.2]
    rfl
  refine mem_cls_mul.mpr ⟨c, cs ++ ('/' :: (d :: ds)), rfl, hc, cs ++ ['/'], ?_, d :: ds, ?_, by simp⟩
  · exact mem_plus_of_mem ⟨cs, mem_cls_kstar.mpr (mem_cls_between.mp hcs).2.2, ['/'], rfl, rfl⟩
  · exact mem_cls_plus.mpr ⟨List.cons_ne_nil _ _, hsegment⟩

/-! ### The checks -/

def App.Names (app : App) (repository image : Text) : Prop :=
  ∃ h, app.cm.lower image = app.settings.imageRegistry ++ "/".toList ++ repository ++ "@sha256:".toList ++ h ∧
    h ∈ cls isHexDigit ^ 64

/-- The validator and the check of the deploy handler accept the images of the
configured registry, and the check of the reconciler then only their repository. -/
theorem image_checks_accept_iff (app : App) {repository : Text} (hrepo : repository ∈ repositoryRe) (image : Text) :
    ((imageRepository (app.cm.lower image) = some repository ∧
        (app.authorizedImage repository).isPrefixOf (app.cm.lower image) = true) ↔
      app.Names repository image ∧ app.settings.imageRegistry ∈ registryRe) ∧
    (app.Names repository image ∧ app.settings.imageRegistry ∈ registryRe →
      ∀ (record : DemoRecord) (config : ProjectConfig) (ns : Text), record.image = some image →
        config.imageNamespace = some ns → ns ≠ [] →
        (app.imageAuthorized record config = true ↔ app.cm.lower ns = repository)) := by
  have hpath : isImagePath repository = true := isImagePath_iff.mpr (imagePath_of_repository hrepo)
  constructor
  · constructor
    · rintro ⟨hmatch, hprefix⟩
      obtain ⟨hex, himage, hreg, -, hlen, hhex⟩ := authorized_of_prefix hmatch hprefix
      exact ⟨⟨hex, himage, mem_cls_pow.mpr ⟨hlen, hhex⟩⟩, isRegistry_iff.mp hreg⟩
    · rintro ⟨⟨hex, himage, hhex⟩, hreg⟩
      constructor
      · have hcanonical : app.cm.lower image = app.authorizedImage repository ++ hex := himage
        refine imageRepository_iff.mpr ⟨app.settings.imageRegistry, hex, ?_, hreg, isImagePath_iff.mp hpath, hhex⟩
        rw [hcanonical, authorizedImage_eq]
      · rw [himage]
        exact List.isPrefixOf_iff_prefix.mpr (List.prefix_append ..)
  · rintro ⟨⟨hex, himage, hhex⟩, hreg⟩ record config ns hrecord hns hne
    obtain ⟨hlen, hdigits⟩ := mem_cls_pow.mp hhex
    rw [imageAuthorized_iff hrecord hns hne]
    exact authorized_isPrefixOf_iff ⟨hex, himage, hlen, List.all_eq_true.mp hdigits⟩
      (reference_chars (isRegistry_iff.mpr hreg) hpath)

theorem image_checks_example : exampleApp.Names "canonical/example".toList exampleImage.toList ∧
    exampleApp.settings.imageRegistry ∈ registryRe := by
  have hrepo : "canonical/example".toList ∈ repositoryRe := isRepository_iff.mp (by decide +kernel)
  exact (image_checks_accept_iff exampleApp hrepo exampleImage.toList).1.mp
    ⟨by decide +kernel, by decide +kernel⟩

end DemoController
