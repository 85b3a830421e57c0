import DemoController.Attempts

/-!
# Which image is applied

Three checks read a lower-cased copy of the image: the pattern of the request, the
registry of the handler and the namespace before an apply. The copy is canonical,
down to the repository of the record; the image itself is stored and rendered as it
was sent.
-/

namespace DemoController

open Lib

variable {app : App}

/-! ### Characters of an image -/

def isImageChar (c : Char) : Bool := isSegmentChar c || c == '/' || c == ':'

/-- Lower-casing leaves the character alone, whatever the Unicode tables say. -/
def IsLowerAscii (c : Char) : Prop := c.toNat < 128 ∧ c.isUpper = false

theorem isUpper_eq_false_iff {c : Char} : c.isUpper = false ↔ ¬ ('A' ≤ c ∧ c ≤ 'Z') :=
  decide_eq_false_iff_not

theorem isLower_iff {c : Char} : c.isLower = true ↔ 'a' ≤ c ∧ c ≤ 'z' :=
  (Bool.and_eq_true_iff ..).trans (and_congr decide_eq_true_iff decide_eq_true_iff)

theorem map_toLower_eq_self {t : Text} (h : ∀ c ∈ t, c.isUpper = false) : t.map Char.toLower = t := by
  have hsame : ∀ c ∈ t, c.toLower = id c := by
    intro c hc
    unfold Char.toLower
    rw [dif_neg]
    · rfl
    · exact isUpper_eq_false_iff.mp (h c hc)
  rw [List.map_congr_left hsame, List.map_id]

theorem lower_of_ascii (cm : CaseMapping) {t : Text} (h : ∀ c ∈ t, IsLowerAscii c) : cm.lower t = t := by
  rw [cm.lower_ascii t fun c hc => (h c hc).1]
  exact map_toLower_eq_self fun c hc => (h c hc).2

theorem isImageChar_spec {c : Char} (h : isImageChar c = true) : IsLowerAscii c ∧ c ≠ '@' := by
  have hcases : c.isLower = true ∨ c.isDigit = true ∨ c = '_' ∨ c = '.' ∨ c = '-' ∨ c = '/' ∨ c = ':' := by
    simp only [isImageChar, isSegmentChar, isAlnum, Bool.or_eq_true, beq_iff_eq] at h
    tauto
  rcases hcases with h | h | rfl | rfl | rfl | rfl | rfl
  · obtain ⟨ha, hz⟩ := isLower_iff.mp h
    have hn : c.toNat ≤ 122 := UInt32.le_iff_toNat_le.mp hz
    refine ⟨⟨by omega, isUpper_eq_false_iff.mpr fun hu => ?_⟩, ?_⟩
    · exact absurd (Char.le_trans ha hu.2) (by decide)
    · rintro rfl
      exact absurd ha (by decide)
  · obtain ⟨-, h9⟩ := isDigit_iff.mp h
    have hn : c.toNat ≤ 57 := UInt32.le_iff_toNat_le.mp h9
    refine ⟨⟨by omega, isUpper_eq_false_iff.mpr fun hu => ?_⟩, ?_⟩
    · exact absurd (Char.le_trans hu.1 h9) (by decide)
    · rintro rfl
      exact absurd h9 (by decide)
  all_goals exact ⟨⟨by decide, by decide⟩, by decide⟩

theorem segment_chars {n : ℕ} {name : Text} (h : isSegment n name = true) : ∀ c ∈ name, isSegmentChar c = true := by
  intro c hc
  cases name with
  | nil => exact absurd hc List.not_mem_nil
  | cons d cs =>
    simp only [isSegment, Bool.and_eq_true] at h
    rcases List.mem_cons.mp hc with rfl | hc
    · rw [isSegmentChar, h.1.1]
      rfl
    · exact List.all_eq_true.mp h.1.2 c hc

theorem segment_lowerAscii {n : ℕ} {name : Text} (h : isSegment n name = true) : ∀ c ∈ name, IsLowerAscii c := by
  intro c hc
  refine (isImageChar_spec ?_).1
  rw [isImageChar, segment_chars h c hc]
  rfl

theorem repository_parts {repository : Text} (h : isRepository repository = true) : ∃ owner name,
    repository = owner ++ '/' :: name ∧ isSegment 38 owner = true ∧ isSegment 99 name = true := by
  unfold isRepository at h
  split at h
  · cases h
  · next owner name hcut =>
    obtain ⟨howner, hname⟩ := Bool.and_eq_true_iff.mp h
    exact ⟨owner, name, (cut_eq_some hcut).1, howner, hname⟩

theorem isHexDigit_spec {c : Char} (h : isHexDigit c = true) : IsLowerAscii c ∧ c ≠ '@' := by
  refine isImageChar_spec ?_
  simp only [isHexDigit, Bool.or_eq_true, Bool.and_eq_true, decide_eq_true_eq] at h
  rcases h with h | ⟨ha, hf⟩
  · simp only [isImageChar, isSegmentChar, isAlnum, h, Bool.or_true, Bool.true_or]
  · have hlower : c.isLower = true := isLower_iff.mpr ⟨ha, Char.le_trans hf (by decide)⟩
    simp only [isImageChar, isSegmentChar, isAlnum, hlower, Bool.true_or]

/-! ### The lower-cased copy -/

/-- The canonical images of a repository. -/
def App.IsCanonical (app : App) (repository image : Text) : Prop :=
  ∃ h, image = app.authorizedImage repository ++ h ∧ h.length = 64 ∧ ∀ c ∈ h, isHexDigit c = true

theorem imageRepository_eq_some {t repository : Text} (h : imageRepository t = some repository) :
    ∃ registry hex, t = (registry ++ '/' :: repository) ++ '@' :: ("sha256:".toList ++ hex) ∧
      isRegistry registry = true ∧ isImagePath repository = true ∧ hex.length = 64 ∧ hex.all isHexDigit = true := by
  unfold imageRepository at h
  split at h
  · cases h
  · next registry rest hslash =>
    split at h
    · cases h
    · next repo digest hat =>
      dsimp only at h
      split at h
      · next hc =>
        cases h
        simp only [Bool.and_eq_true, beq_iff_eq] at hc
        obtain ⟨⟨⟨⟨hreg, hpath⟩, hsha⟩, hlen⟩, hhex⟩ := hc
        refine ⟨registry, removePrefix "sha256:".toList digest, ?_, hreg, hpath, hlen, hhex⟩
        obtain ⟨hex, rfl⟩ := List.isPrefixOf_iff_prefix.mp hsha
        rw [(cut_eq_some hslash).1, (cut_eq_some hat).1, removePrefix_append, List.append_assoc]
        rfl
      · cases h

theorem isRegistry_chars {t : Text} (h : isRegistry t = true) : ∀ c ∈ t, isImageChar c = true := by
  unfold isRegistry at h
  dsimp only at h
  have hhost : ∀ s : Text, (s.all fun c => isAlnum c || c == '.' || c == '-') = true →
      ∀ c ∈ s, isImageChar c = true := by
    intro s hs c hc
    have hc' := List.all_eq_true.mp hs c hc
    simp only [Bool.or_eq_true] at hc'
    simp only [isImageChar, isSegmentChar, Bool.or_eq_true]
    tauto
  split at h
  · simp only [Bool.and_eq_true] at h
    exact hhost t h.2
  · next host port hcut =>
    simp only [Bool.and_eq_true, decide_eq_true_eq] at h
    intro c hc
    rw [(cut_eq_some hcut).1] at hc
    rcases List.mem_append.mp hc with hc | hc
    · exact hhost host h.1.1.1.2 c hc
    · rcases List.mem_cons.mp hc with rfl | hc
      · rfl
      · have hd := List.all_eq_true.mp h.1.1.2 c hc
        simp only [isImageChar, isSegmentChar, isAlnum, hd, Bool.or_true, Bool.true_or]

theorem isImagePath_chars {t : Text} (h : isImagePath t = true) : ∀ c ∈ t, isImageChar c = true := by
  cases t with
  | nil => cases h
  | cons x xs =>
    simp only [isImagePath, Bool.and_eq_true] at h
    intro c hc
    rcases List.mem_cons.mp hc with rfl | hc
    · simp only [isImageChar, isSegmentChar, h.1.1.1, Bool.true_or]
    · have hd := List.all_eq_true.mp h.1.1.2 c hc
      simp only [Bool.or_eq_true] at hd
      simp only [isImageChar, Bool.or_eq_true]
      tauto

theorem authorizedImage_eq (app : App) (repository : Text) (t : Text) : app.authorizedImage repository ++ t =
    (app.settings.imageRegistry ++ '/' :: repository) ++ '@' :: ("sha256:".toList ++ t) := by
  have hslash : app.settings.imageRegistry ++ "/".toList ++ repository =
      app.settings.imageRegistry ++ '/' :: repository := by
    rw [List.append_assoc]
    rfl
  rw [App.authorizedImage, hslash, List.append_assoc _ "@sha256:".toList]
  rfl

theorem reference_chars {registry repository : Text} (hreg : isRegistry registry = true)
    (hpath : isImagePath repository = true) : ∀ c ∈ registry ++ '/' :: repository, isImageChar c = true := by
  intro c hc
  rcases List.mem_append.mp hc with hc | hc
  · exact isRegistry_chars hreg c hc
  · rcases List.mem_cons.mp hc with rfl | hc
    · rfl
    · exact isImagePath_chars hpath c hc

theorem digest_notMem {hex : Text} (h : ∀ c ∈ hex, isHexDigit c = true) : '@' ∉ "sha256:".toList ++ hex := by
  intro hc
  rcases List.mem_append.mp hc with hc | hc
  · revert hc
    decide
  · exact (isHexDigit_spec (h _ hc)).2 rfl

theorem authorized_of_prefix {t repository : Text} (h : imageRepository t = some repository)
    (hp : (app.authorizedImage repository).isPrefixOf t = true) :
    ∃ hex, t = app.authorizedImage repository ++ hex ∧ isRegistry app.settings.imageRegistry = true ∧
      isImagePath repository = true ∧ hex.length = 64 ∧ hex.all isHexDigit = true := by
  obtain ⟨registry, hex, himage, hreg, hpath, hlen, hhex⟩ := imageRepository_eq_some h
  obtain ⟨rest, hrest⟩ := List.isPrefixOf_iff_prefix.mp hp
  have hchars := reference_chars hreg hpath
  -- there is one at sign in the match, so the prefix ends at it
  have hsplit := himage.symm.trans (hrest.symm.trans (authorizedImage_eq app repository rest))
  obtain ⟨hfront, -, hback⟩ := (List.append_cons_inj_of_notMem
    (fun hc => (isImageChar_spec (hchars _ hc)).2 rfl) (digest_notMem (List.all_eq_true.mp hhex))).mp hsplit
  obtain ⟨hregistry, -⟩ := List.append_inj' hfront rfl
  rw [hregistry] at hreg
  rw [← List.append_cancel_left hback] at hrest
  exact ⟨hex, hrest.symm, hreg, hpath, hlen, hhex⟩

/-- A canonical image starts as one of another namespace only if that is its repository. -/
theorem authorized_isPrefixOf_iff {t repository ns : Text} (h : app.IsCanonical repository t)
    (hchars : ∀ c ∈ app.settings.imageRegistry ++ '/' :: repository, isImageChar c = true) :
    (app.authorizedImage ns).isPrefixOf t = true ↔ ns = repository := by
  obtain ⟨hex, rfl, -, hhex⟩ := h
  constructor
  · intro hp
    obtain ⟨rest, hrest⟩ := List.isPrefixOf_iff_prefix.mp hp
    rw [authorizedImage_eq, authorizedImage_eq] at hrest
    have hfront := ((List.append_cons_inj_of_notMem (fun hc => (isImageChar_spec (hchars _ hc)).2 rfl)
      (digest_notMem hhex)).mp hrest.symm).1
    exact (List.cons.inj (List.append_cancel_left hfront)).2.symm
  · rintro rfl
    exact List.isPrefixOf_iff_prefix.mpr (List.prefix_append ..)

/-- What the request model and the handler leave known of an image. -/
structure App.ImageChecked (app : App) (repository image : Text) : Prop where
  canonical : app.IsCanonical repository (app.cm.lower image)
  chars : ∀ c ∈ app.settings.imageRegistry ++ '/' :: repository, isImageChar c = true

theorem imageChecked_of_deploy {request : DeployRequest app.cm}
    (h : (app.authorizedImage request.repository).isPrefixOf (app.cm.lower request.image) = true) :
    app.ImageChecked request.repository request.image := by
  obtain ⟨hex, himage, hreg, hpath, hlen, hhex⟩ := authorized_of_prefix request.image_ok h
  exact ⟨⟨hex, himage, hlen, List.all_eq_true.mp hhex⟩, reference_chars hreg hpath⟩

/-- The image is canonical as it stands exactly when it is its own lower-cased copy. -/
theorem App.ImageChecked.canonical_iff {repository image : Text} (h : app.ImageChecked repository image) :
    app.IsCanonical repository image ↔ app.cm.lower image = image := by
  constructor
  · rintro ⟨hex, rfl, -, hhex⟩
    refine lower_of_ascii app.cm fun c hc => ?_
    rw [authorizedImage_eq] at hc
    rcases List.mem_append.mp hc with hc | hc
    · exact (isImageChar_spec (h.chars c hc)).1
    · rcases List.mem_cons.mp hc with rfl | hc
      · exact ⟨by decide, by decide⟩
      · rcases List.mem_append.mp hc with hc | hc
        · have hsha : "sha256:".toList.all isImageChar = true := rfl
          exact (isImageChar_spec (List.all_eq_true.mp hsha c hc)).1
        · exact (isHexDigit_spec (hhex c hc)).1
  · intro heq
    have hc := h.canonical
    rwa [heq] at hc

theorem imageAuthorized_iff {record : DemoRecord} {config : ProjectConfig} {image ns : Text}
    (himage : record.image = some image) (hns : config.imageNamespace = some ns) (hne : ns ≠ []) :
    app.imageAuthorized record config = (app.authorizedImage (app.cm.lower ns)).isPrefixOf (app.cm.lower image) := by
  unfold App.imageAuthorized
  rw [hns, himage]
  cases ns with
  | nil => exact absurd rfl hne
  | cons c cs => rfl

/-- The namespace check reads the same copy, so it pins the repository. -/
theorem App.ImageChecked.namespace {record : DemoRecord} {config : ProjectConfig} {image ns : Text}
    (h : app.ImageChecked record.repository image) (himage : record.image = some image)
    (hauth : app.imageAuthorized record config = true) (hns : config.imageNamespace = some ns) (hne : ns ≠ []) :
    app.cm.lower ns = record.repository := by
  rw [imageAuthorized_iff himage hns hne] at hauth
  exact (authorized_isPrefixOf_iff h.canonical h.chars).mp hauth

/-! ### Every run -/

/-- A row or record that is to be present has a checked image. -/
def ImagePresent (app : App) (record : DemoRecord) : Prop :=
  record.desiredPresent = true → ∃ image, record.image = some image ∧ app.ImageChecked record.repository image

theorem ImagePresent.of_desired {record old : DemoRecord} (h : ImagePresent app old)
    (hd : record.desired = old.desired) (hk : record.key = old.key) : ImagePresent app record := by
  simp only [DemoRecord.desired, Prod.mk.injEq] at hd
  obtain ⟨-, -, -, himage, hpresent, -⟩ := hd
  have hrepo : record.repository = old.repository := (Prod.mk.inj hk).1
  unfold ImagePresent
  rw [himage, hpresent, hrepo]
  exact h

theorem imagePresent_rowAfter {s : ApiState} {endpoint : Endpoint} {req : HttpRequest} {now : ℤ}
    {p : Payload app.cm} (ha : Admitted app s endpoint req now p) (hash : Text) (later : ℤ)
    (old : Option DemoRecord) (hk : (p.rowAfter hash later old).key = p.key) :
    ImagePresent app (p.rowAfter hash later old) := by
  intro hpresent
  cases p with
  | deploy request =>
    have hrepo : ((Payload.deploy request).rowAfter hash later old).repository = request.repository :=
      (Prod.mk.inj hk).1
    rw [hrepo]
    refine ⟨request.image, ?_, imageChecked_of_deploy (ha.registry request rfl)⟩
    cases old <;> rfl
  | destroy request => cases old <;> cases hpresent

structure ImagesChecked (app : App) (s : System) : Prop where
  rows : ∀ k row, s.demos.get k = some row → ImagePresent app row
  held : ∀ r ∈ s.loop.held, ImagePresent app r
  applying : ∀ record p thread todo, s.loop = .applying record p thread todo →
    record.desiredPresent = true ∧ app.imageAuthorized record p.config = true

theorem ImagesChecked.step {s t : System} {es : List (Event app.cm)} {a : Action} (hi : ImagesChecked app s)
    (hp : LoadsPresent s) (hs : Stepped app s a t es) : ImagesChecked app t := by
  have hrows : ∀ k row, t.demos.get k = some row → ImagePresent app row := by
    intro k row hrow
    by_cases hreq : ∃ endpoint req now later, a = .request endpoint req now later
    · obtain ⟨endpoint, req, now, later, rfl⟩ := hreq
      cases hs with
      | request hr =>
        rcases hr.get k with ⟨hg, -⟩ | ⟨p, hpk, hadm, -, hg, -⟩
        · exact hi.rows k row (hg ▸ hrow)
        · cases hg.symm.trans hrow
          exact imagePresent_rowAfter hadm _ _ _ ((Table.get_key hrow).trans hpk.symm)
    · have hdes := (hs.desired_of_internal fun endpoint req now later he => hreq ⟨_, _, _, _, he⟩).1 k row hrow
      obtain ⟨old, hold, hd⟩ := hdes
      exact (hi.rows k old hold).of_desired hd ((Table.get_key hrow).trans (Table.get_key hold).symm)
  have hheld : ∀ r ∈ t.loop.held, ImagePresent app r := by
    intro r hr
    rcases hs.held hr with hr | hr
    · exact hi.held r hr
    · exact hi.rows _ r hr
  refine ⟨hrows, hheld, fun record p thread todo hl => ?_⟩
  cases hs with
  | request => exact hi.applying record p thread todo hl
  | project hl' hauth =>
    cases hl
    exact ⟨hp _ _ hl', hauth⟩
  | callApply hl' _ =>
    cases hl
    exact hi.applying _ _ _ _ hl'
  | list | beginDelete | beginApply | vaultFailed | callDelete | deleted | deleteFailed | applied | applyFailed
    | endPass | crash => cases hl

/-- The Deployment handed to `apply` runs a canonical image of the record's repository,
the one the Vault record authorizes. -/
def AppliesCanonical (app : App) (record : DemoRecord) (p : VaultProject) : Prop :=
  (∃ image, app.IsCanonical record.repository image ∧
    (app.rendered record p).deployment.containers.map Container.image = [some image]) ∧
  ∀ ns, p.config.imageNamespace = some ns → ns ≠ [] → app.cm.lower ns = record.repository

/-- In every run, whatever Vault answers, the record of an apply has an image, and what
is applied is canonical and authorized exactly when that image is its own lower case. -/
theorem applied_image_canonical_iff {cluster : Cluster} {clock : ℤ} {s : System} {h : List (Event app.cm)}
    {record : DemoRecord} {p : VaultProject} {thread : Thread} {todo : List DemoRecord}
    (run : Run app.step anyStep (System.initial cluster clock) [] s h)
    (hl : s.loop = .applying record p thread todo) :
    ∃ image, record.image = some image ∧ (AppliesCanonical app record p ↔ app.cm.lower image = image) := by
  have hboth : ImagesChecked app s ∧ LoadsPresent s := by
    refine run.invariant (I := fun s _ => ImagesChecked app s ∧ LoadsPresent s) ⟨⟨?_, ?_, ?_⟩, ?_⟩ ?_
    · exact fun k row hr => by cases hr
    · exact fun r hr => by cases hr
    · exact fun record p thread todo hl => by cases hl
    · exact fun record todo hl => by cases hl
    · rintro s h a t es ⟨hi, hp⟩ - hs
      exact ⟨hi.step hp (stepped_of_step hs), hp.step (stepped_of_step hs)⟩
  obtain ⟨hpresent, hauth⟩ := hboth.1.applying record p thread todo hl
  obtain ⟨image, himage, hchecked⟩ := hboth.1.held record (mem_held hl (List.mem_cons_self ..)) hpresent
  have hrendered : (app.rendered record p).deployment.containers.map Container.image = [some image] := by
    rw [← himage]
    rfl
  refine ⟨image, himage, ?_⟩
  rw [← hchecked.canonical_iff]
  constructor
  · rintro ⟨⟨image', hcanon, hr⟩, -⟩
    rw [hrendered, List.cons.injEq, Option.some.injEq] at hr
    rw [hr.1]
    exact hcanon
  · exact fun hcanon => ⟨⟨image, hcanon, hrendered⟩, fun ns hns hne => hchecked.namespace himage hauth hns hne⟩

/-! ### An image in capitals -/

def capitalImage : String := "GHCR.IO/canonical/example@sha256:" ++ String.ofList exampleDigest

def capitalBody : Bytes :=
  encode ("\x7b".toList ++ quoted "repository" "canonical/example" ++ ",\"pr\":8,".toList ++
    quoted "commit_sha" (String.ofList (List.replicate 40 'a')) ++ ",".toList ++ quoted "image" capitalImage ++
    ",".toList ++ quoted "delivery_id" "delivery-1" ++ "\x7d".toList)

def capitalFields : List (Text × Json) :=
  [("repository".toList, .str "canonical/example".toList), ("pr".toList, .int 8),
    ("commit_sha".toList, .str (List.replicate 40 'a')), ("image".toList, .str capitalImage.toList),
    ("delivery_id".toList, .str "delivery-1".toList)]

def capitalApp : App :=
  { exampleApp with pd := { examplePydantic with parseObject := fun body => [(capitalBody, capitalFields)].lookup body } }

def capitalActions : List Action :=
  [.request .deploy (signedRequest "/api/v1/deploy" 100 "delivery-1" capitalBody) 100 100, .list, .begin 110 110,
    .vault (.project exampleProject) 120 120]

theorem capital_runs : ∃ s h record p thread todo,
    Run capitalApp.step anyStep (System.initial (fun _ _ => none) 0) [] s h ∧
    s.loop = .applying record p thread todo ∧ record.image = some capitalImage.toList := by
  have hb : (execute capitalApp.step capitalActions (System.initial (fun _ _ => none) 0) []).any (fun q =>
      match q.1.loop with
      | .applying record _ _ _ => decide (record.image = some capitalImage.toList)
      | _ => false) = true := by
    decide +kernel
  obtain ⟨⟨s, h⟩, hr, hl⟩ := (Option.any_eq_true _ _).mp hb
  split at hl
  · next record p thread todo hloop =>
    exact ⟨s, h, record, p, thread, todo, Run.of_execute capitalActions (fun _ _ _ _ => trivial) .start hr, hloop,
      of_decide_eq_true hl⟩
  · cases hl

theorem applied_image_canonical_iff_example : ∃ record p image, record.image = some image ∧
    (AppliesCanonical capitalApp record p ↔ capitalApp.cm.lower image = image) := by
  obtain ⟨s, h, record, p, thread, todo, run, hl, -⟩ := capital_runs
  obtain ⟨image, himage, hiff⟩ := applied_image_canonical_iff run hl
  exact ⟨record, p, image, himage, hiff⟩

/-- An image in capitals is accepted and applied as it was sent. -/
theorem capital_image_applied : ¬ ∀ (s : System) (h : List (Event capitalApp.cm)) (record : DemoRecord)
    (p : VaultProject) (thread : Thread) (todo : List DemoRecord),
    Run capitalApp.step anyStep (System.initial (fun _ _ => none) 0) [] s h →
    s.loop = .applying record p thread todo → AppliesCanonical capitalApp record p := by
  intro all
  obtain ⟨s, h, record, p, thread, todo, run, hl, himage⟩ := capital_runs
  obtain ⟨image, ⟨hex, hcanon, -⟩, hrendered⟩ := (all s h record p thread todo run hl).1
  have heq : [record.image] = [some image] := hrendered
  rw [himage, List.cons.injEq, Option.some.injEq] at heq
  have hprefix := congrArg (List.take 8) (heq.1.trans hcanon)
  rw [authorizedImage_eq] at hprefix
  have hregistry : List.take 8 ((capitalApp.settings.imageRegistry ++ '/' :: record.repository) ++
      '@' :: ("sha256:".toList ++ hex)) = "ghcr.io/".toList := rfl
  rw [hregistry] at hprefix
  revert hprefix
  decide

end DemoController
