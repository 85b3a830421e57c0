import DemoController.StoreHistory

/-!
# Authentication (`auth.py`)

A request is accepted on an HMAC signature over method, path, timestamp, nonce
and body, a rate limit for each repository, and a nonce that the store binds to
the fingerprint of the request. Only the last two touch the state.
-/

namespace DemoController

open Lib

/-- A configured key. A JSON text may hold half of a surrogate pair alone, and then
`str.encode` raises. -/
inductive CredentialKey where
  | text (key : Text)
  | surrogate
  deriving DecidableEq

namespace CredentialKey

def isEmpty : CredentialKey → Bool
  | .text key => key.isEmpty
  | .surrogate => false

def encoded : CredentialKey → Option Bytes
  | .text key => some (encode key)
  | .surrogate => none

end CredentialKey

structure Settings where
  namespace_ : Text
  hostnameSuffix : Text
  controllerOwner : Text
  imageRegistry : Text
  hmacCredentials : List (Text × CredentialKey)
  requestMaxBytes : ℤ
  signatureMaxAgeSeconds : ℤ
  rateLimitPerMinute : ℤ

/-- The deployed program: its settings and the libraries it runs on. -/
structure App where
  cm : CaseMapping
  pd : Pydantic
  settings : Settings

/-- Header names are lower-cased by the server and values decoded as latin-1;
`path` is `request.url.path`. -/
structure HttpRequest where
  method : Text
  path : Text
  headers : List (Text × Text)
  body : Bytes

def HttpRequest.header? (req : HttpRequest) (name : String) : Option Text :=
  req.headers.lookup name.toList

def HttpRequest.header (req : HttpRequest) (name : String) : Text := (req.header? name).getD []

inductive Response where
  /-- an `HTTPException` or the error answer of the middleware -/
  | rejected (code : ℕ) (detail : Text)
  /-- an exception no handler catches, answered with 500 -/
  | unhandled (error : Text)
  | answered (code : ℕ) (demo : DemoStatus)
  deriving DecidableEq

structure ApiState where
  store : Store
  requests : Text → List ℤ

def ApiState.empty : ApiState := ⟨Store.empty, fun _ => []⟩

def joinLines (parts : List Bytes) : Bytes := List.intercalate [10] parts

namespace App

variable (app : App)

def repositoryOf (req : HttpRequest) : Text := app.cm.lower (req.header "x-demos-repository")

/-- `{repository.lower(): key}` keeps the last of the keys given for one repository;
an empty key is no credential. -/
def credential (repository : Text) : Option CredentialKey :=
  ((app.settings.hmacCredentials.reverse.map fun c => (app.cm.lower c.1, c.2)).lookup repository).filter
    fun key => !key.isEmpty

def canonical (req : HttpRequest) : Bytes :=
  joinLines [encode (app.cm.upper req.method), encode req.path, encode (req.header "x-demos-timestamp"),
    encode (req.header "x-demos-nonce"), req.body]

def requestFingerprint (repository : Text) (req : HttpRequest) : Bytes :=
  joinLines [encode repository, encode (app.cm.upper req.method), encode req.path,
    encode (req.header "x-demos-nonce"), req.body]

/-- The checks of `authenticate` that leave every table alone. The key is encoded before
the comparison, and `compare_digest` raises `TypeError` on a signature with a character
outside ASCII. -/
def verify (req : HttpRequest) (now : ℤ) : Except Response Text :=
  match app.credential (app.repositoryOf req) with
  | none => .error (.rejected 401 "unknown repository credential".toList)
  | some key =>
    match pyInt (req.header "x-demos-timestamp") with
    | none => .error (.rejected 401 "invalid signature timestamp".toList)
    | some timestamp =>
      if app.settings.signatureMaxAgeSeconds < (now - timestamp).natAbs then
        .error (.rejected 401 "stale signature".toList)
      else
        match key.encoded with
        | none => .error (.unhandled "UnicodeEncodeError".toList)
        | some secret =>
          let normalized := removePrefix "sha256=".toList (req.header "x-demos-signature")
          if normalized.any fun c => 128 ≤ c.toNat then .error (.unhandled "TypeError".toList)
          else if hmacSha256 secret (app.canonical req) = normalized then .ok (app.repositoryOf req)
          else .error (.rejected 401 "invalid signature".toList)

def recent (requests : Text → List ℤ) (repository : Text) (now : ℤ) : List ℤ :=
  (requests repository).dropWhile fun t => t ≤ now - 60

def checkRate (requests : Text → List ℤ) (repository : Text) (now : ℤ) : (Text → List ℤ) × Bool :=
  let queue := recent requests repository now
  if app.settings.rateLimitPerMinute ≤ queue.length then
    (fun r => if r = repository then queue else requests r, false)
  else (fun r => if r = repository then queue ++ [now] else requests r, true)

/-- The rest of `authenticate`: the rate limit and then the nonce. -/
def checkUse (s : ApiState) (repository : Text) (req : HttpRequest) (now : ℤ) : ApiState × Except Response Text :=
  let rate := app.checkRate s.requests repository now
  if !rate.2 then
    (⟨s.store, rate.1⟩, .error (.rejected 429 "rate limit exceeded".toList))
  else
    let nonce := req.header "x-demos-nonce"
    if nonce.isEmpty then (⟨s.store, rate.1⟩, .error (.rejected 409 "replayed delivery".toList))
    else
      let used := s.store.useNonce repository nonce (sha256 (app.requestFingerprint repository req)) now
        (app.settings.signatureMaxAgeSeconds * 2)
      if used.2 then (⟨used.1, rate.1⟩, .ok repository)
      else (⟨used.1, rate.1⟩, .error (.rejected 409 "replayed delivery".toList))

def authenticate (s : ApiState) (req : HttpRequest) (now : ℤ) : ApiState × Except Response Text :=
  match app.verify req now with
  | .error response => (s, .error response)
  | .ok repository => app.checkUse s repository req now

/-! ### What authentication says and what it leaves alone -/

variable {app}

theorem repository_of_verify {req : HttpRequest} {now : ℤ} {repository : Text}
    (h : app.verify req now = .ok repository) : repository = app.repositoryOf req := by
  unfold verify at h
  split at h
  · cases h
  · split at h
    · cases h
    · split at h
      · cases h
      · split at h
        · cases h
        · dsimp only at h
          split at h
          · cases h
          · split at h
            · cases h
              rfl
            · cases h

theorem authenticate_demos (s : ApiState) (req : HttpRequest) (now : ℤ) :
    (app.authenticate s req now).1.store.demos = s.store.demos := by
  unfold authenticate
  split
  · rfl
  · unfold checkUse
    dsimp only
    split
    · rfl
    · split
      · rfl
      · split <;> exact Store.useNonce_demos ..

structure Unused (app : App) (s : ApiState) (repository : Text) (req : HttpRequest) (now : ℤ) : Prop where
  rate : (recent s.requests repository now).length < app.settings.rateLimitPerMinute
  nonce : req.header "x-demos-nonce" ≠ []
  binding : ∀ row ∈ s.store.nonces.rows, row.key = (repository, req.header "x-demos-nonce") →
    now - app.settings.signatureMaxAgeSeconds * 2 ≤ row.seenAt →
    row.requestFingerprint = sha256 (app.requestFingerprint repository req)

theorem useNonce_accepts (s : Store) (repository nonce fp : Text) (now maxAge : ℤ) :
    (s.useNonce repository nonce fp now maxAge).2 = true ↔
      ∀ row ∈ s.nonces.rows, row.key = (repository, nonce) → now - maxAge ≤ row.seenAt →
        row.requestFingerprint = fp := by
  unfold Store.useNonce
  dsimp only
  split
  · next existing hg =>
    obtain ⟨hm, hk⟩ := Table.get_eq_some_iff.mp hg
    have hm' := List.mem_filter.mp hm
    have hage : now - maxAge ≤ existing.seenAt := by simpa using hm'.2
    rw [decide_eq_true_eq]
    constructor
    · intro hf row hr hrk _
      rw [s.nonces.row_inj hr hm'.1 (hrk.trans hk.symm)]
      exact hf
    · exact fun all => all existing hm'.1 hk hage
  · next hg =>
    refine iff_of_true rfl fun row hr hrk hage => ?_
    have hin : row ∈ (s.nonces.filterRows fun r => !decide (r.seenAt < now - maxAge)).rows :=
      List.mem_filter.mpr ⟨hr, by simpa using hage⟩
    have hn := Table.get_eq_none_iff.mp hg
    exact absurd (List.mem_map.mpr ⟨row, hin, hrk⟩) hn

theorem checkUse_ok_iff (s : ApiState) (repository : Text) (req : HttpRequest) (now : ℤ) (r : Text) :
    (app.checkUse s repository req now).2 = .ok r ↔ r = repository ∧ Unused app s repository req now := by
  have hempty : (req.header "x-demos-nonce").isEmpty = true ↔ req.header "x-demos-nonce" = [] :=
    List.isEmpty_iff
  unfold checkUse checkRate
  dsimp only
  by_cases hrate : app.settings.rateLimitPerMinute ≤ (recent s.requests repository now).length
  · simp only [if_pos hrate, Bool.not_false, if_true]
    constructor
    · intro h
      cases h
    · rintro ⟨-, h⟩
      exact absurd h.rate (not_lt.mpr hrate)
  · simp only [if_neg hrate, Bool.not_true, Bool.false_eq_true, if_false]
    by_cases hn : req.header "x-demos-nonce" = []
    · rw [if_pos (hempty.mpr hn)]
      constructor
      · intro h
        cases h
      · rintro ⟨-, h⟩
        exact absurd hn h.nonce
    · rw [if_neg fun h => hn (hempty.mp h)]
      have hacc := useNonce_accepts s.store repository (req.header "x-demos-nonce")
        (sha256 (app.requestFingerprint repository req)) now (app.settings.signatureMaxAgeSeconds * 2)
      split
      · next hu =>
        constructor
        · intro h
          cases h
          exact ⟨rfl, not_le.mp hrate, hn, hacc.mp hu⟩
        · rintro ⟨rfl, -⟩
          rfl
      · next hu =>
        constructor
        · intro h
          cases h
        · rintro ⟨-, h⟩
          exact absurd (hacc.mpr h.binding) hu

theorem authenticate_ok_iff (s : ApiState) (req : HttpRequest) (now : ℤ) (r : Text) :
    (app.authenticate s req now).2 = .ok r ↔ app.verify req now = .ok r ∧ Unused app s r req now := by
  unfold authenticate
  cases hv : app.verify req now with
  | error e =>
    constructor
    · intro h
      cases h
    · rintro ⟨h, -⟩
      cases h
  | ok repository =>
    dsimp only
    rw [checkUse_ok_iff, Except.ok.injEq]
    constructor
    · rintro ⟨rfl, h⟩
      exact ⟨rfl, h⟩
    · rintro ⟨rfl, h⟩
      exact ⟨rfl, h⟩

end App

end DemoController
