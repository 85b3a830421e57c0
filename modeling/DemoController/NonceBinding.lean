import DemoController.Api

/-!
# How long a nonce stays bound

The row of a nonce keeps the fingerprint and the time of its first use and is
purged after twice the signature window. A retry is accepted without renewing the
row, so the binding outlives the retry's signature exactly when the retry was
signed no later than one window after the first use.
-/

namespace DemoController

open Lib

variable {app : App}

/-! ### What a fingerprint tells -/

/-- A request as it reaches the handlers: the route names an upper-case method, and
`url.path` has lost the line feeds. -/
structure Routed (app : App) (req : HttpRequest) : Prop where
  method : app.cm.upper req.method = req.method
  methodLine : '\n' ∉ req.method
  path : '\n' ∉ req.path

def HttpRequest.content (req : HttpRequest) : Text × Text × Bytes := (req.method, req.path, req.body)

def App.nonceKey (app : App) (req : HttpRequest) : Text × Text := (app.repositoryOf req, req.header "x-demos-nonce")

def HttpRequest.timestamp? (req : HttpRequest) : Option ℤ := pyInt (req.header "x-demos-timestamp")

def App.fingerprint (app : App) (req : HttpRequest) : Bytes := app.requestFingerprint (app.repositoryOf req) req

theorem content_of_fingerprint {req req' : HttpRequest} (hr : Routed app req) (hr' : Routed app req')
    (hk : app.nonceKey req = app.nonceKey req') (h : app.fingerprint req = app.fingerprint req') :
    req.content = req'.content := by
  obtain ⟨hrepo, hnonce⟩ := Prod.mk.inj hk
  simp only [App.fingerprint, App.requestFingerprint, joinLines, List.intercalate_cons_cons,
    List.intercalate_singleton, hr.method, hr'.method, hrepo, hnonce, List.append_assoc,
    List.cons_append, List.nil_append, List.append_cancel_left_eq, List.cons.injEq, true_and] at h
  obtain ⟨hm, hrest⟩ :=
    cons_append_inj (newline_notMem_encode hr.methodLine) (newline_notMem_encode hr'.methodLine) h
  obtain ⟨hp, htail⟩ := cons_append_inj (newline_notMem_encode hr.path) (newline_notMem_encode hr'.path) hrest
  have hb := (List.cons.inj (List.append_cancel_left htail)).2
  rw [HttpRequest.content, HttpRequest.content, encode_injective hm, encode_injective hp, hb]

/-! ### Runs of `authenticate` -/

/-- A call reads the clock and then waits for the body; when that has `arrived`, other
calls may have come to their end that read it later. -/
structure Arrival where
  req : HttpRequest
  now : ℤ
  arrived : ℤ

structure AuthCall extends Arrival where
  outcome : Except Response Text

def AuthCall.accepted (c : AuthCall) : Bool :=
  match c.outcome with
  | .ok _ => true
  | .error _ => false

/-- The tables and the last reading of the clock. -/
abbrev AuthState := ApiState × ℤ

/-- The calls in the order in which their bodies arrive, under a clock that does not go back. -/
def App.authStep (app : App) (s : AuthState) (a : Arrival) : Option (AuthState × List AuthCall) :=
  if s.2 ≤ a.arrived ∧ a.now ≤ a.arrived then
    let r := app.authenticate s.1 a.req a.now
    some ((r.1, a.arrived), [⟨a, r.2⟩])
  else none

theorem authStep_eq_some {s t : AuthState} {a : Arrival} {es : List AuthCall} (h : app.authStep s a = some (t, es)) :
    s.2 ≤ a.arrived ∧ a.now ≤ a.arrived ∧ t = ((app.authenticate s.1 a.req a.now).1, a.arrived) ∧
      es = [⟨a, (app.authenticate s.1 a.req a.now).2⟩] := by
  unfold App.authStep at h
  split at h
  · next hclock =>
    cases h
    exact ⟨hclock.1, hclock.2, rfl, rfl⟩
  · cases h

/-- An accepted request keeps its nonce from other contents while its signature is fresh. -/
def Binds (app : App) (later earlier : AuthCall) : Prop :=
  earlier.accepted = true → ∀ t, earlier.req.timestamp? = some t →
    later.arrived ≤ t + app.settings.signatureMaxAgeSeconds →
    app.nonceKey later.req = app.nonceKey earlier.req → later.req.content ≠ earlier.req.content →
    later.accepted = false

/-- The checks before the nonce let the request pass, and `row` has been kept from an
earlier use of the nonce for the same content. -/
structure Retries (app : App) (s : ApiState) (req : HttpRequest) (now : ℤ) (row : NonceRow) : Prop where
  verified : app.verify req now = .ok (app.repositoryOf req)
  rate : (App.recent s.requests (app.repositoryOf req) now).length < app.settings.rateLimitPerMinute
  nonce : req.header "x-demos-nonce" ≠ []
  stored : s.store.nonces.get (app.nonceKey req) = some row
  live : now - app.settings.signatureMaxAgeSeconds * 2 ≤ row.seenAt
  same : row.requestFingerprint = sha256 (app.fingerprint req)

/-- A retry was signed within the window after the first use of its nonce. -/
def SignedInTime (app : App) (s : ApiState) (req : HttpRequest) (now : ℤ) : Prop :=
  ∀ row t, Retries app s req now row → req.timestamp? = some t →
    t ≤ row.seenAt + app.settings.signatureMaxAgeSeconds

/-- The row that keeps a nonce for the request, long enough for the timestamp. -/
def Keeps (app : App) (s : ApiState) (req : HttpRequest) (t : ℤ) : Prop :=
  ∃ row, s.store.nonces.get (app.nonceKey req) = some row ∧
    row.requestFingerprint = sha256 (app.fingerprint req) ∧ t ≤ row.seenAt + app.settings.signatureMaxAgeSeconds

/-! ### One call -/

/-- What `use_nonce` is called with. -/
def App.use (app : App) (s : ApiState) (req : HttpRequest) (now : ℤ) : Store × Bool :=
  s.store.useNonce (app.repositoryOf req) (req.header "x-demos-nonce") (sha256 (app.fingerprint req)) now
    (app.settings.signatureMaxAgeSeconds * 2)

/-- A call refuses before it reaches the nonce, or its answer is that of `use_nonce`. -/
inductive Authenticated (app : App) (s : ApiState) (req : HttpRequest) (now : ℤ) :
    ApiState → Except Response Text → Prop
  | refused {t : ApiState} {r : Response} : t.store = s.store → Authenticated app s req now t (.error r)
  | used {t : ApiState} {r : Except Response Text} {timestamp : ℤ} : req.timestamp? = some timestamp →
      timestamp ≤ now + app.settings.signatureMaxAgeSeconds → t.store = (app.use s req now).1 →
      ((∃ repository, r = .ok repository) → (app.use s req now).2 = true) → Authenticated app s req now t r

theorem timestamp_of_verify {req : HttpRequest} {now : ℤ} {repository : Text}
    (h : app.verify req now = .ok repository) :
    ∃ t, req.timestamp? = some t ∧ t ≤ now + app.settings.signatureMaxAgeSeconds := by
  unfold App.verify at h
  split at h
  · cases h
  · split at h
    · cases h
    · next t ht =>
      split at h
      · cases h
      · exact ⟨t, ht, by omega⟩

theorem authenticated (app : App) (s : ApiState) (req : HttpRequest) (now : ℤ) :
    Authenticated app s req now (app.authenticate s req now).1 (app.authenticate s req now).2 := by
  unfold App.authenticate
  cases hv : app.verify req now with
  | error r => exact .refused rfl
  | ok repository =>
    obtain ⟨t, ht, hle⟩ := timestamp_of_verify hv
    have hrepo := App.repository_of_verify hv
    subst hrepo
    unfold App.checkUse
    dsimp only
    split
    · exact .refused rfl
    · split
      · exact .refused rfl
      · split
        · next hu => exact .used ht hle rfl fun _ => hu
        · exact .used ht hle rfl fun ⟨_, h⟩ => by cases h

theorem Keeps.after {s t : ApiState} {req other : HttpRequest} {now timestamp : ℤ} {r : Except Response Text}
    (hk : Keeps app s req timestamp) (hnow : now ≤ timestamp + app.settings.signatureMaxAgeSeconds)
    (ha : Authenticated app s other now t r) : Keeps app t req timestamp := by
  obtain ⟨row, hrow, hfp, hlong⟩ := hk
  have hlive : (s.store.nonces.get (app.nonceKey req)).filter (fun r =>
      decide (now - app.settings.signatureMaxAgeSeconds * 2 ≤ r.seenAt)) = some row := by
    rw [hrow, Option.filter_some, if_pos (decide_eq_true (by omega))]
  refine ⟨row, ?_, hfp, hlong⟩
  cases ha with
  | refused ht => rw [ht, hrow]
  | used _ _ ht _ =>
    rw [ht, App.use]
    by_cases hkey : app.nonceKey req = app.nonceKey other
    · rw [hkey] at hlive ⊢
      have hself := get_useNonce_self s.store (app.repositoryOf other) (other.header "x-demos-nonce")
        (sha256 (app.fingerprint other)) now (app.settings.signatureMaxAgeSeconds * 2)
      exact hself.trans (by rw [← App.nonceKey, hlive]; rfl)
    · rw [get_useNonce_of_ne _ _ _ _ _ _ hkey, hlive]

theorem Keeps.refuses {s t : ApiState} {req other : HttpRequest} {now timestamp : ℤ} {r : Except Response Text}
    (hk : Keeps app s req timestamp) (hnow : now ≤ timestamp + app.settings.signatureMaxAgeSeconds)
    (hkey : app.nonceKey other = app.nonceKey req)
    (hne : sha256 (app.fingerprint other) ≠ sha256 (app.fingerprint req))
    (ha : Authenticated app s other now t r) : ∃ e, r = .error e := by
  obtain ⟨row, hrow, hfp, hlong⟩ := hk
  cases ha with
  | refused => exact ⟨_, rfl⟩
  | used _ _ _ hu =>
    cases r with
    | error e => exact ⟨e, rfl⟩
    | ok repository =>
      have haccept := hu ⟨repository, rfl⟩
      rw [App.use, useNonce_answer, ← App.nonceKey, hkey, hrow, Option.filter_some,
        if_pos (decide_eq_true (by omega)), Option.all_some, decide_eq_true_eq] at haccept
      exact absurd (haccept.symm.trans hfp) hne

theorem keeps_of_accepted {s : ApiState} {req : HttpRequest} {now timestamp : ℤ} {repository : Text}
    (hok : (app.authenticate s req now).2 = .ok repository) (hin : SignedInTime app s req now)
    (hts : req.timestamp? = some timestamp) : Keeps app (app.authenticate s req now).1 req timestamp := by
  obtain ⟨hverified, hunused⟩ := (App.authenticate_ok_iff ..).mp hok
  obtain rfl := App.repository_of_verify hverified
  have ha := authenticated app s req now
  rw [hok] at ha
  cases ha with
  | used ht hle hstore hu =>
    cases ht.symm.trans hts
    have haccept := hu ⟨_, rfl⟩
    have hself := get_useNonce_self s.store (app.repositoryOf req) (req.header "x-demos-nonce")
      (sha256 (app.fingerprint req)) now (app.settings.signatureMaxAgeSeconds * 2)
    rw [App.use, useNonce_answer] at haccept
    rw [← App.nonceKey] at hself haccept
    cases hrow : (s.store.nonces.get (app.nonceKey req)).filter (fun r =>
        decide (now - app.settings.signatureMaxAgeSeconds * 2 ≤ r.seenAt)) with
    | none =>
      rw [hrow] at hself
      refine ⟨_, (congrArg (fun s => s.nonces.get (app.nonceKey req)) hstore).trans hself, rfl, hle⟩
    | some row =>
      rw [hrow] at hself haccept
      obtain ⟨hg, hlive⟩ := Option.filter_eq_some_iff.mp hrow
      have hfp : row.requestFingerprint = sha256 (app.fingerprint req) := of_decide_eq_true haccept
      refine ⟨row, (congrArg (fun s => s.nonces.get (app.nonceKey req)) hstore).trans hself, hfp, ?_⟩
      exact hin row timestamp ⟨hverified, hunused.rate, hunused.nonce, hg, of_decide_eq_true hlive, hfp⟩ ht

/-! ### Every run -/

/-- What is known of the calls so far: the fresh ones among the accepted keep their nonce. -/
structure Bindings (app : App) (fingerprints : Set Bytes) (s : AuthState) (h : List AuthCall) : Prop where
  routed : ∀ e ∈ h, Routed app e.req ∧ app.fingerprint e.req ∈ fingerprints
  kept : ∀ e ∈ h, e.accepted = true → ∀ t, e.req.timestamp? = some t →
    s.2 ≤ t + app.settings.signatureMaxAgeSeconds → Keeps app s.1 e.req t
  bound : h.Pairwise (Binds app)

theorem AuthCall.accepted_iff {c : AuthCall} : c.accepted = true ↔ ∃ repository, c.outcome = .ok repository := by
  unfold AuthCall.accepted
  cases c.outcome with
  | ok repository => exact iff_of_true rfl ⟨repository, rfl⟩
  | error r => exact iff_of_false Bool.false_ne_true fun ⟨_, h⟩ => by cases h

theorem Bindings.step {fingerprints : Set Bytes} (inj : Set.InjOn sha256 fingerprints) {s t : AuthState}
    {h es : List AuthCall} {a : Arrival} (hb : Bindings app fingerprints s h)
    (hr : Routed app a.req) (hf : app.fingerprint a.req ∈ fingerprints) (hin : SignedInTime app s.1 a.req a.now)
    (hs : app.authStep s a = some (t, es)) : Bindings app fingerprints t (es ++ h) := by
  obtain ⟨hclock, hread, rfl, rfl⟩ := authStep_eq_some hs
  have ha := authenticated app s.1 a.req a.now
  refine ⟨?_, ?_, ?_⟩
  · intro e he
    rcases List.mem_cons.mp he with rfl | he
    · exact ⟨hr, hf⟩
    · exact hb.routed e he
  · intro e he hacc t ht hfresh
    rcases List.mem_cons.mp he with rfl | he
    · obtain ⟨repository, hok⟩ := AuthCall.accepted_iff.mp hacc
      exact keeps_of_accepted hok hin ht
    · exact (hb.kept e he hacc t ht (hclock.trans hfresh)).after (hread.trans hfresh) ha
  · refine List.Pairwise.cons ?_ hb.bound
    intro e he hacc t ht hfresh hkey hne
    have hk := hb.kept e he hacc t ht (hclock.trans hfresh)
    have hfp : sha256 (app.fingerprint a.req) ≠ sha256 (app.fingerprint e.req) := fun heq =>
      hne (content_of_fingerprint hr (hb.routed e he).1 hkey (inj hf (hb.routed e he).2 heq))
    obtain ⟨e', he'⟩ := hk.refuses (hread.trans hfresh) hkey hfp ha
    rw [AuthCall.accepted, he']

/-! ### A retry that was signed too late -/

/-- A request for another content that comes while the retry's signature is fresh, when
the row of the nonce is already too old. -/
structure Reuses (app : App) (t : ApiState) (row : NonceRow) (timestamp : ℤ) (retry other : Arrival) : Prop where
  key : app.nonceKey other.req = app.nonceKey retry.req
  content : other.req.content ≠ retry.req.content
  verified : app.verify other.req other.now = .ok (app.repositoryOf other.req)
  rate : (App.recent t.requests (app.repositoryOf other.req) other.now).length < app.settings.rateLimitPerMinute
  old : row.seenAt + app.settings.signatureMaxAgeSeconds * 2 < other.now
  fresh : other.arrived ≤ timestamp + app.settings.signatureMaxAgeSeconds

theorem Retries.unused {s : ApiState} {req : HttpRequest} {now : ℤ} {row : NonceRow} (h : Retries app s req now row) :
    App.Unused app s (app.repositoryOf req) req now := by
  refine ⟨h.rate, h.nonce, fun r hr hk _ => ?_⟩
  have hget := Table.get_of_mem hr
  rw [hk, ← App.nonceKey, h.stored, Option.some.injEq] at hget
  rw [← hget]
  exact h.same

/-- A retry leaves the row of its nonce as it was. -/
theorem Retries.keeps_row {s : ApiState} {req : HttpRequest} {now : ℤ} {row : NonceRow}
    (h : Retries app s req now row) :
    (app.authenticate s req now).1.store.nonces.get (app.nonceKey req) = some row := by
  have hok := (App.authenticate_ok_iff ..).mpr ⟨h.verified, h.unused⟩
  have ha := authenticated app s req now
  rw [hok] at ha
  cases ha with
  | used _ _ hstore _ =>
    rw [hstore]
    refine (get_useNonce_self ..).trans ?_
    rw [← App.nonceKey, h.stored, Option.filter_some, if_pos (decide_eq_true h.live)]
    rfl

theorem Reuses.breaks {s t u : AuthState} {retry other : Arrival} {row : NonceRow} {timestamp : ℤ}
    {h es es' : List AuthCall} (hretry : Retries app s.1 retry.req retry.now row)
    (hts : retry.req.timestamp? = some timestamp) (hs : app.authStep s retry = some (t, es))
    (hother : Reuses app t.1 row timestamp retry other) (hs' : app.authStep t other = some (u, es')) :
    ¬ (es' ++ (es ++ h)).Pairwise (Binds app) := by
  have hrow := hretry.keeps_row
  obtain ⟨-, -, rfl, rfl⟩ := authStep_eq_some hs
  obtain ⟨-, -, rfl, rfl⟩ := authStep_eq_some hs'
  have hok := (App.authenticate_ok_iff ..).mpr ⟨hretry.verified, hretry.unused⟩
  have hnonce : other.req.header "x-demos-nonce" ≠ [] := by
    rw [(Prod.mk.inj hother.key).2]
    exact hretry.nonce
  have hunused : App.Unused app (app.authenticate s.1 retry.req retry.now).1 (app.repositoryOf other.req)
      other.req other.now := by
    refine ⟨hother.rate, hnonce, fun r hr hk hlive => ?_⟩
    have hget := Table.get_of_mem hr
    rw [hk, ← App.nonceKey, hother.key, hrow, Option.some.injEq] at hget
    have hold := hother.old
    rw [hget] at hold
    omega
  have hok' := (App.authenticate_ok_iff ..).mpr ⟨hother.verified, hunused⟩
  intro hpair
  have hbinds := (List.pairwise_cons.mp hpair).1 _ (List.mem_cons_self ..)
  have hrefused := hbinds (AuthCall.accepted_iff.mpr ⟨_, hok⟩) timestamp hts hother.fresh hother.key hother.content
  rw [AuthCall.accepted_iff.mpr ⟨_, hok'⟩] at hrefused
  cases hrefused

/-- In every run whose accepted retries were signed within the window after the first use
of their nonce, an accepted request keeps its nonce from other contents while its
signature is fresh; after a retry that was not, the next request with another content
that passes the other checks in the time left is accepted. -/
theorem nonce_stays_bound {fingerprints : Set Bytes} (inj : Set.InjOn sha256 fingerprints) {s₀ s : AuthState}
    {h : List AuthCall} (run : Run app.authStep (fun s _ a => Routed app a.req ∧
      app.fingerprint a.req ∈ fingerprints ∧ SignedInTime app s.1 a.req a.now) s₀ [] s h) :
    h.Pairwise (Binds app) ∧
    ∀ {t u : AuthState} {es es' : List AuthCall} {retry other : Arrival} {row : NonceRow} {timestamp : ℤ},
      Retries app s.1 retry.req retry.now row → retry.req.timestamp? = some timestamp →
      app.authStep s retry = some (t, es) → Reuses app t.1 row timestamp retry other →
      app.authStep t other = some (u, es') → ¬ (es' ++ (es ++ h)).Pairwise (Binds app) := by
  have hb : Bindings app fingerprints s h := by
    refine run.invariant (I := Bindings app fingerprints)
      ⟨by simp, by simp, List.Pairwise.nil⟩ ?_
    rintro s h a t es hb ⟨hr, hf, hin⟩ hs
    exact hb.step inj hr hf hin hs
  exact ⟨hb.bound, fun hretry hts hs hother hs' => hother.breaks hretry hts hs hs'⟩

def signedAt (now : ℤ) (body : String) : Arrival :=
  ⟨signedRequest "/api/v1/deploy" now "delivery-1" (encode body.toList), now, now⟩

def firstUse : Arrival := signedAt 1000 "one body"
def promptRetry : Arrival := signedAt 1250 "one body"
def lateRetry : Arrival := signedAt 1600 "one body"
def otherBody : Arrival := signedAt 1601 "another body"

/-- The body arrives after the retry, which read the clock later. -/
def overtaken : Arrival := { signedAt 1240 "another body" with arrived := 1260 }

def nonceFingerprints : Set Bytes := {exampleApp.fingerprint firstUse.req, exampleApp.fingerprint otherBody.req}

theorem nonceFingerprints_injOn : Set.InjOn sha256 nonceFingerprints := by
  have hne : sha256 (exampleApp.fingerprint firstUse.req) ≠ sha256 (exampleApp.fingerprint otherBody.req) := by
    decide +kernel
  rintro x (rfl | rfl) y (rfl | rfl) hxy
  · rfl
  · exact absurd hxy hne
  · exact absurd hxy.symm hne
  · rfl

def signedExample (a : Arrival) : Prop :=
  Routed exampleApp a.req ∧ exampleApp.fingerprint a.req ∈ nonceFingerprints

theorem signedExample_of_mem {a : Arrival} (h : a ∈ [firstUse, promptRetry, overtaken, lateRetry, otherBody]) :
    signedExample a := by
  have hfingerprint : ∀ a ∈ [firstUse, promptRetry, overtaken, lateRetry, otherBody],
      exampleApp.fingerprint a.req = exampleApp.fingerprint firstUse.req ∨
        exampleApp.fingerprint a.req = exampleApp.fingerprint otherBody.req := by
    decide +kernel
  have hline : ∀ a ∈ [firstUse, promptRetry, overtaken, lateRetry, otherBody],
      a.req.method = "POST".toList ∧ a.req.path = "/api/v1/deploy".toList := by
    decide +kernel
  obtain ⟨hmethod, hpath⟩ := hline a h
  refine ⟨⟨?_, ?_, ?_⟩, hfingerprint a h⟩
  · rw [hmethod]
    decide
  · rw [hmethod]
    decide
  · rw [hpath]
    decide

def inTimeTest (s : AuthState) (a : Arrival) : Bool :=
  (s.1.store.nonces.get (exampleApp.nonceKey a.req)).all fun row => a.req.timestamp?.all fun t =>
    decide (t ≤ row.seenAt + exampleApp.settings.signatureMaxAgeSeconds)

theorem signedInTime_of_test {s : AuthState} {a : Arrival} (ht : inTimeTest s a = true) :
    SignedInTime exampleApp s.1 a.req a.now := by
  intro row t hretry hts
  rw [inTimeTest, hretry.stored, Option.all_some, hts, Option.all_some] at ht
  exact of_decide_eq_true ht

def runAttempts (calls : List Arrival) : Option (AuthState × List AuthCall) :=
  execute exampleApp.authStep calls (ApiState.empty, 0) []

theorem nonce_stays_bound_example : ∃ s first retry other,
    Run exampleApp.authStep (fun s _ a => Routed exampleApp a.req ∧
      exampleApp.fingerprint a.req ∈ nonceFingerprints ∧ SignedInTime exampleApp s.1 a.req a.now)
      (ApiState.empty, 0) [] s [⟨overtaken, other⟩, ⟨promptRetry, retry⟩, ⟨firstUse, first⟩] ∧
    AuthCall.accepted ⟨promptRetry, retry⟩ = true ∧ AuthCall.accepted ⟨overtaken, other⟩ = false := by
  have hb : (executeIf exampleApp.authStep (fun s _ a => inTimeTest s a) [firstUse, promptRetry, overtaken]
      (ApiState.empty, 0) []).any (fun q => (q.2.map AuthCall.accepted)[1]? = some true) = true := by
    decide +kernel
  simp only [Option.any_eq_true, decide_eq_true_eq] at hb
  obtain ⟨⟨s, h⟩, hr, hacc⟩ := hb
  obtain ⟨s', other, retry, first, hr'⟩ : ∃ s x y z, runAttempts [firstUse, promptRetry, overtaken] =
      some (s, [⟨overtaken, x⟩, ⟨promptRetry, y⟩, ⟨firstUse, z⟩]) :=
    ⟨_, _, _, _, rfl⟩
  obtain ⟨rfl, rfl⟩ := Prod.mk.inj (Option.some.inj ((execute_of_executeIf hr).symm.trans hr'))
  have run : Run exampleApp.authStep (fun s _ a => Routed exampleApp a.req ∧
      exampleApp.fingerprint a.req ∈ nonceFingerprints ∧ SignedInTime exampleApp s.1 a.req a.now)
      (ApiState.empty, 0) [] s [⟨overtaken, other⟩, ⟨promptRetry, retry⟩, ⟨firstUse, first⟩] := by
    refine Run.of_executeIf _ (fun s h a ha ht => ?_) .start hr
    have hsigned : signedExample a := signedExample_of_mem (List.mem_of_mem_take (i := 3) ha)
    exact ⟨hsigned.1, hsigned.2, signedInTime_of_test ht⟩
  have hretry : AuthCall.accepted ⟨promptRetry, retry⟩ = true := Option.some.inj hacc
  have hpair := (List.pairwise_cons.mp (nonce_stays_bound nonceFingerprints_injOn run).1).1
  have htime : promptRetry.req.timestamp? = some 1250 := by decide +kernel
  have hfresh : overtaken.arrived ≤ 1250 + exampleApp.settings.signatureMaxAgeSeconds := by decide
  have hkey : exampleApp.nonceKey overtaken.req = exampleApp.nonceKey promptRetry.req := by decide +kernel
  have hcontent : overtaken.req.content ≠ promptRetry.req.content := by decide +kernel
  exact ⟨s, first, retry, other, run, hretry,
    hpair _ (List.mem_cons_self ..) hretry 1250 htime hfresh hkey hcontent⟩

/-- A nonce is accepted again for another body while the signature of a retry is fresh. -/
theorem nonce_reused_after_retry : ¬ ∀ (fingerprints : Set Bytes), Set.InjOn sha256 fingerprints →
    ∀ (s : AuthState) (h : List AuthCall), Run exampleApp.authStep (fun _ _ a => Routed exampleApp a.req ∧
      exampleApp.fingerprint a.req ∈ fingerprints) (ApiState.empty, 0) [] s h → h.Pairwise (Binds exampleApp) := by
  intro all
  obtain ⟨s, x, y, z, hr⟩ : ∃ s x y z, runAttempts [firstUse, lateRetry, otherBody] =
      some (s, [⟨otherBody, x⟩, ⟨lateRetry, y⟩, ⟨firstUse, z⟩]) :=
    ⟨_, _, _, _, rfl⟩
  have hb : (runAttempts [firstUse, lateRetry, otherBody]).map (fun p => p.2.map AuthCall.accepted) =
      some [true, true, true] := by
    decide +kernel
  rw [hr] at hb
  simp only [Option.map_some, List.map_cons, List.map_nil, Option.some.injEq, List.cons.injEq, and_true] at hb
  obtain ⟨hother, hretry, -⟩ := hb
  have run : Run exampleApp.authStep (fun _ _ a => signedExample a) (ApiState.empty, 0) []
      s [⟨otherBody, x⟩, ⟨lateRetry, y⟩, ⟨firstUse, z⟩] := by
    refine Run.of_execute _ (fun _ _ _ ha => signedExample_of_mem ?_) .start hr
    simp only [List.mem_cons, List.not_mem_nil, or_false] at ha ⊢
    rcases ha with rfl | rfl | rfl
    · exact .inl rfl
    · exact .inr (.inr (.inr (.inl rfl)))
    · exact .inr (.inr (.inr (.inr rfl)))
  have hpair := (List.pairwise_cons.mp (all nonceFingerprints nonceFingerprints_injOn s _ run)).1
  have htime : lateRetry.req.timestamp? = some 1600 := by decide +kernel
  have hfresh : otherBody.arrived ≤ 1600 + exampleApp.settings.signatureMaxAgeSeconds := by decide
  have hkey : exampleApp.nonceKey otherBody.req = exampleApp.nonceKey lateRetry.req := by decide +kernel
  have hcontent : otherBody.req.content ≠ lateRetry.req.content := by decide +kernel
  have hrefused := hpair _ (List.mem_cons_self ..) hretry 1600 htime hfresh hkey hcontent
  rw [hother] at hrefused
  cases hrefused

end DemoController
