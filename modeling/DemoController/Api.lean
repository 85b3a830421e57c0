import DemoController.Auth

/-!
# The API handlers (`api.py`)

`serve` is one request from the body limit to the answer. The clock is read
twice on the way, in `authenticate` (`now`) and in the store (`later`). Beside
the answer it returns the events a run records: the delivery that was accepted
and the effect it had on the store.
-/

namespace DemoController

open Lib

inductive Endpoint where
  | deploy
  | destroy
  | demoStatus (owner name pr : Text)
  deriving DecidableEq

inductive Operation where
  | deploy
  | destroy
  deriving DecidableEq

/-- What a run of the controller records. -/
inductive Event (cm : CaseMapping) where
  | store (e : StoreEvent cm)
  | accepted (operation : Operation) (key : Key) (deliveryId : Text) (body : Bytes)
  | snapshot
  /-- the attempt run from `record` wrote `state` to the row of its key -/
  | wrote (record : DemoRecord) (state : DemoState)
  | deleteStarted (key : Key)
  | applied (key : Key) (config : ProjectConfig) (version : ℤ)

structure Handled (cm : CaseMapping) where
  store : Store
  response : Response
  events : List (Event cm)

def Handled.reject {cm : CaseMapping} (s : Store) (code : ℕ) (detail : String) : Handled cm :=
  ⟨s, .rejected code detail.toList, []⟩

namespace App

variable (app : App)

/-- The middleware `body_limit`, `none` where it passes the request on. -/
def bodyLimit (req : HttpRequest) : Option Response :=
  let tooLarge := Response.rejected 413 "request body too large".toList
  if req.path ≠ "/api/v1/deploy".toList ∧ req.path ≠ "/api/v1/destroy".toList then none
  else
    let measured := if app.settings.requestMaxBytes < req.body.length then some tooLarge else none
    match req.header? "content-length" with
    | none => measured
    | some [] => measured
    | some length =>
      match pyInt length with
      | none => some (.rejected 400 "invalid content-length".toList)
      | some n => if app.settings.requestMaxBytes < n then some tooLarge else measured

def authorizedImage (repository : Text) : Text :=
  app.settings.imageRegistry ++ "/".toList ++ repository ++ "@sha256:".toList

def deploy (s : Store) (req : HttpRequest) (repository : Text) (now : ℤ) : Handled app.cm :=
  match DeployRequest.modelValidateJson app.cm app.pd req.body with
  | none => .reject s 422 "invalid deploy request"
  | some payload =>
    if payload.repository ≠ repository then .reject s 403 "credential does not authorize repository"
    else if !(app.authorizedImage payload.repository).isPrefixOf (app.cm.lower payload.image) then
      .reject s 403 "image registry is not authorized"
    else if req.header? "x-demos-nonce" ≠ some payload.deliveryId then
      .reject s 400 "nonce must equal delivery_id"
    else match s.upsertDeploy payload (sha256 req.body) now with
      | .error detail => ⟨s, .rejected 409 detail, []⟩
      | .ok (t, record, changed) =>
        ⟨t, .answered 202 (Store.status app.cm app.settings.hostnameSuffix record),
          .accepted .deploy (payload.repository, payload.pr) payload.deliveryId req.body ::
            if changed then [.store (.deployed payload (sha256 req.body) now)] else []⟩

def destroy (s : Store) (req : HttpRequest) (repository : Text) (now : ℤ) : Handled app.cm :=
  match DestroyRequest.modelValidateJson app.cm app.pd req.body with
  | none => .reject s 422 "invalid destroy request"
  | some payload =>
    if payload.repository ≠ repository then .reject s 403 "credential does not authorize repository"
    else if req.header? "x-demos-nonce" ≠ some payload.deliveryId then
      .reject s 400 "nonce must equal delivery_id"
    else match s.requestDestroy payload.repository payload.pr payload.deliveryId (sha256 req.body) now with
      | .error detail => ⟨s, .rejected 409 detail, []⟩
      | .ok (t, record) =>
        ⟨t, .answered 202 (Store.status app.cm app.settings.hostnameSuffix record),
          .accepted .destroy (payload.repository, payload.pr) payload.deliveryId req.body ::
            if s.hasDelivery (payload.repository, payload.pr) payload.deliveryId then []
            else [.store (.destroyed payload.repository payload.pr payload.deliveryId (sha256 req.body) now)]⟩

/-- `pr: int` is checked after the dependency has authenticated the request; SQLite
raises on an integer it cannot bind. -/
def demoStatus (s : Store) (owner name pr repository : Text) : Response :=
  match app.pd.laxInt (.str pr) with
  | none => .rejected 422 (app.pd.intError pr)
  | some pr =>
    let requested := app.cm.lower (owner ++ "/".toList ++ name)
    if requested ≠ repository then .rejected 403 "credential does not authorize repository".toList
    else if !Store.bindable (some pr) then .unhandled "OverflowError".toList
    else match s.demos.get (requested, pr) with
      | none => .rejected 404 "demo not found".toList
      | some record => .answered 200 (Store.status app.cm app.settings.hostnameSuffix record)

def handle (s : Store) (endpoint : Endpoint) (req : HttpRequest) (repository : Text) (now : ℤ) :
    Handled app.cm :=
  match endpoint with
  | .deploy => app.deploy s req repository now
  | .destroy => app.destroy s req repository now
  | .demoStatus owner name pr => ⟨s, app.demoStatus s owner name pr repository, []⟩

def serve (s : ApiState) (endpoint : Endpoint) (req : HttpRequest) (now later : ℤ) :
    ApiState × Response × List (Event app.cm) :=
  match app.bodyLimit req with
  | some response => (s, response, [])
  | none =>
    let authenticated := app.authenticate s req now
    match authenticated.2 with
    | .error response => (authenticated.1, response, [])
    | .ok repository =>
      let handled := app.handle authenticated.1.store endpoint req repository later
      (⟨handled.store, authenticated.1.requests⟩, handled.response, handled.events)

end App

/-! ### Deliveries

Deploy and destroy requests have the same life: a validated payload, the same
checks, and one write unless the row carries the delivery already. -/

inductive Payload (cm : CaseMapping) where
  | deploy (request : DeployRequest cm)
  | destroy (request : DestroyRequest)

namespace Payload

variable {cm : CaseMapping}

def operation : Payload cm → Operation
  | .deploy _ => .deploy
  | .destroy _ => .destroy

def key : Payload cm → Key
  | .deploy request => (request.repository, request.pr)
  | .destroy request => (request.repository, request.pr)

def deliveryId : Payload cm → Text
  | .deploy request => request.deliveryId
  | .destroy request => request.deliveryId

def event (hash : Text) (now : ℤ) : Payload cm → StoreEvent cm
  | .deploy request => .deployed request hash now
  | .destroy request => .destroyed request.repository request.pr request.deliveryId hash now

def rowAfter (hash : Text) (now : ℤ) (old : Option DemoRecord) : Payload cm → DemoRecord
  | .deploy request => DemoRecord.deployOver request hash now old
  | .destroy request => DemoRecord.destroyOver request.repository request.pr request.deliveryId hash now old

def write (s : Store) (hash : Text) (now : ℤ) : Payload cm → Store
  | .deploy request => s.writeDeploy (s.excludedOf request hash now)
  | .destroy request => s.writeDestroy request.repository request.pr request.deliveryId hash now

@[simp] theorem event_key (p : Payload cm) (hash : Text) (now : ℤ) : (p.event hash now).key = p.key := by
  cases p <;> rfl

@[simp] theorem event_isMutation (p : Payload cm) (hash : Text) (now : ℤ) :
    (p.event hash now).isMutation = true := by
  cases p <;> rfl

theorem get_write_self (s : Store) (p : Payload cm) (hash : Text) (now : ℤ) :
    (p.write s hash now).demos.get p.key = some (p.rowAfter hash now (s.demos.get p.key)) := by
  cases p with
  | deploy request => exact s.get_writeDeploy_request request hash now
  | destroy request => exact s.get_writeDestroy_self ..

theorem get_write_of_ne (s : Store) (p : Payload cm) (hash : Text) (now : ℤ) {k : Key} (h : k ≠ p.key) :
    (p.write s hash now).demos.get k = s.demos.get k := by
  cases p with
  | deploy request => exact s.get_writeDeploy_of_ne h
  | destroy request => exact s.get_writeDestroy_of_ne _ _ _ h

theorem rowAfter_delivery (p : Payload cm) (hash : Text) (now : ℤ) (old : Option DemoRecord) :
    (p.rowAfter hash now old).deliveryId = p.deliveryId ∧ (p.rowAfter hash now old).requestHash = hash ∧
      (p.rowAfter hash now old).desiredPresent = decide (p.operation = .deploy) := by
  cases p <;> cases old <;> exact ⟨rfl, rfl, rfl⟩

theorem write_demos {s t : Store} (h : t.demos = s.demos) (p : Payload cm) (hash : Text) (now : ℤ) :
    (p.write t hash now).demos = (p.write s hash now).demos := by
  cases p with
  | deploy request => simp only [write, Store.writeDeploy, Store.excludedOf, h]
  | destroy request => simp only [write, Store.writeDestroy, h]

theorem rowAfter_state (p : Payload cm) (hash : Text) (now : ℤ) (old : Option DemoRecord) :
    (p.rowAfter hash now old).state = if p.operation = .deploy then .pending else .deleting := by
  cases p <;> cases old <;> rfl

theorem rowAfter_port (p : Payload cm) (hash : Text) (now : ℤ) (old : Option DemoRecord) :
    (p.rowAfter hash now old).port = old.bind DemoRecord.port := by
  cases p <;> cases old <;> rfl

end Payload

def App.payload? (app : App) (endpoint : Endpoint) (body : Bytes) : Option (Payload app.cm) :=
  match endpoint with
  | .deploy => (DeployRequest.modelValidateJson app.cm app.pd body).map .deploy
  | .destroy => (DestroyRequest.modelValidateJson app.cm app.pd body).map .destroy
  | .demoStatus _ _ _ => none

def Response.isAccepted : Response → Bool
  | .answered code _ => code == 202
  | _ => false

/-- Every check of the API passes: the delivery `p` is up to the store. -/
structure Admitted (app : App) (s : ApiState) (endpoint : Endpoint) (req : HttpRequest) (now : ℤ)
    (p : Payload app.cm) : Prop where
  size : app.bodyLimit req = none
  verified : app.verify req now = .ok p.key.1
  unused : App.Unused app s p.key.1 req now
  payload : app.payload? endpoint req.body = some p
  registry : ∀ request, p = .deploy request →
    (app.authorizedImage request.repository).isPrefixOf (app.cm.lower request.image) = true
  nonce : req.header? "x-demos-nonce" = some p.deliveryId

inductive Served (app : App) (s : ApiState) (endpoint : Endpoint) (req : HttpRequest) (now later : ℤ) :
    ApiState → Response → List (Event app.cm) → Prop
  | quiet {t : ApiState} {r : Response} : t.store.demos = s.store.demos → r.isAccepted = false →
      Served app s endpoint req now later t r []
  | repeated {t : ApiState} {r : Response} (p : Payload app.cm) (row : DemoRecord) :
      Admitted app s endpoint req now p → s.store.demos.get p.key = some row →
      row.deliveryId = p.deliveryId → row.requestHash = sha256 req.body →
      t.store.demos = s.store.demos → r.isAccepted = true →
      Served app s endpoint req now later t r [.accepted p.operation p.key p.deliveryId req.body]
  | effective {t : ApiState} {r : Response} (p : Payload app.cm) :
      Admitted app s endpoint req now p → s.store.hasDelivery p.key p.deliveryId = false →
      t.store.demos = (p.write s.store (sha256 req.body) later).demos → r.isAccepted = true →
      Served app s endpoint req now later t r
        [.accepted p.operation p.key p.deliveryId req.body, .store (p.event (sha256 req.body) later)]

section

variable {app : App} {s : Store} {endpoint : Endpoint} {req : HttpRequest} {p : Payload app.cm} {later : ℤ}

structure Payload.Passes (app : App) (endpoint : Endpoint) (req : HttpRequest) (p : Payload app.cm) : Prop where
  payload : app.payload? endpoint req.body = some p
  registry : ∀ request, p = .deploy request →
    (app.authorizedImage request.repository).isPrefixOf (app.cm.lower request.image) = true
  nonce : req.header? "x-demos-nonce" = some p.deliveryId

/-- A handler of deliveries refuses whatever is stored, or the checks pass for the payload. -/
theorem handle_refuses_or_passes (app : App) (endpoint : Endpoint) (req : HttpRequest) (repository : Text)
    (later : ℤ) :
    (∃ r : Response, r.isAccepted = false ∧ ∀ s, app.handle s endpoint req repository later = ⟨s, r, []⟩) ∨
    (∃ owner name pr, endpoint = .demoStatus owner name pr) ∨
    ∃ p, Payload.Passes app endpoint req p ∧ p.key.1 = repository := by
  cases endpoint with
  | deploy =>
    simp only [App.handle, App.deploy]
    cases hp : DeployRequest.modelValidateJson app.cm app.pd req.body with
    | none => exact .inl ⟨_, rfl, fun _ => rfl⟩
    | some payload =>
      by_cases hr : payload.repository ≠ repository
      · simp only [if_pos hr]
        exact .inl ⟨_, rfl, fun _ => rfl⟩
      by_cases hi : (app.authorizedImage payload.repository).isPrefixOf (app.cm.lower payload.image) = true
      · by_cases hn : req.header? "x-demos-nonce" = some payload.deliveryId
        · refine .inr (.inr ⟨.deploy payload, ⟨by simp only [App.payload?, hp, Option.map_some], ?_, hn⟩,
            not_not.mp hr⟩)
          intro request he
          cases he
          exact hi
        · simp only [if_neg hr, hi, Bool.not_true, Bool.false_eq_true, if_false, if_pos hn]
          exact .inl ⟨_, rfl, fun _ => rfl⟩
      · simp only [if_neg hr, hi, Bool.not_false, if_true]
        exact .inl ⟨_, rfl, fun _ => rfl⟩
  | destroy =>
    simp only [App.handle, App.destroy]
    cases hp : DestroyRequest.modelValidateJson app.cm app.pd req.body with
    | none => exact .inl ⟨_, rfl, fun _ => rfl⟩
    | some payload =>
      by_cases hr : payload.repository ≠ repository
      · simp only [if_pos hr]
        exact .inl ⟨_, rfl, fun _ => rfl⟩
      by_cases hn : req.header? "x-demos-nonce" = some payload.deliveryId
      · refine .inr (.inr ⟨.destroy payload, ⟨by simp only [App.payload?, hp, Option.map_some], ?_, hn⟩,
          not_not.mp hr⟩)
        intro request he
        cases he
      · simp only [if_neg hr, if_pos hn]
        exact .inl ⟨_, rfl, fun _ => rfl⟩
  | demoStatus owner name pr => exact .inr (.inl ⟨owner, name, pr, rfl⟩)

theorem demoStatus_refuses (app : App) (s : Store) (owner name pr repository : Text) :
    (app.demoStatus s owner name pr repository).isAccepted = false := by
  unfold App.demoStatus
  split
  · rfl
  · dsimp only
    split
    · rfl
    · split
      · rfl
      · split <;> rfl

theorem handle_repeated (h : Payload.Passes app endpoint req p) {row : DemoRecord}
    (hr : s.demos.get p.key = some row) (hd : row.deliveryId = p.deliveryId) :
    app.handle s endpoint req p.key.1 later =
      if row.requestHash ≠ sha256 req.body then ⟨s, .rejected 409 Store.reused, []⟩
      else ⟨s, .answered 202 (Store.status app.cm app.settings.hostnameSuffix row),
        [.accepted p.operation p.key p.deliveryId req.body]⟩ := by
  obtain ⟨hp, hi, hn⟩ := h
  have hs : s.hasDelivery p.key p.deliveryId = true := Store.hasDelivery_iff.mpr ⟨row, hr, hd⟩
  cases endpoint with
  | deploy =>
    obtain ⟨request, hv, rfl⟩ := Option.map_eq_some_iff.mp hp
    simp only [App.handle, App.deploy, hv, hi request rfl, Payload.key, ne_eq, not_true_eq_false, if_false,
      hn, Payload.deliveryId, Bool.not_true, Bool.false_eq_true, Store.upsertDeploy_duplicate hr hd]
    by_cases hh : row.requestHash = sha256 req.body
    · simp only [hh, not_true_eq_false, if_false]
      rfl
    · simp only [hh, not_false_eq_true, if_true]
  | destroy =>
    obtain ⟨request, hv, rfl⟩ := Option.map_eq_some_iff.mp hp
    have hs' : s.hasDelivery (request.repository, request.pr) request.deliveryId = true := hs
    have hw : s.requestDestroy request.repository request.pr request.deliveryId (sha256 req.body) later = _ :=
      Store.requestDestroy_duplicate hr hd
    simp only [App.handle, App.destroy, hv, Payload.key, ne_eq, not_true_eq_false, if_false,
      hn, Payload.deliveryId, hw]
    by_cases hh : row.requestHash = sha256 req.body
    · simp only [hh, not_true_eq_false, if_false, hs', if_true]
      rfl
    · simp only [hh, not_false_eq_true, if_true]
  | demoStatus owner name pr => cases hp

theorem handle_effective (h : Payload.Passes app endpoint req p)
    (hd : s.hasDelivery p.key p.deliveryId = false) :
    app.handle s endpoint req p.key.1 later =
      ⟨p.write s (sha256 req.body) later,
        .answered 202 (Store.status app.cm app.settings.hostnameSuffix
          (p.rowAfter (sha256 req.body) later (s.demos.get p.key))),
        [.accepted p.operation p.key p.deliveryId req.body, .store (p.event (sha256 req.body) later)]⟩ := by
  obtain ⟨hp, hi, hn⟩ := h
  cases endpoint with
  | deploy =>
    obtain ⟨request, hv, rfl⟩ := Option.map_eq_some_iff.mp hp
    simp only [App.handle, App.deploy, hv, hi request rfl, Payload.key, ne_eq, not_true_eq_false, if_false,
      hn, Payload.deliveryId, Bool.not_true, Bool.false_eq_true, Store.upsertDeploy_effective hd, if_true]
    rfl
  | destroy =>
    obtain ⟨request, hv, rfl⟩ := Option.map_eq_some_iff.mp hp
    have hd' : s.hasDelivery (request.repository, request.pr) request.deliveryId = false := hd
    have hw : s.requestDestroy request.repository request.pr request.deliveryId (sha256 req.body) later = _ :=
      Store.requestDestroy_effective hd
    simp only [App.handle, App.destroy, hv, Payload.key, ne_eq, not_true_eq_false, if_false,
      hn, Payload.deliveryId, hw, hd', Bool.false_eq_true]
    rfl
  | demoStatus owner name pr => cases hp

end

theorem admitted_iff {app : App} {s : ApiState} {endpoint : Endpoint} {req : HttpRequest} {now : ℤ}
    {p : Payload app.cm} : Admitted app s endpoint req now p ↔
      app.bodyLimit req = none ∧ (app.authenticate s req now).2 = .ok p.key.1 ∧
        Payload.Passes app endpoint req p := by
  rw [App.authenticate_ok_iff]
  constructor
  · exact fun h => ⟨h.size, ⟨h.verified, h.unused⟩, h.payload, h.registry, h.nonce⟩
  · exact fun h => ⟨h.1, h.2.1.1, h.2.1.2, h.2.2.payload, h.2.2.registry, h.2.2.nonce⟩

theorem bodyLimit_refuses {app : App} {req : HttpRequest} {r : Response} (h : app.bodyLimit req = some r) :
    r.isAccepted = false := by
  unfold App.bodyLimit at h
  dsimp only at h
  repeat' split at h
  all_goals cases h <;> rfl

theorem authenticate_refuses {app : App} {s : ApiState} {req : HttpRequest} {now : ℤ} {r : Response}
    (h : (app.authenticate s req now).2 = .error r) : r.isAccepted = false := by
  unfold App.authenticate at h
  split at h
  · next e hv =>
    cases h
    unfold App.verify at hv
    dsimp only at hv
    repeat' split at hv
    all_goals cases hv <;> rfl
  · unfold App.checkUse at h
    dsimp only at h
    repeat' split at h
    all_goals cases h <;> rfl

theorem serve_served {app : App} {s t : ApiState} {endpoint : Endpoint} {req : HttpRequest} {now later : ℤ}
    {r : Response} {es : List (Event app.cm)} (h : app.serve s endpoint req now later = (t, r, es)) :
    Served app s endpoint req now later t r es := by
  unfold App.serve at h
  cases hb : app.bodyLimit req with
  | some response =>
    simp only [hb, Prod.mk.injEq] at h
    obtain ⟨rfl, rfl, rfl⟩ := h
    exact .quiet rfl (bodyLimit_refuses hb)
  | none =>
    have hdemos := app.authenticate_demos s req now
    simp only [hb] at h
    cases ha : (app.authenticate s req now).2 with
    | error response =>
      simp only [ha, Prod.mk.injEq] at h
      obtain ⟨rfl, rfl, rfl⟩ := h
      exact .quiet hdemos (authenticate_refuses ha)
    | ok repository =>
      simp only [ha, Prod.mk.injEq] at h
      obtain ⟨rfl, rfl, rfl⟩ := h
      rcases handle_refuses_or_passes app endpoint req repository later with
        ⟨r, hr, he⟩ | ⟨owner, name, pr, rfl⟩ | ⟨p, hp, rfl⟩
      · rw [he]
        exact .quiet hdemos hr
      · exact .quiet hdemos (demoStatus_refuses ..)
      · have hadm : Admitted app s endpoint req now p := admitted_iff.mpr ⟨hb, ha, hp⟩
        cases hd : (app.authenticate s req now).1.store.hasDelivery p.key p.deliveryId with
        | false =>
          rw [handle_effective hp hd]
          refine .effective p hadm ?_ (Payload.write_demos hdemos ..) rfl
          rw [← hd, Store.hasDelivery, Store.hasDelivery, hdemos]
        | true =>
          obtain ⟨row, hrow, hid⟩ := Store.hasDelivery_iff.mp hd
          rw [handle_repeated hp hrow hid]
          rw [hdemos] at hrow
          by_cases hh : row.requestHash = sha256 req.body
          · rw [if_neg (not_not.mpr hh)]
            exact .repeated p row hadm hrow hid hh hdemos rfl
          · rw [if_pos hh]
            exact .quiet hdemos rfl

theorem served (app : App) (s : ApiState) (endpoint : Endpoint) (req : HttpRequest) (now later : ℤ) :
    Served app s endpoint req now later (app.serve s endpoint req now later).1
      (app.serve s endpoint req now later).2.1 (app.serve s endpoint req now later).2.2 :=
  serve_served rfl

theorem serve_effective {app : App} {s : ApiState} {endpoint : Endpoint} {req : HttpRequest} {now later : ℤ}
    {p : Payload app.cm} (h : Admitted app s endpoint req now p)
    (hd : s.store.hasDelivery p.key p.deliveryId = false) :
    (app.serve s endpoint req now later).1.store.demos =
      (p.write s.store (sha256 req.body) later).demos := by
  obtain ⟨hb, ha, hp⟩ := admitted_iff.mp h
  have hdemos := app.authenticate_demos s req now
  have hd' : (app.authenticate s req now).1.store.hasDelivery p.key p.deliveryId = false := by
    rw [← hd, Store.hasDelivery, Store.hasDelivery, hdemos]
  simp only [App.serve, hb, ha, handle_effective hp hd', Payload.write_demos hdemos]

/-! ### A controller to run

One repository with a key. The bodies are those of the workflow client, and the
JSON parser is given on them. -/

def quoted (name value : String) : Text := ("\"" ++ name ++ "\":\"" ++ value ++ "\"").toList

def exampleImage : String := "ghcr.io/canonical/example@sha256:" ++ String.ofList exampleDigest

def deployBody (deliveryId : String) : Bytes :=
  encode ("\x7b".toList ++ quoted "repository" "canonical/example" ++ ",\"pr\":8,".toList ++
    quoted "commit_sha" (String.ofList (List.replicate 40 'a')) ++ ",".toList ++ quoted "image" exampleImage ++
    ",".toList ++ quoted "delivery_id" deliveryId ++ "\x7d".toList)

def destroyBody (deliveryId : String) : Bytes :=
  encode ("\x7b".toList ++ quoted "repository" "canonical/example" ++ ",\"pr\":8,".toList ++
    quoted "delivery_id" deliveryId ++ "\x7d".toList)

def deployFields (deliveryId : String) : List (Text × Json) :=
  [("repository".toList, .str "canonical/example".toList), ("pr".toList, .int 8),
    ("commit_sha".toList, .str (List.replicate 40 'a')), ("image".toList, .str exampleImage.toList),
    ("delivery_id".toList, .str deliveryId.toList)]

def destroyFields (deliveryId : String) : List (Text × Json) :=
  [("repository".toList, .str "canonical/example".toList), ("pr".toList, .int 8),
    ("delivery_id".toList, .str deliveryId.toList)]

def examplePydantic : Pydantic where
  parseObject body :=
    [(deployBody "delivery-1", deployFields "delivery-1"), (deployBody "delivery-2", deployFields "delivery-2"),
      (destroyBody "delivery-3", destroyFields "delivery-3")].lookup body
  laxInt
    | .int n => some n
    | _ => none
  intError _ := "Input should be a valid integer".toList

def exampleApp : App where
  cm := .ascii
  pd := examplePydantic
  settings :=
    { namespace_ := "default".toList
      hostnameSuffix := "demos.canonical.com".toList
      controllerOwner := "demo-controller".toList
      imageRegistry := "ghcr.io".toList
      hmacCredentials := [("canonical/example".toList, .text "repository-key".toList)]
      requestMaxBytes := 65536
      signatureMaxAgeSeconds := 300
      rateLimitPerMinute := 60 }

/-- A request of the workflow client, signed with the repository's key. -/
def signedRequest (path : String) (timestamp : ℤ) (deliveryId : String) (body : Bytes) : HttpRequest :=
  let unsigned : HttpRequest :=
    { method := "POST".toList
      path := path.toList
      headers := [("x-demos-repository".toList, "canonical/example".toList),
        ("x-demos-timestamp".toList, decimal timestamp), ("x-demos-nonce".toList, deliveryId.toList)]
      body }
  let signature := hmacSha256 (encode "repository-key".toList) (exampleApp.canonical unsigned)
  { unsigned with headers :=
      unsigned.headers ++ [("x-demos-signature".toList, "sha256=".toList ++ signature)] }

@[simp] theorem signedRequest_body (path : String) (timestamp : ℤ) (deliveryId : String) (body : Bytes) :
    (signedRequest path timestamp deliveryId body).body = body := rfl

end DemoController
