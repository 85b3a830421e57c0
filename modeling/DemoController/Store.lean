import DemoController.Lib.KeyedTable
import DemoController.Models
import DemoController.Naming

/-!
# The SQLite store (`store.py`)

Two tables with a primary key: `demos`, one row for each repository and pull
request, and `nonces`, the replay protection of the API. Each method runs in
one transaction under the store's lock, so a method is one function from the
store before to the store after. The clock is the argument `now`, the value of
`int(time.time())` the method reads.
-/

namespace DemoController

open Lib

def demoLifetimeSeconds : ℤ := 3 * 24 * 60 * 60

abbrev Key := Text × ℤ

structure DemoRecord where
  repository : Text
  pr : ℤ
  commitSha : Option Text
  image : Option Text
  deliveryId : Text
  requestHash : Text
  desiredPresent : Bool
  state : DemoState
  vaultVersion : Option ℤ
  port : Option ℤ
  message : Text
  createdAt : ℤ
  updatedAt : ℤ
  expiresAt : ℤ
  deriving DecidableEq

def DemoRecord.key (r : DemoRecord) : Key := (r.repository, r.pr)

structure NonceRow where
  repository : Text
  nonce : Text
  requestFingerprint : Text
  seenAt : ℤ
  deriving DecidableEq

def NonceRow.key (r : NonceRow) : Text × Text := (r.repository, r.nonce)

structure Store where
  demos : Table DemoRecord.key
  nonces : Table NonceRow.key

def Store.empty : Store := ⟨Table.empty, Table.empty⟩

namespace DemoRecord

/-- The columns a client asks for with a delivery. -/
def desired (r : DemoRecord) : Text × Text × Option Text × Option Text × Bool × ℤ :=
  (r.deliveryId, r.requestHash, r.commitSha, r.image, r.desiredPresent, r.expiresAt)

def ofDeploy {cm : CaseMapping} (request : DeployRequest cm) (requestHash : Text)
    (createdAt now : ℤ) : DemoRecord where
  repository := request.repository
  pr := request.pr
  commitSha := some request.commitSha
  image := some request.image
  deliveryId := request.deliveryId
  requestHash := requestHash
  desiredPresent := true
  state := .pending
  vaultVersion := none
  port := none
  message := "deployment accepted".toList
  createdAt := createdAt
  updatedAt := now
  expiresAt := now + demoLifetimeSeconds

/-- `ON CONFLICT(repository, pr) DO UPDATE SET` of `upsert_deploy`: the Vault
version, the port and the creation time of the row stay. -/
def redeploy (excluded r : DemoRecord) : DemoRecord :=
  { r with
    commitSha := excluded.commitSha
    image := excluded.image
    deliveryId := excluded.deliveryId
    requestHash := excluded.requestHash
    desiredPresent := true
    state := .pending
    message := excluded.message
    updatedAt := excluded.updatedAt
    expiresAt := excluded.expiresAt }

theorem redeploy_key (excluded r : DemoRecord) : (excluded.redeploy r).key = r.key := rfl

def ofDestroy (repository : Text) (pr : ℤ) (deliveryId requestHash : Text) (now : ℤ) : DemoRecord where
  repository := repository
  pr := pr
  commitSha := none
  image := none
  deliveryId := deliveryId
  requestHash := requestHash
  desiredPresent := false
  state := .deleting
  vaultVersion := none
  port := none
  message := "deletion accepted".toList
  createdAt := now
  updatedAt := now
  expiresAt := now

def markDestroyed (deliveryId requestHash : Text) (now : ℤ) (r : DemoRecord) : DemoRecord :=
  { r with
    deliveryId := deliveryId
    requestHash := requestHash
    desiredPresent := false
    state := .deleting
    message := "deletion accepted".toList
    updatedAt := now }

theorem markDestroyed_key (d h : Text) (now : ℤ) (r : DemoRecord) : (markDestroyed d h now r).key = r.key :=
  rfl

/-- The `UPDATE` of `update_state`; an absent argument leaves its column. -/
def withState (state : DemoState) (message : Text) (vaultVersion port : Option ℤ) (now : ℤ)
    (r : DemoRecord) : DemoRecord :=
  { r with
    state := state
    message := message.take 1000
    updatedAt := now
    vaultVersion := vaultVersion.or r.vaultVersion
    port := port.or r.port }

theorem withState_key (state : DemoState) (message : Text) (v p : Option ℤ) (now : ℤ) (r : DemoRecord) :
    (withState state message v p now r).key = r.key := rfl

/-- The condition of `get_ready_by_hostname`. -/
def routable (r : DemoRecord) : Bool :=
  r.desiredPresent && r.port.isSome &&
    [DemoState.pending, .reconciling, .ready, .failed].contains r.state

end DemoRecord

/-- The row an effective deploy leaves, given the row before it. -/
def DemoRecord.deployOver {cm : CaseMapping} (request : DeployRequest cm) (hash : Text) (now : ℤ) :
    Option DemoRecord → DemoRecord
  | none => ofDeploy request hash now now
  | some r => (ofDeploy request hash r.createdAt now).redeploy r

def DemoRecord.destroyOver (repository : Text) (pr : ℤ) (deliveryId requestHash : Text) (now : ℤ) :
    Option DemoRecord → DemoRecord
  | none => ofDestroy repository pr deliveryId requestHash now
  | some r => r.markDestroyed deliveryId requestHash now

namespace Store

def useNonce (s : Store) (repository nonce requestFingerprint : Text) (now maxAge : ℤ) : Store × Bool :=
  let nonces := s.nonces.filterRows fun r => !decide (r.seenAt < now - maxAge)
  match nonces.get (repository, nonce) with
  | some existing =>
    ({ s with nonces := nonces }, existing.requestFingerprint = requestFingerprint)
  | none =>
    ({ s with nonces := nonces.insert ⟨repository, nonce, requestFingerprint, now⟩ }, true)

def hasDelivery (s : Store) (k : Key) (deliveryId : Text) : Bool :=
  (s.demos.get k).any fun r => r.deliveryId = deliveryId

def reused : Text := "delivery ID reused with different request".toList

def writeDeploy (s : Store) (excluded : DemoRecord) : Store :=
  { s with demos := s.demos.upsert excluded excluded.redeploy excluded.redeploy_key }

/-- The error is the text of the `ValueError`; a raising call leaves the store. -/
def upsertDeploy {cm : CaseMapping} (s : Store) (request : DeployRequest cm) (requestHash : Text)
    (now : ℤ) : Except Text (Store × DemoRecord × Bool) :=
  let write (createdAt : ℤ) :=
    let excluded := DemoRecord.ofDeploy request requestHash createdAt now
    let t := s.writeDeploy excluded
    (t, (t.demos.get excluded.key).getD excluded, true)
  match s.demos.get (request.repository, request.pr) with
  | some current =>
    if current.deliveryId = request.deliveryId then
      if current.requestHash ≠ requestHash then .error reused else .ok (s, current, false)
    else .ok (write current.createdAt)
  | none => .ok (write now)

def writeDestroy (s : Store) (repository : Text) (pr : ℤ) (deliveryId requestHash : Text) (now : ℤ) : Store :=
  let mark := DemoRecord.markDestroyed deliveryId requestHash now
  let demos := match s.demos.get (repository, pr) with
    | some _ => s.demos.update (repository, pr) mark (DemoRecord.markDestroyed_key deliveryId requestHash now)
    | none => s.demos.insert (DemoRecord.ofDestroy repository pr deliveryId requestHash now)
  { s with demos := demos }

def requestDestroy (s : Store) (repository : Text) (pr : ℤ) (deliveryId requestHash : Text) (now : ℤ) :
    Except Text (Store × DemoRecord) :=
  let write :=
    let t := s.writeDestroy repository pr deliveryId requestHash now
    (t, (t.demos.get (repository, pr)).getD
      (DemoRecord.ofDestroy repository pr deliveryId requestHash now))
  match s.demos.get (repository, pr) with
  | some current =>
    if current.deliveryId = deliveryId then
      if current.requestHash ≠ requestHash then .error reused else .ok (s, current)
    else .ok write
  | none => .ok write

def listReconcilable (s : Store) : List DemoRecord :=
  s.demos.rows.filter fun r =>
    [DemoState.pending, .reconciling, .deleting, .ready, .failed].contains r.state

def getReadyByHostname (cm : CaseMapping) (suffix : Text) (s : Store) (requested : Text) :
    Option DemoRecord :=
  (s.demos.rows.filter DemoRecord.routable).find? fun r =>
    hostname cm r.repository r.pr suffix = requested

/-- SQLite binds 64-bit integers; with a larger one `execute` raises `OverflowError`. -/
def bindable (n : Option ℤ) : Bool := n.all fun v => -2 ^ 63 ≤ v && v < 2 ^ 63

def updateState (s : Store) (repository : Text) (pr : ℤ) (state : DemoState) (message : Text)
    (vaultVersion port : Option ℤ) (now : ℤ) : Store :=
  { s with
    demos := s.demos.update (repository, pr)
      (DemoRecord.withState state message vaultVersion port now)
      (DemoRecord.withState_key state message vaultVersion port now) }

def deleteRecord (s : Store) (repository : Text) (pr : ℤ) : Store :=
  { s with demos := s.demos.erase (repository, pr) }

def status (cm : CaseMapping) (suffix : Text) (r : DemoRecord) : DemoStatus where
  repository := r.repository
  pr := r.pr
  commitSha := r.commitSha
  image := r.image
  hostname := hostname cm r.repository r.pr suffix
  state := r.state
  vaultVersion := r.vaultVersion
  message := r.message
  updatedAt := r.updatedAt

theorem listReconcilable_eq (s : Store) : s.listReconcilable = s.demos.rows := by
  rw [listReconcilable, List.filter_eq_self]
  intro r _
  cases r.state <;> rfl

/-! ### What each method does to the `demos` table -/

theorem hasDelivery_iff {s : Store} {k : Key} {d : Text} :
    s.hasDelivery k d = true ↔ ∃ r, s.demos.get k = some r ∧ r.deliveryId = d := by
  simp only [hasDelivery, Option.any_eq_true, decide_eq_true_eq]

@[simp] theorem useNonce_demos (s : Store) (repository nonce fp : Text) (now maxAge : ℤ) :
    (s.useNonce repository nonce fp now maxAge).1.demos = s.demos := by
  unfold useNonce
  dsimp only
  split <;> rfl

theorem get_writeDeploy_self (s : Store) (e : DemoRecord) :
    (s.writeDeploy e).demos.get e.key = some ((s.demos.get e.key).elim e e.redeploy) := by
  unfold writeDeploy
  cases hr : s.demos.get e.key with
  | none =>
    rw [Table.upsert_absent _ _ _ hr]
    exact s.demos.get_insert_self hr
  | some r =>
    rw [Table.upsert_present _ _ _ hr, Table.get_update_self, hr]
    rfl

theorem get_writeDeploy_of_ne (s : Store) {e : DemoRecord} {k : Key} (h : k ≠ e.key) :
    (s.writeDeploy e).demos.get k = s.demos.get k :=
  s.demos.get_upsert_of_ne e.redeploy e.redeploy_key h

theorem get_writeDestroy_self (s : Store) (repository : Text) (pr : ℤ) (d hash : Text) (now : ℤ) :
    (s.writeDestroy repository pr d hash now).demos.get (repository, pr) =
      some (DemoRecord.destroyOver repository pr d hash now (s.demos.get (repository, pr))) := by
  unfold writeDestroy
  cases hr : s.demos.get (repository, pr) with
  | none => exact s.demos.get_insert_self (r := DemoRecord.ofDestroy repository pr d hash now) hr
  | some r =>
    dsimp only
    rw [Table.get_update_self, hr]
    rfl

theorem get_writeDestroy_of_ne (s : Store) {repository : Text} {pr : ℤ} (d hash : Text) (now : ℤ) {k : Key}
    (h : k ≠ (repository, pr)) :
    (s.writeDestroy repository pr d hash now).demos.get k = s.demos.get k := by
  unfold writeDestroy
  cases s.demos.get (repository, pr) with
  | none => exact s.demos.get_insert_of_ne (r := DemoRecord.ofDestroy repository pr d hash now) h
  | some r => exact s.demos.get_update_of_ne _ (DemoRecord.markDestroyed_key d hash now) h

theorem get_updateState_self (s : Store) (repository : Text) (pr : ℤ) (state : DemoState) (message : Text)
    (v p : Option ℤ) (now : ℤ) :
    (s.updateState repository pr state message v p now).demos.get (repository, pr) =
      (s.demos.get (repository, pr)).map (DemoRecord.withState state message v p now) :=
  s.demos.get_update_self _ _ (DemoRecord.withState_key state message v p now)

theorem get_updateState_of_ne (s : Store) {repository : Text} {pr : ℤ} (state : DemoState) (message : Text)
    (v p : Option ℤ) (now : ℤ) {k : Key} (h : k ≠ (repository, pr)) :
    (s.updateState repository pr state message v p now).demos.get k = s.demos.get k :=
  s.demos.get_update_of_ne _ (DemoRecord.withState_key state message v p now) h

@[simp] theorem get_deleteRecord_self (s : Store) (repository : Text) (pr : ℤ) :
    (s.deleteRecord repository pr).demos.get (repository, pr) = none :=
  s.demos.get_erase_self _

theorem get_deleteRecord_of_ne (s : Store) {repository : Text} {pr : ℤ} {k : Key} (h : k ≠ (repository, pr)) :
    (s.deleteRecord repository pr).demos.get k = s.demos.get k :=
  s.demos.get_erase_of_ne h

theorem get_of_deleteRecord {s : Store} {repository : Text} {pr : ℤ} {k : Key} {row : DemoRecord}
    (h : (s.deleteRecord repository pr).demos.get k = some row) : s.demos.get k = some row := by
  by_cases hk : k = (repository, pr)
  · rw [hk, get_deleteRecord_self] at h
    cases h
  · rwa [get_deleteRecord_of_ne s hk] at h

/-! ### Deploys and destroys, by whether they repeat the stored delivery -/

section

variable {cm : CaseMapping} {s : Store} {request : DeployRequest cm} {hash : Text} {now : ℤ}

theorem upsertDeploy_duplicate {r : DemoRecord}
    (hr : s.demos.get (request.repository, request.pr) = some r)
    (hd : r.deliveryId = request.deliveryId) :
    s.upsertDeploy request hash now =
      if r.requestHash ≠ hash then .error reused else .ok (s, r, false) := by
  simp only [upsertDeploy, hr, hd, if_true]

def excludedOf (s : Store) (request : DeployRequest cm) (hash : Text) (now : ℤ) : DemoRecord :=
  let current := s.demos.get (request.repository, request.pr)
  DemoRecord.ofDeploy request hash ((current.map DemoRecord.createdAt).getD now) now

theorem get_writeDeploy_request (s : Store) (request : DeployRequest cm) (hash : Text) (now : ℤ) :
    (s.writeDeploy (s.excludedOf request hash now)).demos.get (request.repository, request.pr) =
      some (DemoRecord.deployOver request hash now (s.demos.get (request.repository, request.pr))) := by
  have hg := s.get_writeDeploy_self (s.excludedOf request hash now)
  have hkey : (s.excludedOf request hash now).key = (request.repository, request.pr) := rfl
  rw [hkey] at hg
  rw [hg]
  cases hr : s.demos.get (request.repository, request.pr) with
  | none => simp only [excludedOf, hr, Option.elim_none, Option.map_none, Option.getD_none, DemoRecord.deployOver]
  | some r => simp only [excludedOf, hr, Option.elim_some, Option.map_some, Option.getD_some, DemoRecord.deployOver]

theorem upsertDeploy_effective
    (h : s.hasDelivery (request.repository, request.pr) request.deliveryId = false) :
    s.upsertDeploy request hash now = .ok (s.writeDeploy (s.excludedOf request hash now),
      DemoRecord.deployOver request hash now (s.demos.get (request.repository, request.pr)), true) := by
  have hg := s.get_writeDeploy_request request hash now
  unfold upsertDeploy
  cases hr : s.demos.get (request.repository, request.pr) with
  | none =>
    have he : s.excludedOf request hash now = DemoRecord.ofDeploy request hash now now := by
      simp only [excludedOf, hr, Option.map_none, Option.getD_none]
    rw [he, hr] at hg
    have hk : (DemoRecord.ofDeploy request hash now now).key = (request.repository, request.pr) := rfl
    simp only [he, hk, hg, Option.getD_some]
  | some r =>
    have he : s.excludedOf request hash now = DemoRecord.ofDeploy request hash r.createdAt now := by
      simp only [excludedOf, hr, Option.map_some, Option.getD_some]
    have hd : r.deliveryId ≠ request.deliveryId := by
      intro hd
      rw [hasDelivery, hr] at h
      simp [hd] at h
    rw [he, hr] at hg
    have hk : (DemoRecord.ofDeploy request hash r.createdAt now).key = (request.repository, request.pr) := rfl
    simp only [hd, if_false, he, hk, hg, Option.getD_some]

variable {repository : Text} {pr : ℤ} {d : Text}

theorem requestDestroy_duplicate {r : DemoRecord} (hr : s.demos.get (repository, pr) = some r)
    (hd : r.deliveryId = d) :
    s.requestDestroy repository pr d hash now =
      if r.requestHash ≠ hash then .error reused else .ok (s, r) := by
  simp only [requestDestroy, hr, hd, if_true]

theorem requestDestroy_effective (h : s.hasDelivery (repository, pr) d = false) :
    s.requestDestroy repository pr d hash now =
      .ok (s.writeDestroy repository pr d hash now,
        DemoRecord.destroyOver repository pr d hash now (s.demos.get (repository, pr))) := by
  have hg := s.get_writeDestroy_self repository pr d hash now
  unfold requestDestroy
  cases hr : s.demos.get (repository, pr) with
  | none => simp only [hg, hr, Option.getD_some]
  | some r =>
    have hd : r.deliveryId ≠ d := by
      intro hd
      rw [hasDelivery, hr] at h
      simp [hd] at h
    simp only [hd, if_false, hg, hr, Option.getD_some]

end

end Store

/-! ### The nonce table -/

theorem get_purged (s : Store) (now maxAge : ℤ) (k : Text × Text) :
    (s.nonces.filterRows fun r => !decide (r.seenAt < now - maxAge)).get k =
      (s.nonces.get k).filter fun r => decide (now - maxAge ≤ r.seenAt) := by
  rw [Table.get_filterRows]
  congr 1
  funext r
  rw [← decide_not, decide_eq_decide]
  omega

theorem get_useNonce_self (s : Store) (repository nonce fp : Text) (now maxAge : ℤ) :
    (s.useNonce repository nonce fp now maxAge).1.nonces.get (repository, nonce) =
      some (((s.nonces.get (repository, nonce)).filter fun r => decide (now - maxAge ≤ r.seenAt)).getD
        ⟨repository, nonce, fp, now⟩) := by
  have hp := get_purged s now maxAge (repository, nonce)
  unfold Store.useNonce
  dsimp only
  split
  · next existing he =>
    rw [← hp, he]
    rfl
  · next he =>
    have hi := Table.get_insert_self (r := (⟨repository, nonce, fp, now⟩ : NonceRow)) _ he
    rw [← hp, he]
    exact hi

theorem get_useNonce_of_ne (s : Store) (repository nonce fp : Text) (now maxAge : ℤ) {k : Text × Text}
    (hk : k ≠ (repository, nonce)) : (s.useNonce repository nonce fp now maxAge).1.nonces.get k =
      (s.nonces.get k).filter fun r => decide (now - maxAge ≤ r.seenAt) := by
  rw [← get_purged]
  unfold Store.useNonce
  dsimp only
  split
  · rfl
  · exact Table.get_insert_of_ne (r := (⟨repository, nonce, fp, now⟩ : NonceRow)) _ hk

theorem useNonce_answer (s : Store) (repository nonce fp : Text) (now maxAge : ℤ) :
    (s.useNonce repository nonce fp now maxAge).2 =
      ((s.nonces.get (repository, nonce)).filter fun r => decide (now - maxAge ≤ r.seenAt)).all
        fun r => decide (r.requestFingerprint = fp) := by
  rw [← get_purged]
  unfold Store.useNonce
  dsimp only
  split
  · next existing he =>
    rw [he]
    rfl
  · next he =>
    rw [he]
    rfl

end DemoController
