import DemoController.Lib.LocalActions
import DemoController.Lib.Program
import DemoController.Reconciler

/-!
# One pass over a snapshot (`reconciler.py`)

`reconcile` is the program of the operations through which it meets the store, Vault
and Kubernetes, with the handlers of the source around them. Run under a clock that
stands still, with an outcome of Vault and of Kubernetes for each record, it is one
statement on the record's row.
-/

namespace DemoController

open Lib

/-! ### The coroutine -/

/-- An exception, as the handlers of `reconcile` tell them apart. -/
inductive Raised where
  | vaultError (message category : Text)
  | other (error : PyError)

def Raised.typeName : Raised → Text
  | .vaultError _ _ => "VaultError".toList
  | .other error => error.type

inductive Dependency where
  | vault
  | kubernetes

inductive LoopOp where
  | time
  | updateState (record : DemoRecord) (state : DemoState) (message : Text) (vaultVersion port : Option ℤ)
  | deleteRecord (record : DemoRecord)
  | observe (dependency : Dependency) (error : Option Text)
  | project (record : DemoRecord)
  | delete (record : DemoRecord)
  | apply (record : DemoRecord) (resources : RenderedResources)
  | complete

abbrev LoopOp.Result : LoopOp → Type
  | .time => ℤ
  | .project _ => Except Raised VaultProject
  | .delete _ => Except Raised Unit
  | .apply _ _ => Except Raised Bool
  | _ => Unit

abbrev Reconciliation (α : Type) := Program LoopOp LoopOp.Result Raised α

namespace Reconciliation

def time : Reconciliation ℤ := .call LoopOp.time

def updateState (record : DemoRecord) (state : DemoState) (message : Text) (vaultVersion port : Option ℤ) :
    Reconciliation Unit :=
  .call (LoopOp.updateState record state message vaultVersion port)

def deleteRecord (record : DemoRecord) : Reconciliation Unit := .call (LoopOp.deleteRecord record)

def observe (dependency : Dependency) (error : Option Text) : Reconciliation Unit :=
  .call (LoopOp.observe dependency error)

def project (record : DemoRecord) : Reconciliation VaultProject := do
  .ofExcept (← .call (LoopOp.project record))

def delete (record : DemoRecord) : Reconciliation Unit := do
  .ofExcept (← .call (LoopOp.delete record))

def apply (record : DemoRecord) (resources : RenderedResources) : Reconciliation Bool := do
  .ofExcept (← .call (LoopOp.apply record resources))

def complete : Reconciliation Unit := .call LoopOp.complete

/-- The test for a deletion; only a wanted demo has its expiry compared with the clock. -/
def isDue (record : DemoRecord) : Reconciliation Bool :=
  if !record.desiredPresent then pure true
  else do
    let now ← time
    pure (decide (record.expiresAt ≤ now))

/-- The `try` of a deletion. -/
def remove (record : DemoRecord) : Reconciliation Unit :=
  Program.catching
    (do
      delete record
      observe .kubernetes none
      deleteRecord record)
    fun error => do
      observe .kubernetes (some error.typeName)
      updateState record .failed "Kubernetes deletion failed".toList none none

def deployFailed (record : DemoRecord) : Raised → Reconciliation Unit
  | .vaultError message category => do
    observe .vault (some category)
    updateState record .failed (if record.port.isSome then message ++ retained else message) none none
  | .other error => updateState record .failed (reconciliationFailed error) none none

end Reconciliation

def outsideNamespace : PyError :=
  ⟨"ValueError".toList, "image is outside the Vault-authorized namespace".toList⟩

namespace App

open Reconciliation

variable (app : App)

/-- `apply` in its worker thread, with the handler that observes and raises again. -/
def applyRendered (record : DemoRecord) (p : VaultProject) : Reconciliation Bool :=
  Program.catching (apply record (app.rendered record p)) fun error => do
    observe .kubernetes (some error.typeName)
    throw error

/-- The `try` of a deployment once Vault has answered. -/
def install (record : DemoRecord) (p : VaultProject) : Reconciliation Unit :=
  if app.imageAuthorized record p.config then do
    let ready ← app.applyRendered record p
    observe .kubernetes none
    updateState record (if ready then .ready else .reconciling)
      (if ready then "deployment is ready" else "waiting for deployment readiness").toList
      (some p.version.value) (some p.config.port)
  else throw (.other outsideNamespace)

/-- The body of the `try` of a deployment. -/
def rollOut (record : DemoRecord) : Reconciliation Unit := do
  let p ← project record
  observe .vault none
  app.install record p

def reconcile (record : DemoRecord) : Reconciliation Unit := do
  if ← isDue record then do
    updateState record .deleting "deleting resources".toList none none
    remove record
  else do
    updateState record .reconciling "loading configuration".toList none none
    Program.catching (app.rollOut record) (deployFailed record)

def reconcileAll : List DemoRecord → Reconciliation Unit
  | [] => pure ()
  | record :: rest => do
    app.reconcile record
    reconcileAll rest

/-- The loop of `run`, once. -/
def pass (snapshot : List DemoRecord) : Reconciliation Unit := do
  app.reconcileAll snapshot
  complete

end App

/-! ### Running it -/

/-- `asked` holds the keys of the records Vault was asked about or Kubernetes told to
delete, in order: one of the two begins every attempt. -/
structure PassState where
  store : Store
  now : ℤ
  health : Health
  lastCompletedAt : Option ℤ
  asked : List Key

/-- The outcome of Vault and of Kubernetes for each record; a deletion that does not
raise returns nothing. -/
structure Assigned where
  vault : DemoRecord → Except Raised VaultProject
  kubernetes : DemoRecord → Except Raised Bool

def Health.observed (h : Health) (dependency : Dependency) (error : Option Text) (now : ℤ) : Health :=
  match dependency with
  | .vault => { h with vault := observation error now }
  | .kubernetes => { h with kubernetes := observation error now }

def PassState.step (a : Assigned) (w : PassState) : (op : LoopOp) → Option (op.Result × PassState)
  | .time => some (w.now, w)
  | .updateState record state message vaultVersion port =>
    some ((), { w with
      store := w.store.updateState record.repository record.pr state message vaultVersion port w.now })
  | .deleteRecord record => some ((), { w with store := w.store.deleteRecord record.repository record.pr })
  | .observe dependency error => some ((), { w with health := w.health.observed dependency error w.now })
  | .project record => some (a.vault record, { w with asked := w.asked ++ [record.key] })
  | .delete record => some ((a.kubernetes record).map fun _ => (), { w with asked := w.asked ++ [record.key] })
  | .apply record _ => some (a.kubernetes record, w)
  | .complete => some ((), { w with lastCompletedAt := some w.now })

/-! ### What an attempt comes to -/

structure Change where
  state : DemoState
  message : Text
  vaultVersion : Option ℤ := none
  port : Option ℤ := none

def Change.applied (c : Change) (now : ℤ) (row : DemoRecord) : DemoRecord :=
  row.withState c.state c.message c.vaultVersion c.port now

def Change.failed (message : Text) : Change := { state := .failed, message }

def Change.deployed (p : VaultProject) (ready : Bool) : Change where
  state := if ready then .ready else .reconciling
  message := (if ready then "deployment is ready" else "waiting for deployment readiness").toList
  vaultVersion := some p.version.value
  port := some p.config.port

def Change.ofRaised (record : DemoRecord) : Raised → Change
  | .vaultError message _ => .failed (if record.port.isSome then message ++ retained else message)
  | .other error => .failed (reconciliationFailed error)

def DemoRecord.due (record : DemoRecord) (now : ℤ) : Bool := !record.desiredPresent || record.expiresAt ≤ now

/-- How the `try` of a deployment ends: with the columns it writes, or an exception. -/
def App.deployment (app : App) (record : DemoRecord) (vault : Except Raised VaultProject)
    (kubernetes : Except Raised Bool) : Except Raised Change := do
  let p ← vault
  if app.imageAuthorized record p.config then
    kubernetes.map (Change.deployed p)
  else throw (.other outsideNamespace)

/-- What an attempt does to the row of its record, `none` for its deletion. -/
def App.change (app : App) (now : ℤ) (record : DemoRecord) (vault : Except Raised VaultProject)
    (kubernetes : Except Raised Bool) : Option Change :=
  if record.due now then
    match kubernetes with
    | .ok _ => none
    | .error _ => some (.failed "Kubernetes deletion failed".toList)
  else
    match app.deployment record vault kubernetes with
    | .ok c => some c
    | .error error => some (.ofRaised record error)

def App.rowAfter (app : App) (now : ℤ) (record : DemoRecord) (vault : Except Raised VaultProject)
    (kubernetes : Except Raised Bool) : Option DemoRecord :=
  (app.change now record vault kubernetes).map fun c => c.applied now record

def Store.settle (s : Store) (record : DemoRecord) (now : ℤ) : Option Change → Store
  | none => s.deleteRecord record.repository record.pr
  | some c => s.updateState record.repository record.pr c.state c.message c.vaultVersion c.port now

/-! ### The statements of attempts -/

theorem store_eq {s t : Store} (hd : s.demos = t.demos) (hn : s.nonces = t.nonces) : s = t := by
  cases s
  cases t
  cases hd
  cases hn
  rfl

theorem settle_nonces (s : Store) (record : DemoRecord) (now : ℤ) (change : Option Change) :
    (s.settle record now change).nonces = s.nonces := by
  cases change with
  | none => rfl
  | some c => rfl

/-- The statement an attempt ends with overwrites the one it begins with. -/
theorem settle_updateState (s : Store) (record : DemoRecord) (state : DemoState) (message : Text) (now : ℤ)
    (change : Option Change) :
    (s.updateState record.repository record.pr state message none none now).settle record now change =
      s.settle record now change := by
  refine store_eq ?_ (by rw [settle_nonces, settle_nonces]; rfl)
  cases change with
  | none => exact s.demos.erase_update _ _ (DemoRecord.withState_key state message none none now)
  | some c =>
    exact s.demos.update_update _ _ _ (DemoRecord.withState_key state message none none now)
      (DemoRecord.withState_key c.state c.message c.vaultVersion c.port now)

theorem get_settle_of_ne (s : Store) (record : DemoRecord) (now : ℤ) (change : Option Change) {k : Key}
    (h : k ≠ record.key) : (s.settle record now change).demos.get k = s.demos.get k := by
  cases change with
  | none => exact s.get_deleteRecord_of_ne h
  | some c => exact s.get_updateState_of_ne _ _ _ _ _ h

theorem get_settle_self (s : Store) (record : DemoRecord) (now : ℤ) (change : Option Change) :
    (s.settle record now change).demos.get record.key =
      (s.demos.get record.key).bind fun row => change.map fun c => c.applied now row := by
  cases change with
  | none =>
    have hget : (s.settle record now none).demos.get record.key = none := s.get_deleteRecord_self ..
    rw [hget]
    cases s.demos.get record.key with
    | none => rfl
    | some row => rfl
  | some c =>
    have hget : (s.settle record now (some c)).demos.get record.key =
        (s.demos.get record.key).map (DemoRecord.withState c.state c.message c.vaultVersion c.port now) :=
      s.get_updateState_self ..
    rw [hget]
    cases s.demos.get record.key with
    | none => rfl
    | some row => rfl

theorem settle_comm (s : Store) {r q : DemoRecord} (h : r.key ≠ q.key) (now : ℤ) (change change' : Option Change) :
    (s.settle r now change).settle q now change' = (s.settle q now change').settle r now change := by
  refine store_eq ?_ (by simp only [settle_nonces])
  cases change with
  | none =>
    cases change' with
    | none => exact s.demos.erase_comm _ _
    | some c' =>
      exact (s.demos.update_erase_comm _ _ _
        (DemoRecord.withState_key c'.state c'.message c'.vaultVersion c'.port now)).symm
  | some c =>
    cases change' with
    | none =>
      exact s.demos.update_erase_comm _ _ _ (DemoRecord.withState_key c.state c.message c.vaultVersion c.port now)
    | some c' =>
      exact s.demos.update_comm h _ _ (DemoRecord.withState_key c.state c.message c.vaultVersion c.port now)
        (DemoRecord.withState_key c'.state c'.message c'.vaultVersion c'.port now)

def App.settleRecord (app : App) (a : Assigned) (now : ℤ) (s : Store) (record : DemoRecord) : Store :=
  s.settle record now (app.change now record (a.vault record) (a.kubernetes record))

def App.settleRow (app : App) (a : Assigned) (now : ℤ) (record : DemoRecord) (row : Option DemoRecord) :
    Option DemoRecord :=
  row.bind fun row => (app.change now record (a.vault record) (a.kubernetes record)).map fun c => c.applied now row

theorem settleRecord_local (app : App) (a : Assigned) (now : ℤ) :
    LocalActions (app.settleRecord a now) (fun s k => s.demos.get k) DemoRecord.key where
  frame s r _ h := get_settle_of_ne s r now _ h
  comm s _ _ h := settle_comm s h now _ _

/-! ### One attempt -/

section

variable {app : App} {a : Assigned} {w : PassState}

theorem isDue_run (a : Assigned) (w : PassState) (record : DemoRecord) :
    (Reconciliation.isDue record).run (PassState.step a) w = some (.ok (record.due w.now), w) := by
  unfold Reconciliation.isDue DemoRecord.due
  cases record.desiredPresent with
  | false => rfl
  | true => rfl

theorem remove_run (a : Assigned) (w : PassState) (record : DemoRecord) :
    ∃ health, (Reconciliation.remove record).run (PassState.step a) w =
      some (.ok (), { w with
        store := w.store.settle record w.now (match a.kubernetes record with
          | .ok _ => none
          | .error _ => some (.failed "Kubernetes deletion failed".toList))
        health
        asked := w.asked ++ [record.key] }) := by
  have hasked : (Reconciliation.delete record).run (PassState.step a) w =
      some ((a.kubernetes record).map fun _ => (), { w with asked := w.asked ++ [record.key] }) :=
    Program.run_call_ofExcept (PassState.step a) (LoopOp.delete record) id rfl
  have htry := Program.run_bind_of (fun _ => do
    Reconciliation.observe .kubernetes none
    Reconciliation.deleteRecord record) hasked
  cases hk : a.kubernetes record with
  | ok ready =>
    rw [hk] at htry
    have hrun : (Reconciliation.remove record).run (PassState.step a) w = _ := Program.run_catching_of _ htry
    exact ⟨w.health.observed .kubernetes none w.now, hrun⟩
  | error error =>
    rw [hk] at htry
    have hrun : (Reconciliation.remove record).run (PassState.step a) w = _ := Program.run_catching_of _ htry
    exact ⟨w.health.observed .kubernetes (some error.typeName) w.now, hrun⟩

theorem deployFailed_run (a : Assigned) (w : PassState) (record : DemoRecord) (error : Raised) :
    ∃ health, (Reconciliation.deployFailed record error).run (PassState.step a) w =
      some (.ok (), { w with store := w.store.settle record w.now (some (.ofRaised record error)), health }) := by
  cases error with
  | vaultError message category => exact ⟨w.health.observed .vault (some category) w.now, rfl⟩
  | other error => exact ⟨w.health, rfl⟩

theorem applyRendered_run (app : App) (a : Assigned) (w : PassState) (record : DemoRecord) (p : VaultProject) :
    ∃ health, (app.applyRendered record p).run (PassState.step a) w =
      some (a.kubernetes record, { w with health }) := by
  have happly : (Reconciliation.apply record (app.rendered record p)).run (PassState.step a) w =
      some (a.kubernetes record, w) :=
    Program.run_call_ofExcept (PassState.step a) (LoopOp.apply record (app.rendered record p)) id rfl
  have hrun : (app.applyRendered record p).run (PassState.step a) w = _ := Program.run_catching_of _ happly
  rw [hrun]
  cases a.kubernetes record with
  | ok ready => exact ⟨w.health, rfl⟩
  | error error => exact ⟨w.health.observed .kubernetes (some error.typeName) w.now, rfl⟩

theorem deployment_outside {record : DemoRecord} {p : VaultProject} (kubernetes : Except Raised Bool)
    (h : app.imageAuthorized record p.config = false) :
    app.deployment record (.ok p) kubernetes = .error (.other outsideNamespace) :=
  if_neg (by rw [h]; exact Bool.false_ne_true)

theorem deployment_authorized {record : DemoRecord} {p : VaultProject} (kubernetes : Except Raised Bool)
    (h : app.imageAuthorized record p.config = true) :
    app.deployment record (.ok p) kubernetes = kubernetes.map (Change.deployed p) :=
  if_pos h

theorem rollOut_run (app : App) (a : Assigned) (w : PassState) (record : DemoRecord) :
    ∃ health, (app.rollOut record).run (PassState.step a) w =
      match app.deployment record (a.vault record) (a.kubernetes record) with
      | .ok c => some (.ok (), { w with
          store := w.store.settle record w.now (some c), health, asked := w.asked ++ [record.key] })
      | .error error => some (.error error, { w with health, asked := w.asked ++ [record.key] }) := by
  have hproject : (Reconciliation.project record).run (PassState.step a) w =
      some (a.vault record, { w with asked := w.asked ++ [record.key] }) :=
    Program.run_call_ofExcept (PassState.step a) (LoopOp.project record) id rfl
  have hrun : (app.rollOut record).run (PassState.step a) w = _ := Program.run_bind_of _ hproject
  rw [hrun]
  cases a.vault record with
  | error error => exact ⟨w.health, rfl⟩
  | ok p =>
    let w' : PassState :=
      { w with health := w.health.observed .vault none w.now, asked := w.asked ++ [record.key] }
    have hinstall : (Program.onValue (fun p => do
        Reconciliation.observe .vault none
        app.install record p) (.ok p)).run (PassState.step a) { w with asked := w.asked ++ [record.key] } =
        (app.install record p).run (PassState.step a) w' := rfl
    rw [hinstall, App.install]
    cases ha : app.imageAuthorized record p.config with
    | false =>
      rw [deployment_outside _ ha]
      exact ⟨w'.health, rfl⟩
    | true =>
      obtain ⟨health, happly⟩ := applyRendered_run app a w' record p
      have hready := Program.run_bind_of (fun ready => do
        Reconciliation.observe .kubernetes none
        Reconciliation.updateState record (if ready then .ready else .reconciling)
          (if ready then "deployment is ready" else "waiting for deployment readiness").toList
          (some p.version.value) (some p.config.port)) happly
      rw [if_pos rfl, hready, deployment_authorized _ ha]
      cases a.kubernetes record with
      | error error => exact ⟨health, rfl⟩
      | ok ready => exact ⟨health.observed .kubernetes none w.now, rfl⟩

theorem reconcile_run (app : App) (a : Assigned) (w : PassState) (record : DemoRecord) :
    ∃ health, (app.reconcile record).run (PassState.step a) w =
      some (.ok (), { w with
        store := app.settleRecord a w.now w.store record, health, asked := w.asked ++ [record.key] }) := by
  have hdue : (app.reconcile record).run (PassState.step a) w = _ := Program.run_bind_of _ (isDue_run a w record)
  rw [hdue, Program.onValue_ok]
  unfold App.settleRecord App.change
  cases record.due w.now with
  | true =>
    let begun : PassState := { w with
      store := w.store.updateState record.repository record.pr .deleting "deleting resources".toList none none w.now }
    obtain ⟨health, hremove⟩ := remove_run a begun record
    refine ⟨health, hremove.trans ?_⟩
    simp only [begun, settle_updateState, if_true]
  | false =>
    let begun : PassState := { w with
      store := w.store.updateState record.repository record.pr .reconciling "loading configuration".toList
        none none w.now }
    obtain ⟨health, hroll⟩ := rollOut_run app a begun record
    have htry : (Program.catching (app.rollOut record) (Reconciliation.deployFailed record)).run (PassState.step a)
        begun = _ := Program.run_andThen ..
    rw [hroll] at htry
    simp only [Bool.false_eq_true, if_false]
    cases hd : app.deployment record (a.vault record) (a.kubernetes record) with
    | ok c =>
      rw [hd] at htry
      refine ⟨health, htry.trans ?_⟩
      simp only [begun, settle_updateState]
      rfl
    | error error =>
      rw [hd] at htry
      obtain ⟨health', hfailed⟩ := deployFailed_run a
        { begun with health := health, asked := w.asked ++ [record.key] } record error
      refine ⟨health', (htry.trans hfailed).trans ?_⟩
      simp only [begun, settle_updateState]

/-! ### The whole pass -/

theorem reconcileAll_run (app : App) (a : Assigned) (w : PassState) (records : List DemoRecord) :
    ∃ health, (app.reconcileAll records).run (PassState.step a) w =
      some (.ok (), { w with
        store := records.foldl (app.settleRecord a w.now) w.store
        health
        asked := w.asked ++ records.map DemoRecord.key }) := by
  induction records generalizing w with
  | nil =>
    refine ⟨w.health, ?_⟩
    rw [List.map_nil, List.append_nil]
    rfl
  | cons record rest ih =>
    obtain ⟨health, hfirst⟩ := reconcile_run app a w record
    obtain ⟨health', hrest⟩ := ih { w with
      store := app.settleRecord a w.now w.store record, health, asked := w.asked ++ [record.key] }
    refine ⟨health', (Program.run_bind_of _ hfirst).trans (hrest.trans ?_)⟩
    rw [List.map_cons, List.append_assoc]
    rfl

theorem pass_run (app : App) (a : Assigned) (w : PassState) (records : List DemoRecord) :
    ∃ health, (app.pass records).run (PassState.step a) w =
      some (.ok (), { w with
        store := records.foldl (app.settleRecord a w.now) w.store
        health
        lastCompletedAt := some w.now
        asked := w.asked ++ records.map DemoRecord.key }) := by
  obtain ⟨health, hall⟩ := reconcileAll_run app a w records
  exact ⟨health, Program.run_bind_of _ hall⟩

structure PassDone (app : App) (a : Assigned) (records : List DemoRecord) (w w' : PassState) : Prop where
  asked_once : w'.asked = w.asked ++ records.map DemoRecord.key
  frame : ∀ k, k ∉ records.map DemoRecord.key → w'.store.demos.get k = w.store.demos.get k
  nonces : w'.store.nonces = w.store.nonces
  rows : ∀ r ∈ records, w'.store.demos.get r.key = app.rowAfter w.now r (a.vault r) (a.kubernetes r)
  completed : w'.lastCompletedAt = some w.now

theorem foldl_nonces (records : List DemoRecord) (now : ℤ) (s : Store) :
    (records.foldl (app.settleRecord a now) s).nonces = s.nonces := by
  induction records generalizing s with
  | nil => rfl
  | cons record rest ih =>
    rw [List.foldl_cons, ih]
    exact settle_nonces ..

/-- A pass raises nothing, works on each record once, leaves every other row alone and
in each record's row what its own outcomes make of it, in whatever order it goes. -/
theorem pass_isolates_records (app : App) (a : Assigned) (w : PassState) {records : List DemoRecord}
    (distinct : (records.map DemoRecord.key).Nodup) (present : ∀ r ∈ records, w.store.demos.get r.key = some r) :
    ∃ w', (app.pass records).run (PassState.step a) w = some (.ok (), w') ∧ PassDone app a records w w' ∧
      ∀ reordered, records.Perm reordered →
        ∃ w'', (app.pass reordered).run (PassState.step a) w = some (.ok (), w'') ∧ w''.store = w'.store := by
  obtain ⟨health, hrun⟩ := pass_run app a w records
  have hlocal := settleRecord_local app a w.now
  refine ⟨_, hrun, ⟨rfl, ?_, foldl_nonces records w.now w.store, ?_, rfl⟩, ?_⟩
  · intro k hk
    exact hlocal.foldl_frame hk w.store
  · intro r hr
    have hown := hlocal.foldl_own (app.settleRow a w.now) (fun s r => get_settle_self s r w.now _) distinct hr w.store
    rw [present r hr] at hown
    exact hown
  · intro reordered hperm
    obtain ⟨health', hrun'⟩ := pass_run app a w reordered
    exact ⟨_, hrun', (hlocal.foldl_perm hperm distinct w.store).symm⟩

def exampleRows : List DemoRecord :=
  [.ofDeploy exampleDeploy exampleHash 100 200,
    { DemoRecord.ofDeploy exampleDeploy exampleHash 100 200 with pr := 9, desiredPresent := false }]

def examplePass : PassState where
  store := ⟨⟨exampleRows, by decide⟩, Table.empty⟩
  now := 150
  health := {}
  lastCompletedAt := none
  asked := []

/-- Vault refuses the demo it is asked about, and Kubernetes does not answer. -/
def exampleOutcomes : Assigned where
  vault _ := .error (.vaultError "Vault denied access".toList "permission".toList)
  kubernetes _ := .error (.other ⟨"TimeoutError".toList, []⟩)

theorem pass_isolates_records_example :
    ∃ w', (exampleApp.pass exampleRows).run (PassState.step exampleOutcomes) examplePass = some (.ok (), w') ∧
      PassDone exampleApp exampleOutcomes exampleRows examplePass w' := by
  have hdistinct : (exampleRows.map DemoRecord.key).Nodup := by decide
  have hpresent : ∀ r ∈ exampleRows, examplePass.store.demos.get r.key = some r := by decide
  obtain ⟨w', hrun, hdone, -⟩ := pass_isolates_records exampleApp exampleOutcomes examplePass hdistinct hpresent
  exact ⟨w', hrun, hdone⟩

/-! ### The same attempt in steps -/

def VaultOutcome.result : VaultOutcome → Except Raised VaultProject
  | .project p => .ok p
  | .vaultError message category => .error (.vaultError message category)
  | .raised error => .error (.other error)

/-- The event loop goes on with a record once Vault or Kubernetes has answered. The calls
of the worker thread are left out: they do not touch the store. -/
def App.goOn (app : App) (s : System) (now : ℤ) (vault : VaultOutcome) (kubernetes : Except PyError Bool) : System :=
  match s.loop with
  | .deleting record _ todo =>
    match kubernetes with
    | .ok _ => (app.afterDelete s record todo none now now).1
    | .error error => (app.afterDelete s record todo (some error) now now).1
  | .loading record todo => (app.afterVault s record todo vault now now).1
  | .applying record p _ todo => (app.afterApply s record p todo kubernetes now now).1
  | _ => s

/-- An attempt waits twice at most. -/
def App.attempt (app : App) (s : System) (record : DemoRecord) (todo : List DemoRecord) (now : ℤ)
    (vault : VaultOutcome) (kubernetes : Except PyError Bool) : System :=
  app.goOn (app.goOn (app.begin s record todo now now).1 now vault kubernetes) now vault kubernetes

theorem begin_due (app : App) (s : System) {record : DemoRecord} {now : ℤ} (h : record.due now = true)
    (todo : List DemoRecord) : (app.begin s record todo now now).1 =
      s.update record .deleting "deleting resources".toList none none now
        (.deleting record (Thread.ofCalls (deleteCalls app.cm record.repository record.pr)) todo) := by
  unfold App.begin
  rw [if_pos (show (!record.desiredPresent || record.expiresAt ≤ now) = true from h)]

theorem begin_kept (app : App) (s : System) {record : DemoRecord} {now : ℤ} (h : record.due now = false)
    (todo : List DemoRecord) : (app.begin s record todo now now).1 =
      s.update record .reconciling "loading configuration".toList none none now (.loading record todo) := by
  have hkept : ¬ (!record.desiredPresent || record.expiresAt ≤ now) = true := by
    unfold DemoRecord.due at h
    rw [h]
    exact Bool.false_ne_true
  unfold App.begin
  rw [if_neg hkept]

theorem goOn_loading (app : App) (s : System) (record : DemoRecord) (todo : List DemoRecord) (message : Text) (now : ℤ)
    (vault : VaultOutcome) (kubernetes : Except PyError Bool) :
    app.goOn (s.update record .reconciling message none none now (.loading record todo)) now vault kubernetes =
      (app.afterVault (s.update record .reconciling message none none now (.loading record todo)) record todo vault
        now now).1 := rfl

/-- The steps make the statement the coroutine makes, given that SQLite can bind the version. -/
theorem attempt_store (app : App) (s : System) (record : DemoRecord) (todo : List DemoRecord) (now : ℤ)
    (vault : VaultOutcome) (kubernetes : Except PyError Bool)
    (hversion : ∀ p, vault = .project p → Store.bindable (some p.version.value) = true) :
    (app.attempt s record todo now vault kubernetes).api.store =
      s.api.store.settle record now (app.change now record vault.result (kubernetes.mapError .other)) := by
  unfold App.attempt App.change
  cases hdue : record.due now with
  | true =>
    rw [begin_due app s hdue]
    cases kubernetes with
    | ok ready => exact settle_updateState s.api.store record .deleting "deleting resources".toList now none
    | error error =>
      exact settle_updateState s.api.store record .deleting "deleting resources".toList now
        (some (.failed "Kubernetes deletion failed".toList))
  | false =>
    rw [begin_kept app s hdue]
    have hover := settle_updateState s.api.store record .reconciling "loading configuration".toList now
    cases vault with
    | vaultError message category => exact hover (some (.ofRaised record (.vaultError message category)))
    | raised error => exact hover (some (.ofRaised record (.other error)))
    | project p =>
      rw [goOn_loading]
      cases ha : app.imageAuthorized record p.config with
      | false =>
        simp only [App.afterVault, ha, VaultOutcome.result, deployment_outside _ ha, Bool.false_eq_true, if_false]
        exact hover (some (.ofRaised record (.other outsideNamespace)))
      | true =>
        have hbind : (Store.bindable (some p.version.value) && Store.bindable (some p.config.port)) = true := by
          rw [hversion p rfl, bindable_port, Bool.and_self]
        simp only [App.afterVault, ha, VaultOutcome.result, deployment_authorized _ ha, Bool.false_eq_true, if_false,
          if_true]
        cases kubernetes with
        | error error => exact hover (some (.ofRaised record (.other error)))
        | ok ready =>
          simp only [App.goOn, App.afterApply, hbind, if_true]
          exact hover (some (.deployed p ready))

end

end DemoController
