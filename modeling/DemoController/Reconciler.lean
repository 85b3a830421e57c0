import DemoController.Api
import DemoController.Kubernetes

/-!
# The reconciliation loop and the whole controller (`reconciler.py`)

The event loop runs one coroutine at a time, so the code between two awaits is
one step: the snapshot, the start of an attempt, the answer of Vault, the return
of the worker thread. The thread's client calls are steps of their own. API
requests are served between any two of them, and the process may crash and
restart anywhere.
-/

namespace DemoController

open Lib

structure VaultProject where
  config : ProjectConfig
  version : PyInt

inductive VaultOutcome where
  | project (p : VaultProject)
  | vaultError (message category : Text)
  | raised (error : PyError)

structure Observation where
  status : Text := "unknown".toList
  checkedAt : Option ℤ := none
  error : Option Text := none
  deriving DecidableEq

structure Health where
  vault : Observation := {}
  kubernetes : Observation := {}
  deriving DecidableEq

def observation (error : Option Text) (now : ℤ) : Observation where
  status := if (error.getD []).isEmpty then "ok".toList else "error".toList
  checkedAt := some now
  error := error

/-- Where the coroutine `run` is; `todo` is the rest of the snapshot. -/
inductive Loop where
  | idle
  | pass (todo : List DemoRecord)
  | deleting (record : DemoRecord) (thread : Thread) (todo : List DemoRecord)
  | loading (record : DemoRecord) (todo : List DemoRecord)
  | applying (record : DemoRecord) (project : VaultProject) (thread : Thread) (todo : List DemoRecord)

def Loop.held : Loop → List DemoRecord
  | .idle => []
  | .pass todo => todo
  | .deleting record _ todo => record :: todo
  | .loading record todo => record :: todo
  | .applying record _ _ todo => record :: todo

/-- `clock` is the last value the process read. -/
structure System where
  api : ApiState
  cluster : Cluster
  loop : Loop
  health : Health
  lastCompletedAt : Option ℤ
  clock : ℤ

def System.initial (cluster : Cluster) (clock : ℤ) : System :=
  ⟨ApiState.empty, cluster, .idle, {}, none, clock⟩

abbrev System.demos (s : System) : Table DemoRecord.key := s.api.store.demos

/-- `now` is the first clock reading of a step and `later` the last. -/
inductive Action where
  | request (endpoint : Endpoint) (req : HttpRequest) (now later : ℤ)
  | list
  | begin (now later : ℤ)
  | vault (outcome : VaultOutcome) (now later : ℤ)
  | call (outcome : Outcome)
  | resume (now later : ℤ)
  | endPass (now : ℤ)
  | crash (tookEffect : Bool)

def Action.body? : Action → Option Bytes
  | .request _ req _ _ => some req.body
  | _ => none

/-- `update_state` on the row of a record, and the attempt's end or continuation. -/
def System.update (s : System) (record : DemoRecord) (state : DemoState) (message : Text)
    (vaultVersion port : Option ℤ) (now : ℤ) (loop : Loop) : System :=
  { s with
    api := { s.api with
      store := s.api.store.updateState record.repository record.pr state message vaultVersion port now }
    loop
    clock := now }

/-- The cluster after a crash: the call in flight may have taken effect. -/
def System.crashedCluster (s : System) (tookEffect : Bool) : Cluster :=
  match s.loop, tookEffect with
  | .deleting _ (.running call _) _, true => call.effect s.cluster
  | .applying _ _ (.running call _) _, true => call.effect s.cluster
  | _, _ => s.cluster

def written {cm : CaseMapping} (record : DemoRecord) (state : DemoState) (vaultVersion port : Option ℤ) :
    List (Event cm) :=
  [.wrote record state, .store (.updated record.repository record.pr vaultVersion port)]

def reconciliationFailed (error : PyError) : Text :=
  "Kubernetes reconciliation failed (".toList ++ error.type ++ ": ".toList ++ error.text.take 300 ++ ")".toList

def retained : Text := "; previous resources retained; backend availability is not verified".toList

namespace App

variable (app : App)

def imageAuthorized (record : DemoRecord) (config : ProjectConfig) : Bool :=
  match config.imageNamespace with
  | none => true
  | some [] => true
  | some ns =>
    let expected := app.settings.imageRegistry ++ "/".toList ++ app.cm.lower ns ++ "@sha256:".toList
    expected.isPrefixOf (app.cm.lower (record.image.getD []))

def rendered (record : DemoRecord) (p : VaultProject) : RenderedResources :=
  renderResources app.cm record p.config p.version app.settings.namespace_ app.settings.controllerOwner

def fail (s : System) (record : DemoRecord) (message : Text) (now : ℤ) (todo : List DemoRecord) :
    System × List (Event app.cm) :=
  (s.update record .failed message none none now (.pass todo), written record .failed none none)

def begin (s : System) (record : DemoRecord) (todo : List DemoRecord) (now later : ℤ) :
    System × List (Event app.cm) :=
  if !record.desiredPresent || record.expiresAt ≤ now then
    let thread := Thread.ofCalls (deleteCalls app.cm record.repository record.pr)
    (s.update record .deleting "deleting resources".toList none none later (.deleting record thread todo),
      .deleteStarted record.key :: written record .deleting none none)
  else
    (s.update record .reconciling "loading configuration".toList none none later (.loading record todo),
      written record .reconciling none none)

def afterVault (s : System) (record : DemoRecord) (todo : List DemoRecord) (outcome : VaultOutcome)
    (now later : ℤ) : System × List (Event app.cm) :=
  match outcome with
  | .project p =>
    let s := { s with health := { s.health with vault := observation none now } }
    if app.imageAuthorized record p.config then
      ({ s with loop := .applying record p (Thread.ofCalls (applyCalls (app.rendered record p))) todo,
                clock := now }, [])
    else
      app.fail s record (reconciliationFailed
        ⟨"ValueError".toList, "image is outside the Vault-authorized namespace".toList⟩) later todo
  | .vaultError message category =>
    let s := { s with health := { s.health with vault := observation (some category) now } }
    app.fail s record (if record.port.isSome then message ++ retained else message) later todo
  | .raised error => app.fail s record (reconciliationFailed error) later todo

def afterDelete (s : System) (record : DemoRecord) (todo : List DemoRecord) (error : Option PyError)
    (now later : ℤ) : System × List (Event app.cm) :=
  let s := { s with health :=
    { s.health with kubernetes := observation (error.map PyError.type) now } }
  match error with
  | none =>
    ({ s with
      api := { s.api with store := s.api.store.deleteRecord record.repository record.pr }
      loop := .pass todo
      clock := later }, [.store (.deleted record.repository record.pr)])
  | some _ => app.fail s record "Kubernetes deletion failed".toList later todo

/-- `reconcile` after the worker thread of an apply. A Vault version SQLite cannot
bind makes `update_state` raise. -/
def afterApply (s : System) (record : DemoRecord) (p : VaultProject) (todo : List DemoRecord)
    (result : Except PyError Bool) (now later : ℤ) : System × List (Event app.cm) :=
  match result with
  | .error error =>
    let s := { s with health := { s.health with kubernetes := observation (some error.type) now } }
    app.fail s record (reconciliationFailed error) later todo
  | .ok ready =>
    let s := { s with health := { s.health with kubernetes := observation none now } }
    let state := if ready then DemoState.ready else .reconciling
    let message := if ready then "deployment is ready" else "waiting for deployment readiness"
    if Store.bindable (some p.version.value) && Store.bindable (some p.config.port) then
      (s.update record state message.toList (some p.version.value) (some p.config.port) later (.pass todo),
        written record state (some p.version.value) (some p.config.port))
    else
      app.fail s record (reconciliationFailed
        ⟨"OverflowError".toList, "Python int too large to convert to SQLite INTEGER".toList⟩) later todo

/-- One step of the controller, `none` where the action is not possible. -/
def step (s : System) : Action → Option (System × List (Event app.cm))
  | .request endpoint req now later =>
    let served := app.serve s.api endpoint req now later
    some ({ s with api := served.1, clock := later }, served.2.2)
  | .list =>
    match s.loop with
    | .idle => some ({ s with loop := .pass s.api.store.listReconcilable }, [.snapshot])
    | _ => none
  | .begin now later =>
    match s.loop with
    | .pass (record :: todo) => some (app.begin s record todo now later)
    | _ => none
  | .vault outcome now later =>
    match s.loop with
    | .loading record todo => some (app.afterVault s record todo outcome now later)
    | _ => none
  | .call outcome =>
    match s.loop with
    | .deleting record (.running call rest) todo =>
      (Thread.step s.cluster call rest outcome).map fun r =>
        ({ s with cluster := r.1, loop := .deleting record r.2 todo }, [])
    | .applying record p (.running call rest) todo =>
      (Thread.step s.cluster call rest outcome).map fun r =>
        ({ s with cluster := r.1, loop := .applying record p r.2 todo },
          match r.2 with
          | .returned _ => [.applied record.key p.config p.version.value]
          | _ => [])
    | _ => none
  | .resume now later =>
    match s.loop with
    | .deleting record (.returned _) todo => some (app.afterDelete s record todo none now later)
    | .deleting record (.raised error) todo => some (app.afterDelete s record todo (some error) now later)
    | .applying record p (.returned ready) todo => some (app.afterApply s record p todo (.ok ready) now later)
    | .applying record p (.raised error) todo => some (app.afterApply s record p todo (.error error) now later)
    | _ => none
  | .endPass now =>
    match s.loop with
    | .pass [] => some ({ s with loop := .idle, lastCompletedAt := some now, clock := now }, [])
    | _ => none
  | .crash tookEffect =>
    some ({ s with
      api := ⟨s.api.store, fun _ => []⟩
      cluster := s.crashedCluster tookEffect
      loop := .idle
      health := {}
      lastCompletedAt := none }, [])

end App

/-! ### What a step can do -/

inductive Thread.Ended : Thread → Prop
  | returned (ready : Bool) : Thread.Ended (.returned ready)
  | raised (error : PyError) : Thread.Ended (.raised error)

/-- The steps by their effect. Health observations play no part in what follows. -/
inductive Stepped (app : App) (s : System) : Action → System → List (Event app.cm) → Prop
  | request {endpoint req now later api r es} : Served app s.api endpoint req now later api r es →
      Stepped app s (.request endpoint req now later) { s with api := api, clock := later } es
  | list : s.loop = .idle →
      Stepped app s .list { s with loop := .pass s.api.store.listReconcilable } [.snapshot]
  | beginDelete {record todo now later} : s.loop = .pass (record :: todo) →
      (record.desiredPresent = false ∨ record.expiresAt ≤ now) →
      Stepped app s (.begin now later)
        (s.update record .deleting "deleting resources".toList none none later
          (.deleting record (Thread.ofCalls (deleteCalls app.cm record.repository record.pr)) todo))
        (.deleteStarted record.key :: written record .deleting none none)
  | beginApply {record todo now later} : s.loop = .pass (record :: todo) →
      record.desiredPresent = true → now < record.expiresAt →
      Stepped app s (.begin now later)
        (s.update record .reconciling "loading configuration".toList none none later (.loading record todo))
        (written record .reconciling none none)
  | project {record todo p now later health} : s.loop = .loading record todo →
      app.imageAuthorized record p.config = true →
      Stepped app s (.vault (.project p) now later)
        { s with
          health := health
          loop := .applying record p (Thread.ofCalls (applyCalls (app.rendered record p))) todo
          clock := now } []
  | vaultFailed {record todo outcome now later health message} : s.loop = .loading record todo →
      (∀ p, outcome = .project p → app.imageAuthorized record p.config = false) →
      Stepped app s (.vault outcome now later)
        (System.update { s with health := health } record .failed message none none later (.pass todo))
        (written record .failed none none)
  | callDelete {record call rest todo outcome cluster thread} :
      s.loop = .deleting record (.running call rest) todo →
      Thread.step s.cluster call rest outcome = some (cluster, thread) →
      Stepped app s (.call outcome)
        { s with cluster := cluster, loop := .deleting record thread todo } []
  | callApply {record p call rest todo outcome cluster thread} :
      s.loop = .applying record p (.running call rest) todo →
      Thread.step s.cluster call rest outcome = some (cluster, thread) →
      Stepped app s (.call outcome)
        { s with cluster := cluster, loop := .applying record p thread todo }
        (match thread with
          | .returned _ => [.applied record.key p.config p.version.value]
          | _ => [])
  | deleted {record ready todo now later health} : s.loop = .deleting record (.returned ready) todo →
      Stepped app s (.resume now later)
        { s with
          api := { s.api with store := s.api.store.deleteRecord record.repository record.pr }
          health := health
          loop := .pass todo
          clock := later } [.store (.deleted record.repository record.pr)]
  | deleteFailed {record error todo now later health message} :
      s.loop = .deleting record (.raised error) todo →
      Stepped app s (.resume now later)
        (System.update { s with health := health } record .failed message none none later (.pass todo))
        (written record .failed none none)
  | applied {record p ready todo now later health} : s.loop = .applying record p (.returned ready) todo →
      Store.bindable (some p.version.value) = true →
      Stepped app s (.resume now later)
        (System.update { s with health := health } record (if ready then .ready else .reconciling)
          (if ready then "deployment is ready" else "waiting for deployment readiness").toList
          (some p.version.value) (some p.config.port) later (.pass todo))
        (written record (if ready then .ready else .reconciling) (some p.version.value) (some p.config.port))
  | applyFailed {record p thread todo now later health message} : s.loop = .applying record p thread todo →
      thread.Ended → (∀ ready, thread = .returned ready → Store.bindable (some p.version.value) = false) →
      Stepped app s (.resume now later)
        (System.update { s with health := health } record .failed message none none later (.pass todo))
        (written record .failed none none)
  | endPass {now} : s.loop = .pass [] →
      Stepped app s (.endPass now) { s with loop := .idle, lastCompletedAt := some now, clock := now } []
  | crash {tookEffect} :
      Stepped app s (.crash tookEffect)
        { s with
          api := ⟨s.api.store, fun _ => []⟩
          cluster := s.crashedCluster tookEffect
          loop := .idle
          health := {}
          lastCompletedAt := none } []

theorem bindable_port (config : ProjectConfig) : Store.bindable (some config.port) = true := by
  have h := config.port_ok
  simp only [Store.bindable, Option.all_some, Bool.and_eq_true, decide_eq_true_eq]
  omega

theorem stepped_vault (app : App) {s : System} {record : DemoRecord} {todo : List DemoRecord}
    (hl : s.loop = .loading record todo) (outcome : VaultOutcome) (now later : ℤ) :
    Stepped app s (.vault outcome now later) (app.afterVault s record todo outcome now later).1
      (app.afterVault s record todo outcome now later).2 := by
  cases outcome with
  | project p =>
    simp only [App.afterVault]
    cases ha : app.imageAuthorized record p.config with
    | true =>
      simp only [if_true]
      exact .project hl ha
    | false =>
      simp only [Bool.false_eq_true, if_false]
      refine .vaultFailed hl ?_
      rintro q ⟨⟩
      exact ha
  | vaultError message category =>
    refine .vaultFailed hl ?_
    rintro q ⟨⟩
  | raised error =>
    refine .vaultFailed hl ?_
    rintro q ⟨⟩

theorem stepped_apply (app : App) {s : System} {record : DemoRecord} {p : VaultProject} {ready : Bool}
    {todo : List DemoRecord} (hl : s.loop = .applying record p (.returned ready) todo) (now later : ℤ) :
    Stepped app s (.resume now later) (app.afterApply s record p todo (.ok ready) now later).1
      (app.afterApply s record p todo (.ok ready) now later).2 := by
  unfold App.afterApply
  cases hb : Store.bindable (some p.version.value) with
  | true =>
    simp only [bindable_port, Bool.and_self, if_true]
    exact .applied hl hb
  | false => exact .applyFailed hl (.returned ready) fun _ _ => hb

theorem stepped_of_step {app : App} {s t : System} {a : Action} {es : List (Event app.cm)}
    (h : app.step s a = some (t, es)) : Stepped app s a t es := by
  cases a with
  | request endpoint req now later =>
    cases h
    exact .request (served ..)
  | list =>
    simp only [App.step] at h
    split at h
    · next hl =>
      cases h
      exact .list hl
    · cases h
  | begin now later =>
    simp only [App.step] at h
    split at h
    · next record todo hl =>
      unfold App.begin at h
      split at h
      · next hc =>
        cases h
        refine .beginDelete hl ?_
        simpa using hc
      · next hc =>
        cases h
        simp only [Bool.or_eq_true, Bool.not_eq_eq_eq_not, Bool.not_true, decide_eq_true_eq, not_or,
          Bool.not_eq_false, not_le] at hc
        exact .beginApply hl hc.1 hc.2
    · cases h
  | vault outcome now later =>
    simp only [App.step] at h
    split at h
    · next record todo hl =>
      have hv := stepped_vault app hl outcome now later
      rw [Option.some_inj.mp h] at hv
      exact hv
    · cases h
  | call outcome =>
    simp only [App.step] at h
    split at h
    · next record call rest todo hl =>
      obtain ⟨⟨cluster, thread⟩, hs, he⟩ := Option.map_eq_some_iff.mp h
      cases he
      exact .callDelete hl hs
    · next record p call rest todo hl =>
      obtain ⟨⟨cluster, thread⟩, hs, he⟩ := Option.map_eq_some_iff.mp h
      cases he
      exact .callApply hl hs
    · cases h
  | resume now later =>
    simp only [App.step] at h
    split at h
    · next record ready todo hl =>
      cases h
      exact .deleted hl
    · next record error todo hl =>
      cases h
      exact .deleteFailed hl
    · next record p ready todo hl =>
      have ha := stepped_apply app hl now later
      rw [Option.some_inj.mp h] at ha
      exact ha
    · next record p error todo hl =>
      cases h
      exact .applyFailed hl (.raised error) fun _ hr => by cases hr
    · cases h
  | endPass now =>
    simp only [App.step] at h
    split at h
    · next hl =>
      cases h
      exact .endPass hl
    · cases h
  | crash tookEffect =>
    cases h
    exact .crash

/-! ### Runs of the example -/

def deployAction (deliveryId : String) (now : ℤ) : Action :=
  .request .deploy (signedRequest "/api/v1/deploy" now deliveryId (deployBody deliveryId)) now now

def destroyAction (deliveryId : String) (now : ℤ) : Action :=
  .request .destroy (signedRequest "/api/v1/destroy" now deliveryId (destroyBody deliveryId)) now now

def exampleProject : VaultProject := ⟨exampleConfig, .int 2⟩

def exampleView : DeploymentView := ⟨some 1, some 1, some (some 1, some 1)⟩

/-- A pass over one record that applies it: two objects, two absent kinds, and the read. -/
def applyActions (now : ℤ) : List Action :=
  [.list, .begin now now, .vault (.project exampleProject) now now, .call .done, .call .done, .call .notFound,
    .call .notFound, .call (.got exampleView), .resume now now, .endPass now]

def runActions (actions : List Action) : Option (System × List (Event exampleApp.cm)) :=
  execute exampleApp.step actions (System.initial (fun _ _ => none) 0) []

theorem runActions_singleton {a : Action} {s : System} {h : List (Event exampleApp.cm)}
    (hr : runActions [a] = some (s, h)) :
    exampleApp.step (System.initial (fun _ _ => none) 0) a = some (s, h) := by
  simp only [runActions, execute, List.append_nil, Prod.mk.eta, Option.bind_fun_some] at hr
  exact hr

theorem run_of_actions {actions : List Action} {s : System} {h : List (Event exampleApp.cm)}
    (hr : runActions actions = some (s, h)) :
    Run exampleApp.step anyStep (System.initial (fun _ _ => none) 0) [] s h :=
  Run.of_execute actions (fun _ _ _ _ => trivial) .start hr

end DemoController
