import DemoController.Pass
import DemoController.Vault

/-!
# Diagnostics and the unit's status (`api.py`, `charm.py`)

`/statusz` reports the reconciliation task, the database, the last observation of each
dependency and the states of the rows; the charm reads the report field by field and
turns it into the status of the unit. The two order their conditions differently.
-/

namespace DemoController

open Lib

/-! ### `/statusz` -/

deriving instance DecidableEq for Dependency

/-- `task`: not created before the lifespan begins, and done once `run` has ended. -/
inductive Task where
  | absent
  | running
  | done
  deriving DecidableEq

structure JsonResponse where
  statusCode : ℕ
  content : Json

def optionalInt : Option ℤ → Json
  | none => .null
  | some n => .int n

def optionalStr : Option Text → Json
  | none => .null
  | some t => .str t

def Observation.content (o : Observation) : Json :=
  .obj [("status".toList, .str o.status), ("checked_at".toList, optionalInt o.checkedAt),
    ("error".toList, optionalStr o.error)]

def Health.dependency (h : Health) : Dependency → Observation
  | .vault => h.vault
  | .kubernetes => h.kubernetes

def Observation.isError (o : Observation) : Bool := o.status == "error".toList

/-- `counts[state]`; `readable` says whether `list_reconcilable` returns or raises `sqlite3.Error`. -/
def System.counts (s : System) (readable : Bool) (state : DemoState) : ℕ :=
  (if readable then s.api.store.listReconcilable.map DemoRecord.state else []).count state

def System.degraded (s : System) (task : Task) (readable : Bool) : Bool :=
  !(task == .running) || !readable || s.counts readable .failed != 0 || s.health.vault.isError ||
    s.health.kubernetes.isError

/-- `controller_status`. -/
def controllerStatus (s : System) (task : Task) (readable : Bool) : JsonResponse where
  statusCode := if s.degraded task readable then 503 else 200
  content := .obj
    [("status".toList, .str (if s.degraded task readable then "degraded".toList else "ok".toList)),
      ("database".toList, .str (if readable then "ok".toList else "error".toList)),
      ("reconciliation".toList, .obj
        [("state".toList, .str (if task == .running then "running".toList else "stopped".toList)),
          ("last_completed_at".toList, optionalInt s.lastCompletedAt)]),
      ("dependencies".toList, .obj
        [("vault".toList, s.health.vault.content), ("kubernetes".toList, s.health.kubernetes.content)]),
      ("demos".toList, .obj
        [("pending".toList, .int (s.counts readable .pending)),
          ("reconciling".toList, .int (s.counts readable .reconciling)),
          ("ready".toList, .int (s.counts readable .ready)),
          ("failed".toList, .int (s.counts readable .failed)),
          ("deleting".toList, .int (s.counts readable .deleting))])]

/-! ### The charm -/

inductive CharmException where
  | pebbleError (text : Text)
  | osError (text : Text)
  | valueError (text : Text)
  | keyError (text : Text)
  | typeError (text : Text)
  | timeoutError (text : Text)
  | other (error : PyError)

/-- `except (pebble.Error, OSError, ValueError, KeyError, TypeError, TimeoutError)`. -/
def CharmException.isCaught : CharmException → Bool
  | .other _ => false
  | _ => true

/-- `json.loads(output)`. -/
def Body.loads : Body → Except CharmException Json
  | .json value => .ok value
  | .invalid error => .error (.valueError error.text)
  | .tooDeep text => .error (.other ⟨"RecursionError".toList, text⟩)

/-- `value[name]`. -/
def Json.subscript (name : String) : Json → Except CharmException Json
  | .obj fields =>
    match fields.lookup name.toList with
    | some value => .ok value
    | none => .error (.keyError name.toList)
  | .arr _ => .error (.typeError "list indices must be integers or slices, not str".toList)
  | .str _ => .error (.typeError "string indices must be integers, not 'str'".toList)
  | value => .error (.typeError ("'".toList ++ value.typeName ++ "' object is not subscriptable".toList))

/-- `value[name]...[name]`. -/
def Json.subscripts (value : Json) (names : List String) : Except CharmException Json :=
  names.foldlM (fun item name => item.subscript name) value

/-- `value == text`. -/
def Json.equals (text : String) : Json → Bool
  | .str t => t == text.toList
  | _ => false

inductive UnitStatus where
  | active
  | waiting (message : Text)
  | maintenance (message : Text)
  deriving DecidableEq

def waitingForDiagnostics : UnitStatus := .waiting "waiting for controller diagnostics".toList

/-- The `try` of `_set_workload_status`, on what the probe prints. -/
def readWorkloadStatus (output : Except CharmException Body) : Except CharmException UnitStatus := do
  let health ← (← output).loads
  let database ← health.subscripts ["database"]
  if !database.equals "ok" then pure (.waiting "controller state database unavailable".toList)
  else do
    let state ← health.subscripts ["reconciliation", "state"]
    if !state.equals "running" then pure (.maintenance "controller reconciliation loop stopped".toList)
    else do
      let vault ← health.subscripts ["dependencies", "vault", "status"]
      if vault.equals "error" then pure (.waiting "Vault reconciliation degraded; see controller logs".toList)
      else do
        let kubernetes ← health.subscripts ["dependencies", "kubernetes", "status"]
        if kubernetes.equals "error" then
          pure (.waiting "Kubernetes reconciliation degraded; see controller logs".toList)
        else do
          let status ← health.subscripts ["status"]
          if status.equals "degraded" then pure (.waiting "demo reconciliation degraded; see controller logs".toList)
          else if status.equals "ok" then pure .active
          else pure waitingForDiagnostics

/-- The status `_set_workload_status` sets, or the exception that escapes it. -/
def setWorkloadStatus (output : Except CharmException Body) : Except CharmException UnitStatus :=
  match readWorkloadStatus output with
  | .ok status => .ok status
  | .error error => if error.isCaught then .ok waitingForDiagnostics else .error error

/-! ### Exceptions that can occur -/

/-- Every exception is one that `_set_workload_status` handles. -/
def OnlyCaught {α : Type} (x : Except CharmException α) : Prop := ∀ error, x = .error error → error.isCaught = true

theorem onlyCaught_pure {α : Type} (a : α) : OnlyCaught (pure a) := by
  intro error h
  cases h

theorem OnlyCaught.bind {α β : Type} {x : Except CharmException α} {f : α → Except CharmException β}
    (hx : OnlyCaught x) (hf : ∀ a, OnlyCaught (f a)) : OnlyCaught (x >>= f) := by
  intro error h
  cases x with
  | error error' =>
    have he : error' = error := Except.error.inj h
    rw [← he]
    exact hx error' rfl
  | ok a => exact hf a error h

theorem onlyCaught_subscript (name : String) (value : Json) : OnlyCaught (value.subscript name) := by
  intro error h
  unfold Json.subscript at h
  split at h
  · split at h
    · cases h
    · cases h
      rfl
  all_goals
    cases h
    rfl

theorem onlyCaught_subscripts (names : List String) (value : Json) : OnlyCaught (value.subscripts names) := by
  induction names generalizing value with
  | nil => exact onlyCaught_pure value
  | cons name names ih => exact (onlyCaught_subscript name value).bind ih

theorem onlyCaught_read {body : Body} (h : ∀ text, body ≠ .tooDeep text) :
    OnlyCaught (readWorkloadStatus (.ok body)) := by
  have hloads : OnlyCaught body.loads := by
    intro error he
    cases body with
    | json value => cases he
    | invalid error' =>
      cases he
      rfl
    | tooDeep text => exact absurd rfl (h text)
  refine hloads.bind fun health => (onlyCaught_subscripts ["database"] health).bind fun database => ?_
  split
  · exact onlyCaught_pure _
  · refine (onlyCaught_subscripts ["reconciliation", "state"] health).bind fun state => ?_
    split
    · exact onlyCaught_pure _
    · refine (onlyCaught_subscripts ["dependencies", "vault", "status"] health).bind fun vault => ?_
      split
      · exact onlyCaught_pure _
      · refine (onlyCaught_subscripts ["dependencies", "kubernetes", "status"] health).bind fun kubernetes => ?_
        split
        · exact onlyCaught_pure _
        · refine (onlyCaught_subscripts ["status"] health).bind fun status => ?_
          split
          · exact onlyCaught_pure _
          · split
            · exact onlyCaught_pure _
            · exact onlyCaught_pure _

theorem setWorkloadStatus_returns (body : Body) (h : ∀ text, body ≠ .tooDeep text) :
    ∃ status, setWorkloadStatus (.ok body) = .ok status ∧
      (status = .active → readWorkloadStatus (.ok body) = .ok .active) := by
  unfold setWorkloadStatus
  cases hread : readWorkloadStatus (.ok body) with
  | ok status => exact ⟨status, rfl, fun ha => by rw [ha]⟩
  | error error =>
    have hcaught := onlyCaught_read h error hread
    refine ⟨waitingForDiagnostics, if_pos hcaught, ?_⟩
    intro ha
    cases ha

/-! ### What an active unit has read -/

/-- The paths of the fields that `_set_workload_status` reads. -/
def readPaths : List (List String) :=
  [["database"], ["reconciliation", "state"], ["dependencies", "vault", "status"],
    ["dependencies", "kubernetes", "status"], ["status"]]

def HasFields (value : Json) : Prop := ∀ path ∈ readPaths, ∃ item, value.subscripts path = .ok item

theorem bind_eq_ok {α β : Type} {x : Except CharmException α} {f : α → Except CharmException β} {b : β}
    (h : (x >>= f) = .ok b) : ∃ a, x = .ok a ∧ f a = .ok b := by
  cases x with
  | error error => cases h
  | ok a => exact ⟨a, rfl, h⟩

/-- A unit becomes active only after all five reads. -/
theorem hasFields_of_active {body : Body} (h : readWorkloadStatus (.ok body) = .ok .active) :
    ∃ value, body = .json value ∧ HasFields value := by
  obtain ⟨output, houtput, h⟩ := bind_eq_ok h
  cases houtput
  obtain ⟨value, hloads, h⟩ := bind_eq_ok h
  have hbody : body = .json value := by
    cases body with
    | json value' => rw [Except.ok.inj hloads]
    | invalid error => cases hloads
    | tooDeep text => cases hloads
  obtain ⟨database, hdatabase, h⟩ := bind_eq_ok h
  split at h
  · cases h
  · obtain ⟨state, hstate, h⟩ := bind_eq_ok h
    split at h
    · cases h
    · obtain ⟨vault, hvault, h⟩ := bind_eq_ok h
      split at h
      · cases h
      · obtain ⟨kubernetes, hkubernetes, h⟩ := bind_eq_ok h
        split at h
        · cases h
        · obtain ⟨status, hstatus, -⟩ := bind_eq_ok h
          refine ⟨value, hbody, ?_⟩
          intro path hpath
          simp only [readPaths, List.mem_cons, List.not_mem_nil, or_false] at hpath
          rcases hpath with rfl | rfl | rfl | rfl | rfl
          · exact ⟨database, hdatabase⟩
          · exact ⟨state, hstate⟩
          · exact ⟨vault, hvault⟩
          · exact ⟨kubernetes, hkubernetes⟩
          · exact ⟨status, hstatus⟩

/-! ### The controller's own report -/

structure HealthUpdate where
  dependency : Dependency
  error : Option Text
  now : ℤ

def Health.after (observations : List HealthUpdate) : Health :=
  observations.foldl (fun h o => h.observed o.dependency o.error o.now) {}

def lastObserved (dependency : Dependency) (observations : List HealthUpdate) : Option HealthUpdate :=
  (observations.filter fun o => o.dependency = dependency).getLast?

def LastIsError (dependency : Dependency) (observations : List HealthUpdate) : Prop :=
  ∃ o, lastObserved dependency observations = some o ∧ o.error.getD [] ≠ []

theorem dependency_observed (h : Health) (dependency dependency' : Dependency) (error : Option Text) (now : ℤ) :
    (h.observed dependency' error now).dependency dependency =
      if dependency' = dependency then observation error now else h.dependency dependency := by
  cases dependency with
  | vault =>
    cases dependency' with
    | vault => rfl
    | kubernetes => rfl
  | kubernetes =>
    cases dependency' with
    | vault => rfl
    | kubernetes => rfl

/-- The health of a dependency is its last observation. -/
theorem dependency_after (dependency : Dependency) (observations : List HealthUpdate) :
    (Health.after observations).dependency dependency =
      match lastObserved dependency observations with
      | none => {}
      | some o => observation o.error o.now := by
  induction observations using List.reverseRecOn with
  | nil =>
    cases dependency with
    | vault => rfl
    | kubernetes => rfl
  | append_singleton observations o ih =>
    have hafter : Health.after (observations ++ [o]) =
        (Health.after observations).observed o.dependency o.error o.now := by
      rw [Health.after, List.foldl_append]
      rfl
    rw [hafter, dependency_observed, lastObserved, List.filter_append]
    by_cases h : o.dependency = dependency
    · rw [if_pos h, List.filter_cons_of_pos (by simpa using h), List.filter_nil, List.getLast?_append,
        List.getLast?_singleton]
      rfl
    · rw [if_neg h, List.filter_cons_of_neg (by simpa using h), List.filter_nil, List.append_nil, ih]
      rfl

theorem isError_after (dependency : Dependency) (observations : List HealthUpdate) :
    ((Health.after observations).dependency dependency).isError = true ↔ LastIsError dependency observations := by
  rw [dependency_after]
  unfold LastIsError
  cases lastObserved dependency observations with
  | none => exact iff_of_false (by decide) (by simp)
  | some o =>
    have hstatus : (observation o.error o.now).isError = !(o.error.getD []).isEmpty := by
      rw [Observation.isError, observation]
      cases (o.error.getD []).isEmpty with
      | true => rfl
      | false => rfl
    dsimp only
    rw [hstatus]
    simp

/-- What the charm makes of a report with these conditions. -/
def unitStatusOf (readable running vaultError kubernetesError degraded : Bool) : UnitStatus :=
  if !readable then .waiting "controller state database unavailable".toList
  else if !running then .maintenance "controller reconciliation loop stopped".toList
  else if vaultError then .waiting "Vault reconciliation degraded; see controller logs".toList
  else if kubernetesError then .waiting "Kubernetes reconciliation degraded; see controller logs".toList
  else if degraded then .waiting "demo reconciliation degraded; see controller logs".toList
  else .active

theorem setWorkloadStatus_report (s : System) (task : Task) (readable : Bool) :
    setWorkloadStatus (.ok (.json (controllerStatus s task readable).content)) = .ok (unitStatusOf readable
      (task == .running) s.health.vault.isError s.health.kubernetes.isError (s.degraded task readable)) := by
  have hequals (b : Bool) (yes no : String) (h : yes.toList ≠ no.toList) :
      (Json.str (if b then yes.toList else no.toList)).equals yes = b := by
    cases b with
    | true => exact beq_self_eq_true _
    | false => exact beq_false_of_ne h.symm
  have hdatabase := hequals readable "ok" "error" (by decide)
  have hstate := hequals (task == .running) "running" "stopped" (by decide)
  have hdegraded := hequals (s.degraded task readable) "degraded" "ok" (by decide)
  have hok : s.degraded task readable = false →
      (Json.str (if s.degraded task readable then "degraded".toList else "ok".toList)).equals "ok" = true := by
    intro h
    rw [h]
    rfl
  have hread : readWorkloadStatus (.ok (.json (controllerStatus s task readable).content)) =
      if !(Json.str (if readable then "ok".toList else "error".toList)).equals "ok" then
        .ok (.waiting "controller state database unavailable".toList)
      else if !(Json.str (if task == .running then "running".toList else "stopped".toList)).equals "running" then
        .ok (.maintenance "controller reconciliation loop stopped".toList)
      else if s.health.vault.isError then .ok (.waiting "Vault reconciliation degraded; see controller logs".toList)
      else if s.health.kubernetes.isError then
        .ok (.waiting "Kubernetes reconciliation degraded; see controller logs".toList)
      else if (Json.str (if s.degraded task readable then "degraded".toList else "ok".toList)).equals "degraded" then
        .ok (.waiting "demo reconciliation degraded; see controller logs".toList)
      else if (Json.str (if s.degraded task readable then "degraded".toList else "ok".toList)).equals "ok" then
        .ok .active
      else .ok waitingForDiagnostics := rfl
  rw [setWorkloadStatus, hread, hdatabase, hstate, hdegraded, unitStatusOf]
  cases readable with
  | false => rfl
  | true =>
    cases task == .running with
    | false => rfl
    | true =>
      cases s.health.vault.isError with
      | true => rfl
      | false =>
        cases s.health.kubernetes.isError with
        | true => rfl
        | false =>
          cases hd : s.degraded task true with
          | true => rfl
          | false => rfl

theorem unitStatusOf_active {readable running vaultError kubernetesError degraded : Bool}
    (h : degraded = false → readable = true ∧ running = true ∧ vaultError = false ∧ kubernetesError = false) :
    unitStatusOf readable running vaultError kubernetesError degraded = .active ↔ degraded = false := by
  cases degraded with
  | true =>
    refine iff_of_false ?_ (by decide)
    clear h
    revert readable running vaultError kubernetesError
    decide
  | false =>
    obtain ⟨rfl, rfl, rfl, rfl⟩ := h rfl
    exact iff_of_true rfl rfl

theorem degraded_eq_false_iff {s : System} {task : Task} {readable : Bool} : s.degraded task readable = false ↔
    task = .running ∧ readable = true ∧ (∀ row ∈ s.api.store.demos.rows, row.state ≠ .failed) ∧
      s.health.vault.isError = false ∧ s.health.kubernetes.isError = false := by
  have hcount : readable = true → (s.counts readable .failed = 0 ↔
      ∀ row ∈ s.api.store.demos.rows, row.state ≠ .failed) := by
    intro h
    rw [System.counts, if_pos h, Store.listReconcilable_eq, List.count_eq_zero]
    simp only [List.mem_map, not_exists, not_and, ne_eq]
  unfold System.degraded
  simp only [Bool.or_eq_false_iff, Bool.not_eq_false', beq_iff_eq, bne_eq_false_iff_eq]
  constructor
  · rintro ⟨⟨⟨⟨htask, hreadable⟩, hfailed⟩, hvault⟩, hkubernetes⟩
    exact ⟨htask, hreadable, (hcount hreadable).mp hfailed, hvault, hkubernetes⟩
  · rintro ⟨htask, hreadable, hrows, hvault, hkubernetes⟩
    exact ⟨⟨⟨⟨htask, hreadable⟩, (hcount hreadable).mpr hrows⟩, hvault⟩, hkubernetes⟩

theorem statusCode_eq_iff (s : System) (task : Task) (readable : Bool) :
    (controllerStatus s task readable).statusCode = 200 ↔ s.degraded task readable = false := by
  have hcode : (controllerStatus s task readable).statusCode = if s.degraded task readable then 503 else 200 := rfl
  rw [hcode]
  cases s.degraded task readable with
  | true => decide
  | false => decide

/-- The charm makes a unit active of the controller's own report exactly when that is a 200. -/
theorem active_iff_ok (s : System) (task : Task) (readable : Bool) :
    setWorkloadStatus (.ok (.json (controllerStatus s task readable).content)) = .ok .active ↔
      (controllerStatus s task readable).statusCode = 200 := by
  rw [statusCode_eq_iff, setWorkloadStatus_report, Except.ok.injEq]
  -- the report is degraded in each case that the charm tests before its status
  refine unitStatusOf_active fun hd => ?_
  obtain ⟨htask, hreadable, -, hvault, hkubernetes⟩ := degraded_eq_false_iff.mp hd
  exact ⟨hreadable, beq_iff_eq.mpr htask, hvault, hkubernetes⟩

theorem ok_iff_healthy (s : System) (task : Task) (readable : Bool) (observations : List HealthUpdate) :
    (controllerStatus { s with health := Health.after observations } task readable).statusCode = 200 ↔
      task = .running ∧ readable = true ∧ (∀ dependency, ¬ LastIsError dependency observations) ∧
        ∀ row ∈ s.api.store.demos.rows, row.state ≠ .failed := by
  have herror (dependency : Dependency) : ((Health.after observations).dependency dependency).isError = false ↔
      ¬ LastIsError dependency observations := by
    rw [← isError_after, Bool.not_eq_true]
  rw [statusCode_eq_iff, degraded_eq_false_iff]
  constructor
  · rintro ⟨htask, hreadable, hrows, hvault, hkubernetes⟩
    refine ⟨htask, hreadable, ?_, hrows⟩
    intro dependency
    cases dependency with
    | vault => exact (herror .vault).mp hvault
    | kubernetes => exact (herror .kubernetes).mp hkubernetes
  · rintro ⟨htask, hreadable, hlast, hrows⟩
    exact ⟨htask, hreadable, hrows, (herror .vault).mpr (hlast .vault), (herror .kubernetes).mpr (hlast .kubernetes)⟩

/-- The unit is active exactly when `/statusz` answers 200: the task runs, the database is
readable, no dependency was last seen failing and no row is failed. Whatever else the
probe prints is reported without an exception, and not as active where a field is missing. -/
theorem unit_active_iff_healthy :
    (∀ (s : System) (task : Task) (readable : Bool) (observations : List HealthUpdate),
      let response := controllerStatus { s with health := Health.after observations } task readable
      (setWorkloadStatus (.ok (.json response.content)) = .ok .active ↔ response.statusCode = 200) ∧
        (response.statusCode = 200 ↔ task = .running ∧ readable = true ∧
          (∀ dependency, ¬ LastIsError dependency observations) ∧
          ∀ row ∈ s.api.store.demos.rows, row.state ≠ .failed)) ∧
      (∀ error, ∃ status, setWorkloadStatus (.ok (.invalid error)) = .ok status ∧ status ≠ .active) ∧
      ∀ value, ∃ status, setWorkloadStatus (.ok (.json value)) = .ok status ∧
        (¬ HasFields value → status ≠ .active) := by
  refine ⟨?_, ?_, ?_⟩
  · intro s task readable observations
    exact ⟨active_iff_ok _ task readable, ok_iff_healthy s task readable observations⟩
  · intro error
    exact ⟨waitingForDiagnostics, rfl, by decide⟩
  · intro value
    obtain ⟨status, hstatus, hactive⟩ := setWorkloadStatus_returns (.json value) (fun _ h => by cases h)
    refine ⟨status, hstatus, ?_⟩
    intro hmissing ha
    obtain ⟨value', hvalue, hfields⟩ := hasFields_of_active (hactive ha)
    cases hvalue
    exact hmissing hfields

theorem unit_active_iff_healthy_example :
    ∃ status, setWorkloadStatus (.ok (.json (.obj [("status".toList, .str "ok".toList)]))) = .ok status ∧
      status ≠ .active := by
  obtain ⟨status, hstatus, hmissing⟩ :=
    unit_active_iff_healthy.2.2 (.obj [("status".toList, .str "ok".toList)])
  refine ⟨status, hstatus, hmissing ?_⟩
  intro hfields
  obtain ⟨item, hitem⟩ := hfields ["database"] (List.mem_cons_self ..)
  cases hitem

end DemoController
