import DemoController.Store

/-!
# Rendered objects and the Kubernetes client (`kubernetes.py`)

`apply` and `delete` are sequences of client calls made in a worker thread, so
each call is a step of its own with its own outcome. The cluster is the part of
the namespace the controller works in: at most one object of each kind and name.
-/

namespace DemoController

open Lib

/-! ### Objects -/

inductive Kind where
  | deployment
  | service
  | configMap
  | secret
  deriving DecidableEq

abbrev Labels := List (Text × Text)

structure ObjectMeta where
  name : Text
  namespace_ : Text
  labels : Labels

inductive EnvFromSource where
  | configMapRef (name : Text)
  | secretRef (name : Text)

structure Probe where
  path : Text
  port : Text := "http".toList
  initialDelaySeconds : ℤ := 3
  periodSeconds : ℤ := 5
  timeoutSeconds : ℤ := 2
  failureThreshold : ℤ := 6

structure ContainerPort where
  containerPort : ℤ
  name : Text := "http".toList

structure Container where
  name : Text := "workload".toList
  image : Option Text
  ports : List ContainerPort
  envFrom : Option (List EnvFromSource)
  readinessProbe : Probe
  requests : Labels
  limits : Labels
  allowPrivilegeEscalation : Bool := false
  dropCapabilities : List Text := ["ALL".toList]

structure Deployment where
  metadata : ObjectMeta
  replicas : ℤ := 1
  matchLabels : Labels
  podLabels : Labels
  podAnnotations : Labels
  containers : List Container
  runAsNonRoot : Bool := true
  seccompProfile : Text := "RuntimeDefault".toList

structure ServicePort where
  name : Text := "http".toList
  port : ℤ
  targetPort : Text := "http".toList

structure Service where
  metadata : ObjectMeta
  type : Text := "ClusterIP".toList
  selector : Labels
  ports : List ServicePort

structure ConfigMap where
  metadata : ObjectMeta
  data : Labels

structure Secret where
  metadata : ObjectMeta
  type : Text := "Opaque".toList
  data : Labels

inductive Resource where
  | deployment (d : Deployment)
  | service (s : Service)
  | configMap (c : ConfigMap)
  | secret (s : Secret)

namespace Resource

def kind : Resource → Kind
  | .deployment _ => .deployment
  | .service _ => .service
  | .configMap _ => .configMap
  | .secret _ => .secret

def metadata : Resource → ObjectMeta
  | .deployment d => d.metadata
  | .service s => s.metadata
  | .configMap c => c.metadata
  | .secret s => s.metadata

def name (r : Resource) : Text := r.metadata.name

/-- The entries of `data`. -/
def data : Resource → Labels
  | .configMap c => c.data
  | .secret s => s.data
  | .deployment _ => []
  | .service _ => []

def deployment? : Resource → Option Deployment
  | .deployment d => some d
  | _ => none

def service? : Resource → Option Service
  | .service s => some s
  | _ => none

theorem of_deployment? {r : Resource} {d : Deployment} (h : r.deployment? = some d) : r = .deployment d := by
  cases r with
  | deployment d' =>
    cases h
    rfl
  | service s | configMap c | secret s => cases h

theorem of_service? {r : Resource} {s : Service} (h : r.service? = some s) : r = .service s := by
  cases r with
  | service s' =>
    cases h
    rfl
  | deployment d | configMap c | secret s => cases h

end Resource

/-- A value `isinstance(value, int)` holds of: `True` and `False` are integers too. -/
inductive PyInt where
  | int (n : ℤ)
  | bool (b : Bool)
  deriving DecidableEq

def PyInt.value : PyInt → ℤ
  | .int n => n
  | .bool b => if b then 1 else 0

/-- `str(value)`. -/
def PyInt.str : PyInt → Text
  | .int n => decimal n
  | .bool b => (if b then "True" else "False").toList

structure RenderedResources where
  deployment : Deployment
  service : Service
  configMap : Option ConfigMap
  secret : Option Secret

def RenderedResources.all (r : RenderedResources) : List Resource :=
  (r.configMap.map .configMap).toList ++ (r.secret.map .secret).toList ++
    [.service r.service, .deployment r.deployment]

def renderResources (cm : CaseMapping) (record : DemoRecord) (project : ProjectConfig) (vaultVersion : PyInt)
    (namespace_ owner : Text) : RenderedResources :=
  let name := resourceName cm record.repository record.pr
  let app := [("app".toList, name)]
  let labels := repositoryLabels record.repository record.pr owner ++ app
  let metadata : ObjectMeta := ⟨name, namespace_, labels⟩
  let configMap := if project.environment = [] then none else some ⟨metadata, project.environment⟩
  let secret : Option Secret :=
    if project.secrets = [] then none
    else some { metadata, data := project.secrets.map fun s => (s.1, base64 (encode s.2)) }
  let envFrom := (configMap.map fun _ => EnvFromSource.configMapRef name).toList ++
    (secret.map fun _ => EnvFromSource.secretRef name).toList
  { deployment :=
      { metadata
        matchLabels := app
        podLabels := labels
        podAnnotations := [("demos.canonical.com/vault-version".toList, vaultVersion.str)]
        containers :=
          [{ image := record.image
             ports := [{ containerPort := project.port }]
             envFrom := if envFrom = [] then none else some envFrom
             readinessProbe := { path := project.healthPath }
             requests := [("cpu".toList, project.resources.cpuRequest),
               ("memory".toList, project.resources.memoryRequest)]
             limits := [("cpu".toList, project.resources.cpuLimit),
               ("memory".toList, project.resources.memoryLimit)] }] }
    service := { metadata, selector := app, ports := [{ port := project.port }] }
    configMap
    secret }

/-! ### The cluster and the client calls -/

/-- An object in the namespace. The API server records who manages which field: `applied`
is what the controller has applied, `others` are the entries of `data` that other managers
have put there, and of a Deployment or a Service the other fields they have set, by path. -/
structure Stored where
  applied : Option Resource := none
  others : Labels := []

namespace Stored

/-- What a reader of the object finds in its `data`. -/
def data (o : Stored) : Labels := o.others ++ (o.applied.map Resource.data).getD []

/-- Server-side apply with `force`: the fields the controller applied before and leaves out
now go, an entry another manager has set to another value is taken over, and whatever else
other managers have set stays. -/
def apply (o : Option Stored) (r : Resource) : Stored where
  applied := some r
  others := ((o.map Stored.others).getD []).filter fun e => (r.data.lookup e.1).all fun value => value = e.2

end Stored

abbrev Cluster := Kind → Text → Option Stored

/-- What the controller has applied under a kind and a name. -/
def Cluster.applied (c : Cluster) (kind : Kind) (name : Text) : Option Resource := (c kind name).bind Stored.applied

def Cluster.deployment? (c : Cluster) (name : Text) : Option Deployment :=
  (c.applied .deployment name).bind Resource.deployment?

def Cluster.service? (c : Cluster) (name : Text) : Option Service := (c.applied .service name).bind Resource.service?

def Cluster.set (c : Cluster) (kind : Kind) (name : Text) (o : Option Stored) : Cluster :=
  fun k n => if k = kind ∧ n = name then o else c k n

inductive Call where
  | apply (r : Resource)
  | delete (kind : Kind) (name : Text)
  | get (name : Text)

/-- The cluster after a call that took effect; a delete removes the object of all managers. -/
def Call.effect (c : Cluster) : Call → Cluster
  | .apply r => c.set r.kind r.name (some (Stored.apply (c r.kind r.name) r))
  | .delete kind name => c.set kind name none
  | .get _ => c

/-- What `apply` reads of the deployment it gets back; `status` holds the observed
generation and the available replicas. -/
structure DeploymentView where
  generation : Option ℤ
  replicas : Option ℤ
  status : Option (Option ℤ × Option ℤ)

def orElse (n : Option ℤ) (d : ℤ) : ℤ := if n.getD 0 = 0 then d else n.getD 0

def DeploymentView.isReady (v : DeploymentView) : Bool :=
  match v.status with
  | none => false
  | some (observed, available) =>
    decide (observed = v.generation) && decide (orElse v.replicas 1 ≤ orElse available 0)

structure PyError where
  type : Text
  text : Text

inductive Outcome where
  | done
  /-- a delete answered with 404 -/
  | notFound
  | got (view : DeploymentView)
  /-- any other error, with or without the call having taken effect -/
  | failed (error : PyError) (tookEffect : Bool)

def applyCalls (resources : RenderedResources) : List Call :=
  let name := resources.deployment.metadata.name
  resources.all.map .apply ++
    (if resources.configMap.isNone then [.delete .configMap name] else []) ++
    (if resources.secret.isNone then [.delete .secret name] else []) ++ [.get name]

def deleteCalls (cm : CaseMapping) (repository : Text) (pr : ℤ) : List Call :=
  [Kind.deployment, .service, .configMap, .secret].map fun kind =>
    .delete kind (resourceName cm repository pr)

/-- The worker thread `asyncio.to_thread` starts. -/
inductive Thread where
  | running (call : Call) (rest : List Call)
  | returned (ready : Bool)
  | raised (error : PyError)

def Thread.ofCalls : List Call → Thread
  | [] => .returned false
  | call :: rest => .running call rest

/-- One call of the thread, `none` where the outcome is not one the call can have:
only a delete of an absent object is answered with 404. -/
def Thread.step (c : Cluster) (call : Call) (rest : List Call) : Outcome → Option (Cluster × Thread)
  | .failed error tookEffect => some (if tookEffect then call.effect c else c, .raised error)
  | .done =>
    match call with
    | .get _ => none
    | _ => some (call.effect c, .ofCalls rest)
  | .notFound =>
    match call with
    | .delete kind name => if (c kind name).isNone then some (c, .ofCalls rest) else none
    | _ => none
  | .got view =>
    match call with
    | .get _ => some (c, .returned view.isReady)
    | _ => none

/-! ### What the calls of one demo touch -/

def Call.name : Call → Text
  | .apply r => r.name
  | .delete _ name => name
  | .get name => name

theorem Cluster.set_of_ne (c : Cluster) (kind : Kind) {name n : Text} (o : Option Stored) (k : Kind)
    (h : n ≠ name) : c.set kind name o k n = c k n :=
  if_neg fun e => h e.2

theorem Cluster.set_self (c : Cluster) (kind : Kind) (name : Text) (o : Option Stored) :
    c.set kind name o kind name = o :=
  if_pos ⟨rfl, rfl⟩

theorem Call.effect_of_ne (c : Cluster) (call : Call) (k : Kind) {n : Text} (h : n ≠ call.name) :
    call.effect c k n = c k n := by
  cases call with
  | apply r => exact c.set_of_ne _ _ _ h
  | delete kind name => exact c.set_of_ne _ _ _ h
  | get name => rfl

theorem Cluster.of_deployment? {c : Cluster} {name : Text} {d : Deployment} (h : c.deployment? name = some d) :
    c.applied .deployment name = some (.deployment d) := by
  obtain ⟨r, hr, hd⟩ := Option.bind_eq_some_iff.mp h
  rw [hr, Resource.of_deployment? hd]

theorem Cluster.of_service? {c : Cluster} {name : Text} {s : Service} (h : c.service? name = some s) :
    c.applied .service name = some (.service s) := by
  obtain ⟨r, hr, hs⟩ := Option.bind_eq_some_iff.mp h
  rw [hr, Resource.of_service? hs]

theorem applied_set (c : Cluster) (kind : Kind) (name : Text) (o : Option Stored) (k : Kind) (n : Text) :
    (c.set kind name o).applied k n = if k = kind ∧ n = name then o.bind Stored.applied else c.applied k n := by
  unfold Cluster.applied Cluster.set
  split
  · rfl
  · rfl

/-- What the controller has applied depends on no other manager. -/
theorem applied_apply (c : Cluster) (r : Resource) (k : Kind) (n : Text) :
    (Call.effect c (.apply r)).applied k n = if k = r.kind ∧ n = r.name then some r else c.applied k n :=
  applied_set ..

theorem applied_delete (c : Cluster) (kind : Kind) (name : Text) (k : Kind) (n : Text) :
    (Call.effect c (.delete kind name)).applied k n = if k = kind ∧ n = name then none else c.applied k n :=
  applied_set ..

section

variable (cm : CaseMapping) (record : DemoRecord) (project : ProjectConfig) (version : PyInt) (ns owner : Text)

theorem renderResources_name (r : Resource)
    (h : r ∈ (renderResources cm record project version ns owner).all) :
    r.name = resourceName cm record.repository record.pr := by
  simp only [RenderedResources.all, List.mem_append, List.mem_cons, List.not_mem_nil, or_false,
    Option.mem_toList, Option.map_eq_some_iff] at h
  rcases h with (⟨c, hc, rfl⟩ | ⟨s, hs, rfl⟩) | rfl | rfl
  · simp only [renderResources] at hc
    split at hc
    · cases hc
    · cases hc
      rfl
  · simp only [renderResources] at hs
    split at hs
    · cases hs
    · cases hs
      rfl
  · rfl
  · rfl

theorem applyCalls_name (call : Call)
    (h : call ∈ applyCalls (renderResources cm record project version ns owner)) :
    call.name = resourceName cm record.repository record.pr := by
  simp only [applyCalls, List.mem_append, List.mem_map, List.mem_singleton] at h
  rcases h with ((⟨r, hr, rfl⟩ | h) | h) | rfl
  · exact renderResources_name cm record project version ns owner r hr
  · split at h
    · rw [List.mem_singleton.mp h]
      rfl
    · cases h
  · split at h
    · rw [List.mem_singleton.mp h]
      rfl
    · cases h
  · rfl

end

/-- Only the last call of `apply` is a read. -/
theorem applyCalls_eq (resources : RenderedResources) : ∃ calls, (∀ call ∈ calls, ∀ n, call ≠ .get n) ∧
    applyCalls resources = calls ++ [.get resources.deployment.metadata.name] := by
  refine ⟨_, ?_, rfl⟩
  intro call hcall n
  simp only [List.mem_append, List.mem_map] at hcall
  rcases hcall with (⟨r, -, rfl⟩ | hcall) | hcall
  · exact nofun
  · split at hcall
    · rw [List.mem_singleton.mp hcall]
      exact nofun
    · cases hcall
  · split at hcall
    · rw [List.mem_singleton.mp hcall]
      exact nofun
    · cases hcall

theorem deleteCalls_name {cm : CaseMapping} {repository : Text} {pr : ℤ} (call : Call)
    (h : call ∈ deleteCalls cm repository pr) : call.name = resourceName cm repository pr := by
  obtain ⟨kind, -, rfl⟩ := List.mem_map.mp h
  rfl

/-! ### One call of the thread -/

def Thread.left : Thread → List Call
  | .running call rest => call :: rest
  | _ => []

@[simp] theorem Thread.left_ofCalls (calls : List Call) : (Thread.ofCalls calls).left = calls := by
  cases calls <;> rfl

theorem Thread.step_answered {c c' : Cluster} {call : Call} {rest : List Call} {outcome : Outcome}
    {thread : Thread} (h : Thread.step c call rest outcome = some (c', thread))
    (ho : ∀ error tookEffect, outcome ≠ .failed error tookEffect) :
    (c' = call.effect c ∧ thread = .ofCalls rest ∧ ∀ n, call ≠ .get n) ∨
    ∃ n view, call = .get n ∧ outcome = .got view ∧ c' = c ∧ thread = .returned view.isReady := by
  cases outcome with
  | failed error tookEffect => exact absurd rfl (ho error tookEffect)
  | done =>
    cases call with
    | get n => cases h
    | apply r =>
      cases h
      exact .inl ⟨rfl, rfl, nofun⟩
    | delete kind name =>
      cases h
      exact .inl ⟨rfl, rfl, nofun⟩
  | notFound =>
    cases call with
    | apply r => cases h
    | get n => cases h
    | delete kind name =>
      simp only [Thread.step] at h
      split at h
      · next hn =>
        cases h
        -- a delete of an absent object would change nothing
        have hsame : Call.effect c (.delete kind name) = c := by
          funext k n
          by_cases hk : k = kind ∧ n = name
          · obtain ⟨rfl, rfl⟩ := hk
            rw [Call.effect, Cluster.set_self, Option.isNone_iff_eq_none.mp hn]
          · exact if_neg hk
        exact .inl ⟨hsame.symm, rfl, nofun⟩
      · cases h
  | got view =>
    cases call with
    | apply r => cases h
    | delete kind name => cases h
    | get n =>
      cases h
      exact .inr ⟨n, view, rfl, rfl, rfl, rfl⟩

/-! ### Calls that take effect one after the other -/

def afterCalls (c : Cluster) (calls : List Call) : Cluster := calls.foldl Call.effect c

theorem afterCalls_append (c : Cluster) (calls more : List Call) :
    afterCalls c (calls ++ more) = afterCalls (afterCalls c calls) more :=
  List.foldl_append

theorem afterCalls_of_ne (c : Cluster) {calls : List Call} (k : Kind) {n : Text}
    (h : ∀ call ∈ calls, call.name ≠ n) : afterCalls c calls k n = c k n := by
  induction calls generalizing c with
  | nil => rfl
  | cons call rest ih =>
    have hrest : afterCalls (call.effect c) rest k n = call.effect c k n :=
      ih _ fun x hx => h x (List.mem_cons_of_mem _ hx)
    have hcall : call.effect c k n = c k n := Call.effect_of_ne c call k (h call (List.mem_cons_self ..)).symm
    exact hrest.trans hcall

/-- No manager but the controller has put anything into the objects of the name. -/
def Unshared (c : Cluster) (name : Text) : Prop := ∀ kind o, c kind name = some o → o.others = []

def Cluster.unsharedTest (c : Cluster) (name : Text) : Bool :=
  [Kind.deployment, .service, .configMap, .secret].all fun kind => (c kind name).all fun o => o.others.isEmpty

theorem unshared_of_test {c : Cluster} {name : Text} (h : c.unsharedTest name = true) : Unshared c name := by
  intro kind o ho
  have hkind : kind ∈ [Kind.deployment, .service, .configMap, .secret] := by
    cases kind <;> simp
  have hall := List.all_eq_true.mp h kind hkind
  rw [ho, Option.all_some] at hall
  exact List.isEmpty_iff.mp hall

/-- The objects of a name are those of a list, at most one of each kind, and nothing else is in them. -/
def HoldsExactly (c : Cluster) (name : Text) (resources : List Resource) : Prop :=
  ∀ kind o, c kind name = some o ↔ ∃ r ∈ resources, r.kind = kind ∧ o = { applied := some r }

/-- The objects of a name are those of a list applied to what was there. -/
def AppliedOver (c d : Cluster) (name : Text) (resources : List Resource) : Prop :=
  ∀ kind o, d kind name = some o ↔ ∃ r ∈ resources, r.kind = kind ∧ o = Stored.apply (c kind name) r

theorem Stored.apply_unshared {o : Option Stored} (h : ∀ x, o = some x → x.others = []) (r : Resource) :
    Stored.apply o r = { applied := some r } := by
  cases o with
  | none => rfl
  | some x =>
    have hx := h x rfl
    simp only [Stored.apply, Option.map_some, Option.getD_some, hx, List.filter_nil]

/-- Applying the same again takes over nothing more. -/
theorem Stored.apply_apply (o : Option Stored) (r : Resource) :
    Stored.apply (some (Stored.apply o r)) r = Stored.apply o r := by
  simp only [Stored.apply, Option.map_some, Option.getD_some, List.filter_filter, Bool.and_self]

theorem AppliedOver.exactly {c d : Cluster} {name : Text} {resources : List Resource}
    (h : AppliedOver c d name resources) (alone : Unshared c name) : HoldsExactly d name resources := by
  have happly (kind : Kind) (r : Resource) : Stored.apply (c kind name) r = { applied := some r } :=
    Stored.apply_unshared (alone kind) r
  intro kind o
  rw [h kind o]
  simp only [happly]

theorem AppliedOver.again {c d e : Cluster} {name : Text} {resources : List Resource}
    (h : AppliedOver c d name resources) (h' : AppliedOver d e name resources) (kind : Kind) :
    e kind name = d kind name := by
  apply Option.ext
  intro o
  rw [h' kind o, h kind o]
  refine exists_congr fun r => and_congr_right fun hr => and_congr_right fun hk => ?_
  have hd : d kind name = some (Stored.apply (c kind name) r) := (h kind _).mpr ⟨r, hr, hk, rfl⟩
  rw [hd, Stored.apply_apply]

theorem afterCalls_apply (c : Cluster) {resources : RenderedResources} {name : Text}
    (h : ∀ r ∈ resources.all, r.name = name) :
    AppliedOver c (afterCalls c (applyCalls resources)) name resources.all := by
  obtain ⟨deployment, service, configMap, secret⟩ := resources
  have hd : deployment.metadata.name = name := h (.deployment deployment) (by simp [RenderedResources.all])
  have hs : service.metadata.name = name := h (.service service) (by simp [RenderedResources.all])
  have hc : ∀ x, configMap = some x → x.metadata.name = name := fun x e =>
    h (.configMap x) (by simp [RenderedResources.all, e])
  have hx : ∀ x, secret = some x → x.metadata.name = name := fun x e =>
    h (.secret x) (by simp [RenderedResources.all, e])
  intro kind o
  -- an optional object is applied or, when it is absent, deleted
  cases configMap with
  | none =>
    cases secret with
    | none => cases kind <;> simp [afterCalls, applyCalls, RenderedResources.all, Call.effect,
        Cluster.set, Resource.kind, Resource.name, Resource.metadata, hd, hs, eq_comm]
    | some x => cases kind <;> simp [afterCalls, applyCalls, RenderedResources.all, Call.effect,
        Cluster.set, Resource.kind, Resource.name, Resource.metadata, hd, hs, hx x rfl, eq_comm]
  | some y =>
    cases secret with
    | none => cases kind <;> simp [afterCalls, applyCalls, RenderedResources.all, Call.effect,
        Cluster.set, Resource.kind, Resource.name, Resource.metadata, hd, hs, hc y rfl, eq_comm]
    | some x => cases kind <;> simp [afterCalls, applyCalls, RenderedResources.all, Call.effect,
        Cluster.set, Resource.kind, Resource.name, Resource.metadata, hd, hs, hc y rfl, hx x rfl, eq_comm]

theorem afterCalls_delete (c : Cluster) (cm : CaseMapping) (repository : Text) (pr : ℤ) (kind : Kind) :
    afterCalls c (deleteCalls cm repository pr) kind (resourceName cm repository pr) = none := by
  cases kind <;> simp [afterCalls, deleteCalls, Call.effect, Cluster.set]

end DemoController
