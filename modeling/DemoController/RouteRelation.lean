import DemoController.Settings
import DemoController.UnitStatus

/-!
# What the ingress is told (`charm/src/kubernetes.py`, `charm.py`)

The leader asks Kubernetes for the node port of the controller's Service and the addresses
of the nodes, and hands both to the ingress in the databag of each relation, every value
as a JSON text.
-/

namespace DemoController

open Lib

/-! ### `KubernetesAdapter.reconcile` -/

structure NodeAddress where
  type : Text
  address : Text

/-- `addresses` is `none` where the node has no status or the status no addresses. -/
structure Node where
  addresses : Option (List (Option NodeAddress))

/-- `address and address.type == "InternalIP" and address.address`. -/
def internalIp : Option NodeAddress → Option Text
  | none => none
  | some a => if a.type = "InternalIP".toList ∧ a.address ≠ [] then some a.address else none

def internalIps (nodes : List Node) : List Text :=
  nodes.flatMap fun node => (node.addresses.getD []).filterMap internalIp

/-- `sorted` of a set. -/
def sortedSet (texts : List Text) : List Text := texts.dedup.insertionSort (· ≤ ·)

/-- The node ports of `spec.ports`, none where there is no `spec`. -/
structure ServiceView where
  nodePorts : List (Option ℤ)
  int32 : ∀ n, some n ∈ nodePorts → -2 ^ 31 ≤ n ∧ n < 2 ^ 31

def ServiceView.nodePort (v : ServiceView) : Option ℤ :=
  match v.nodePorts with
  | some n :: _ => if n = 0 then none else some n
  | _ => none

inductive ClientError where
  /-- an `ApiError` with this code -/
  | api (code : ℤ)
  | other (error : PyError)

/-- How the three calls end; the list of nodes is asked for when it is read. -/
structure ClientAnswers where
  applied : Except ClientError Unit
  service : Except ClientError ServiceView
  nodes : Except ClientError (List Node)

inductive AdapterError where
  /-- a `KubernetesPermissionError` -/
  | permission
  | api (code : ℤ)
  | runtime (text : Text)
  | other (error : PyError)

/-- `_raise_for_api_error` and the `raise` behind it. -/
def ClientError.raised : ClientError → AdapterError
  | .api code => if code = 403 then .permission else .api code
  | .other error => .other error

/-- An exception outside the `try`. -/
def ClientError.unhandled : ClientError → AdapterError
  | .api code => .api code
  | .other error => .other error

structure NodePortEndpoint where
  serviceName : Text
  hosts : List Text
  port : ℤ
  hosts_ok : hosts ≠ []
  hosts_sorted : hosts.Pairwise (· < ·)
  port_ok : port ≠ 0
  int32 : -2 ^ 31 ≤ port ∧ port < 2 ^ 31

theorem sortedSet_sorted (texts : List Text) : (sortedSet texts).Pairwise (· < ·) := by
  have : Std.Total fun a b : Text => a ≤ b := ⟨fun a b => le_total a b⟩
  have : IsTrans Text fun a b => a ≤ b := ⟨fun _ _ _ hab hbc => le_trans hab hbc⟩
  have hle : (sortedSet texts).Pairwise (· ≤ ·) := List.pairwise_insertionSort _ texts.dedup
  have hne : (sortedSet texts).Nodup :=
    (List.perm_insertionSort (· ≤ ·) texts.dedup).nodup_iff.mpr (List.nodup_dedup texts)
  refine (hle.and hne).imp ?_
  rintro a b ⟨hab, hab'⟩
  exact lt_of_le_of_ne hab hab'

theorem ServiceView.nodePort_ok {v : ServiceView} {n : ℤ} (h : v.nodePort = some n) :
    n ≠ 0 ∧ -2 ^ 31 ≤ n ∧ n < 2 ^ 31 := by
  unfold ServiceView.nodePort at h
  split at h
  · next m rest hports =>
    by_cases hm : m = 0
    · rw [if_pos hm] at h
      cases h
    · rw [if_neg hm] at h
      cases h
      exact ⟨hm, v.int32 n (hports ▸ List.mem_cons_self ..)⟩
  · cases h

def reconcileEndpoint (app : Text) (answers : ClientAnswers) : Except AdapterError NodePortEndpoint :=
  match answers.applied, answers.service with
  | .error error, _ => .error error.raised
  | .ok _, .error error => .error error.raised
  | .ok _, .ok current =>
    match hport : current.nodePort, answers.nodes with
    | none, _ => .error (.runtime "controller NodePort has not been allocated".toList)
    | some _, .error error => .error error.unhandled
    | some port, .ok nodes =>
      if hhosts : sortedSet (internalIps nodes) = [] then
        .error (.runtime "no Kubernetes node InternalIP addresses are available".toList)
      else .ok
        { serviceName := app ++ "-nodeport".toList
          hosts := sortedSet (internalIps nodes)
          port
          hosts_ok := hhosts
          hosts_sorted := sortedSet_sorted _
          port_ok := (ServiceView.nodePort_ok hport).1
          int32 := (ServiceView.nodePort_ok hport).2 }

/-! ### The databag -/

abbrev Databag := List (Text × Text)

structure Route where
  endpoint : NodePortEndpoint
  hostname : Text
  suffix : Text

/-- `data` of `_publish_route`. -/
def Route.data (r : Route) : List (Text × Json) :=
  [("service".toList, .str r.endpoint.serviceName),
    ("ports".toList, .arr [.int r.endpoint.port]),
    ("protocol".toList, .str "http".toList),
    ("hosts".toList, .arr (r.endpoint.hosts.map .str)),
    ("hostname".toList, .str r.hostname),
    ("additional_hostnames".toList, .arr [.str ("*.".toList ++ r.suffix)]),
    ("paths".toList, .arr [.str "/".toList]),
    ("check".toList, .obj
      [("interval".toList, .int 10), ("rise".toList, .int 2), ("fall".toList, .int 3),
        ("path".toList, .str "/readyz".toList), ("port".toList, .int r.endpoint.port)])]

/-- `clear` and `update`. -/
def Route.databag (r : Route) : Databag := Dict.ofItems (r.data.map fun f => (f.1, jsonText jsonChar f.2))

/-- What the other side of a relation decodes. -/
def Databag.read (bag : Databag) : Option (List (Text × Json)) :=
  bag.mapM fun f => (loads f.2).map fun value => (f.1, value)

theorem Route.data_names (r : Route) : r.data.map Prod.fst =
    ["service".toList, "ports".toList, "protocol".toList, "hosts".toList, "hostname".toList,
      "additional_hostnames".toList, "paths".toList, "check".toList] := rfl

theorem Route.data_plain (r : Route) : ∀ f ∈ r.data, f.2.isPlain = true := by
  have hport : (Json.int r.endpoint.port).isPlain = true :=
    decide_eq_true (decimal_short ⟨by have := r.endpoint.int32; omega, by have := r.endpoint.int32; omega⟩)
  have hhosts : (Json.arr (r.endpoint.hosts.map .str)).isPlain = true := by
    rw [isPlain_arr]
    intro v hv
    obtain ⟨host, -, rfl⟩ := List.mem_map.mp hv
    rfl
  have hcheck : (Json.obj
      [("interval".toList, .int 10), ("rise".toList, .int 2), ("fall".toList, .int 3),
        ("path".toList, .str "/readyz".toList), ("port".toList, .int r.endpoint.port)]).isPlain = true := by
    refine (isPlain_obj _).mpr ⟨show ["interval".toList, "rise".toList, "fall".toList, "path".toList,
      "port".toList].Nodup by decide, ?_⟩
    simp only [List.forall_mem_cons, List.not_mem_nil, false_implies, implies_true, and_true]
    exact ⟨by decide, by decide, by decide, rfl, hport⟩
  simp only [Route.data, List.forall_mem_cons, List.not_mem_nil, false_implies, implies_true, and_true]
  refine ⟨rfl, ?_, rfl, hhosts, rfl, rfl, rfl, hcheck⟩
  rw [isPlain_arr]
  simpa using hport

theorem mapM_decoded {fields : List (Text × Json)} (h : ∀ f ∈ fields, f.2.isPlain = true) :
    Databag.read (fields.map fun f => (f.1, jsonText jsonChar f.2)) = some fields := by
  induction fields with
  | nil => rfl
  | cons f fields ih =>
    have hf := (loads_readable (Json.readable_of_isPlain (h f (List.mem_cons_self ..)))).2.1
    have hrest := ih fun g hg => h g (List.mem_cons_of_mem _ hg)
    unfold Databag.read at hrest ⊢
    rw [List.map_cons, List.mapM_cons, hrest, hf]
    rfl

theorem Route.read_databag (r : Route) : r.databag.read = some r.data := by
  have hnames : ((r.data.map fun f => (f.1, jsonText jsonChar f.2)).map Prod.fst).Nodup := by
    rw [List.map_map]
    exact show (r.data.map Prod.fst).Nodup by rw [r.data_names]; decide
  rw [Route.databag, Dict.ofItems_of_nodup hnames]
  exact mapM_decoded r.data_plain

end DemoController
