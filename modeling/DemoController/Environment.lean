import DemoController.Lib.Base64
import DemoController.Lib.Dict
import DemoController.Lib.Utf8
import DemoController.Readiness

/-!
# The environment of the workload

The kubelet reads the sources of `envFrom` in order, the later over the earlier, and a
Secret decoded. What it finds once `apply` has returned is the configuration.
-/

namespace DemoController

open Lib

/-! ### Resolving `envFrom` -/

def decodeSecret (value : Text) : Option Text := (base64Decode value).bind decode

/-- The entries of a source, whoever put them there; `none` where there is no such object. -/
def EnvFromSource.entries (c : Cluster) : EnvFromSource → Option (List (Text × Text))
  | .configMapRef name => (c .configMap name).map Stored.data
  | .secretRef name => (c .secret name).bind fun o => o.data.mapM fun e =>
    (decodeSecret e.2).map fun value => (e.1, value)

/-- The environment a container starts with, `none` where it cannot. -/
def Container.environment (c : Cluster) (container : Container) : Option (List (Text × Text)) :=
  ((container.envFrom.getD []).mapM (EnvFromSource.entries c)).map fun sources => Dict.ofItems sources.flatten

section

variable {c : Cluster} {name : Text} {resources : RenderedResources}

theorem RenderedResources.mem_all {r : Resource} : r ∈ resources.all ↔
    (∃ m, resources.configMap = some m ∧ r = .configMap m) ∨ (∃ s, resources.secret = some s ∧ r = .secret s) ∨
    r = .service resources.service ∨ r = .deployment resources.deployment := by
  simp only [RenderedResources.all, List.mem_append, List.mem_cons, List.not_mem_nil, or_false, Option.mem_toList,
    Option.map_eq_some_iff, or_assoc, eq_comm]

theorem HoldsExactly.configMap (h : HoldsExactly c name resources.all) :
    c .configMap name = resources.configMap.map fun m => { applied := some (.configMap m) } := by
  apply Option.ext
  intro o
  rw [h .configMap o, Option.map_eq_some_iff]
  constructor
  · rintro ⟨r, hr, hkind, rfl⟩
    rcases RenderedResources.mem_all.mp hr with ⟨m, hm, rfl⟩ | ⟨s, -, rfl⟩ | rfl | rfl
    · exact ⟨m, hm, rfl⟩
    all_goals cases hkind
  · rintro ⟨m, hm, rfl⟩
    exact ⟨.configMap m, RenderedResources.mem_all.mpr (.inl ⟨m, hm, rfl⟩), rfl, rfl⟩

theorem HoldsExactly.secret (h : HoldsExactly c name resources.all) :
    c .secret name = resources.secret.map fun s => { applied := some (.secret s) } := by
  apply Option.ext
  intro o
  rw [h .secret o, Option.map_eq_some_iff]
  constructor
  · rintro ⟨r, hr, hkind, rfl⟩
    rcases RenderedResources.mem_all.mp hr with ⟨m, -, rfl⟩ | ⟨s, hs, rfl⟩ | rfl | rfl
    · cases hkind
    · exact ⟨s, hs, rfl⟩
    all_goals cases hkind
  · rintro ⟨s, hs, rfl⟩
    exact ⟨.secret s, RenderedResources.mem_all.mpr (.inr (.inl ⟨s, hs, rfl⟩)), rfl, rfl⟩

theorem HoldsExactly.deployment (h : HoldsExactly c name resources.all) :
    c .deployment name = some { applied := some (.deployment resources.deployment) } :=
  (h .deployment _).mpr
    ⟨.deployment resources.deployment, RenderedResources.mem_all.mpr (.inr (.inr (.inr rfl))), rfl, rfl⟩

end

section

variable (cm : CaseMapping) (record : DemoRecord) (project : ProjectConfig) (version : PyInt) (ns owner : Text)

end

/-- A configuration that no longer has secrets. -/
def plainConfig : ProjectConfig :=
  { exampleConfig with
    environment := [("PUBLIC".toList, "hello".toList)]
    environment_ok := by decide
    distinct_ok := fun _ _ _ hs => absurd hs List.not_mem_nil }

/-- An earlier configuration, which had a secret. -/
def formerConfig : ProjectConfig :=
  { exampleConfig with
    environment := [("FORMER".toList, "setting".toList)]
    environment_ok := by decide
    secrets := [("TOKEN".toList, "secret".toList)]
    secrets_ok := by decide
    distinct_ok := by decide }

def Thread.isReady : Thread → Bool
  | .returned ready => ready
  | _ => false

/-- Another manager has put a variable of its own into the ConfigMap. -/
def sharedCluster : Cluster :=
  Cluster.set (fun _ _ => none) .configMap (resourceName .ascii exampleRecord.repository exampleRecord.pr)
    (some { others := [("EXTRA".toList, "value".toList)] })

end DemoController
