import DemoController.Reconciler

/-!
# The controller with the secret values taken out

Redaction empties the values of a configuration's `secrets`, and of the Secret
objects made from them, wherever the controller holds them. Every step commutes
with it: a step of the redacted controller is the redaction of the step. So what
redaction leaves alone (the store, the answers, the observations, the other
objects) depends on no secret value.
-/

namespace DemoController

open Lib

def namesOnly (m : List (Text × Text)) : List (Text × Text) := m.map fun e => (e.1, [])

theorem isEnvironment_namesOnly {m : List (Text × Text)} (h : isEnvironment m) : isEnvironment (namesOnly m) := by
  refine ⟨?_, ?_, ?_⟩
  · rw [namesOnly, List.length_map]
    exact h.1
  · rw [namesOnly, List.map_map]
    exact h.2.1
  · rintro e he
    obtain ⟨d, hd, rfl⟩ := List.mem_map.mp he
    exact ⟨(h.2.2 d hd).1, Nat.zero_le _⟩

def ProjectConfig.redacted (c : ProjectConfig) : ProjectConfig :=
  { c with
    secrets := namesOnly c.secrets
    secrets_ok := isEnvironment_namesOnly c.secrets_ok
    distinct_ok := by
      rintro e he s hs
      obtain ⟨d, hd, rfl⟩ := List.mem_map.mp hs
      exact c.distinct_ok e he d hd }

def VaultProject.redacted (p : VaultProject) : VaultProject := ⟨p.config.redacted, p.version⟩

def VaultOutcome.redacted : VaultOutcome → VaultOutcome
  | .project p => .project p.redacted
  | o => o

def Secret.redacted (s : Secret) : Secret := { s with data := namesOnly s.data }

def Resource.redacted : Resource → Resource
  | .secret s => .secret s.redacted
  | r => r

def RenderedResources.redacted (r : RenderedResources) : RenderedResources :=
  { r with secret := r.secret.map Secret.redacted }

def Call.redacted : Call → Call
  | .apply r => .apply r.redacted
  | call => call

def Thread.redacted : Thread → Thread
  | .running call rest => .running call.redacted (rest.map Call.redacted)
  | thread => thread

/-- What other managers keep in a Secret goes too: an apply takes over what differs from its own values. -/
def Stored.redacted (kind : Kind) (o : Stored) : Stored where
  applied := o.applied.map Resource.redacted
  others := if kind = .secret then [] else o.others

def Cluster.redacted (c : Cluster) : Cluster := fun kind name => (c kind name).map (Stored.redacted kind)

def Loop.redacted : Loop → Loop
  | .deleting record thread todo => .deleting record thread.redacted todo
  | .applying record p thread todo => .applying record p.redacted thread.redacted todo
  | loop => loop

def System.redacted (s : System) : System := { s with cluster := s.cluster.redacted, loop := s.loop.redacted }

def Action.redacted : Action → Action
  | .vault outcome now later => .vault outcome.redacted now later
  | a => a

/-! ### Objects -/

@[simp] theorem Resource.redacted_kind (r : Resource) : r.redacted.kind = r.kind := by
  cases r <;> rfl

@[simp] theorem Resource.redacted_metadata (r : Resource) : r.redacted.metadata = r.metadata := by
  cases r <;> rfl

@[simp] theorem Resource.redacted_name (r : Resource) : r.redacted.name = r.name :=
  congrArg ObjectMeta.name r.redacted_metadata

/-- The other objects see of the secrets only whether there are any. -/
theorem renderResources_redacted (cm : CaseMapping) (record : DemoRecord) (c : ProjectConfig) (version : PyInt)
    (ns owner : Text) :
    renderResources cm record c.redacted version ns owner =
      (renderResources cm record c version ns owner).redacted := by
  obtain ⟨environment, secrets⟩ := c
  cases secrets with
  | nil => rfl
  | cons s rest =>
    have hdata : (namesOnly (s :: rest)).map (fun e => (e.1, base64 (encode e.2))) =
        namesOnly ((s :: rest).map fun e => (e.1, base64 (encode e.2))) := by
      simp only [namesOnly, List.map_map]
      rfl
    have hnames : namesOnly (s :: rest) ≠ [] := List.cons_ne_nil _ _
    simp only [renderResources, ProjectConfig.redacted, RenderedResources.redacted, if_neg hnames,
      if_neg (List.cons_ne_nil s rest), Option.map_some, hdata]
    rfl

theorem applyCalls_redacted (r : RenderedResources) : applyCalls r.redacted = (applyCalls r).map Call.redacted := by
  obtain ⟨deployment, service, configMap, secret⟩ := r
  cases configMap <;> cases secret <;> rfl

theorem Thread.ofCalls_redacted (calls : List Call) :
    Thread.ofCalls (calls.map Call.redacted) = (Thread.ofCalls calls).redacted := by
  cases calls <;> rfl

theorem Cluster.set_redacted (c : Cluster) (kind : Kind) (name : Text) (o : Option Stored) :
    c.redacted.set kind name (o.map (Stored.redacted kind)) = (c.set kind name o).redacted := by
  funext k n
  simp only [Cluster.set, Cluster.redacted]
  by_cases hk : k = kind ∧ n = name
  · rw [if_pos hk, if_pos hk, hk.1]
  · rw [if_neg hk, if_neg hk]

theorem Resource.redacted_of_ne {r : Resource} (h : r.kind ≠ .secret) : r.redacted = r := by
  cases r with
  | secret s => exact absurd rfl h
  | deployment d | service s | configMap c => rfl

theorem Stored.apply_redacted (o : Option Stored) (r : Resource) :
    Stored.apply (o.map (Stored.redacted r.kind)) r.redacted = (Stored.apply o r).redacted r.kind := by
  by_cases hk : r.kind = .secret
  · have hnone : ((o.map (Stored.redacted r.kind)).map Stored.others).getD [] = [] := by
      cases o with
      | none => rfl
      | some x => exact if_pos hk
    simp only [Stored.apply, hnone, Stored.redacted, if_pos hk, List.filter_nil, Option.map_some]
  · have hothers : (o.map (Stored.redacted r.kind)).map Stored.others = o.map Stored.others := by
      cases o with
      | none => rfl
      | some x => exact congrArg some (if_neg hk)
    simp only [Stored.apply, hothers, Stored.redacted, if_neg hk, Resource.redacted_of_ne hk, Option.map_some]

theorem Call.effect_redacted (c : Cluster) (call : Call) :
    call.redacted.effect c.redacted = (call.effect c).redacted := by
  cases call with
  | apply r =>
    simp only [Call.redacted, Call.effect, Resource.redacted_kind, Resource.redacted_name]
    rw [← c.set_redacted r.kind r.name (some _), Option.map_some, ← Stored.apply_redacted]
    rfl
  | delete kind name => exact c.set_redacted kind name none
  | get name => rfl

theorem Thread.step_redacted (c : Cluster) (call : Call) (rest : List Call) (outcome : Outcome) :
    Thread.step c.redacted call.redacted (rest.map Call.redacted) outcome =
      (Thread.step c call rest outcome).map fun r => (r.1.redacted, r.2.redacted) := by
  cases outcome with
  | failed error tookEffect =>
    cases tookEffect with
    | false => rfl
    | true => simp only [Thread.step, if_true, Call.effect_redacted, Option.map_some, Thread.redacted]
  | done =>
    cases call with
    | get name => rfl
    | apply r =>
      simp only [Thread.step, Option.map_some, ← Call.effect_redacted, ← Thread.ofCalls_redacted]
      rfl
    | delete kind name =>
      simp only [Thread.step, Option.map_some, ← Call.effect_redacted, ← Thread.ofCalls_redacted]
      rfl
  | notFound =>
    cases call with
    | get name => rfl
    | apply r => rfl
    | delete kind name =>
      simp only [Thread.step, Call.redacted, Cluster.redacted, Option.isNone_map]
      split
      · simp only [Option.map_some, ← Thread.ofCalls_redacted]
      · rfl
  | got view =>
    cases call <;> rfl

/-! ### Steps -/

theorem crashedCluster_redacted (s : System) (tookEffect : Bool) :
    s.redacted.crashedCluster tookEffect = (s.crashedCluster tookEffect).redacted := by
  obtain ⟨api, cluster, loop, health, lastCompletedAt, clock⟩ := s
  cases loop with
  | deleting record thread todo =>
    cases thread <;> cases tookEffect <;> first | rfl | exact Call.effect_redacted ..
  | applying record p thread todo =>
    cases thread <;> cases tookEffect <;> first | rfl | exact Call.effect_redacted ..
  | _ => cases tookEffect <;> rfl

namespace App

variable (app : App)

theorem afterVault_redacted (s : System) (record : DemoRecord) (todo : List DemoRecord) (outcome : VaultOutcome)
    (now later : ℤ) :
    (app.afterVault s.redacted record todo outcome.redacted now later).1 =
      (app.afterVault s record todo outcome now later).1.redacted := by
  cases outcome with
  | project p =>
    have hauth : app.imageAuthorized record p.config.redacted = app.imageAuthorized record p.config := rfl
    have hcalls : Thread.ofCalls (applyCalls (app.rendered record p.redacted)) =
        (Thread.ofCalls (applyCalls (app.rendered record p))).redacted := by
      rw [← Thread.ofCalls_redacted, ← applyCalls_redacted]
      exact congrArg (Thread.ofCalls ∘ applyCalls) (renderResources_redacted ..)
    simp only [afterVault, VaultOutcome.redacted, VaultProject.redacted, hauth]
    split
    · simp only [System.redacted, Loop.redacted, ← hcalls]
      rfl
    · rfl
  | vaultError message category => rfl
  | raised error => rfl

/-- A step of the redacted controller is the redaction of the step. -/
theorem step_redacted (s : System) (a : Action) :
    (app.step s.redacted a.redacted).map Prod.fst = (app.step s a).map fun r => r.1.redacted := by
  obtain ⟨api, cluster, loop, health, lastCompletedAt, clock⟩ := s
  cases a with
  | request endpoint req now later => rfl
  | list => cases loop <;> rfl
  | begin now later =>
    cases loop with
    | pass todo =>
      cases todo with
      | nil => rfl
      | cons record todo =>
        simp only [App.step, Action.redacted, System.redacted, Loop.redacted, App.begin]
        split
        · simp only [Option.map_some, System.update, ← Thread.ofCalls_redacted]
          rfl
        · rfl
    | _ => rfl
  | vault outcome now later =>
    cases loop with
    | loading record todo => exact congrArg some (app.afterVault_redacted ..)
    | _ => rfl
  | call outcome =>
    cases loop with
    | deleting record thread todo =>
      cases thread with
      | running call rest =>
        simp only [App.step, Action.redacted, System.redacted, Loop.redacted, Thread.redacted,
          Thread.step_redacted, Option.map_map]
        rfl
      | _ => rfl
    | applying record p thread todo =>
      cases thread with
      | running call rest =>
        simp only [App.step, Action.redacted, System.redacted, Loop.redacted, Thread.redacted,
          Thread.step_redacted, Option.map_map]
        rfl
      | _ => rfl
    | _ => rfl
  | resume now later =>
    cases loop with
    | deleting record thread todo => cases thread <;> rfl
    | applying record p thread todo =>
      cases thread with
      | running call rest => rfl
      | raised error => rfl
      | returned ready =>
        simp only [App.step, Action.redacted, System.redacted, Loop.redacted, Thread.redacted, App.afterApply,
          VaultProject.redacted, ProjectConfig.redacted]
        split <;> rfl
    | _ => rfl
  | endPass now =>
    cases loop with
    | pass todo => cases todo <;> rfl
    | _ => rfl
  | crash tookEffect =>
    have h := crashedCluster_redacted ⟨api, cluster, loop, health, lastCompletedAt, clock⟩ tookEffect
    simp only [App.step, Action.redacted, Option.map_some, h]
    rfl

end App

end DemoController
