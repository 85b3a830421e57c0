import DemoController.Kubernetes
import DemoController.StoreHistory

/-!
# What a ready deployment says about its pods

During a rollout pods of the template just applied run beside pods of earlier
ones, and the status counts the available pods of all of them. `apply` compares
that count with the desired one, so an earlier pod can stand in for a new one
that never starts.
-/

namespace DemoController

open Lib

/-! ### The worker thread as a whole -/

def Thread.run : Cluster → Thread → List Outcome → Option (Cluster × Thread)
  | c, thread, [] => some (c, thread)
  | c, .running call rest, outcome :: outcomes =>
    (Thread.step c call rest outcome).bind fun r => Thread.run r.1 r.2 outcomes
  | _, _, _ :: _ => none

theorem Thread.run_ended {c c' : Cluster} {thread t : Thread} {outcomes : List Outcome}
    (hrun : Thread.run c thread outcomes = some (c', t)) (he : ∀ call rest, thread ≠ .running call rest) :
    outcomes = [] ∧ t = thread := by
  cases outcomes with
  | nil =>
    cases hrun
    exact ⟨rfl, rfl⟩
  | cons outcome outcomes =>
    cases thread with
    | running call rest => exact absurd rfl (he call rest)
    | returned ready => cases hrun
    | raised error => cases hrun

theorem Thread.returned_of_run {c c' : Cluster} {calls : List Call} {n : Text} {outcomes : List Outcome}
    {ready : Bool} (hrun : Thread.run c (.ofCalls (calls ++ [.get n])) outcomes = some (c', .returned ready)) :
    ∃ view, outcomes.getLast? = some (.got view) ∧ ready = view.isReady := by
  induction outcomes generalizing c calls with
  | nil =>
    cases calls with
    | nil => cases hrun
    | cons call calls => cases hrun
  | cons outcome outcomes ih =>
    -- the first call and what is left after it, down to the read itself
    obtain ⟨call, rest, hcalls, hrest⟩ : ∃ call rest, calls ++ [Call.get n] = call :: rest ∧
        ((∃ m, call = .get m) ∨ ∃ more, rest = more ++ [.get n]) := by
      cases calls with
      | nil => exact ⟨.get n, [], rfl, .inl ⟨n, rfl⟩⟩
      | cons call calls => exact ⟨call, calls ++ [.get n], rfl, .inr ⟨calls, rfl⟩⟩
    rw [hcalls] at hrun
    obtain ⟨⟨d, thread⟩, hstep, hleft⟩ := Option.bind_eq_some_iff.mp hrun
    have goesOn (h : thread = .ofCalls rest) (hget : ∀ m, call ≠ .get m) :
        ∃ view, (outcome :: outcomes).getLast? = some (.got view) ∧ ready = view.isReady := by
      obtain ⟨m, hm⟩ | ⟨more, rfl⟩ := hrest
      · exact absurd hm (hget m)
      · subst h
        obtain ⟨view, hlast, hready⟩ := ih hleft
        refine ⟨view, ?_, hready⟩
        rw [List.getLast?_cons, hlast]
        rfl
    by_cases hf : ∃ error tookEffect, outcome = .failed error tookEffect
    · obtain ⟨error, tookEffect, rfl⟩ := hf
      cases hstep
      cases (Thread.run_ended hleft fun _ _ h => by cases h).2
    · rcases Thread.step_answered hstep fun error tookEffect he => hf ⟨error, tookEffect, he⟩ with
        ⟨-, hthread, hget⟩ | ⟨m, view, -, rfl, -, rfl⟩
      · exact goesOn hthread hget
      · obtain ⟨rfl, hend⟩ := Thread.run_ended hleft fun _ _ h => by cases h
        cases hend
        exact ⟨view, rfl, rfl⟩

/-! ### Pods and the status that counts them -/

/-- What tells the revisions of a demo apart: the image and the Vault version. -/
structure PodTemplate where
  images : List (Option Text)
  annotations : Labels
  deriving DecidableEq

def Deployment.template (d : Deployment) : PodTemplate := ⟨d.containers.map Container.image, d.podAnnotations⟩

structure Pod where
  template : PodTemplate
  available : Bool

def availablePods (pods : List Pod) : ℕ := pods.countP Pod.available

def updatedPods (pods : List Pod) (d : Deployment) : ℕ :=
  pods.countP fun p => p.available && decide (p.template = d.template)

/-- The view of an applied deployment with these pods. That the controller has
observed the generation bounds none of them. -/
structure Reported (pods : List Pod) (d : Deployment) (view : DeploymentView) : Prop where
  replicas : view.replicas = some d.replicas
  available : ∀ observed available, view.status = some (observed, available) →
    available.getD 0 = availablePods pods

def DeploymentView.observed (view : DeploymentView) : Prop :=
  ∃ available, view.status = some (view.generation, available)

/-- No available pod of an earlier template without one of the template itself. -/
def NoStandIn (pods : List Pod) (d : Deployment) : Prop :=
  (∃ p ∈ pods, p.available = true ∧ p.template ≠ d.template) → ∃ p ∈ pods, p.available = true ∧ p.template = d.template

theorem availablePods_pos_iff {pods : List Pod} : 0 < availablePods pods ↔ ∃ p ∈ pods, p.available = true :=
  List.countP_pos_iff

theorem updatedPods_pos_iff {pods : List Pod} {d : Deployment} :
    0 < updatedPods pods d ↔ ∃ p ∈ pods, p.available = true ∧ p.template = d.template := by
  rw [updatedPods, List.countP_pos_iff]
  simp only [Bool.and_eq_true, decide_eq_true_eq]

theorem isReady_iff {pods : List Pod} {d : Deployment} {view : DeploymentView} (hd : d.replicas = 1)
    (hv : Reported pods d view) : view.isReady = true ↔ view.observed ∧ 0 < availablePods pods := by
  have hone : orElse view.replicas 1 = 1 := by
    rw [hv.replicas, hd]
    rfl
  unfold DeploymentView.isReady DeploymentView.observed
  cases hs : view.status with
  | none =>
    constructor
    · intro h
      cases h
    · rintro ⟨⟨available, h⟩, -⟩
      cases h
  | some status =>
    obtain ⟨observed, available⟩ := status
    have hcount : orElse available 0 = availablePods pods := by
      have hav := hv.available observed available hs
      unfold orElse
      split <;> omega
    simp only [hone, hcount, Bool.and_eq_true, decide_eq_true_eq, Option.some.injEq, Prod.mk.injEq,
      exists_and_left, exists_eq', and_true]
    exact and_congr_right fun _ => by omega

/-- For every completed run of `apply` and all pods behind the status it read: the
answer `True` means that enough pods run the template applied exactly when the
controller has not observed that template yet or no earlier pod stands in for a new one. -/
theorem ready_runs_template_iff (cm : CaseMapping) (record : DemoRecord) (project : ProjectConfig)
    (vaultVersion : PyInt) (ns owner : Text) {c c' : Cluster} {outcomes : List Outcome} {ready : Bool}
    {view : DeploymentView} {pods : List Pod}
    (hrun : Thread.run c (.ofCalls (applyCalls (renderResources cm record project vaultVersion ns owner)))
      outcomes = some (c', .returned ready))
    (hview : outcomes.getLast? = some (.got view))
    (hpods : Reported pods (renderResources cm record project vaultVersion ns owner).deployment view) :
    (ready = true → (renderResources cm record project vaultVersion ns owner).deployment.replicas ≤
        updatedPods pods (renderResources cm record project vaultVersion ns owner).deployment) ↔
      (view.observed → NoStandIn pods (renderResources cm record project vaultVersion ns owner).deployment) := by
  obtain ⟨view', hlast, hready⟩ := Thread.returned_of_run hrun
  have heq : view' = view := by
    rw [hview] at hlast
    cases hlast
    rfl
  have hone : (renderResources cm record project vaultVersion ns owner).deployment.replicas = 1 := rfl
  generalize (renderResources cm record project vaultVersion ns owner).deployment = d at hpods hone ⊢
  rw [hready, heq, isReady_iff hone hpods, hone]
  have hsome : availablePods pods = 0 ∨ 0 < availablePods pods := Nat.eq_zero_or_pos _
  constructor
  · intro hsound hobs hold
    obtain ⟨p, hp, hav, -⟩ := hold
    have hupdated := hsound ⟨hobs, availablePods_pos_iff.mpr ⟨p, hp, hav⟩⟩
    exact updatedPods_pos_iff.mp (by omega)
  · intro hcond hboth
    obtain ⟨p, hp, hav⟩ := availablePods_pos_iff.mp hboth.2
    have hnew : ∃ q ∈ pods, q.available = true ∧ q.template = d.template := by
      by_cases ht : p.template = d.template
      · exact ⟨p, hp, hav, ht⟩
      · exact hcond hboth.1 ⟨p, hp, hav, ht⟩
    have hpos := updatedPods_pos_iff.mpr hnew
    omega

def exampleRecord : DemoRecord := .ofDeploy exampleDeploy exampleHash 100 100

def exampleRendered (vaultVersion : ℤ) : RenderedResources :=
  renderResources .ascii exampleRecord exampleConfig (.int vaultVersion) "default".toList "demo-controller".toList

/-- An update to version 3 whose pod does not start; that of version 2 still runs. -/
def rolloutPods : List Pod :=
  [⟨(exampleRendered 2).deployment.template, true⟩, ⟨(exampleRendered 3).deployment.template, false⟩]

def rolloutView : DeploymentView := ⟨some 2, some 1, some (some 2, some 1)⟩

def rolloutOutcomes : List Outcome := [.done, .done, .notFound, .notFound, .got rolloutView]

theorem rollout_reported : Reported rolloutPods (exampleRendered 3).deployment rolloutView := by
  refine ⟨rfl, fun observed available h => ?_⟩
  cases h
  decide

theorem rollout_returned : ∃ c', Thread.run (fun _ _ => none) (.ofCalls (applyCalls (exampleRendered 3)))
    rolloutOutcomes = some (c', .returned true) :=
  ⟨_, rfl⟩

theorem ready_runs_template_iff_example :
    (true = true → (exampleRendered 3).deployment.replicas ≤ updatedPods rolloutPods (exampleRendered 3).deployment) ↔
      (rolloutView.observed → NoStandIn rolloutPods (exampleRendered 3).deployment) := by
  obtain ⟨c', hrun⟩ := rollout_returned
  exact ready_runs_template_iff .ascii exampleRecord {} (.int 3) "default".toList "demo-controller".toList hrun rfl
    rollout_reported

/-- `apply` reports a rollout as ready of which no pod runs. -/
theorem ready_before_update_runs : ¬ ∀ (record : DemoRecord) (project : ProjectConfig) (vaultVersion : PyInt)
    (ns owner : Text) (c c' : Cluster) (outcomes : List Outcome) (view : DeploymentView) (pods : List Pod),
    Thread.run c (.ofCalls (applyCalls (renderResources .ascii record project vaultVersion ns owner))) outcomes =
      some (c', .returned true) → outcomes.getLast? = some (.got view) →
    Reported pods (renderResources .ascii record project vaultVersion ns owner).deployment view →
    (renderResources .ascii record project vaultVersion ns owner).deployment.replicas ≤
      updatedPods pods (renderResources .ascii record project vaultVersion ns owner).deployment := by
  intro all
  obtain ⟨c', hrun⟩ := rollout_returned
  have hle := all exampleRecord {} (.int 3) "default".toList "demo-controller".toList _ c' rolloutOutcomes rolloutView
    rolloutPods hrun rfl rollout_reported
  revert hle
  decide +kernel

end DemoController
