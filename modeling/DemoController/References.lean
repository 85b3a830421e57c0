import DemoController.Lib.Stages
import DemoController.Ownership
import DemoController.Environment

/-!
# What the objects of a demo refer to

A Deployment takes its environment from a ConfigMap and a Secret, and a Service finds
its pods by their labels and its port by a name. `apply` writes an object before the
one that refers to it and deletes it after, and `delete` starts with the Deployment, so
the references hold however far a sequence of calls has come.
-/

namespace DemoController

open Lib

variable {app : App}

/-! ### Properties of the cluster that the calls keep -/

/-- However far the calls of one demo come, the property holds. -/
structure CallsKeep (app : App) (I : Cluster → Prop) : Prop where
  deleting : ∀ c repository pr, I c → Safe Call.effect I c (deleteCalls app.cm repository pr)
  applying : ∀ c record p, I c → Safe Call.effect I c (applyCalls (app.rendered record p))

def Loop.planned : Loop → List Call
  | .deleting _ thread _ => thread.left
  | .applying _ _ thread _ => thread.left
  | _ => []

theorem safe_step {I : Cluster → Prop} {c c' : Cluster} {call : Call} {rest : List Call} {outcome : Outcome}
    {thread : Thread} (h : Safe Call.effect I c (call :: rest))
    (hs : Thread.step c call rest outcome = some (c', thread)) : Safe Call.effect I c' thread.left := by
  by_cases hf : ∃ error tookEffect, outcome = .failed error tookEffect
  · obtain ⟨error, tookEffect, rfl⟩ := hf
    cases hs
    cases tookEffect with
    | false => exact h.1
    | true => exact h.2.now
  · rcases Thread.step_answered hs fun error tookEffect he => hf ⟨error, tookEffect, he⟩ with
      ⟨rfl, rfl, -⟩ | ⟨n, view, rfl, -, rfl, rfl⟩
    · rw [Thread.left_ofCalls]
      exact h.2
    · exact h.1

theorem safe_crash {I : Cluster → Prop} {s : System} (h : Safe Call.effect I s.cluster s.loop.planned)
    (tookEffect : Bool) : I (s.crashedCluster tookEffect) := by
  rcases crashedCluster_cases s tookEffect with hc | ⟨record, call, rest, todo, hl, hc⟩ |
    ⟨record, p, call, rest, todo, hl, hc⟩
  · rw [hc]
    exact h.now
  all_goals
    rw [hl] at h
    rw [hc]
    exact h.2.now

theorem CallsKeep.step {I : Cluster → Prop} (hk : CallsKeep app I) {s t : System} {es : List (Event app.cm)}
    {a : Action} (h : Safe Call.effect I s.cluster s.loop.planned) (hs : Stepped app s a t es) :
    Safe Call.effect I t.cluster t.loop.planned := by
  have hnow := h.now
  cases hs with
  | request => exact h
  | @beginDelete record todo _ _ hl _ =>
    have hcalls := hk.deleting s.cluster record.repository record.pr hnow
    rw [← Thread.left_ofCalls (deleteCalls app.cm record.repository record.pr)] at hcalls
    exact hcalls
  | @project record todo p _ _ _ hl _ =>
    have hcalls := hk.applying s.cluster record p hnow
    rw [← Thread.left_ofCalls (applyCalls (app.rendered record p))] at hcalls
    exact hcalls
  | callDelete hl hstep | callApply hl hstep =>
    rw [hl] at h
    exact safe_step h hstep
  | crash => exact safe_crash h _
  | list | beginApply | vaultFailed | deleted | deleteFailed | applied | applyFailed | endPass => exact hnow

theorem CallsKeep.reachable {I : Cluster → Prop} (hk : CallsKeep app I) {cluster : Cluster} {clock : ℤ}
    {s : System} {h : List (Event app.cm)} (start : I cluster)
    (run : Run app.step anyStep (System.initial cluster clock) [] s h) : I s.cluster := by
  have hsafe : Safe Call.effect I s.cluster s.loop.planned := by
    refine run.invariant (I := fun (s : System) _ => Safe Call.effect I s.cluster s.loop.planned) start ?_
    intro s h a t es hs _ hstep
    exact hk.step hs (stepped_of_step hstep)
  exact hsafe.now

/-! ### Environment sources -/

def EnvFromSource.kind : EnvFromSource → Kind
  | .configMapRef _ => .configMap
  | .secretRef _ => .secret

def EnvFromSource.name : EnvFromSource → Text
  | .configMapRef name => name
  | .secretRef name => name

def Deployment.sources (d : Deployment) : List EnvFromSource :=
  d.containers.flatMap fun container => container.envFrom.getD []

/-- Whatever a Deployment takes its environment from is there, under its own name. -/
def Resolved (c : Cluster) : Prop :=
  ∀ name d, c.applied .deployment name = some (.deployment d) →
    ∀ source ∈ d.sources, source.name = name ∧ Holds c source.kind name

theorem holds_apply {c : Cluster} {kind : Kind} {name : Text} (h : Holds c kind name) (r : Resource) :
    Holds (Call.effect c (.apply r)) kind name := by
  by_cases hr : kind = r.kind ∧ name = r.name
  · exact ⟨r, (applied_apply ..).trans (if_pos hr)⟩
  · obtain ⟨o, ho⟩ := h
    exact ⟨o, (applied_apply ..).trans ((if_neg hr).trans ho)⟩

theorem holds_applied {c : Cluster} {resources : List Resource} {r : Resource} (h : r ∈ resources) :
    Holds ((resources.map .apply).foldl Call.effect c) r.kind r.name := by
  have keeps : ∀ (rest : List Resource) (c : Cluster), Holds c r.kind r.name →
      Holds ((rest.map .apply).foldl Call.effect c) r.kind r.name := by
    intro rest
    induction rest with
    | nil => exact fun c hc => hc
    | cons x rest ih => exact fun c hc => ih _ (holds_apply hc x)
  induction resources generalizing c with
  | nil => cases h
  | cons x rest ih =>
    rcases List.mem_cons.mp h with rfl | h
    · exact keeps rest _ ⟨r, (applied_apply ..).trans (if_pos ⟨rfl, rfl⟩)⟩
    · exact ih h

theorem Resolved.apply {c : Cluster} (h : Resolved c) {r : Resource}
    (hr : ∀ d, r = .deployment d → ∀ source ∈ d.sources, source.name = r.name ∧ Holds c source.kind r.name) :
    Resolved (Call.effect c (.apply r)) := by
  intro name d hd source hsource
  by_cases hk : Kind.deployment = r.kind ∧ name = r.name
  · rw [applied_apply, if_pos hk] at hd
    cases hd
    obtain ⟨-, rfl⟩ := hk
    obtain ⟨hn, hh⟩ := hr d rfl source hsource
    exact ⟨hn, holds_apply hh _⟩
  · rw [applied_apply, if_neg hk] at hd
    obtain ⟨hn, hh⟩ := h name d hd source hsource
    exact ⟨hn, holds_apply hh r⟩

/-- An object may go when the Deployment of its name does not refer to it. -/
theorem Resolved.delete {c : Cluster} (h : Resolved c) {kind : Kind} {name : Text}
    (hr : kind ≠ .deployment → ∀ d, c.applied .deployment name = some (.deployment d) →
      ∀ source ∈ d.sources, source.kind ≠ kind) : Resolved (Call.effect c (.delete kind name)) := by
  intro n d hd source hsource
  have hd' : c.applied .deployment n = some (.deployment d) ∧ ¬ (Kind.deployment = kind ∧ n = name) := by
    by_cases hk : Kind.deployment = kind ∧ n = name
    · rw [applied_delete, if_pos hk] at hd
      cases hd
    · rw [applied_delete, if_neg hk] at hd
      exact ⟨hd, hk⟩
  obtain ⟨hn, o, ho⟩ := h n d hd'.1 source hsource
  refine ⟨hn, o, (applied_delete ..).trans ((if_neg ?_).trans ho)⟩
  rintro ⟨rfl, rfl⟩
  refine hr (fun he => hd'.2 ⟨he.symm, rfl⟩) d hd'.1 source hsource rfl

/-- A source of the Deployment is among the objects rendered with it. -/
def RenderedResources.Supplies (resources : RenderedResources) (source : EnvFromSource) : Prop :=
  source.name = resources.deployment.metadata.name ∧
    ((∃ x, resources.configMap = some x ∧ source.kind = .configMap) ∨
      ∃ x, resources.secret = some x ∧ source.kind = .secret)

theorem getD_unless_nil {α : Type} (l : List α) [Decidable (l = [])] :
    (if l = [] then none else some l).getD [] = l := by
  split
  · next h => exact h.symm
  · rfl

theorem rendered_sources (record : DemoRecord) (p : VaultProject) (source : EnvFromSource)
    (h : source ∈ (app.rendered record p).deployment.sources) : (app.rendered record p).Supplies source := by
  have hsources : (app.rendered record p).deployment.sources =
      ((app.rendered record p).configMap.map fun _ => EnvFromSource.configMapRef (nameOf app record.key)).toList ++
        ((app.rendered record p).secret.map fun _ => EnvFromSource.secretRef (nameOf app record.key)).toList :=
    (List.append_nil _).trans (getD_unless_nil _)
  rw [hsources, List.mem_append, Option.mem_toList, Option.mem_toList, Option.map_eq_some_iff,
    Option.map_eq_some_iff] at h
  rcases h with ⟨c, hc, rfl⟩ | ⟨c, hc, rfl⟩
  · exact ⟨rfl, .inl ⟨c, hc, rfl⟩⟩
  · exact ⟨rfl, .inr ⟨c, hc, rfl⟩⟩

/-- The calls of `apply`: the objects the Deployment refers to, the Service, the Deployment
itself, and then what may go. -/
theorem applyCalls_stages (resources : RenderedResources) : ∃ before after,
    applyCalls resources = (before.map .apply ++ [.apply (.deployment resources.deployment)]) ++ after ∧
    before ++ [.deployment resources.deployment] = resources.all ∧ (∀ r ∈ before, r.kind ≠ .deployment) ∧
    ∀ call ∈ after, (∃ name, call = .get name) ∨
      resources.configMap = none ∧ call = .delete .configMap resources.deployment.metadata.name ∨
      resources.secret = none ∧ call = .delete .secret resources.deployment.metadata.name := by
  obtain ⟨deployment, service, configMap, secret⟩ := resources
  refine ⟨(configMap.map .configMap).toList ++ (secret.map .secret).toList ++ [.service service],
    (if configMap.isNone then [.delete .configMap deployment.metadata.name] else []) ++
      (if secret.isNone then [.delete .secret deployment.metadata.name] else []) ++
      [.get deployment.metadata.name], ?_, ?_, ?_, ?_⟩
  · simp [applyCalls, RenderedResources.all]
  · simp [RenderedResources.all]
  · cases configMap <;> cases secret <;> simp [Resource.kind]
  · cases configMap <;> cases secret <;> simp

theorem resolved_deleting (c : Cluster) (repository : Text) (pr : ℤ) (h : Resolved c) :
    Safe Call.effect Resolved c (deleteCalls app.cm repository pr) := by
  -- once the Deployment is gone, nothing refers to the rest
  let name := resourceName app.cm repository pr
  let gone (c : Cluster) := Resolved c ∧ c.applied .deployment name = none
  have hfirst : gone (Call.effect c (.delete .deployment name)) :=
    ⟨h.delete fun hne => absurd rfl hne, (applied_delete ..).trans (if_pos ⟨rfl, rfl⟩)⟩
  refine ⟨h, Safe.mono (J := gone) (fun _ hc => hc.1) (.of_kept hfirst fun call hcall c hc => ?_)⟩
  obtain ⟨kind, hkind, rfl⟩ := List.mem_map.mp (show call ∈ [Kind.service, .configMap, .secret].map
    (Call.delete · name) from hcall)
  refine ⟨hc.1.delete fun _ d hd => ?_, (applied_delete ..).trans ((if_neg ?_).trans hc.2)⟩
  · cases hc.2.symm.trans hd
  · rintro ⟨rfl, -⟩
    simp at hkind

theorem holds_before {c : Cluster} {resources : RenderedResources} {before : List Resource} {r : Resource}
    (hall : before ++ [.deployment resources.deployment] = resources.all) (hr : r ∈ resources.all)
    (hk : r.kind ≠ .deployment) : Holds ((before.map .apply).foldl Call.effect c) r.kind r.name := by
  refine holds_applied ((List.mem_append.mp (hall ▸ hr)).resolve_right fun he => hk ?_)
  rw [List.mem_singleton.mp he]
  rfl

theorem after_apply (c : Cluster) (before : List Call) (d : Deployment) :
    Cluster.applied ((before ++ [Call.apply (.deployment d)]).foldl Call.effect c) .deployment d.metadata.name =
      some (.deployment d) := by
  rw [List.foldl_append]
  exact (applied_apply ..).trans (if_pos ⟨rfl, rfl⟩)

theorem resolved_applyCalls {c : Cluster} {resources : RenderedResources} (h : Resolved c)
    (hname : ∀ r ∈ resources.all, r.name = resources.deployment.metadata.name)
    (hsupplies : ∀ source ∈ resources.deployment.sources, resources.Supplies source) :
    Safe Call.effect Resolved c (applyCalls resources) := by
  obtain ⟨before, after, hcalls, hall, hbefore, hafter⟩ := applyCalls_stages resources
  rw [hcalls]
  refine .append (.append (.of_kept h ?_) fun hc => ?_) fun hc => ?_
  · intro call hcall c hc
    obtain ⟨r, hr, rfl⟩ := List.mem_map.mp hcall
    exact hc.apply fun d hd => absurd (hd ▸ rfl) (hbefore r hr)
  · refine ⟨hc, hc.apply fun d hd source hsource => ?_⟩
    cases hd
    obtain ⟨hn, ⟨x, hx, hk⟩ | ⟨x, hx, hk⟩⟩ := hsupplies source hsource
    · have hin : Resource.configMap x ∈ resources.all := by simp [RenderedResources.all, hx]
      have hh := holds_before (c := c) hall hin fun he => by cases he
      rw [hname _ hin] at hh
      exact ⟨hn, hk ▸ hh⟩
    · have hin : Resource.secret x ∈ resources.all := by simp [RenderedResources.all, hx]
      have hh := holds_before (c := c) hall hin fun he => by cases he
      rw [hname _ hin] at hh
      exact ⟨hn, hk ▸ hh⟩
  · -- what goes afterwards is not among the sources of the new Deployment
    let stays (c : Cluster) := Resolved c ∧
      c.applied .deployment resources.deployment.metadata.name = some (.deployment resources.deployment)
    refine Safe.mono (J := stays) (fun _ hc => hc.1) (.of_kept ⟨hc, after_apply ..⟩ fun call hcall c hc => ?_)
    have spared {kind : Kind} (hk : kind ≠ .deployment)
        (hs : ∀ source ∈ resources.deployment.sources, source.kind ≠ kind) :
        stays (Call.effect c (.delete kind resources.deployment.metadata.name)) := by
      refine ⟨hc.1.delete fun _ d hd => ?_,
        (applied_delete ..).trans ((if_neg fun he => hk he.1.symm).trans hc.2)⟩
      cases hc.2.symm.trans hd
      exact hs
    rcases hafter call hcall with ⟨name, rfl⟩ | ⟨hnone, rfl⟩ | ⟨hnone, rfl⟩
    · exact hc
    all_goals
      refine spared (by decide) fun source hsource => ?_
      obtain ⟨-, ⟨x, hx, hk⟩ | ⟨x, hx, hk⟩⟩ := hsupplies source hsource
    · cases hnone.symm.trans hx
    · rw [hk]
      rintro ⟨⟩
    · rw [hk]
      rintro ⟨⟩
    · cases hnone.symm.trans hx

theorem resolved_kept : CallsKeep app Resolved where
  deleting := resolved_deleting
  applying _ record p h := resolved_applyCalls h
    (renderResources_name app.cm record p.config p.version _ _) (rendered_sources record p)

/-- In every state of every run, whatever the calls answer and wherever the process crashes,
the ConfigMap and the Secret a Deployment takes its environment from are there. -/
theorem references_resolve {cluster : Cluster} {clock : ℤ} {s : System} {h : List (Event app.cm)}
    (start : Resolved cluster) (run : Run app.step anyStep (System.initial cluster clock) [] s h) {name : Text}
    {d : Deployment} (hd : s.cluster.applied .deployment name = some (.deployment d)) :
    ∀ source ∈ d.sources, source.name = name ∧ Holds s.cluster source.kind name :=
  resolved_kept.reachable start run name d hd

/-- The process crashes with the Deployment just applied, and the configuration of the next
pass has no variables: the new Service is there, the old Deployment still is. -/
def referringRun : List Action :=
  [deployAction "delivery-1" 100, .list, .begin 110 110, .vault (.project ⟨plainConfig, .int 2⟩) 110 110, .call .done,
    .call .done, .call .done, .crash true, .list, .begin 120 120, .vault (.project exampleProject) 120 120,
    .call .done]

theorem referringRun_holds : ∃ s h x d, runActions referringRun = some (s, h) ∧
    s.cluster.applied .service (nameOf exampleApp exampleKey) = some (.service x) ∧
    s.cluster.applied .deployment (nameOf exampleApp exampleKey) = some (.deployment d) ∧
    d.sources.length = 1 := by
  have hb : (runActions referringRun).any (fun q =>
      (q.1.cluster.service? (nameOf exampleApp exampleKey)).isSome &&
        (q.1.cluster.deployment? (nameOf exampleApp exampleKey)).any fun d => d.sources.length == 1) = true := by
    decide +kernel
  simp only [Option.any_eq_true, Bool.and_eq_true, Option.isSome_iff_exists, beq_iff_eq] at hb
  obtain ⟨⟨s, h⟩, hr, ⟨x, hx⟩, d, hd, hlength⟩ := hb
  exact ⟨s, h, x, d, hr, Cluster.of_service? hx, Cluster.of_deployment? hd, hlength⟩

theorem references_resolve_example : ∃ s h d, runActions referringRun = some (s, h) ∧
    s.cluster.applied .deployment (nameOf exampleApp exampleKey) = some (.deployment d) ∧ d.sources.length = 1 ∧
    ∀ source ∈ d.sources, source.name = nameOf exampleApp exampleKey ∧
      Holds s.cluster source.kind (nameOf exampleApp exampleKey) := by
  obtain ⟨s, h, x, d, hr, -, hd, hlength⟩ := referringRun_holds
  exact ⟨s, h, d, hr, hd, hlength, references_resolve (fun _ _ hc => by cases hc) (run_of_actions hr) hd⟩

/-! ### Labels and port names -/

/-- What is applied under a kind and a name was rendered for it. -/
def Rendered (app : App) (c : Cluster) : Prop :=
  ∀ kind name r, c.applied kind name = some r →
    r.kind = kind ∧ ∃ record p, r ∈ (app.rendered record p).all ∧ nameOf app record.key = name

theorem apply_mem_all {resources : RenderedResources} {r : Resource} (h : .apply r ∈ applyCalls resources) :
    r ∈ resources.all := by
  simp only [applyCalls, List.mem_append, List.mem_map, List.mem_singleton] at h
  rcases h with ((⟨x, hx, he⟩ | h) | h) | h
  · cases he
    exact hx
  · split at h <;> simp at h
  · split at h <;> simp at h
  · cases h

theorem rendered_kept : CallsKeep app (Rendered app) := by
  have removed {c : Cluster} (hc : Rendered app c) (kind : Kind) (name : Text) :
      Rendered app (Call.effect c (.delete kind name)) := by
    intro k n r hr
    by_cases hk : k = kind ∧ n = name
    · rw [applied_delete, if_pos hk] at hr
      cases hr
    · rw [applied_delete, if_neg hk] at hr
      exact hc k n r hr
  constructor
  · intro c repository pr h
    refine .of_kept h fun call hcall c hc => ?_
    obtain ⟨kind, -, rfl⟩ := List.mem_map.mp hcall
    exact removed hc kind _
  · intro c record p h
    refine .of_kept h fun call hcall c hc => ?_
    cases call with
    | get name => exact hc
    | delete kind name => exact removed hc kind name
    | apply r =>
      intro kind name o ho
      by_cases hk : kind = r.kind ∧ name = r.name
      · rw [applied_apply, if_pos hk] at ho
        cases ho
        obtain ⟨rfl, rfl⟩ := hk
        have hr := apply_mem_all hcall
        exact ⟨rfl, record, p, hr, (renderResources_name app.cm record p.config p.version _ _ r hr).symm⟩
      · rw [applied_apply, if_neg hk] at ho
        exact hc kind name o ho

theorem Rendered.deployment {c : Cluster} (hc : Rendered app c) {name : Text} {d : Deployment}
    (hd : c.applied .deployment name = some (.deployment d)) :
    ∃ record p, nameOf app record.key = name ∧ d = (app.rendered record p).deployment := by
  obtain ⟨-, record, p, hr, hn⟩ := hc _ _ _ hd
  refine ⟨record, p, hn, ?_⟩
  simpa [RenderedResources.all] using hr

theorem Rendered.service {c : Cluster} (hc : Rendered app c) {name : Text} {x : Service}
    (hx : c.applied .service name = some (.service x)) :
    ∃ record p, nameOf app record.key = name ∧ x = (app.rendered record p).service := by
  obtain ⟨-, record, p, hr, hn⟩ := hc _ _ _ hx
  refine ⟨record, p, hn, ?_⟩
  simpa [RenderedResources.all] using hr

theorem appLabel_selects_iff (record : DemoRecord) (p : VaultProject) (name : Text) :
    [("app".toList, name)] ⊆ (app.rendered record p).deployment.podLabels ↔ nameOf app record.key = name := by
  have hlabels : (app.rendered record p).deployment.podLabels =
      repositoryLabels record.repository record.pr app.settings.controllerOwner ++
        [("app".toList, nameOf app record.key)] := rfl
  have h1 : "app".toList ≠ "app.kubernetes.io/managed-by".toList := by decide
  have h2 : "app".toList ≠ "demos.canonical.com/repository-hash".toList := by decide
  have h3 : "app".toList ≠ "demos.canonical.com/pr".toList := by decide
  rw [hlabels, List.cons_subset, repositoryLabels]
  simp only [List.mem_append, List.mem_cons, List.not_mem_nil, or_false, Prod.mk.injEq, h1, h2, h3, false_and,
    true_and, false_or, List.nil_subset, and_true]
  exact eq_comm

/-- In every state of every run a Service selects the pods of a Deployment exactly when
both have one name, two Deployments never select each other's pods, and the port a
Service sends to is one the containers name. -/
theorem service_selects_iff {cluster : Cluster} {clock : ℤ} {s : System} {h : List (Event app.cm)}
    (start : Rendered app cluster) (run : Run app.step anyStep (System.initial cluster clock) [] s h)
    {n m : Text} {x : Service} {d : Deployment} (hx : s.cluster.applied .service n = some (.service x))
    (hd : s.cluster.applied .deployment m = some (.deployment d)) :
    (x.selector ⊆ d.podLabels ↔ m = n) ∧
    (∀ m' d', s.cluster.applied .deployment m' = some (.deployment d') →
      (d.matchLabels ⊆ d'.podLabels ↔ m' = m)) ∧
    ∀ port ∈ x.ports, ∀ container ∈ d.containers, port.targetPort ∈ container.ports.map ContainerPort.name := by
  have hc : Rendered app s.cluster := rendered_kept.reachable start run
  obtain ⟨r, p, rfl, rfl⟩ := hc.deployment hd
  obtain ⟨r', p', rfl, rfl⟩ := hc.service hx
  refine ⟨appLabel_selects_iff r p _, fun m' d' hd' => ?_, ?_⟩
  · obtain ⟨r'', p'', rfl, rfl⟩ := hc.deployment hd'
    exact appLabel_selects_iff r'' p'' _
  · intro port hport container hcontainer
    rw [List.mem_singleton.mp hport, List.mem_singleton.mp hcontainer]
    exact List.mem_singleton.mpr rfl

theorem service_selects_iff_example : ∃ s h x d, runActions referringRun = some (s, h) ∧
    s.cluster.applied .service (nameOf exampleApp exampleKey) = some (.service x) ∧
    s.cluster.applied .deployment (nameOf exampleApp exampleKey) = some (.deployment d) ∧
    x.selector ⊆ d.podLabels ∧ d.matchLabels ⊆ d.podLabels := by
  obtain ⟨s, h, x, d, hr, hx, hd, -⟩ := referringRun_holds
  obtain ⟨hservice, hmatch, -⟩ := service_selects_iff (fun _ _ _ hc => by cases hc) (run_of_actions hr) hx hd
  exact ⟨s, h, x, d, hr, hx, hd, hservice.mpr rfl, (hmatch _ d hd).mpr rfl⟩

end DemoController
