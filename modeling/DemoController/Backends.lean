import DemoController.ProxyTargets
import DemoController.References

/-!
# The pods behind a hostname

The proxy names a Service by the row it finds, the Service selects pods by a label, and a
Deployment gave the pods theirs. An object of the controller is always rendered for a demo
that still has a row, so a forwarded request ends at the demo it asked for.
-/

namespace DemoController

open Lib

variable {app : App}

/-! ### Objects and the rows they were rendered for -/

def Rendering (app : App) : Loop → Prop
  | .applying record p thread _ => ∀ call ∈ thread.left, call ∈ applyCalls (app.rendered record p)
  | _ => True

/-- The object was rendered for a demo that has a row. -/
def Backed (app : App) (s : System) (r : Resource) : Prop :=
  ∃ record p row, r ∈ (app.rendered record p).all ∧ s.demos.get record.key = some row

structure AllBacked (app : App) (s : System) : Prop where
  object : ∀ kind name r, s.cluster.applied kind name = some r → r.name = name ∧ Backed app s r
  working : Working app s.cluster s.loop
  rendering : Rendering app s.loop

theorem effect_object {c : Cluster} {call : Call} {kind : Kind} {name : Text} {r : Resource}
    (h : (call.effect c).applied kind name = some r) :
    c.applied kind name = some r ∨ call = .apply r ∧ r.name = name := by
  cases call with
  | get n => exact .inl h
  | delete k n =>
    by_cases hk : kind = k ∧ name = n
    · rw [applied_delete, if_pos hk] at h
      cases h
    · rw [applied_delete, if_neg hk] at h
      exact .inl h
  | apply x =>
    by_cases hk : kind = x.kind ∧ name = x.name
    · rw [applied_apply, if_pos hk] at h
      cases h
      exact .inr ⟨rfl, hk.2.symm⟩
    · rw [applied_apply, if_neg hk] at h
      exact .inl h

/-- An object that was not there before the step was rendered for the record that is being
applied. -/
theorem Stepped.object {s t : System} {es : List (Event app.cm)} {a : Action} (hs : Stepped app s a t es)
    (hw : Working app s.cluster s.loop) (hr : Rendering app s.loop) {kind : Kind} {name : Text} {r : Resource}
    (h : t.cluster.applied kind name = some r) : s.cluster.applied kind name = some r ∨
      r.name = name ∧ ∃ record p thread todo, s.loop = .applying record p thread todo ∧
        r ∈ (app.rendered record p).all := by
  have deleted {call : Call} {rest : List Call} {n : Text} (hd : Deleting s.cluster n (.running call rest))
      (he : (call.effect s.cluster).applied kind name = some r) : s.cluster.applied kind name = some r := by
    obtain ⟨k, rfl⟩ := hd.1 call (List.mem_cons_self ..)
    exact (effect_object he).resolve_right fun hc => by cases hc.1
  cases hs with
  | callDelete hl hstep =>
    rw [hl] at hw
    rcases Thread.step_cluster hstep with rfl | rfl
    · exact .inl h
    · exact .inl (deleted hw h)
  | callApply hl hstep =>
    rw [hl] at hr
    rcases Thread.step_cluster hstep with rfl | rfl
    · exact .inl h
    · rcases effect_object h with hold | ⟨rfl, hname⟩
      · exact .inl hold
      · exact .inr ⟨hname, _, _, _, _, hl, apply_mem_all (hr _ (List.mem_cons_self ..))⟩
  | @crash tookEffect =>
    rcases crashedCluster_cases s tookEffect with hc | ⟨record, call, rest, todo, hl, hc⟩ |
      ⟨record, p, call, rest, todo, hl, hc⟩
    · exact .inl (hc ▸ h)
    · rw [hl] at hw
      exact .inl (deleted hw (hc ▸ h))
    · rw [hl] at hr
      rcases effect_object (hc ▸ h) with hold | ⟨rfl, hname⟩
      · exact .inl hold
      · exact .inr ⟨hname, _, _, _, _, hl, apply_mem_all (hr _ (List.mem_cons_self ..))⟩
  | request | list | beginDelete | beginApply | project | vaultFailed | deleted | deleteFailed | applied
    | applyFailed | endPass => exact .inl h

theorem Rendering.step {s t : System} {es : List (Event app.cm)} {a : Action} (hs : Stepped app s a t es)
    (hr : Rendering app s.loop) : Rendering app t.loop := by
  cases hs with
  | request => exact hr
  | @project record todo p _ _ _ _ _ =>
    intro call hcall
    rw [Thread.left_ofCalls] at hcall
    exact hcall
  | @callApply record p call rest todo outcome cluster thread hl hstep =>
    rw [hl] at hr
    intro x hx
    rcases Thread.step_thread hstep with rfl | ⟨error, rfl⟩ | ⟨n, view, -, rfl⟩
    · rw [Thread.left_ofCalls] at hx
      exact hr x (List.mem_cons_of_mem _ hx)
    · cases hx
    · cases hx
  | list | beginDelete | beginApply | vaultFailed | callDelete | deleted | deleteFailed | applied | applyFailed
    | endPass | crash => trivial

theorem AllBacked.step {s t : System} {h es : List (Event app.cm)} {a : Action} (ht : Tracked s h)
    (hb : AllBacked app s) (hs : Stepped app s a t es) : AllBacked app t := by
  refine ⟨fun kind name r hr => ?_, Working.step hs hb.working, Rendering.step hs hb.rendering⟩
  have hw := hb.working
  rcases hs.object hb.working hb.rendering hr with hold | ⟨hname, record, p, thread, todo, hl, hin⟩
  · obtain ⟨hname, record, p, row, hin, hrow⟩ := hb.object kind name r hold
    refine ⟨hname, record, p, ?_⟩
    obtain ⟨row', hrow'⟩ := hs.keeps_row hrow fun gone ready todo hl hk => by
      -- the deletion that ends has left no object under its name
      rw [hl] at hw
      have hn : nameOf app gone.key = name := by
        rw [hk, ← hname]
        exact (renderResources_name app.cm record p.config p.version _ _ r hin).symm
      exact hw kind (hn ▸ ⟨r, hold⟩)
    exact ⟨row', hin, hrow'⟩
  · obtain ⟨row, hrow, -⟩ := ht.row record (mem_held hl (List.mem_cons_self ..))
    obtain ⟨row', hrow'⟩ := hs.keeps_row hrow fun _ _ _ hl' _ => by
      rw [hl] at hl'
      cases hl'
    exact ⟨hname, record, p, row', hin, hrow'⟩

theorem allBacked {cluster : Cluster} {clock : ℤ} {s : System} {h : List (Event app.cm)}
    (clean : ∀ kind name, ¬ Holds cluster kind name)
    (run : Run app.step anyStep (System.initial cluster clock) [] s h) : AllBacked app s := by
  have hboth : Tracked s h ∧ AllBacked app s := by
    refine run.invariant (I := fun s h => Tracked s h ∧ AllBacked app s)
      ⟨tracked_initial .., fun kind name r hr => absurd ⟨r, hr⟩ (clean kind name), trivial, trivial⟩ ?_
    rintro s h a t es ⟨ht, hb⟩ _ hs
    exact ⟨ht.step (stepped_of_step hs), hb.step ht (stepped_of_step hs)⟩
  exact hboth.2

/-! ### Forwarded requests -/

/-- The Deployments whose pods the cluster's name service and the Service of that name lead to. -/
def Backend (app : App) (c : Cluster) (host : Text) (d : Deployment) : Prop :=
  ∃ name x m, host = name ++ ".".toList ++ app.settings.namespace_ ++ ".svc.cluster.local".toList ∧
    c.applied .service name = some (.service x) ∧ c.applied .deployment m = some (.deployment d) ∧
    x.selector ⊆ d.podLabels

theorem forwards_host {hx : Httpx} {s : Store} {req : BrowserRequest} {path : Text} {request : UpstreamRequest}
    (hns : ∀ c ∈ urlDelimiters, c ∉ app.settings.namespace_) (hf : app.Forwards hx s req path request) :
    ∃ row ∈ s.demos.rows, row.routable = true ∧
      hostname app.cm row.repository row.pr app.settings.hostnameSuffix = app.requestedHost req ∧
      request.url.host = app.serviceHost row := by
  obtain ⟨row, port, query, hp, -, hrequest⟩ := hf
  obtain ⟨read, hread, -⟩ := parseUrl_target hx row port path query hns
  have hurl : request.url.host = app.serviceHost row := by
    unfold Httpx.request at hrequest
    split at hrequest
    · cases hrequest
      rw [hread]
    · cases hrequest
  unfold App.proxied at hp
  dsimp only at hp
  split at hp
  · cases hp
  · obtain ⟨record, hfind, hport⟩ := Option.bind_eq_some_iff.mp hp
    obtain ⟨n, -, hn⟩ := Option.bind_eq_some_iff.mp hport
    split at hn
    · cases hn
    · cases hn
      have hmem := List.mem_filter.mp (List.mem_of_find?_eq_some hfind)
      exact ⟨row, hmem.1, hmem.2, by simpa using List.find?_some hfind, hurl⟩

theorem AllBacked.backend {s : System} {row : DemoRecord} {d : Deployment} (hb : AllBacked app s)
    (hc : Rendered app s.cluster) (hd : Backend app s.cluster (app.serviceHost row) d) :
    ∃ record p row', record.key = row'.key ∧ row' ∈ s.demos.rows ∧ nameOf app row'.key = nameOf app row.key ∧
      d = (app.rendered record p).deployment := by
  obtain ⟨name, x, m, hhost, hx, hdep, hsel⟩ := hd
  have hname : nameOf app row.key = name := by
    unfold App.serviceHost at hhost
    exact List.append_cancel_right (List.append_cancel_right (List.append_cancel_right hhost))
  obtain ⟨-, record, p, row', hin, hrow⟩ := hb.object _ _ _ hdep
  have hrendered : d = (app.rendered record p).deployment := by simpa [RenderedResources.all] using hin
  obtain ⟨r, q, hr, rfl⟩ := hc.service hx
  have hselected : nameOf app record.key = nameOf app r.key :=
    (appLabel_selects_iff record p (nameOf app r.key)).mp (hrendered ▸ hsel)
  refine ⟨record, p, row', (Table.get_key hrow).symm, Table.mem_of_get hrow, ?_, hrendered⟩
  rw [Table.get_key hrow, hselected, hr, hname]

/-- In every state of every run in which the stored demos have names of their own, a request
the proxy forwards reaches, through the Service it names, only pods of a Deployment that was
rendered for a stored demo with the hostname that was asked for. -/
theorem forwarded_reaches_own_pods {cluster : Cluster} {clock : ℤ} {s : System} {h : List (Event app.cm)}
    (clean : ∀ kind name, ¬ Holds cluster kind name)
    (run : Run app.step anyStep (System.initial cluster clock) [] s h)
    (apart : ∀ row ∈ s.demos.rows, ∀ row' ∈ s.demos.rows, nameOf app row.key = nameOf app row'.key →
      row.key = row'.key)
    (hns : ∀ c ∈ urlDelimiters, c ∉ app.settings.namespace_) {hx : Httpx} {req : BrowserRequest} {path : Text}
    {request : UpstreamRequest} (hf : app.Forwards hx s.api.store req path request) {d : Deployment}
    (hd : Backend app s.cluster request.url.host d) :
    ∃ row ∈ s.demos.rows, row.routable = true ∧
      hostname app.cm row.repository row.pr app.settings.hostnameSuffix = app.requestedHost req ∧
      ∃ record p, record.key = row.key ∧ d = (app.rendered record p).deployment := by
  obtain ⟨row, hrow, hroutable, hhost, hurl⟩ := forwards_host hns hf
  have hrendered : Rendered app s.cluster :=
    rendered_kept.reachable (fun kind name r hr => absurd ⟨r, hr⟩ (clean kind name)) run
  rw [hurl] at hd
  obtain ⟨record, p, row', hkey, hrow', hname, rfl⟩ := (allBacked clean run).backend hrendered hd
  refine ⟨row, hrow, hroutable, hhost, record, p, ?_, rfl⟩
  rw [hkey]
  exact apart row' hrow' row hrow hname

def servedActions : List Action := deployAction "delivery-1" 100 :: applyActions 110

theorem forwarded_reaches_own_pods_example : ∃ s h request d, runActions servedActions = some (s, h) ∧
    exampleApp.Forwards exampleHttpx s.api.store spacedVisit "a b/c".toList request ∧
    Backend exampleApp s.cluster request.url.host d ∧
    ∃ row ∈ s.demos.rows, row.routable = true ∧ ∃ record p, record.key = row.key ∧
      d = (exampleApp.rendered record p).deployment := by
  have hb : (runActions servedActions).any (fun q =>
      q.1.demos.rows.length == 1 &&
      ((q.1.cluster.service? (nameOf exampleApp exampleKey)).isSome &&
        ((q.1.cluster.deployment? (nameOf exampleApp exampleKey)).isSome &&
          (exampleApp.proxied q.1.api.store spacedVisit).any fun x =>
            nameOf exampleApp x.1.key == nameOf exampleApp exampleKey))) = true := by
    decide +kernel
  simp only [Option.any_eq_true, Bool.and_eq_true, beq_iff_eq, Option.isSome_iff_exists] at hb
  obtain ⟨⟨s, h⟩, hr, hone, ⟨x, hservice⟩, ⟨d, hdeployment⟩, ⟨row, port⟩, hp, hname⟩ := hb
  dsimp only at hone hservice hdeployment hp hname
  have ho := Cluster.of_service? hservice
  have ho' := Cluster.of_deployment? hdeployment
  have run := run_of_actions hr
  have clean : ∀ kind name, ¬ Holds (fun _ _ => none) kind name := by
    rintro kind name ⟨r, hr⟩
    cases hr
  have hrendered : Rendered exampleApp s.cluster := rendered_kept.reachable (fun _ _ _ hc => by cases hc) run
  have hq : spacedVisit.query = some "q=1&x=%2F".toList := by decide +kernel
  have hf : exampleApp.Forwards exampleHttpx s.api.store spacedVisit "a b/c".toList _ :=
    ⟨row, port, _, hp, hq, if_pos (by decide +kernel)⟩
  have hns : ∀ c ∈ urlDelimiters, c ∉ exampleApp.settings.namespace_ := forall_mem_of_all (by decide +kernel)
  obtain ⟨read, hread, -⟩ := parseUrl_target exampleHttpx row port "a b/c".toList "q=1&x=%2F".toList hns
  have hselects : x.selector ⊆ d.podLabels := by
    obtain ⟨r, p, hr, hd⟩ := hrendered.deployment ho'
    obtain ⟨r', p', hr', hx⟩ := hrendered.service ho
    rw [hd, hx]
    exact (appLabel_selects_iff r p _).mpr (hr.trans hr'.symm)
  have hbackend : Backend exampleApp s.cluster (exampleApp.serviceHost row) d :=
    ⟨nameOf exampleApp exampleKey, x, _, by rw [← hname]; rfl, ho, ho', hselects⟩
  have hapart : ∀ row ∈ s.demos.rows, ∀ row' ∈ s.demos.rows,
      nameOf exampleApp row.key = nameOf exampleApp row'.key → row.key = row'.key := by
    obtain ⟨only, honly⟩ := List.length_eq_one_iff.mp hone
    intro row hrow row' hrow' _
    rw [honly] at hrow hrow'
    rw [List.mem_singleton.mp hrow, List.mem_singleton.mp hrow']
  have hhost : (exampleHttpx.parseUrl (exampleApp.target row port "a b/c".toList "q=1&x=%2F".toList)).host =
      exampleApp.serviceHost row := by
    rw [hread]
  obtain ⟨own, hown, hroutable, -, record, p, hkey, hd⟩ :=
    forwarded_reaches_own_pods clean run hapart hns hf (hhost.symm ▸ hbackend)
  exact ⟨s, h, _, d, hr, hf, hhost.symm ▸ hbackend, own, hown, hroutable, record, p, hkey, hd⟩

end DemoController
