import DemoController.Ownership

/-!
# The recorded port and the port of the Service

`apply` writes the Service halfway through its calls, and the port is recorded when
all of them have succeeded. An attempt given up in between leaves a Service with the
port of its configuration under a row with the port of the last success, so the two
agree as long as no attempt with another port is given up after its Service call.
-/

namespace DemoController

open Lib

variable {app : App} {k : Key}

/-! ### Agreement -/

def Exposes (c : Cluster) (name : Text) (port : ℤ) : Prop :=
  ∃ service, c.applied .service name = some (.service service) ∧ service.ports.map ServicePort.port = [port]

theorem Exposes.mono {c d : Cluster} {name : Text} {port : ℤ} (h : Exposes c name port)
    (hd : d .service name = c .service name) : Exposes d name port := by
  obtain ⟨service, hs, hports⟩ := h
  exact ⟨service, by rw [Cluster.applied, hd]; exact hs, hports⟩

theorem exposes_apply (c : Cluster) {service : Service} {port : ℤ} (h : service.ports.map ServicePort.port = [port]) :
    Exposes (Call.effect c (.apply (.service service))) service.metadata.name port :=
  ⟨service, (applied_apply ..).trans (if_pos ⟨rfl, rfl⟩), h⟩

/-- The route of the key has a target: its port is the one the Service exposes. -/
def PortAgrees (app : App) (k : Key) (s : System) : Prop :=
  ∀ row port, s.demos.get k = some row → row.port = some port → Exposes s.cluster (nameOf app k) port

def SamePort (k : Key) (s : System) (port : ℤ) : Prop :=
  ∀ row recorded, s.demos.get k = some row → row.port = some recorded → recorded = port

def PortsFrom (k : Key) (s t : System) : Prop :=
  ∀ row port, t.demos.get k = some row → row.port = some port →
    ∃ old, s.demos.get k = some old ∧ old.port = some port

theorem PortsFrom.of_demos {s t : System} (h : t.demos = s.demos) : PortsFrom k s t := by
  intro row port hr hp
  exact ⟨row, h ▸ hr, hp⟩

theorem PortAgrees.mono {s t : System} (ha : PortAgrees app k s) (hp : PortsFrom k s t)
    (hc : t.cluster .service (nameOf app k) = s.cluster .service (nameOf app k)) : PortAgrees app k t := by
  intro row port hrow hport
  obtain ⟨old, hold, ho⟩ := hp row port hrow hport
  exact (ha old port hold ho).mono hc

theorem SamePort.agrees {s : System} {port : ℤ} (hs : SamePort k s port)
    (he : Exposes s.cluster (nameOf app k) port) : PortAgrees app k s := by
  intro row recorded hrow hport
  rw [hs row recorded hrow hport]
  exact he

/-! ### The calls of one attempt -/

def Call.SparesService : Call → Prop
  | .apply r => r.kind ≠ .service
  | .delete kind _ => kind ≠ .service
  | .get _ => True

theorem Call.SparesService.effect {call : Call} (h : call.SparesService) (c : Cluster) (name : Text) :
    call.effect c .service name = c .service name := by
  cases call with
  | apply r => exact if_neg fun e => h e.1.symm
  | delete kind n => exact if_neg fun e => h e.1.symm
  | get n => rfl

theorem applyCalls_split (resources : RenderedResources) : ∃ before after,
    applyCalls resources = before ++ .apply (.service resources.service) :: after ∧
    (∀ x ∈ before, x.SparesService ∧ ∀ n, x ≠ .get n) ∧ ∀ x ∈ after, x.SparesService := by
  obtain ⟨deployment, service, configMap, secret⟩ := resources
  refine ⟨((configMap.map Resource.configMap).toList ++ (secret.map Resource.secret).toList).map .apply,
    .apply (.deployment deployment) ::
      ((if configMap.isNone then [.delete .configMap deployment.metadata.name] else []) ++
        (if secret.isNone then [.delete .secret deployment.metadata.name] else []) ++
        [.get deployment.metadata.name]), ?_, ?_, ?_⟩
  · simp [applyCalls, RenderedResources.all]
  · cases configMap <;> cases secret <;> simp [Call.SparesService, Resource.kind]
  · cases configMap <;> cases secret <;> simp [Call.SparesService, Resource.kind]

/-- Where an attempt for the key is: the Service call is still ahead and the recorded
port served, or it has been made. -/
inductive ServicePhase (app : App) (k : Key) (s : System) (port : ℤ) : List Call → Prop
  | ahead {before after : List Call} {service : Service} : (∀ x ∈ before, x.SparesService ∧ ∀ n, x ≠ .get n) →
      (∀ x ∈ after, x.SparesService) → service.metadata.name = nameOf app k →
      service.ports.map ServicePort.port = [port] → PortAgrees app k s →
      ServicePhase app k s port (before ++ .apply (.service service) :: after)
  | made {calls : List Call} : (∀ x ∈ calls, x.SparesService) → Exposes s.cluster (nameOf app k) port →
      ServicePhase app k s port calls

def ThreadPort (app : App) (k : Key) (s : System) (port : ℤ) : Thread → Prop
  | .running call rest => ServicePhase app k s port (call :: rest)
  | .returned _ => Exposes s.cluster (nameOf app k) port
  | .raised _ => PortAgrees app k s

/-- The Service call is not among those that took effect. -/
def Thread.ServiceKept (tookEffect : Bool) : Thread → Prop
  | .running call rest => ∃ service, Call.apply (.service service) ∈ if tookEffect then rest else call :: rest
  | .returned _ => False
  | .raised _ => True

theorem ServicePhase.mono {s t : System} {port : ℤ} {calls : List Call} (h : ServicePhase app k s port calls)
    (hp : PortsFrom k s t) (hc : t.cluster .service (nameOf app k) = s.cluster .service (nameOf app k)) :
    ServicePhase app k t port calls := by
  cases h with
  | ahead hb ha hn hports hagrees => exact .ahead hb ha hn hports (hagrees.mono hp hc)
  | made hs he => exact .made hs (he.mono hc)

theorem ThreadPort.mono {s t : System} {port : ℤ} {thread : Thread} (h : ThreadPort app k s port thread)
    (hp : PortsFrom k s t) (hc : t.cluster .service (nameOf app k) = s.cluster .service (nameOf app k)) :
    ThreadPort app k t port thread := by
  cases thread with
  | running call rest => exact ServicePhase.mono h hp hc
  | returned ready => exact Exposes.mono h hc
  | raised error => exact PortAgrees.mono h hp hc

theorem ServicePhase.effect {s : System} {port : ℤ} {call : Call} {rest : List Call} {cluster : Cluster}
    (h : ServicePhase app k s port (call :: rest)) (hc : cluster = call.effect s.cluster) (loop : Loop) :
    ServicePhase app k { s with cluster := cluster, loop := loop } port rest := by
  generalize hcalls : call :: rest = calls at h
  cases h with
  | @ahead before after service hb ha hn hports hagrees =>
    cases before with
    | nil =>
      obtain ⟨rfl, rfl⟩ := List.cons.inj hcalls
      refine .made ha ?_
      rw [hc, ← hn]
      exact exposes_apply _ hports
    | cons x before =>
      obtain ⟨rfl, rfl⟩ := List.cons.inj hcalls
      refine .ahead (fun y hy => hb y (List.mem_cons_of_mem _ hy)) ha hn hports (hagrees.mono (.of_demos rfl) ?_)
      rw [hc]
      exact (hb call (List.mem_cons_self ..)).1.effect ..
  | made hs he =>
    subst hcalls
    refine .made (fun y hy => hs y (List.mem_cons_of_mem _ hy)) (he.mono ?_)
    rw [hc]
    exact (hs call (List.mem_cons_self ..)).effect ..

/-- An attempt given up: the row and the Service agree when the Service call did not
take effect or would have changed nothing. -/
theorem ServicePhase.giveUp {s : System} {port : ℤ} {call : Call} {rest : List Call} {cluster : Cluster}
    {tookEffect : Bool} (h : ServicePhase app k s port (call :: rest))
    (hc : cluster = if tookEffect then call.effect s.cluster else s.cluster) (loop : Loop)
    (hkept : SamePort k s port ∨ (Thread.running call rest).ServiceKept tookEffect) :
    PortAgrees app k { s with cluster := cluster, loop := loop } := by
  have spares {x : Call} (hx : x.SparesService) (h : x = call) :
      cluster .service (nameOf app k) = s.cluster .service (nameOf app k) := by
    subst h
    rw [hc]
    split
    · exact hx.effect ..
    · rfl
  generalize hcalls : call :: rest = calls at h
  cases h with
  | @ahead before after service hb ha hn hports hagrees =>
    cases before with
    | nil =>
      obtain ⟨rfl, rfl⟩ := List.cons.inj hcalls
      cases tookEffect with
      | false => exact hagrees.mono (.of_demos rfl) (by rw [hc]; rfl)
      | true =>
        rcases hkept with hsame | ⟨service', hin⟩
        · refine SamePort.agrees (s := { s with cluster := cluster, loop := loop }) hsame ?_
          rw [← hn, hc]
          exact exposes_apply _ hports
        · exact absurd rfl (ha _ hin)
    | cons x before =>
      obtain ⟨rfl, rfl⟩ := List.cons.inj hcalls
      exact hagrees.mono (.of_demos rfl) (spares (hb _ (List.mem_cons_self ..)).1 rfl)
  | made hs he =>
    subst hcalls
    rcases hkept with hsame | ⟨service', hin⟩
    · exact SamePort.agrees (s := { s with cluster := cluster, loop := loop }) hsame
        (he.mono (spares (hs _ (List.mem_cons_self ..)) rfl))
    · have hmem : Call.apply (.service service') ∈ call :: rest := by
        cases tookEffect with
        | false => exact hin
        | true => exact List.mem_cons_of_mem _ hin
      exact absurd rfl (hs _ hmem)

theorem threadPort_ofCalls {s : System} {port : ℤ} {calls : List Call} (h : ServicePhase app k s port calls) :
    ThreadPort app k s port (.ofCalls calls) := by
  cases calls with
  | cons call rest => exact h
  | nil =>
    generalize hnil : ([] : List Call) = calls at h
    cases h with
    | ahead => simp at hnil
    | made _ he =>
      subst hnil
      exact he

theorem ServicePhase.step {s : System} {port : ℤ} {call : Call} {rest : List Call} {outcome : Outcome}
    {cluster : Cluster} {thread : Thread} (h : ServicePhase app k s port (call :: rest))
    (hs : Thread.step s.cluster call rest outcome = some (cluster, thread)) (loop : Loop)
    (hkept : ∀ error tookEffect, outcome = .failed error tookEffect →
      SamePort k s port ∨ (Thread.running call rest).ServiceKept tookEffect) :
    ThreadPort app k { s with cluster := cluster, loop := loop } port thread := by
  by_cases hf : ∃ error tookEffect, outcome = .failed error tookEffect
  · obtain ⟨error, tookEffect, rfl⟩ := hf
    cases hs
    exact h.giveUp rfl loop (hkept _ _ rfl)
  · rcases Thread.step_answered hs fun error tookEffect he => hf ⟨error, tookEffect, he⟩ with
      ⟨hc, rfl, hget⟩ | ⟨n, view, rfl, -, rfl, rfl⟩
    · exact threadPort_ofCalls (h.effect hc loop)
    · -- the read comes after the Service call
      generalize hcalls : Call.get n :: rest = calls at h
      cases h with
      | @ahead before _ _ hb _ _ _ _ =>
        cases before with
        | nil => cases hcalls
        | cons x before => exact absurd (List.cons.inj hcalls).1.symm ((hb x (List.mem_cons_self ..)).2 n)
      | made _ he => exact he

/-! ### Steps -/

theorem Stepped.portsFrom {s t : System} {es : List (Event app.cm)} {a : Action} (hs : Stepped app s a t es)
    (hk : ∀ record p ready todo now later, s.loop = .applying record p (.returned ready) todo →
      a = .resume now later → Store.bindable (some p.version.value) = true → record.key ≠ k) : PortsFrom k s t := by
  cases hs with
  | request hr =>
    intro row port hrow hport
    rcases hr.get k with ⟨hg, -⟩ | ⟨p, -, -, -, hg, -⟩
    · exact ⟨row, hg ▸ hrow, hport⟩
    · have hrow' := hg.symm.trans hrow
      rw [Option.some.injEq] at hrow'
      subst hrow'
      cases hold : s.api.store.demos.get k with
      | none =>
        rw [hold] at hport
        cases p <;> cases hport
      | some old =>
        rw [hold] at hport
        exact ⟨old, rfl, by cases p <;> exact hport⟩
  | list | project | callDelete | callApply | endPass | crash => exact .of_demos rfl
  | beginDelete | beginApply | vaultFailed | deleteFailed | applyFailed =>
    intro row port hrow hport
    obtain ⟨old, ho, ⟨-, rfl⟩ | ⟨-, rfl⟩⟩ := row_of_update hrow
    · exact ⟨old, ho, hport⟩
    · exact ⟨row, ho, hport⟩
  | deleted => exact fun row port hrow hport => ⟨row, Store.get_of_deleteRecord hrow, hport⟩
  | @applied record p ready todo _ _ _ hl hb =>
    intro row port hrow hport
    obtain ⟨old, ho, ⟨he, -⟩ | ⟨-, rfl⟩⟩ := row_of_update hrow
    · exact absurd he.symm (hk record p ready todo _ _ hl rfl hb)
    · exact ⟨row, ho, hport⟩

def PortState (app : App) (k : Key) (s : System) : Loop → Prop
  | .applying record p thread _ =>
    (record.key = k → ThreadPort app k s p.config.port thread) ∧ (record.key ≠ k → PortAgrees app k s)
  | .deleting record _ _ => record.key ≠ k ∧ PortAgrees app k s
  | _ => PortAgrees app k s

structure PortKept (app : App) (k : Key) (s : System) : Prop where
  working : Working app s.cluster s.loop
  port : PortState app k s s.loop

/-- What a run of deploys and reconciliations of the key does: the other demos have
names of their own, and no deletion of the key is started. -/
structure Reconciles (app : App) (k : Key) (s : System) (a : Action) : Prop where
  apart : ∀ record ∈ s.loop.held, record.key ≠ k → nameOf app record.key ≠ nameOf app k
  present : ∀ record todo now later, s.loop = .pass (record :: todo) → a = .begin now later → record.key = k →
    record.desiredPresent = true ∧ now < record.expiresAt

/-- The action does not give up an attempt for the key whose Service call took effect
and whose configuration has another port than the row: `reconcile` would return with a
call failed or a version that SQLite cannot bind. In a run with crashes a crash is one
more way to give an attempt up. -/
def KeepsPort (k : Key) (s : System) (a : Action) : Prop :=
  ∀ record p thread todo, s.loop = .applying record p thread todo → record.key = k →
    SamePort k s p.config.port ∨
    match a with
    | .call (.failed _ tookEffect) => thread.ServiceKept tookEffect
    | .crash tookEffect => thread.ServiceKept tookEffect
    | .resume _ _ => ∀ ready, thread = .returned ready → Store.bindable (some p.version.value) = true
    | _ => True

theorem PortState.mono {s t : System} {loop : Loop} (h : PortState app k s loop) (hp : PortsFrom k s t)
    (hc : t.cluster .service (nameOf app k) = s.cluster .service (nameOf app k)) : PortState app k t loop := by
  cases loop with
  | applying record p thread todo => exact ⟨fun hk => (h.1 hk).mono hp hc, fun hk => (h.2 hk).mono hp hc⟩
  | deleting record thread todo => exact ⟨h.1, h.2.mono hp hc⟩
  | idle | pass | loading => exact PortAgrees.mono h hp hc

theorem Reconciles.others {s : System} {a : Action} (hr : Reconciles app k s a) {record : DemoRecord} {call : Call}
    (hheld : record ∈ s.loop.held) (hk : record.key ≠ k) (hname : call.name = nameOf app record.key)
    {cluster : Cluster} (hc : cluster = s.cluster ∨ cluster = call.effect s.cluster) :
    cluster .service (nameOf app k) = s.cluster .service (nameOf app k) := by
  rcases hc with rfl | rfl
  · rfl
  · have hne : call.name ≠ nameOf app k := by
      rw [hname]
      exact hr.apart record hheld hk
    exact Call.effect_of_ne _ _ _ hne.symm

theorem crashedCluster_running {s : System} {record : DemoRecord} {p : VaultProject} {call : Call}
    {rest : List Call} {todo : List DemoRecord} (hl : s.loop = .applying record p (.running call rest) todo)
    (tookEffect : Bool) :
    s.crashedCluster tookEffect = if tookEffect then call.effect s.cluster else s.cluster := by
  cases tookEffect <;> simp [System.crashedCluster, hl]

theorem PortKept.crash_others {s : System} {a : Action} (h : PortKept app k s) (hr : Reconciles app k s a)
    (tookEffect : Bool) (hk : ∀ record p thread todo, s.loop = .applying record p thread todo → record.key ≠ k) :
    s.crashedCluster tookEffect .service (nameOf app k) = s.cluster .service (nameOf app k) := by
  obtain ⟨hw, hp⟩ := h
  rcases crashedCluster_cases s tookEffect with hc | ⟨record, call, rest, todo, hl, hc⟩ |
    ⟨record, p, call, rest, todo, hl, hc⟩
  · rw [hc]
  · have hheld := mem_held hl (List.mem_cons_self ..)
    rw [hl] at hw hp
    obtain ⟨kind, rfl⟩ := hw.1 _ (List.mem_cons_self ..)
    exact hr.others hheld hp.1 rfl (.inr hc)
  · have hheld := mem_held hl (List.mem_cons_self ..)
    have hne := hk _ _ _ _ hl
    rw [hl] at hw
    exact hr.others hheld hne (hw _ (List.mem_cons_self ..)) (.inr hc)

theorem PortKept.crash {s : System} {tookEffect : Bool} (h : PortKept app k s)
    (hr : Reconciles app k s (.crash tookEffect)) (hkeep : KeepsPort k s (.crash tookEffect)) :
    PortAgrees app k { s with cluster := s.crashedCluster tookEffect, loop := .idle } := by
  by_cases happly : ∃ record p thread todo, s.loop = .applying record p thread todo ∧ record.key = k
  · obtain ⟨record, p, thread, todo, hl, hk⟩ := happly
    have hkept := hkeep record p thread todo hl hk
    have hthread := h.port
    rw [hl] at hthread
    replace hthread := hthread.1 hk
    cases thread with
    | running call rest => exact ServicePhase.giveUp hthread (crashedCluster_running hl tookEffect) .idle hkept
    | returned ready =>
      have hsame : SamePort k s p.config.port := hkept.resolve_right id
      exact (hsame.agrees hthread).mono (.of_demos rfl) (by simp only [System.crashedCluster, hl])
    | raised error => exact PortAgrees.mono hthread (.of_demos rfl) (by simp only [System.crashedCluster, hl])
  · have hne : ∀ record p thread todo, s.loop = .applying record p thread todo → record.key ≠ k :=
      fun record p thread todo hl hk => happly ⟨record, p, thread, todo, hl, hk⟩
    have hagrees : PortAgrees app k s := by
      have hp := h.port
      cases hl : s.loop with
      | idle | pass | loading =>
        rw [hl] at hp
        exact hp
      | deleting =>
        rw [hl] at hp
        exact hp.2
      | applying record p thread todo =>
        rw [hl] at hp
        exact hp.2 (hne _ _ _ _ hl)
    exact hagrees.mono (.of_demos rfl) (h.crash_others hr tookEffect hne)

theorem PortKept.step {s t : System} {es : List (Event app.cm)} {a : Action} (h : PortKept app k s)
    (hs : Stepped app s a t es) (hr : Reconciles app k s a) (hkeep : KeepsPort k s a) : PortKept app k t := by
  refine ⟨Working.step hs h.working, ?_⟩
  obtain ⟨hw, hp⟩ := h
  have hst := hs
  cases hs with
  | request hr' => exact hp.mono (hst.portsFrom fun _ _ _ _ _ _ _ he => by cases he) rfl
  | list hl =>
    rw [hl] at hp
    exact PortAgrees.mono hp (.of_demos rfl) rfl
  | @beginDelete record todo now later hl hdel =>
    have hne : record.key ≠ k := by
      intro hk
      obtain ⟨hpresent, hlive⟩ := hr.present record todo now later hl rfl hk
      rcases hdel with hd | hd
      · rw [hd] at hpresent
        cases hpresent
      · omega
    rw [hl] at hp
    exact ⟨hne, PortAgrees.mono hp (hst.portsFrom fun _ _ _ _ _ _ _ he => by cases he) rfl⟩
  | beginApply hl _ _ =>
    rw [hl] at hp
    exact PortAgrees.mono hp (hst.portsFrom fun _ _ _ _ _ _ _ he => by cases he) rfl
  | @project record todo p now later health hl _ =>
    rw [hl] at hp
    refine ⟨fun hk => ?_, fun _ => PortAgrees.mono hp (.of_demos rfl) rfl⟩
    obtain ⟨before, after, hcalls, hb, ha⟩ := applyCalls_split (app.rendered record p)
    have hphase : ServicePhase app k s p.config.port (applyCalls (app.rendered record p)) := by
      rw [hcalls]
      exact .ahead hb ha (hk ▸ rfl) rfl hp
    exact threadPort_ofCalls (hphase.mono (.of_demos rfl) rfl)
  | vaultFailed hl _ =>
    rw [hl] at hp
    exact PortAgrees.mono hp (hst.portsFrom fun _ _ _ _ _ _ _ he => by cases he) rfl
  | callDelete hl hstep =>
    have hheld := mem_held hl (List.mem_cons_self ..)
    rw [hl] at hp hw
    obtain ⟨kind, rfl⟩ := hw.1 _ (List.mem_cons_self ..)
    exact ⟨hp.1, hp.2.mono (.of_demos rfl) (hr.others hheld hp.1 rfl (Thread.step_cluster hstep))⟩
  | @callApply record p call rest todo outcome cluster thread hl hstep =>
    have hheld := mem_held hl (List.mem_cons_self ..)
    have hkept := hkeep record p _ todo hl
    rw [hl] at hp hw
    refine ⟨fun hk => ServicePhase.step (hp.1 hk) hstep _ ?_, fun hk => ?_⟩
    · rintro error tookEffect rfl
      exact hkept hk
    · have hname := hw _ (List.mem_cons_self ..)
      exact (hp.2 hk).mono (.of_demos rfl) (hr.others hheld hk hname (Thread.step_cluster hstep))
  | deleted hl | deleteFailed hl =>
    rw [hl] at hp
    exact hp.2.mono (hst.portsFrom fun _ _ _ _ _ _ hl' => by cases hl.symm.trans hl') rfl
  | @applied record p ready todo now later health hl hb =>
    rw [hl] at hp
    by_cases hk : record.key = k
    · intro row port hrow hport
      obtain ⟨old, -, ⟨-, rfl⟩ | ⟨hne, -⟩⟩ := row_of_update hrow
      · cases hport
        exact hp.1 hk
      · exact absurd hk.symm hne
    · refine (hp.2 hk).mono (hst.portsFrom fun _ _ _ _ _ _ hl' _ _ => ?_) rfl
      cases hl.symm.trans hl'
      exact hk
  | @applyFailed record p thread todo now later health message hl he hb =>
    have hports : PortsFrom k s _ := hst.portsFrom fun _ _ ready _ _ _ hl' _ hb' => by
      cases hl.symm.trans hl'
      rw [hb ready rfl] at hb'
      cases hb'
    have hkept := hkeep record p thread todo hl
    rw [hl] at hp
    by_cases hk : record.key = k
    · have hagrees : PortAgrees app k s := by
        have hthread := hp.1 hk
        cases he with
        | raised error => exact hthread
        | returned ready =>
          rcases hkept hk with hsame | hbind
          · exact hsame.agrees hthread
          · have hb' := hbind ready rfl
            rw [hb ready rfl] at hb'
            cases hb'
      exact hagrees.mono hports rfl
    · exact (hp.2 hk).mono hports rfl
  | endPass hl =>
    rw [hl] at hp
    exact PortAgrees.mono hp (.of_demos rfl) rfl
  | crash => exact (PortKept.crash ⟨hw, hp⟩ hr hkeep).mono (.of_demos rfl) rfl

/-! ### Attempts given up after the Service call -/

theorem ServicePhase.exposes {s : System} {port : ℤ} {call : Call} {rest : List Call} {tookEffect : Bool}
    (h : ServicePhase app k s port (call :: rest)) (hn : ¬ (Thread.running call rest).ServiceKept tookEffect) :
    Exposes (if tookEffect then call.effect s.cluster else s.cluster) (nameOf app k) port := by
  generalize hcalls : call :: rest = calls at h
  cases h with
  | @ahead before after service hb ha hname hports hagrees =>
    -- the Service call is the one that took effect
    have hmem : Call.apply (.service service) ∈ call :: rest := by
      rw [hcalls]
      exact List.mem_append_right _ (List.mem_cons_self ..)
    cases tookEffect with
    | false => exact absurd ⟨service, hmem⟩ hn
    | true =>
      rcases List.mem_cons.mp hmem with rfl | hrest
      · rw [← hname]
        exact exposes_apply _ hports
      · exact absurd ⟨service, hrest⟩ hn
  | made hs he =>
    subst hcalls
    cases tookEffect with
    | false => exact he
    | true => exact he.mono ((hs call (List.mem_cons_self ..)).effect ..)

theorem not_portAgrees {t : System} {row : DemoRecord} {port recorded : ℤ} (hrow : t.demos.get k = some row)
    (hport : row.port = some recorded) (hne : recorded ≠ port) (he : Exposes t.cluster (nameOf app k) port) :
    ¬ PortAgrees app k t := by
  intro hagrees
  obtain ⟨service, hservice, hports⟩ := he
  obtain ⟨service', hservice', hports'⟩ := hagrees row recorded hrow hport
  cases hservice.symm.trans hservice'
  exact hne (List.cons.inj (hports'.symm.trans hports)).1

theorem PortKept.broken {s t : System} {es : List (Event app.cm)} {a : Action} (h : PortKept app k s)
    (hs : Stepped app s a t es) (hkeep : ¬ KeepsPort k s a) : ¬ PortAgrees app k t := by
  unfold KeepsPort at hkeep
  push Not at hkeep
  obtain ⟨record, p, thread, todo, hl, hk, hsame, hend⟩ := hkeep
  unfold SamePort at hsame
  push Not at hsame
  obtain ⟨row, recorded, hrow, hport, hne⟩ := hsame
  have hthread := h.port
  rw [hl] at hthread
  replace hthread := hthread.1 hk
  cases hs with
  | @callApply _ _ _ _ _ outcome _ _ hl' hstep =>
    cases hl.symm.trans hl'
    cases outcome with
    | failed error tookEffect =>
      cases hstep
      exact not_portAgrees hrow hport hne (hthread.exposes hend)
    | done | notFound | got => exact absurd trivial hend
  | @crash tookEffect =>
    refine not_portAgrees hrow hport hne ?_
    cases thread with
    | running call rest =>
      have he := ServicePhase.exposes hthread hend
      rw [← crashedCluster_running hl] at he
      exact he
    | returned ready =>
      have he : Exposes s.cluster (nameOf app k) p.config.port := hthread
      simpa only [System.crashedCluster, hl] using he
    | raised error => exact absurd trivial hend
  | applied hl' hb =>
    cases hl.symm.trans hl'
    refine absurd (fun ready hr => ?_) hend
    exact hb
  | @applyFailed _ _ _ _ _ later _ message hl' he hb =>
    cases hl.symm.trans hl'
    dsimp only at hend
    push Not at hend
    obtain ⟨ready, rfl, -⟩ := hend
    have hrow' := update_get_self s record .failed message none none later (.pass todo)
    rw [hk, hrow] at hrow'
    exact not_portAgrees hrow' hport hne hthread
  | request | list | beginDelete | beginApply | project | vaultFailed | endPass => exact absurd trivial hend
  | callDelete hl' | deleted hl' | deleteFailed hl' => cases hl.symm.trans hl'

/-- In every run of deploys and reconciliations of a key that gives up no attempt with
another port after its Service call, whatever Vault configures and the calls answer, the
port of the row is the one the Service exposes whenever no attempt for the key is under
way; the first attempt given up that way makes them differ. -/
theorem service_port_agrees {cluster : Cluster} {clock : ℤ} {s : System} {h : List (Event app.cm)}
    (run : Run app.step (fun s _ a => Reconciles app k s a ∧ KeepsPort k s a)
      (System.initial cluster clock) [] s h) :
    ((∀ record p thread todo, s.loop = .applying record p thread todo → record.key ≠ k) → PortAgrees app k s) ∧
      ∀ a t es, app.step s a = some (t, es) → ¬ KeepsPort k s a → ¬ PortAgrees app k t := by
  have hkept : PortKept app k s := by
    refine run.invariant (I := fun s _ => PortKept app k s) ⟨trivial, ?_⟩ ?_
    · intro row port hr
      cases hr
    · rintro s h a t es hkept ⟨hr, hkeep⟩ hs
      exact hkept.step (stepped_of_step hs) hr hkeep
  refine ⟨fun hidle => ?_, fun a t es hs hkeep => hkept.broken (stepped_of_step hs) hkeep⟩
  have hp := hkept.port
  cases hl : s.loop with
  | idle | pass | loading =>
    rw [hl] at hp
    exact hp
  | deleting record thread todo =>
    rw [hl] at hp
    exact hp.2
  | applying record p thread todo =>
    rw [hl] at hp
    exact hp.2 (hidle record p thread todo hl)

/-! ### A new port -/

def reconcilesTest (k : Key) (s : System) (a : Action) : Bool :=
  s.loop.held.all (fun record => decide (record.key = k)) &&
    match s.loop, a with
    | .pass (record :: _), .begin now _ => record.desiredPresent && decide (now < record.expiresAt)
    | _, _ => true

def keepsPortTest (s : System) : Action → Bool
  | .call (.failed _ _) => false
  | .crash _ => false
  | .resume _ _ =>
    match s.loop with
    | .applying _ p _ _ => Store.bindable (some p.version.value)
    | _ => true
  | _ => true

theorem reconciles_of_test {s : System} {a : Action} (h : reconcilesTest k s a = true) : Reconciles app k s a := by
  simp only [reconcilesTest, Bool.and_eq_true, List.all_eq_true, decide_eq_true_eq] at h
  refine ⟨fun record hr hne => absurd (h.1 record hr) hne, ?_⟩
  rintro record todo now later hl rfl -
  have hlive := h.2
  rw [hl] at hlive
  simpa only [Bool.and_eq_true, decide_eq_true_eq] using hlive

theorem keepsPort_of_test {s : System} {a : Action} (h : keepsPortTest s a = true) : KeepsPort k s a := by
  intro record p thread todo hl _
  right
  cases a with
  | call outcome =>
    cases outcome with
    | failed => cases h
    | done | notFound | got => trivial
  | crash => cases h
  | resume =>
    simp only [keepsPortTest, hl] at h
    exact fun _ _ => h
  | request | list | begin | vault | endPass => trivial

/-- Vault moves the demo from port 8000 to 9000. -/
def movedProject : VaultProject := ⟨{ exampleConfig with port := 9000, port_ok := by decide }, .int 3⟩

/-- The Service is moved, the Deployment is not. -/
def movedActions : List Action :=
  deployAction "delivery-1" 100 :: applyActions 110 ++
    [.list, .begin 120 120, .vault (.project movedProject) 120 120, .call .done,
      .call (.failed ⟨"ApiError".toList, "quota exceeded".toList⟩ false), .resume 130 130]

theorem service_port_agrees_example : ∃ s h row,
    Run exampleApp.step (fun s _ a => Reconciles exampleApp exampleKey s a ∧ KeepsPort exampleKey s a)
      (System.initial (fun _ _ => none) 0) [] s h ∧
    s.demos.get exampleKey = some row ∧ row.port = some 8000 ∧ PortAgrees exampleApp exampleKey s := by
  have hb : (executeIf exampleApp.step (fun s _ a => reconcilesTest exampleKey s a && keepsPortTest s a)
      (deployAction "delivery-1" 100 :: applyActions 110) (System.initial (fun _ _ => none) 0) []).any (fun q =>
        q.1.loop.held.isEmpty && (q.1.demos.get exampleKey).any fun row => decide (row.port = some 8000)) = true := by
    decide +kernel
  simp only [Option.any_eq_true, Bool.and_eq_true, decide_eq_true_eq, List.isEmpty_iff] at hb
  obtain ⟨⟨s, h⟩, hr, hheld, row, hrow, hport⟩ := hb
  have run : Run exampleApp.step (fun s _ a => Reconciles exampleApp exampleKey s a ∧ KeepsPort exampleKey s a)
      (System.initial (fun _ _ => none) 0) [] s h := by
    refine Run.of_executeIf _ (fun s h a _ ht => ?_) .start hr
    rw [Bool.and_eq_true] at ht
    exact ⟨reconciles_of_test ht.1, keepsPort_of_test ht.2⟩
  refine ⟨s, h, row, run, hrow, hport, (service_port_agrees run).1 fun record p thread todo hl _ => ?_⟩
  rw [hl] at hheld
  cases hheld

/-- A failed move leaves a row with the old port over a Service with the new one. -/
theorem failed_move_breaks_route : ¬ ∀ (s : System) (h : List (Event exampleApp.cm)) (k : Key),
    Run exampleApp.step (fun s _ a => Reconciles exampleApp k s a) (System.initial (fun _ _ => none) 0) [] s h →
    (∀ record p thread todo, s.loop = .applying record p thread todo → record.key ≠ k) →
    PortAgrees exampleApp k s := by
  intro all
  have hb : (executeIf exampleApp.step (fun s _ a => reconcilesTest exampleKey s a) movedActions
      (System.initial (fun _ _ => none) 0) []).any (fun q => q.1.loop.held.isEmpty &&
        ((q.1.demos.get exampleKey).any fun row => decide (row.port = some 8000)) &&
        (q.1.cluster.service? (nameOf exampleApp exampleKey)).any fun service =>
          decide (service.ports.map ServicePort.port = [9000])) = true := by
    decide +kernel
  simp only [Option.any_eq_true, Bool.and_eq_true, decide_eq_true_eq, List.isEmpty_iff] at hb
  obtain ⟨⟨s, h⟩, hr, ⟨hheld, row, hrow, hport⟩, service, hservice, hports⟩ := hb
  have run : Run exampleApp.step (fun s _ a => Reconciles exampleApp exampleKey s a)
      (System.initial (fun _ _ => none) 0) [] s h :=
    Run.of_executeIf _ (fun _ _ _ _ ht => reconciles_of_test ht) .start hr
  have hagrees := all s h exampleKey run fun record p thread todo hl _ => by
    rw [hl] at hheld
    cases hheld
  exact not_portAgrees hrow hport (by decide) ⟨service, Cluster.of_service? hservice, hports⟩ hagrees

end DemoController
