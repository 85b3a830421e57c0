import DemoController.RouteRelation
import DemoController.StatusReport

/-!
# The hooks of the charm (`charm.py`)

Juju runs one hook at a time, with the configuration, the leadership and the answers of
Kubernetes and of the container as they are then. What a hook writes to a relation is kept
only when the hook does not end with an exception.
-/

namespace DemoController

open Lib

/-! ### State and hooks -/

/-- The databags the charm writes; Juju has keys of its own in that of the unit. -/
structure RelationData where
  id : ℕ
  app : Databag
  unit : Databag

inductive CharmStatus where
  | unknown
  | blocked (message : Text)
  | workload (status : UnitStatus)
  deriving DecidableEq

/-- `plan` is the environment of the service in the layer the charm has added. -/
structure CharmState where
  relations : List RelationData := []
  status : CharmStatus := .unknown
  plan : Option Environ := none

def CharmState.ids (s : CharmState) : List ℕ := s.relations.map RelationData.id

/-- What a hook finds: `output` is what `/statusz` looks like to the charm, `isRunning` the
service of the container; `replanError` and `bindingError` are the exceptions of `replan`
and of `get_binding` for a relation. -/
structure HookContext where
  unit : CharmUnit
  apiHostname : Text
  isLeader : Bool
  canConnect : Bool
  isRunning : Bool
  replanError : Option CharmException := none
  answers : ClientAnswers
  bindAddress : ℕ → Text
  bindingError : ℕ → Option CharmException := fun _ => none
  output : Except CharmException Body

inductive CharmEvent where
  | related (id : ℕ)
  | published (cx : HookContext) (endpoint : NodePortEndpoint)
  /-- a hook set the status, with these relations -/
  | settled (cx : HookContext) (ids : List ℕ) (status : CharmStatus)

/-- A hook in progress; the newest event comes first. -/
structure HookEnd where
  state : CharmState
  events : List CharmEvent := []
  raised : Option CharmException := none

namespace HookContext

variable (cm : CaseMapping) (cx : HookContext)

def route (endpoint : NodePortEndpoint) : Route :=
  ⟨endpoint, strip (· == '.') cx.apiHostname, strip (· == '.') cx.unit.config.hostnameSuffix⟩

def published (endpoint : NodePortEndpoint) (relation : RelationData) : RelationData :=
  { relation with
    app := (cx.route endpoint).databag
    unit := Dict.set relation.unit "address".toList (jsonText jsonChar (.str (cx.bindAddress relation.id))) }

/-- `self.unit.status = status`. -/
def settle (e : HookEnd) (status : CharmStatus) : HookEnd :=
  { e with
    state := { e.state with status }
    events := .settled cx e.state.ids status :: e.events }

def waiting (message : String) : CharmStatus := .workload (.waiting message.toList)

/-- `_set_workload_status`. -/
def setStatus (e : HookEnd) : HookEnd :=
  match setWorkloadStatus cx.output with
  | .ok status => cx.settle e (.workload status)
  | .error error => { e with raised := some error }

/-- `_publish_route`. -/
def publishRoute (s : CharmState) : Bool × HookEnd :=
  if !cx.isLeader then (false, { state := s })
  else
    match reconcileEndpoint cx.unit.app cx.answers with
    | .error .permission =>
      (false, cx.settle { state := s }
        (.blocked "Kubernetes API access denied; deploy this charm with --trust".toList))
    | .error (.api _) => (false, cx.settle { state := s } (waiting "waiting for controller NodePort"))
    | .error (.runtime _) => (false, cx.settle { state := s } (waiting "waiting for controller NodePort"))
    | .error (.other error) => (false, { state := s, raised := some (.other error) })
    | .ok endpoint =>
      match s.relations.findSome? fun relation => cx.bindingError relation.id with
      | some error => (false, { state := s, raised := some error })
      | none =>
        (true,
          { state := { s with relations := s.relations.map (cx.published endpoint) }
            events := [.published cx endpoint] })

def notConfigured : CharmStatus := .blocked "configure Vault AppRole and HMAC secrets".toList

/-- `_configure`. -/
def configure (s : CharmState) : HookEnd :=
  match cx.unit.environment cm with
  | none => cx.settle { state := s } notConfigured
  | some environment =>
    if !cx.canConnect then cx.settle { state := s } (waiting "waiting for controller container")
    else
      let s := { s with plan := some environment }
      match cx.replanError with
      | some error => { state := s, raised := some error }
      | none =>
        if s.relations.isEmpty then cx.settle { state := s } (waiting "waiting for haproxy-route relation")
        else
          let (done, e) := cx.publishRoute s
          if done then cx.setStatus e else e

/-- `_update_status`. -/
def updateStatus (s : CharmState) : HookEnd :=
  match cx.unit.environment cm with
  | none => cx.settle { state := s } notConfigured
  | some _ =>
    if !cx.canConnect then cx.settle { state := s } (waiting "waiting for controller container")
    else if !cx.isRunning then
      cx.settle { state := s } (.workload (.maintenance "controller service is not running".toList))
    else if s.relations.isEmpty then cx.settle { state := s } (waiting "waiting for haproxy-route relation")
    else if cx.isLeader then
      let (done, e) := cx.publishRoute s
      if done then cx.setStatus e else e
    else cx.setStatus { state := s }

end HookContext

/-- The end of a hook: Juju discards what a failed one wrote to the relations. -/
def HookEnd.commit (s : CharmState) (e : HookEnd) : CharmState × List CharmEvent :=
  if e.raised.isSome then ({ e.state with relations := s.relations }, []) else (e.state, e.events)

inductive CharmAction where
  /-- a relation is made, with what Juju puts into the databag of the unit -/
  | relate (id : ℕ) (unit : Databag)
  | unrelate (id : ℕ)
  | configure (cx : HookContext)
  | publishRoute (cx : HookContext)
  | updateStatus (cx : HookContext)

def charmStep (cm : CaseMapping) (s : CharmState) : CharmAction → Option (CharmState × List CharmEvent)
  | .relate id unit =>
    if id ∈ s.ids ∨ (unit.lookup "address".toList).isSome then none
    else some ({ s with relations := s.relations ++ [⟨id, [], unit⟩] }, [.related id])
  | .unrelate id => some ({ s with relations := s.relations.filter fun r => r.id != id }, [])
  | .configure cx => some ((cx.configure cm s).commit s)
  | .publishRoute cx => some ((cx.publishRoute s).2.commit s)
  | .updateStatus cx => some ((cx.updateStatus cm s).commit s)

/-! ### What a hook leaves behind -/

/-- The relations after a successful `_publish_route`. -/
def CharmState.publish (s : CharmState) (cx : HookContext) (endpoint : NodePortEndpoint) : CharmState :=
  { s with relations := s.relations.map (cx.published endpoint) }

structure Publishes (cx : HookContext) (endpoint : NodePortEndpoint) : Prop where
  leader : cx.isLeader = true
  endpoint : reconcileEndpoint cx.unit.app cx.answers = .ok endpoint

/-- What a hook has checked when it asks the controller for its status. -/
structure Checks (cm : CaseMapping) (cx : HookContext) (s : CharmState) (status : UnitStatus) : Prop where
  environment : (cx.unit.environment cm).isSome = true
  canConnect : cx.canConnect = true
  related : s.ids ≠ []
  status : setWorkloadStatus cx.output = .ok status

inductive Leaves (cm : CaseMapping) (cx : HookContext) (s : CharmState) : CharmState → List CharmEvent → Prop
  | nothing : Leaves cm cx s s []
  | settled {status} : status ≠ .workload .active → Leaves cm cx s { s with status } [.settled cx s.ids status]
  | published {endpoint} : Publishes cx endpoint →
      Leaves cm cx s (s.publish cx endpoint) [.published cx endpoint]
  | checked {status} : cx.isLeader = false → Checks cm cx s status →
      Leaves cm cx s { s with status := .workload status } [.settled cx s.ids (.workload status)]
  | publishedAndChecked {endpoint status} : Publishes cx endpoint → Checks cm cx s status →
      Leaves cm cx s { s.publish cx endpoint with status := .workload status }
        [.settled cx s.ids (.workload status), .published cx endpoint]

theorem published_id (cx : HookContext) (endpoint : NodePortEndpoint) (relation : RelationData) :
    (cx.published endpoint relation).id = relation.id := by
  simp only [HookContext.published]

theorem ids_publish (s : CharmState) (cx : HookContext) (endpoint : NodePortEndpoint) :
    (s.publish cx endpoint).ids = s.ids := by
  simp only [CharmState.ids, CharmState.publish, List.map_map]
  exact List.map_congr_left fun relation _ => published_id cx endpoint relation

section

variable {cm : CaseMapping} {cx : HookContext} {s : CharmState}

theorem leaves_publishRoute (cm : CaseMapping) (cx : HookContext) (s : CharmState) :
    Leaves cm cx s ((cx.publishRoute s).2.commit s).1 ((cx.publishRoute s).2.commit s).2 := by
  unfold HookContext.publishRoute
  split
  · exact .nothing
  · next hleader =>
    split
    · exact .settled nofun
    · exact .settled nofun
    · exact .settled nofun
    · exact .nothing
    · next endpoint he =>
      split
      · exact .nothing
      · exact .published ⟨by simpa using hleader, he⟩

/-- `_publish_route` succeeds, or it leaves what it would leave as a hook of its own. -/
theorem publishRoute_cases (cx : HookContext) (s : CharmState) :
    (∃ endpoint, Publishes cx endpoint ∧
      cx.publishRoute s = (true, { state := s.publish cx endpoint, events := [.published cx endpoint] })) ∨
    (cx.publishRoute s).1 = false := by
  unfold HookContext.publishRoute
  split
  · exact .inr rfl
  · next hleader =>
    split
    · exact .inr rfl
    · exact .inr rfl
    · exact .inr rfl
    · exact .inr rfl
    · next endpoint he =>
      split
      · exact .inr rfl
      · exact .inl ⟨endpoint, ⟨by simpa using hleader, he⟩, rfl⟩

/-- A hook that publishes the route and goes on to ask for the status. -/
theorem leaves_checked {s : CharmState} (he : (cx.unit.environment cm).isSome = true) (hc : cx.canConnect = true)
    (hs : s.ids ≠ []) :
    let e := if (cx.publishRoute s).1 then cx.setStatus (cx.publishRoute s).2 else (cx.publishRoute s).2
    Leaves cm cx s (e.commit s).1 (e.commit s).2 := by
  intro e
  rcases publishRoute_cases cx s with ⟨endpoint, hp, hroute⟩ | hroute
  · have he' : e = cx.setStatus { state := s.publish cx endpoint, events := [.published cx endpoint] } := by
      simp only [e, hroute, if_true]
    rw [he', HookContext.setStatus]
    split
    · next status hstatus =>
      have hleaves := Leaves.publishedAndChecked hp (Checks.mk he hc hs hstatus)
      rw [← ids_publish s cx endpoint] at hleaves
      exact hleaves
    · exact .nothing
  · have he' : e = (cx.publishRoute s).2 := if_neg (by rw [hroute]; exact Bool.false_ne_true)
    rw [he']
    exact leaves_publishRoute cm cx s

theorem ids_ne_nil (h : s.relations.isEmpty ≠ true) : s.ids ≠ [] := by
  intro hids
  rw [List.map_eq_nil_iff.mp hids] at h
  exact h rfl

theorem leaves_updateStatus (cm : CaseMapping) (cx : HookContext) (s : CharmState) :
    Leaves cm cx s ((cx.updateStatus cm s).commit s).1 ((cx.updateStatus cm s).commit s).2 := by
  unfold HookContext.updateStatus
  split
  · exact .settled nofun
  · next environment he =>
    have hsome : (cx.unit.environment cm).isSome = true := by rw [he]; rfl
    split
    · exact .settled nofun
    · next hc =>
      split
      · exact .settled nofun
      · split
        · exact .settled nofun
        · next hs =>
          have hc' : cx.canConnect = true := by simpa using hc
          split
          · exact leaves_checked hsome hc' (ids_ne_nil hs)
          · next hleader =>
            rw [HookContext.setStatus]
            split
            · next status hstatus =>
              exact .checked (by simpa using hleader) ⟨hsome, hc', ids_ne_nil hs, hstatus⟩
            · exact .nothing

theorem leaves_configure (cm : CaseMapping) (cx : HookContext) (s : CharmState) :
    ∃ plan, Leaves cm cx { s with plan } ((cx.configure cm s).commit s).1 ((cx.configure cm s).commit s).2 := by
  unfold HookContext.configure
  split
  · exact ⟨s.plan, .settled nofun⟩
  · next environment he =>
    have hsome : (cx.unit.environment cm).isSome = true := by rw [he]; rfl
    split
    · exact ⟨s.plan, .settled nofun⟩
    · next hc =>
      refine ⟨some environment, ?_⟩
      dsimp only
      split
      · exact .nothing
      · split
        · exact .settled nofun
        · next hs =>
          have hplan : CharmState.ids { s with plan := some environment } ≠ [] := ids_ne_nil hs
          exact leaves_checked hsome (by simpa using hc) hplan

end

/-! ### The relations over a run -/

/-- The last successful publication since the relation was made. -/
def lastPublished (id : ℕ) : List CharmEvent → Option (HookContext × NodePortEndpoint)
  | [] => none
  | .related i :: h => if i = id then none else lastPublished id h
  | .published cx endpoint :: _ => some (cx, endpoint)
  | .settled _ _ _ :: h => lastPublished id h

def RelationData.address (relation : RelationData) : Option Text := relation.unit.lookup "address".toList

def RelationData.Told (relation : RelationData) (h : List CharmEvent) : Prop :=
  match lastPublished relation.id h with
  | none => relation.app = [] ∧ relation.address = none
  | some (cx, endpoint) => Publishes cx endpoint ∧ relation.app = (cx.route endpoint).databag ∧
      relation.address = some (jsonText jsonChar (.str (cx.bindAddress relation.id)))

theorem RelationData.told_published (relation : RelationData) (h : List CharmEvent) {cx : HookContext}
    {endpoint : NodePortEndpoint} (hp : Publishes cx endpoint) :
    (cx.published endpoint relation).Told (.published cx endpoint :: h) := by
  refine ⟨hp, ?_, ?_⟩
  · simp only [HookContext.published]
  · rw [published_id]
    exact Dict.lookup_set

theorem RelationData.Told.settled {relation : RelationData} {h : List CharmEvent} (ht : relation.Told h)
    (cx : HookContext) (ids : List ℕ) (status : CharmStatus) : relation.Told (.settled cx ids status :: h) := ht

theorem RelationData.Told.related {relation : RelationData} {h : List CharmEvent} (ht : relation.Told h) {id : ℕ}
    (hid : id ≠ relation.id) : relation.Told (.related id :: h) := by
  unfold RelationData.Told
  rw [lastPublished, if_neg hid]
  exact ht

theorem told_publish (s : CharmState) (h : List CharmEvent) {cx : HookContext} {endpoint : NodePortEndpoint}
    (hp : Publishes cx endpoint) :
    ∀ relation ∈ (s.publish cx endpoint).relations, relation.Told (.published cx endpoint :: h) := by
  intro relation hrelation
  obtain ⟨old, -, rfl⟩ := List.mem_map.mp hrelation
  exact old.told_published h hp

theorem Leaves.told {cm : CaseMapping} {cx : HookContext} {s t : CharmState} {h es : List CharmEvent}
    (hl : Leaves cm cx s t es) (ht : ∀ relation ∈ s.relations, relation.Told h) :
    ∀ relation ∈ t.relations, relation.Told (es ++ h) := by
  cases hl with
  | nothing => exact ht
  | settled | checked => exact fun relation hr => (ht relation hr).settled ..
  | published hp => exact told_publish s h hp
  | publishedAndChecked hp => exact fun relation hr => (told_publish s h hp relation hr).settled ..

theorem told_step {cm : CaseMapping} {s t : CharmState} {h es : List CharmEvent} {a : CharmAction}
    (ht : ∀ relation ∈ s.relations, relation.Told h) (hs : charmStep cm s a = some (t, es)) :
    ∀ relation ∈ t.relations, relation.Told (es ++ h) := by
  cases a with
  | relate id unit =>
    simp only [charmStep] at hs
    split at hs
    · cases hs
    · next hnew =>
      cases hs
      obtain ⟨hid, haddress⟩ := not_or.mp hnew
      intro relation hr
      rcases List.mem_append.mp hr with hr | hr
      · exact (ht relation hr).related fun he => hid (he ▸ List.mem_map_of_mem hr)
      · rw [List.mem_singleton.mp hr]
        unfold RelationData.Told
        rw [List.singleton_append, lastPublished, if_pos rfl]
        exact ⟨rfl, Option.not_isSome_iff_eq_none.mp haddress⟩
  | unrelate id =>
    cases hs
    exact fun relation hr => ht relation (List.mem_filter.mp hr).1
  | configure cx =>
    obtain ⟨plan, hl⟩ := leaves_configure cm cx s
    rw [Option.some.inj hs] at hl
    exact hl.told ht
  | publishRoute cx =>
    have hl := leaves_publishRoute cm cx s
    rw [Option.some.inj hs] at hl
    exact hl.told ht
  | updateStatus cx =>
    have hl := leaves_updateStatus cm cx s
    rw [Option.some.inj hs] at hl
    exact hl.told ht

/-- In every state of every run of hooks, whatever Kubernetes answers, whoever leads and
whichever hooks fail, a relation reads as the last route that a leader has published since
the relation was made, complete and with the port and the addresses of one answer, and with
the unit's address; before that it has neither. -/
theorem relation_tells_last_route {cm : CaseMapping} {s : CharmState} {h : List CharmEvent}
    (run : Run (charmStep cm) anyStep {} [] s h) {relation : RelationData} (hr : relation ∈ s.relations) :
    match lastPublished relation.id h with
    | none => relation.app = [] ∧ relation.address = none
    | some (cx, endpoint) => cx.isLeader = true ∧ reconcileEndpoint cx.unit.app cx.answers = .ok endpoint ∧
        relation.app.read = some (cx.route endpoint).data ∧
        relation.address.bind loads = some (.str (cx.bindAddress relation.id)) := by
  have htold : ∀ relation ∈ s.relations, relation.Told h := by
    refine run.invariant (I := fun (s : CharmState) h => ∀ relation ∈ s.relations, relation.Told h) nofun ?_
    intro s h a t es ht _ hs
    exact told_step ht hs
  have ht := htold relation hr
  unfold RelationData.Told at ht
  split at ht
  · exact ht
  · next cx endpoint he =>
    obtain ⟨hp, happ, hunit⟩ := ht
    refine ⟨hp.leader, hp.endpoint, ?_, ?_⟩
    · rw [happ]
      exact (cx.route endpoint).read_databag
    · rw [hunit, Option.bind_some]
      exact (loads_readable (Json.readable_of_isPlain (v := .str _) rfl)).2.1

def exampleNodes : List Node :=
  [⟨some [some ⟨"Hostname".toList, "node-1".toList⟩, some ⟨"InternalIP".toList, "10.10.0.3".toList⟩]⟩, ⟨none⟩,
    ⟨some [none, some ⟨"InternalIP".toList, "10.10.0.2".toList⟩, some ⟨"InternalIP".toList, "10.10.0.3".toList⟩]⟩]

/-- A hook of the leader with these answers, while the controller reports that all is well. -/
def exampleHook (answers : ClientAnswers) : HookContext where
  unit := exampleUnit
  apiHostname := "demos-controller.test.".toList
  isLeader := true
  canConnect := true
  isRunning := true
  answers
  bindAddress _ := "10.0.0.5".toList
  output := .ok (.json (controllerStatus (System.initial (fun _ _ => none) 0) .running true).content)

def exampleClientAnswers : ClientAnswers := ⟨.ok (), .ok ⟨[some 30080], fun n hn => by simp_all⟩, .ok exampleNodes⟩

/-- The route is published; then Kubernetes refuses the charm, and a second relation is made. -/
def exampleHooks : List CharmAction :=
  [.relate 7 [("ingress-address".toList, "10.1.2.3".toList)], .configure (exampleHook exampleClientAnswers),
    .publishRoute (exampleHook { exampleClientAnswers with applied := .error (.api 403) }), .relate 8 []]

theorem relation_tells_last_route_example : ∃ s h, ∃ relation ∈ CharmState.relations s, ∃ cx endpoint,
    execute (charmStep .ascii) exampleHooks {} [] = some (s, h) ∧
    lastPublished relation.id h = some (cx, endpoint) ∧ endpoint.hosts = ["10.10.0.2".toList, "10.10.0.3".toList] ∧
    relation.app.read = some (cx.route endpoint).data ∧ s.status ≠ .workload .active := by
  have hb : (execute (charmStep .ascii) exampleHooks {} []).any (fun q => q.1.relations.any (fun r =>
      (lastPublished r.id q.2).any fun x => x.2.hosts == ["10.10.0.2".toList, "10.10.0.3".toList]) &&
        decide (q.1.status ≠ .workload .active)) = true := by
    decide +kernel
  simp only [Option.any_eq_true, Bool.and_eq_true, List.any_eq_true, beq_iff_eq, decide_eq_true_eq] at hb
  obtain ⟨⟨s, h⟩, he, ⟨relation, hr, ⟨cx, endpoint⟩, hlast, hhosts⟩, hstatus⟩ := hb
  have run : Run (charmStep .ascii) anyStep {} [] s h :=
    Run.of_execute exampleHooks (fun _ _ _ _ => trivial) .start he
  have htold := relation_tells_last_route run hr
  rw [hlast] at htold
  exact ⟨s, h, relation, hr, cx, endpoint, he, hlast, hhosts, htold.2.2.1, hstatus⟩

/-! ### The status over a run -/

/-- The hook that set the status last, the relations it found, and the status. -/
def lastSettled : List CharmEvent → Option (HookContext × List ℕ × CharmStatus)
  | [] => none
  | .settled cx ids status :: _ => some (cx, ids, status)
  | .related _ :: h => lastSettled h
  | .published _ _ :: h => lastSettled h

theorem mem_of_lastSettled {h : List CharmEvent} {cx : HookContext} {ids : List ℕ} {status : CharmStatus}
    (hl : lastSettled h = some (cx, ids, status)) : .settled cx ids status ∈ h := by
  induction h with
  | nil => cases hl
  | cons e h ih =>
    cases e with
    | settled cx' ids' status' =>
      cases hl
      exact List.mem_cons_self ..
    | related id => exact List.mem_cons_of_mem _ (ih hl)
    | published cx' endpoint => exact List.mem_cons_of_mem _ (ih hl)

/-- What a hook that made the unit active had checked and done. -/
structure ActiveCause (cm : CaseMapping) (cx : HookContext) (ids : List ℕ) (h : List CharmEvent) : Prop where
  environment : (cx.unit.environment cm).isSome = true
  canConnect : cx.canConnect = true
  related : ids ≠ []
  status : setWorkloadStatus cx.output = .ok .active
  published : cx.isLeader = true → ∃ endpoint, Publishes cx endpoint ∧ .published cx endpoint ∈ h

structure StatusKept (cm : CaseMapping) (s : CharmState) (h : List CharmEvent) : Prop where
  status : s.status = (lastSettled h).elim .unknown fun x => x.2.2
  active : ∀ cx ids, .settled cx ids (.workload .active) ∈ h → ActiveCause cm cx ids h

theorem ActiveCause.later {cm : CaseMapping} {cx : HookContext} {ids : List ℕ} {h : List CharmEvent}
    (hc : ActiveCause cm cx ids h) (es : List CharmEvent) : ActiveCause cm cx ids (es ++ h) :=
  { hc with
    published := fun hl => by
      obtain ⟨endpoint, hp, hin⟩ := hc.published hl
      exact ⟨endpoint, hp, List.mem_append_right es hin⟩ }

theorem Leaves.statusKept {cm : CaseMapping} {cx : HookContext} {s t : CharmState} {h es : List CharmEvent}
    (hl : Leaves cm cx s t es) (hk : StatusKept cm s h) : StatusKept cm t (es ++ h) := by
  have hold (cx : HookContext) (ids : List ℕ) (hin : .settled cx ids (.workload .active) ∈ h) :
      ActiveCause cm cx ids (es ++ h) := (hk.active cx ids hin).later es
  cases hl with
  | nothing => exact hk
  | settled hs =>
    refine ⟨rfl, fun cx' ids hin => ?_⟩
    rcases List.mem_cons.mp hin with he | hin
    · cases he
      exact absurd rfl hs
    · exact hold cx' ids hin
  | published hp =>
    refine ⟨hk.status, fun cx' ids hin => ?_⟩
    rcases List.mem_cons.mp hin with he | hin
    · cases he
    · exact hold cx' ids hin
  | checked hleader hc =>
    refine ⟨rfl, fun cx' ids hin => ?_⟩
    rcases List.mem_cons.mp hin with he | hin
    · cases he
      refine ⟨hc.environment, hc.canConnect, hc.related, hc.status, fun hl => ?_⟩
      rw [hleader] at hl
      cases hl
    · exact hold cx' ids hin
  | @publishedAndChecked endpoint status hp hc =>
    refine ⟨rfl, fun cx' ids hin => ?_⟩
    rcases List.mem_cons.mp hin with he | hin
    · cases he
      exact ⟨hc.environment, hc.canConnect, hc.related, hc.status, fun _ => ⟨endpoint, hp, by simp⟩⟩
    · rcases List.mem_cons.mp hin with he | hin
      · cases he
      · exact hold cx' ids hin

theorem statusKept_initial (cm : CaseMapping) : StatusKept cm {} [] :=
  ⟨rfl, fun _ _ hin => absurd hin List.not_mem_nil⟩

theorem statusKept_step {cm : CaseMapping} {s t : CharmState} {h es : List CharmEvent} {a : CharmAction}
    (hk : StatusKept cm s h) (hs : charmStep cm s a = some (t, es)) : StatusKept cm t (es ++ h) := by
  cases a with
  | relate id unit =>
    simp only [charmStep] at hs
    split at hs
    · cases hs
    · cases hs
      refine ⟨hk.status, fun cx ids hin => ?_⟩
      rcases List.mem_cons.mp hin with he | hin
      · cases he
      · exact (hk.active cx ids hin).later [.related id]
  | unrelate id =>
    cases hs
    exact ⟨hk.status, hk.active⟩
  | configure cx =>
    obtain ⟨plan, hl⟩ := leaves_configure cm cx s
    rw [Option.some.inj hs] at hl
    exact hl.statusKept ⟨hk.status, hk.active⟩
  | publishRoute cx =>
    have hl := leaves_publishRoute cm cx s
    rw [Option.some.inj hs] at hl
    exact hl.statusKept hk
  | updateStatus cx =>
    have hl := leaves_updateStatus cm cx s
    rw [Option.some.inj hs] at hl
    exact hl.statusKept hk

/-- Whenever the unit is active, the hook that set the status last found a complete
environment, the container and a relation, has published the route if it was the leader's,
and has read from the controller's `/statusz` an answer that was a 200. -/
theorem active_unit_checked {cm : CaseMapping} {s : CharmState} {h : List CharmEvent}
    (run : Run (charmStep cm) anyStep {} [] s h) (hactive : s.status = .workload .active) :
    ∃ cx ids, lastSettled h = some (cx, ids, .workload .active) ∧ (cx.unit.environment cm).isSome = true ∧
      cx.canConnect = true ∧ ids ≠ [] ∧
      (cx.isLeader = true → ∃ endpoint, reconcileEndpoint cx.unit.app cx.answers = .ok endpoint ∧
        .published cx endpoint ∈ h) ∧
      ∀ errors (controller : System) task readable, controller.Short →
        cx.output = probe errors (controllerStatus controller task readable).body →
        (controllerStatus controller task readable).statusCode = 200 := by
  have hkept : StatusKept cm s h := by
    refine run.invariant (I := fun (s : CharmState) h => StatusKept cm s h) (statusKept_initial cm) ?_
    intro s h a t es hk _ hs
    exact statusKept_step hk hs
  have hstatus := hkept.status
  rw [hactive] at hstatus
  cases hlast : lastSettled h with
  | none =>
    rw [hlast] at hstatus
    cases hstatus
  | some x =>
    obtain ⟨cx, ids, status⟩ := x
    rw [hlast] at hstatus
    dsimp only [Option.elim] at hstatus
    have hc := hkept.active cx ids (hstatus ▸ mem_of_lastSettled hlast)
    refine ⟨cx, ids, by rw [hstatus], hc.environment, hc.canConnect, hc.related, fun hl => ?_, ?_⟩
    · obtain ⟨endpoint, hp, hin⟩ := hc.published hl
      exact ⟨endpoint, hp.endpoint, hin⟩
    · intro errors controller task readable hshort hout
      have hread := hc.status
      rw [hout, probe_report errors hshort] at hread
      exact (active_iff_ok controller task readable).mp hread

theorem active_unit_checked_example : ∃ s h cx ids,
    execute (charmStep .ascii) (exampleHooks.take 2) {} [] = some (s, h) ∧ s.status = .workload .active ∧
    lastSettled h = some (cx, ids, .workload .active) ∧ ids ≠ [] ∧
    (cx.isLeader = true → ∃ endpoint, reconcileEndpoint cx.unit.app cx.answers = .ok endpoint ∧
      .published cx endpoint ∈ h) := by
  have hb : (execute (charmStep .ascii) (exampleHooks.take 2) {} []).any (fun q =>
      decide (q.1.status = .workload .active)) = true := by
    decide +kernel
  simp only [Option.any_eq_true, decide_eq_true_eq] at hb
  obtain ⟨⟨s, h⟩, he, hactive⟩ := hb
  have run : Run (charmStep .ascii) anyStep {} [] s h :=
    Run.of_execute (exampleHooks.take 2) (fun _ _ _ _ => trivial) .start he
  obtain ⟨cx, ids, hlast, -, -, hids, hpublished, -⟩ := active_unit_checked run hactive
  exact ⟨s, h, cx, ids, he, hactive, hlast, hids, hpublished⟩

end DemoController
