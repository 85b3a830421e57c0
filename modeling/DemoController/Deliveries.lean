import DemoController.Snapshot

/-!
# A delivery takes effect once

The row of a key remembers its latest delivery and the hash of its body, the
nonce table for a while every delivery. A retry meets the row's delivery and
changes nothing. A replay that meets another row, or none, is written again: the
law holds as long as no request of that kind passes the checks of the API.
-/

namespace DemoController

open Lib

variable {app : App}

/-- Every body of the run is among those for which the hash is collision free. -/
def bodyIn (bodies : Set Bytes) (a : Action) : Prop := ∀ b, a.body? = some b → b ∈ bodies

/-- A request with a delivery that was accepted before passes the checks of the API
only while the row of its key still carries the delivery. -/
def repeatsStored (app : App) (s : System) (h : List (Event app.cm)) (a : Action) : Prop :=
  ∀ endpoint req now later p op body, a = .request endpoint req now later →
    Admitted app s.api endpoint req now p → Event.accepted op p.key p.deliveryId body ∈ h →
    s.api.store.hasDelivery p.key p.deliveryId = true

/-- The request leaves what the row asks for as it is, and is rejected unless it is
the accepted delivery over again. -/
structure DeliveryKept (app : App) (s : System) (h : List (Event app.cm)) (endpoint : Endpoint)
    (req : HttpRequest) (now later : ℤ) (p : Payload app.cm) : Prop where
  desired : ((app.serve s.api endpoint req now later).1.store.demos.get p.key).map DemoRecord.desired =
    (s.demos.get p.key).map DemoRecord.desired
  same : (app.serve s.api endpoint req now later).2.1.isAccepted = true →
    ∀ op body, Event.accepted op p.key p.deliveryId body ∈ h → op = p.operation ∧ body = req.body

theorem payload_unique {endpoint endpoint' : Endpoint} {body : Bytes} {p q : Payload app.cm}
    (hp : app.payload? endpoint body = some p) (hq : app.payload? endpoint' body = some q) : p = q := by
  cases endpoint with
  | demoStatus => cases hp
  | deploy =>
    obtain ⟨r, hr, rfl⟩ := Option.map_eq_some_iff.mp hp
    cases endpoint' with
    | demoStatus => cases hq
    | deploy =>
      obtain ⟨r', hr', rfl⟩ := Option.map_eq_some_iff.mp hq
      rw [hr] at hr'
      cases hr'
      rfl
    | destroy =>
      obtain ⟨r', hr', rfl⟩ := Option.map_eq_some_iff.mp hq
      rw [not_deploy_and_destroy hr] at hr'
      cases hr'
  | destroy =>
    obtain ⟨r, hr, rfl⟩ := Option.map_eq_some_iff.mp hp
    cases endpoint' with
    | demoStatus => cases hq
    | destroy =>
      obtain ⟨r', hr', rfl⟩ := Option.map_eq_some_iff.mp hq
      rw [hr] at hr'
      cases hr'
      rfl
    | deploy =>
      obtain ⟨r', hr', rfl⟩ := Option.map_eq_some_iff.mp hq
      rw [not_deploy_and_destroy hr'] at hr
      cases hr

/-- The accepted deliveries of a run are bound to their bodies, and each row carries
one of them. -/
structure Bound (bodies : Set Bytes) (s : System) (h : List (Event app.cm)) : Prop where
  read : ∀ op k d body, Event.accepted op k d body ∈ h → body ∈ bodies ∧ ∃ endpoint p,
    app.payload? endpoint body = some p ∧ p.operation = op ∧ p.key = k ∧ p.deliveryId = d
  once : ∀ op op' k d body body', Event.accepted op k d body ∈ h → Event.accepted op' k d body' ∈ h →
    body = body'
  row : ∀ k row, s.demos.get k = some row →
    ∃ op body, Event.accepted op k row.deliveryId body ∈ h ∧ row.requestHash = sha256 body

theorem Bound.operation {bodies : Set Bytes} {s : System} {h : List (Event app.cm)} (hb : Bound bodies s h)
    {op : Operation} {k : Key} {d : Text} {endpoint : Endpoint} {body : Bytes} {p : Payload app.cm}
    (ha : Event.accepted op k d body ∈ h) (hp : app.payload? endpoint body = some p) : op = p.operation := by
  obtain ⟨-, endpoint', q, hq, hop, -⟩ := hb.read _ _ _ _ ha
  rw [← hop, payload_unique hq hp]

theorem delivery_of_desired {row old : DemoRecord} (h : row.desired = old.desired) :
    row.deliveryId = old.deliveryId ∧ row.requestHash = old.requestHash := by
  simp only [DemoRecord.desired, Prod.mk.injEq] at h
  exact ⟨h.1, h.2.1⟩

theorem Bound.repeated {bodies : Set Bytes} {s : System} {h : List (Event app.cm)} (hb : Bound bodies s h)
    (inj : Set.InjOn sha256 bodies) {endpoint : Endpoint} {body : Bytes} {p : Payload app.cm} {row : DemoRecord}
    (hm : body ∈ bodies) (hp : app.payload? endpoint body = some p) (hr : s.demos.get p.key = some row)
    (hd : row.deliveryId = p.deliveryId) (hh : row.requestHash = sha256 body) :
    Event.accepted p.operation p.key p.deliveryId body ∈ h := by
  obtain ⟨op, stored, ha, hs⟩ := hb.row _ _ hr
  have he : stored = body := inj (hb.read _ _ _ _ ha).1 hm (hs.symm.trans hh)
  subst he
  rw [← hb.operation ha hp, ← hd]
  exact ha

theorem Bound.request {bodies : Set Bytes} {s : System} {h : List (Event app.cm)} (hb : Bound bodies s h)
    (inj : Set.InjOn sha256 bodies) {endpoint : Endpoint} {req : HttpRequest} {now later : ℤ}
    {api : ApiState} {r : Response} {es : List (Event app.cm)}
    (hs : Served app s.api endpoint req now later api r es) (hm : req.body ∈ bodies)
    (hc : repeatsStored app s h (.request endpoint req now later)) :
    Bound bodies { s with api := api, clock := later } (es ++ h) := by
  have hold_row (hd : api.store.demos = s.api.store.demos) {k : Key} {row : DemoRecord}
      (hr : api.store.demos.get k = some row) : s.demos.get k = some row := by
    rwa [hd] at hr
  cases hs with
  | quiet hd _ => exact ⟨hb.read, hb.once, fun k row hr => hb.row k row (hold_row hd hr)⟩
  | repeated p row ha hr hid hh hd _ =>
    have hold := hb.repeated inj hm ha.payload hr hid hh
    have hin {op k d body} (he : Event.accepted op k d body ∈
        [Event.accepted p.operation p.key p.deliveryId req.body] ++ h) : Event.accepted op k d body ∈ h := by
      rcases List.mem_append.mp he with he | he
      · rw [List.mem_singleton.mp he]
        exact hold
      · exact he
    exact ⟨fun op k d body he => hb.read op k d body (hin he),
      fun op op' k d body body' he he' => hb.once op op' k d body body' (hin he) (hin he'),
      fun k row hrow => by
        obtain ⟨op, body, he, hs⟩ := hb.row k row (hold_row hd hrow)
        exact ⟨op, body, List.mem_append_right _ he, hs⟩⟩
  | effective p ha hn hd _ =>
    have hin {op k d body} (he : Event.accepted op k d body ∈
        [Event.accepted p.operation p.key p.deliveryId req.body,
          .store (p.event (sha256 req.body) later)] ++ h) :
        (op = p.operation ∧ k = p.key ∧ d = p.deliveryId ∧ body = req.body) ∨
          Event.accepted op k d body ∈ h := by
      simpa [or_assoc] using he
    have hnew {op body} (he : Event.accepted op p.key p.deliveryId body ∈ h) : False := by
      rw [hc endpoint req now later p op body rfl ha he] at hn
      cases hn
    refine ⟨fun op k d body he => ?_, fun op op' k d body body' he he' => ?_, fun k row hrow => ?_⟩
    · rcases hin he with ⟨rfl, rfl, rfl, rfl⟩ | he
      · exact ⟨hm, endpoint, p, ha.payload, rfl, rfl, rfl⟩
      · exact hb.read op k d body he
    · rcases hin he with ⟨rfl, rfl, rfl, rfl⟩ | he <;> rcases hin he' with ⟨rfl, hk, hd', rfl⟩ | he'
      · rfl
      · exact (hnew he').elim
      · subst hk hd'
        exact (hnew he).elim
      · exact hb.once op op' k d body body' he he'
    · have hrow' : api.store.demos.get k = some row := hrow
      rw [hd] at hrow'
      by_cases hk : k = p.key
      · subst hk
        rw [Payload.get_write_self, Option.some.injEq] at hrow'
        obtain ⟨h1, h2, -⟩ := p.rowAfter_delivery (sha256 req.body) later (s.api.store.demos.get p.key)
        rw [hrow'] at h1 h2
        exact ⟨p.operation, req.body, by rw [h1]; exact List.mem_cons_self .., h2⟩
      · rw [Payload.get_write_of_ne _ _ _ _ hk] at hrow'
        obtain ⟨op, body, he, hs⟩ := hb.row k row hrow'
        exact ⟨op, body, List.mem_append_right _ he, hs⟩

theorem Bound.step {bodies : Set Bytes} {s t : System} {h es : List (Event app.cm)} {a : Action}
    (hb : Bound bodies s h) (inj : Set.InjOn sha256 bodies) (hs : Stepped app s a t es) (hm : bodyIn bodies a)
    (hc : repeatsStored app s h a) : Bound bodies t (es ++ h) := by
  by_cases hr : ∃ endpoint req now later, a = .request endpoint req now later
  · obtain ⟨endpoint, req, now, later, rfl⟩ := hr
    cases hs with
    | request hs => exact hb.request inj hs (hm _ rfl) hc
  · obtain ⟨hrows, hes⟩ := hs.desired_of_internal fun endpoint req now later e => hr ⟨_, _, _, _, e⟩
    have hin {op k d body} (he : Event.accepted op k d body ∈ es ++ h) : Event.accepted op k d body ∈ h :=
      (List.mem_append.mp he).resolve_left (hes op k d body)
    refine ⟨fun op k d body he => hb.read op k d body (hin he),
      fun op op' k d body body' he he' => hb.once op op' k d body body' (hin he) (hin he'),
      fun k row hrow => ?_⟩
    obtain ⟨old, hold, hd⟩ := hrows k row hrow
    obtain ⟨op, body, he, hs⟩ := hb.row k old hold
    obtain ⟨h1, h2⟩ := delivery_of_desired hd
    exact ⟨op, body, List.mem_append_right _ (h1 ▸ he), h2.trans hs⟩

/-- A request with a delivery that was accepted before keeps it exactly when it does
not pass the checks, or the row still carries it. -/
theorem Bound.kept_iff {bodies : Set Bytes} {s : System} {h : List (Event app.cm)} (hb : Bound bodies s h)
    (inj : Set.InjOn sha256 bodies) {endpoint : Endpoint} {req : HttpRequest} {now later : ℤ}
    {p : Payload app.cm} (hm : req.body ∈ bodies) (hp : app.payload? endpoint req.body = some p)
    {op : Operation} {body : Bytes} (ha : Event.accepted op p.key p.deliveryId body ∈ h) :
    DeliveryKept app s h endpoint req now later p ↔
      repeatsStored app s h (.request endpoint req now later) := by
  constructor
  · intro hk endpoint' req' now' later' q op' body' he hadm _
    cases he
    have hq : q = p := payload_unique hadm.payload hp
    subst hq
    cases hd : s.api.store.hasDelivery q.key q.deliveryId with
    | true => rfl
    | false =>
      have hdes := hk.desired
      rw [serve_effective hadm hd, Payload.get_write_self] at hdes
      obtain ⟨old, hold, he⟩ := Option.map_eq_some_iff.mp hdes.symm
      have hid := (delivery_of_desired he).1
      rw [(q.rowAfter_delivery ..).1] at hid
      rw [← hd, Store.hasDelivery_iff]
      exact ⟨old, hold, hid⟩
  · intro hc
    have once {q : Payload app.cm} (hadm : Admitted app s.api endpoint req now q) : q = p ∧
        s.api.store.hasDelivery q.key q.deliveryId = true := by
      have hq : q = p := payload_unique hadm.payload hp
      subst hq
      exact ⟨rfl, hc endpoint req now later q op body rfl hadm ha⟩
    rcases hv : app.serve s.api endpoint req now later with ⟨t, r, es⟩
    have hs := serve_served hv
    constructor
    · rw [hv]
      cases hs with
      | quiet hd _ => rw [hd]
      | repeated _ _ _ _ _ _ hd _ => rw [hd]
      | effective q hadm hn _ _ =>
        rw [(once hadm).2] at hn
        cases hn
    · rw [hv]
      intro hacc op' body' ha'
      cases hs with
      | quiet _ hf =>
        rw [hf] at hacc
        cases hacc
      | repeated q row hadm hrow hid hh _ _ =>
        obtain ⟨rfl, -⟩ := once hadm
        have hb' := hb.once _ _ _ _ _ _ ha' (hb.repeated inj hm hp hrow hid hh)
        subst hb'
        exact ⟨hb.operation ha' hp, rfl⟩
      | effective q hadm hn _ _ =>
        rw [(once hadm).2] at hn
        cases hn

/-- In every run in which a request with an accepted delivery passes the checks of the
API only while the row of its key carries that delivery, each such request keeps the
row and is rejected unless it is the delivery over again; the first request that
passes otherwise does not. -/
theorem delivery_takes_effect_once {bodies : Set Bytes} (inj : Set.InjOn sha256 bodies) {cluster : Cluster}
    {clock : ℤ} {s : System} {h : List (Event app.cm)}
    (run : Run app.step (fun s h a => bodyIn bodies a ∧ repeatsStored app s h a)
      (System.initial cluster clock) [] s h)
    {endpoint : Endpoint} {req : HttpRequest} {now later : ℤ} {p : Payload app.cm} (hm : req.body ∈ bodies)
    (hp : app.payload? endpoint req.body = some p)
    (ha : ∃ op body, Event.accepted op p.key p.deliveryId body ∈ h) :
    DeliveryKept app s h endpoint req now later p ↔
      repeatsStored app s h (.request endpoint req now later) := by
  obtain ⟨op, body, ha⟩ := ha
  refine Bound.kept_iff (run.invariant (I := Bound bodies) ?_ ?_) inj hm hp ha
  · exact ⟨by simp, by simp, fun k row hr => by cases hr⟩
  · intro s h a t es hb hp hs
    exact hb.step inj (stepped_of_step hs) hp.1 hp.2

/-! ### A replay -/

def Event.accepts {cm : CaseMapping} (k : Key) (deliveryId : Text) : Event cm → Bool
  | .accepted _ key d _ => decide (key = k) && decide (d = deliveryId)
  | _ => false

theorem mem_of_accepts {cm : CaseMapping} {h : List (Event cm)} {k : Key} {d : Text}
    (ha : h.any (Event.accepts k d) = true) : ∃ op body, Event.accepted op k d body ∈ h := by
  obtain ⟨e, he, hv⟩ := List.any_eq_true.mp ha
  unfold Event.accepts at hv
  split at hv
  · simp only [Bool.and_eq_true, decide_eq_true_eq] at hv
    rw [← hv.1, ← hv.2]
    exact ⟨_, _, he⟩
  · cases hv

def exampleBodies : Set Bytes := {deployBody "delivery-1", deployBody "delivery-2"}

theorem exampleBodies_injOn : Set.InjOn sha256 exampleBodies := by
  rintro x (rfl | rfl) y (rfl | rfl) hxy
  · rfl
  · revert hxy
    decide +kernel
  · revert hxy
    decide +kernel
  · rfl

def replayedRequest : HttpRequest := signedRequest "/api/v1/deploy" 100 "delivery-1" (deployBody "delivery-1")

theorem replayedRequest_body : replayedRequest.body ∈ exampleBodies := by
  rw [replayedRequest, signedRequest_body]
  exact Set.mem_insert ..

theorem oneDelivery_runs : ∃ s h p, runActions [deployAction "delivery-1" 100] = some (s, h) ∧
    exampleApp.payload? .deploy replayedRequest.body = some p ∧
    ∃ op body, Event.accepted op p.key p.deliveryId body ∈ h := by
  have hb : (runActions [deployAction "delivery-1" 100]).any (fun q =>
      (exampleApp.payload? .deploy replayedRequest.body).any fun p =>
        q.2.any (Event.accepts p.key p.deliveryId)) = true := by
    decide +kernel
  simp only [Option.any_eq_true] at hb
  obtain ⟨⟨s, h⟩, hr, p, hp, ha⟩ := hb
  exact ⟨s, h, p, hr, hp, mem_of_accepts ha⟩

theorem delivery_takes_effect_once_example : ∃ s h p,
    runActions [deployAction "delivery-1" 100] = some (s, h) ∧
    (DeliveryKept exampleApp s h .deploy replayedRequest 105 105 p ↔
      repeatsStored exampleApp s h (.request .deploy replayedRequest 105 105)) := by
  obtain ⟨s, h, p, hr, hp, ha⟩ := oneDelivery_runs
  have run : Run exampleApp.step (fun s h a => bodyIn exampleBodies a ∧ repeatsStored exampleApp s h a)
      (System.initial (fun _ _ => none) 0) [] s (h ++ []) := by
    refine Run.start.next ⟨fun b hb => ?_, ?_⟩ (runActions_singleton hr)
    · rw [← Option.some.inj hb]
      exact replayedRequest_body
    · exact fun _ _ _ _ _ _ _ _ _ hn => by cases hn
  rw [List.append_nil] at run
  exact ⟨s, h, p, hr, delivery_takes_effect_once exampleBodies_injOn run replayedRequest_body hp ha⟩

def twoDeliveries : List Action := [deployAction "delivery-1" 100, deployAction "delivery-2" 110]

theorem twoDeliveries_runs : ∃ s h p, runActions twoDeliveries = some (s, h) ∧
    exampleApp.payload? .deploy replayedRequest.body = some p ∧
    (∃ op body, Event.accepted op p.key p.deliveryId body ∈ h) ∧
    ((exampleApp.serve s.api .deploy replayedRequest 120 120).1.store.demos.get p.key).map
      DemoRecord.deliveryId = some "delivery-1".toList ∧
    (s.demos.get p.key).map DemoRecord.deliveryId = some "delivery-2".toList := by
  have hb : (runActions twoDeliveries).any (fun q =>
      (exampleApp.payload? .deploy replayedRequest.body).any fun p => q.2.any (Event.accepts p.key p.deliveryId) &&
        decide (((exampleApp.serve q.1.api .deploy replayedRequest 120 120).1.store.demos.get p.key).map
          DemoRecord.deliveryId = some "delivery-1".toList) &&
        decide ((q.1.demos.get p.key).map DemoRecord.deliveryId = some "delivery-2".toList)) = true := by
    decide +kernel
  simp only [Option.any_eq_true, Bool.and_eq_true, decide_eq_true_eq] at hb
  obtain ⟨q, hr, p, hp, ⟨ha, hd⟩, hd'⟩ := hb
  exact ⟨q.1, q.2, p, hr, hp, mem_of_accepts ha, hd, hd'⟩

theorem bodyIn_twoDeliveries {a : Action} (ha : a ∈ twoDeliveries) : bodyIn exampleBodies a := by
  simp only [twoDeliveries, List.mem_cons, List.not_mem_nil, or_false] at ha
  intro b hb
  rcases ha with rfl | rfl
  · rw [deployAction, Action.body?, signedRequest_body, Option.some.injEq] at hb
    exact .inl hb.symm
  · rw [deployAction, Action.body?, signedRequest_body, Option.some.injEq] at hb
    exact .inr hb.symm

/-- A replay after a newer delivery restores the older one. -/
theorem replay_restores_earlier_delivery : ¬ ∀ (bodies : Set Bytes), Set.InjOn sha256 bodies →
    ∀ (s : System) (h : List (Event exampleApp.cm)),
    Run exampleApp.step (fun _ _ a => bodyIn bodies a) (System.initial (fun _ _ => none) 0) [] s h →
    ∀ endpoint req now later p, req.body ∈ bodies → exampleApp.payload? endpoint req.body = some p →
    (∃ op body, Event.accepted op p.key p.deliveryId body ∈ h) →
    DeliveryKept exampleApp s h endpoint req now later p := by
  intro all
  obtain ⟨s, h, p, hr, hp, ha, hafter, hbefore⟩ := twoDeliveries_runs
  have run : Run exampleApp.step (fun _ _ a => bodyIn exampleBodies a) (System.initial (fun _ _ => none) 0) [] s h :=
    Run.of_execute twoDeliveries (fun _ _ _ ha => bodyIn_twoDeliveries ha) .start hr
  have hk := (all exampleBodies exampleBodies_injOn s h run .deploy replayedRequest 120 120 p
    replayedRequest_body hp ha).desired
  have hid := congrArg (Option.map fun d : Text × Text × Option Text × Option Text × Bool × ℤ => d.1) hk
  simp only [Option.map_map] at hid
  have hsame : some "delivery-1".toList = some "delivery-2".toList := hafter.symm.trans (hid.trans hbefore)
  revert hsame
  decide

end DemoController
