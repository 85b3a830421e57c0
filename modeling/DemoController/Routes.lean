import DemoController.Snapshot

/-!
# Routes and deletions

A row is routable on what it asks for, its port and its state; whether there is
something to route to depends on the applies and deletions of its key. Between
the two stand the loop, which hides a row while it deletes its objects, and the
API, which may show it again.
-/

namespace DemoController

open Lib

variable {app : App}

/-- A deletion of the key's objects was started since the last apply that returned. -/
def begun {cm : CaseMapping} (k : Key) : List (Event cm) → Bool
  | [] => false
  | .deleteStarted k' :: h => decide (k' = k) || begun k h
  | .applied k' _ _ :: h => if k' = k then false else begun k h
  | .store _ :: h => begun k h
  | .accepted _ _ _ _ :: h => begun k h
  | .snapshot :: h => begun k h
  | .wrote _ _ :: h => begun k h

structure Worked (s : System) (h : List (Event app.cm)) : Prop where
  deleting : ∀ record thread todo, s.loop = .deleting record thread todo → begun record.key h = true
  applied : ∀ record p ready todo, s.loop = .applying record p (.returned ready) todo →
    begun record.key h = false ∧ Event.applied record.key p.config p.version.value ∈ h

@[simp] theorem begun_written {cm : CaseMapping} (k : Key) (r : DemoRecord) (state : DemoState)
    (v p : Option ℤ) (h : List (Event cm)) : begun k (written r state v p ++ h) = begun k h := rfl

theorem Served.begun {s t : ApiState} {endpoint : Endpoint} {req : HttpRequest} {now later : ℤ} {r : Response}
    {es : List (Event app.cm)} (hs : Served app s endpoint req now later t r es) (k : Key)
    (h : List (Event app.cm)) : begun k (es ++ h) = begun k h := by
  cases hs <;> rfl

theorem ofCalls_ne_returned {calls : List Call} (hc : calls ≠ []) (ready : Bool) :
    Thread.ofCalls calls ≠ .returned ready := by
  cases calls with
  | nil => exact absurd rfl hc
  | cons call rest => simp [Thread.ofCalls]

theorem worked_initial (cluster : Cluster) (clock : ℤ) :
    Worked (System.initial cluster clock) ([] : List (Event app.cm)) := by
  constructor
  · rintro record thread todo ⟨⟩
  · rintro record p ready todo ⟨⟩

theorem Worked.step {s t : System} {h es : List (Event app.cm)} {a : Action} (hw : Worked s h)
    (hs : Stepped app s a t es) : Worked t (es ++ h) := by
  cases hs with
  | request hr =>
    refine ⟨fun record thread todo hl => ?_, fun record p ready todo hl => ?_⟩
    · rw [hr.begun]
      exact hw.deleting record thread todo hl
    · rw [hr.begun]
      exact ⟨(hw.applied record p ready todo hl).1, List.mem_append_right _ (hw.applied record p ready todo hl).2⟩
  | beginDelete hl _ =>
    refine ⟨fun record thread todo hl' => ?_, fun record p ready todo hl' => ?_⟩
    · cases hl'
      simp [DemoController.begun]
    · cases hl'
  | project hl _ =>
    refine ⟨fun record thread todo hl' => (by cases hl'), fun record p ready todo hl' => ?_⟩
    simp only [Loop.applying.injEq] at hl'
    exact absurd hl'.2.2.1 (ofCalls_ne_returned (by simp [applyCalls]) ready)
  | callDelete hl _ =>
    refine ⟨fun record thread todo hl' => ?_, fun record p ready todo hl' => (by cases hl')⟩
    cases hl'
    exact hw.deleting _ _ _ hl
  | callApply hl _ =>
    refine ⟨fun record thread todo hl' => (by cases hl'), fun record p ready todo hl' => ?_⟩
    cases hl'
    simp [DemoController.begun]
  | list | beginApply | vaultFailed | deleted | deleteFailed | applied | applyFailed | endPass | crash =>
    refine ⟨fun record thread todo hl' => ?_, fun record p ready todo hl' => ?_⟩ <;> cases hl'

/-! ### No route to a demo whose deletion has begun -/

/-- A routable row has no deletion begun since its last apply. -/
def RoutesFresh (s : System) (h : List (Event app.cm)) : Prop :=
  ∀ k row, s.demos.get k = some row → row.routable = true → begun k h = false

/-- A row whose deletion has begun is not wanted, has no port, or is being deleted. -/
def Hidden (s : System) (h : List (Event app.cm)) : Prop :=
  ∀ k row, s.demos.get k = some row → begun k h = true →
    row.desiredPresent = false ∨ row.port = none ∨
      row.state = .deleting ∧ ∃ record thread todo, s.loop = .deleting record thread todo ∧ record.key = k

/-- A deletion fails only for a row that is not wanted or has no port, and a deploy is
written over a row whose deletion has begun only when it has no port. -/
structure hidesDeleted (app : App) (s : System) (h : List (Event app.cm)) (a : Action) : Prop where
  failure : ∀ now later record error todo row, a = .resume now later →
    s.loop = .deleting record (.raised error) todo → s.demos.get record.key = some row →
    row.desiredPresent = false ∨ row.port = none
  redeploy : ∀ endpoint req now later request row, a = .request endpoint req now later →
    Admitted app s.api endpoint req now (.deploy request) →
    s.demos.get (request.repository, request.pr) = some row → row.deliveryId ≠ request.deliveryId →
    begun (request.repository, request.pr) h = true → row.port = none

theorem routable_iff {row : DemoRecord} : row.routable = true ↔
    row.desiredPresent = true ∧ (∃ port, row.port = some port) ∧ row.state ≠ .deleting := by
  simp only [DemoRecord.routable, Bool.and_eq_true, Option.isSome_iff_exists, and_assoc]
  cases row.state <;> simp

theorem Hidden.fresh {s : System} {h : List (Event app.cm)} (hh : Hidden s h) : RoutesFresh s h := by
  intro k row hrow hr
  obtain ⟨hd, ⟨port, hp⟩, hs⟩ := routable_iff.mp hr
  cases hb : begun k h with
  | false => rfl
  | true =>
    rcases hh k row hrow hb with h1 | h1 | ⟨h1, -⟩
    · rw [hd] at h1
      cases h1
    · rw [hp] at h1
      cases h1
    · exact absurd h1 hs

theorem Hidden.plain {s : System} {h : List (Event app.cm)} (hh : Hidden s h)
    (hl : ∀ record thread todo, s.loop ≠ .deleting record thread todo) {k : Key} {row : DemoRecord}
    (hr : s.demos.get k = some row) (hb : begun k h = true) : row.desiredPresent = false ∨ row.port = none := by
  rcases hh k row hr hb with h1 | h1 | ⟨-, record, thread, todo, h1, -⟩
  · exact .inl h1
  · exact .inr h1
  · exact absurd h1 (hl _ _ _)

theorem Hidden.update {s u : System} {h : List (Event app.cm)} (hh : Hidden s h)
    (hl : ∀ record thread todo, s.loop ≠ .deleting record thread todo) (hu : u.demos = s.demos)
    (r : DemoRecord) (state : DemoState) (m : Text) (now : ℤ) (loop : Loop) :
    Hidden (u.update r state m none none now loop) (written r state none none ++ h) := by
  intro k row hr hb
  obtain ⟨old, hold, hc⟩ := row_of_update hr
  rw [hu] at hold
  rcases hc with ⟨-, rfl⟩ | ⟨-, rfl⟩
  · rcases hh.plain hl hold hb with h1 | h1
    · exact .inl h1
    · exact .inr (.inl h1)
  · rcases hh.plain hl hold hb with h1 | h1
    · exact .inl h1
    · exact .inr (.inl h1)

theorem Hidden.quiet {s t : System} {h es : List (Event app.cm)} (hh : Hidden s h)
    (hl : ∀ record thread todo, s.loop ≠ .deleting record thread todo) (hd : t.demos = s.demos)
    (hes : ∀ k, begun k (es ++ h) = true → begun k h = true) : Hidden t (es ++ h) := by
  intro k row hr hb
  rw [hd] at hr
  rcases hh.plain hl hr (hes k hb) with h1 | h1
  · exact .inl h1
  · exact .inr (.inl h1)

theorem Hidden.request {s : System} {h es : List (Event app.cm)} {endpoint : Endpoint} {req : HttpRequest}
    {now later : ℤ} {api : ApiState} {r : Response} (hh : Hidden s h)
    (hs : Served app s.api endpoint req now later api r es)
    (hc : hidesDeleted app s h (.request endpoint req now later)) :
    Hidden { s with api := api, clock := later } (es ++ h) := by
  intro k row hr hb
  rw [hs.begun] at hb
  have hr' : api.store.demos.get k = some row := hr
  rcases hs.get k with ⟨hg, -⟩ | ⟨p, rfl, ha, hn, hg, -⟩
  · rw [hg] at hr'
    exact hh k row hr' hb
  · rw [hg, Option.some.injEq] at hr'
    subst hr'
    cases p with
    | destroy request => exact .inl ((Payload.destroy request).rowAfter_delivery ..).2.2
    | deploy request =>
      refine .inr (.inl ?_)
      rw [Payload.rowAfter_port]
      cases hold : s.api.store.demos.get (Payload.deploy request).key with
      | none => rfl
      | some old =>
        refine hc.redeploy endpoint req now later request old rfl ha hold (fun hid => ?_) hb
        have hd : s.api.store.hasDelivery (Payload.deploy request).key (Payload.deploy request).deliveryId = true :=
          Store.hasDelivery_iff.mpr ⟨old, hold, hid⟩
        rw [hd] at hn
        cases hn

theorem Hidden.step {s t : System} {h es : List (Event app.cm)} {a : Action} (hw : Worked s h)
    (hh : Hidden s h) (hs : Stepped app s a t es) (hcrash : ∀ tookEffect, a ≠ .crash tookEffect)
    (hc : hidesDeleted app s h a) : Hidden t (es ++ h) := by
  cases hs with
  | request hs => exact hh.request hs hc
  | list hl => exact hh.quiet (by simp [hl]) rfl fun _ hb => hb
  | @beginDelete record _ _ _ hl _ =>
    intro k row hr hb
    obtain ⟨old, hold, ⟨rfl, rfl⟩ | ⟨hk, rfl⟩⟩ := row_of_update hr
    · exact .inr (.inr ⟨rfl, _, _, _, rfl, rfl⟩)
    · have hb' : begun k h = true := by simpa [begun, Ne.symm hk] using hb
      rcases hh.plain (by simp [hl]) hold hb' with h1 | h1
      · exact .inl h1
      · exact .inr (.inl h1)
  | beginApply hl _ _ => exact hh.update (by simp [hl]) rfl _ _ _ _ _
  | project hl _ => exact hh.quiet (by simp [hl]) rfl fun _ hb => hb
  | vaultFailed hl _ => exact hh.update (by simp [hl]) rfl _ _ _ _ _
  | callDelete hl _ =>
    intro k row hr hb
    rcases hh k row hr hb with h1 | h1 | ⟨h1, record, thread, todo, h2, h3⟩
    · exact .inl h1
    · exact .inr (.inl h1)
    · rw [hl] at h2
      cases h2
      exact .inr (.inr ⟨h1, _, _, _, rfl, h3⟩)
  | @callApply _ _ _ _ _ _ _ thread hl _ =>
    refine hh.quiet (by simp [hl]) rfl fun k hb => ?_
    cases thread with
    | returned ready =>
      simp only [List.cons_append, List.nil_append, begun] at hb
      split at hb
      · cases hb
      · exact hb
    | running | raised => exact hb
  | @deleted record _ _ _ _ _ hl =>
    intro k row hr hb
    have hne : k ≠ record.key := by
      rintro rfl
      rw [show System.demos _ = _ from rfl, show record.key = (record.repository, record.pr) from rfl,
        Store.get_deleteRecord_self] at hr
      cases hr
    rcases hh k row (Store.get_of_deleteRecord hr) hb with h1 | h1 | ⟨-, record', _, _, h2, h3⟩
    · exact .inl h1
    · exact .inr (.inl h1)
    · rw [hl] at h2
      cases h2
      exact absurd h3.symm hne
  | @deleteFailed record _ _ _ _ _ _ hl =>
    intro k row hr hb
    obtain ⟨old, hold, ⟨rfl, rfl⟩ | ⟨hk, rfl⟩⟩ := row_of_update hr
    · rcases hc.failure _ _ record _ _ old rfl hl hold with h1 | h1
      · exact .inl h1
      · exact .inr (.inl h1)
    · rcases hh k _ hold hb with h1 | h1 | ⟨-, record', _, _, h2, h3⟩
      · exact .inl h1
      · exact .inr (.inl h1)
      · rw [hl] at h2
        cases h2
        exact absurd h3.symm hk
  | @applied record _ _ _ _ _ _ hl _ =>
    intro k row hr hb
    obtain ⟨old, hold, ⟨rfl, -⟩ | ⟨hk, rfl⟩⟩ := row_of_update hr
    · rw [begun_written, (hw.applied record _ _ _ hl).1] at hb
      cases hb
    · rcases hh.plain (by simp [hl]) hold hb with h1 | h1
      · exact .inl h1
      · exact .inr (.inl h1)
  | applyFailed hl _ _ => exact hh.update (by simp [hl]) rfl _ _ _ _ _
  | endPass hl => exact hh.quiet (by simp [hl]) rfl fun _ hb => hb
  | crash => exact absurd rfl (hcrash _)

theorem hasDelivery_of_ne {s : Store} {k : Key} {row : DemoRecord} {d : Text} (hr : s.demos.get k = some row)
    (hd : row.deliveryId ≠ d) : s.hasDelivery k d = false := by
  rw [← Bool.not_eq_true, Store.hasDelivery_iff]
  rintro ⟨row', hr', hd'⟩
  rw [hr, Option.some.injEq] at hr'
  exact hd (hr' ▸ hd')

theorem hidesDeleted_of_fresh {s t : System} {h es : List (Event app.cm)} {a : Action} (hw : Worked s h)
    (hs : app.step s a = some (t, es)) (hf : RoutesFresh t (es ++ h)) : hidesDeleted app s h a := by
  constructor
  · rintro now later record error todo row rfl hl hrow
    simp only [App.step, hl] at hs
    cases hs
    by_contra hne
    rw [not_or] at hne
    obtain ⟨port, hp⟩ := Option.ne_none_iff_exists'.mp hne.2
    have hd : row.desiredPresent = true := by simpa using hne.1
    have hrow' := update_get_self s record .failed "Kubernetes deletion failed".toList none none later (.pass todo)
    rw [hrow] at hrow'
    have hb := hf record.key _ hrow' (routable_iff.mpr ⟨hd, ⟨port, hp⟩, by simp [DemoRecord.withState]⟩)
    have hb' : begun record.key h = false := hb
    rw [hw.deleting record _ _ hl] at hb'
    cases hb'
  · rintro endpoint req now later request row rfl hadm hrow hid hb
    have hn : s.api.store.hasDelivery (Payload.deploy request).key (Payload.deploy request).deliveryId = false :=
      hasDelivery_of_ne hrow hid
    cases hp : row.port with
    | none => rfl
    | some port =>
      have hget := (Payload.deploy request).get_write_self s.api.store (sha256 req.body) later
      rw [← serve_effective hadm hn] at hget
      cases hs
      have hport := (Payload.deploy request).rowAfter_port (sha256 req.body) later (some row)
      have hrow' : s.api.store.demos.get (Payload.deploy request).key = some row := hrow
      rw [hrow'] at hget
      have hfresh := hf _ _ hget (routable_iff.mpr ⟨((Payload.deploy request).rowAfter_delivery ..).2.2,
        ⟨port, hport.trans hp⟩, by rw [Payload.rowAfter_state]; simp [Payload.operation]⟩)
      rw [(served app s.api endpoint req now later).begun] at hfresh
      exact absurd (hb.symm.trans hfresh) (by simp)

/-- In every run without a crash in which a deletion fails only for a row that is not
wanted or has no port, and no deploy is written over a row with a port whose deletion
has begun, no row is routable whose deletion has begun; the first step that breaks
the condition makes one so. -/
theorem routes_never_deleted {cluster : Cluster} {clock : ℤ} {s : System} {h : List (Event app.cm)}
    (run : Run app.step (fun s h a => (∀ tookEffect, a ≠ .crash tookEffect) ∧ hidesDeleted app s h a)
      (System.initial cluster clock) [] s h) :
    RoutesFresh s h ∧ ∀ a t es, (∀ tookEffect, a ≠ .crash tookEffect) → app.step s a = some (t, es) →
      (RoutesFresh t (es ++ h) ↔ hidesDeleted app s h a) := by
  have hinv : Worked s h ∧ Hidden s h := by
    refine run.invariant (I := fun s h => Worked s h ∧ Hidden s h)
      ⟨worked_initial .., fun k row hr => by cases hr⟩ ?_
    rintro s h a t es ⟨hw, hh⟩ ⟨hcrash, hc⟩ hs
    exact ⟨hw.step (stepped_of_step hs), hh.step hw (stepped_of_step hs) hcrash hc⟩
  refine ⟨hinv.2.fresh, fun a t es hcrash hs => ⟨fun hf => hidesDeleted_of_fresh hinv.1 hs hf, fun hc => ?_⟩⟩
  exact (hinv.2.step hinv.1 (stepped_of_step hs) hcrash hc).fresh

def hidesTest (s : System) (h : List (Event app.cm)) : Action → Bool
  | .request _ _ _ _ => s.demos.rows.all fun row => row.port.isNone || !begun row.key h
  | .resume _ _ =>
    match s.loop with
    | .deleting record (.raised _) _ =>
      (s.demos.get record.key).all fun row => !row.desiredPresent || row.port.isNone
    | _ => true
  | .crash _ => false
  | _ => true

theorem hidesDeleted_of_test {s : System} {h : List (Event app.cm)} {a : Action} (ht : hidesTest s h a = true) :
    (∀ tookEffect, a ≠ .crash tookEffect) ∧ hidesDeleted app s h a := by
  refine ⟨?_, ?_, ?_⟩
  · rintro tookEffect rfl
    cases ht
  · rintro now later record error todo row rfl hl hrow
    rw [hidesTest, hl] at ht
    simp only [hrow, Option.all_some, Bool.or_eq_true, Bool.not_eq_true', Option.isNone_iff_eq_none] at ht
    exact ht
  · rintro endpoint req now later request row rfl - hrow - hb
    have hrows := List.all_eq_true.mp ht row (Table.mem_of_get hrow)
    rw [show row.key = (request.repository, request.pr) from Table.get_key hrow, hb, Bool.not_true, Bool.or_false]
      at hrows
    exact Option.isNone_iff_eq_none.mp hrows

/-- A demo is applied, deployed again and destroyed, and its deletion fails. -/
def failedRemoval : List Action :=
  deployAction "delivery-1" 100 :: applyActions 110 ++
    [deployAction "delivery-2" 115, destroyAction "delivery-3" 120, .list, .begin 130 130, .call .done,
      .call (.failed ⟨"ApiError".toList, "forbidden".toList⟩ false), .resume 140 140]

theorem routes_never_deleted_example : ∃ s h row,
    Run exampleApp.step (fun s h a => (∀ tookEffect, a ≠ .crash tookEffect) ∧ hidesDeleted exampleApp s h a)
      (System.initial (fun _ _ => none) 0) [] s h ∧
    s.demos.get exampleKey = some row ∧ row.state = .failed ∧ row.port = some 8000 ∧
    begun exampleKey h = true ∧ row.routable = false := by
  have hb : (executeIf exampleApp.step hidesTest failedRemoval (System.initial (fun _ _ => none) 0) []).any (fun q =>
      begun exampleKey q.2 && (q.1.demos.get exampleKey).any fun row =>
        decide (row.state = .failed) && decide (row.port = some 8000)) = true := by
    decide +kernel
  simp only [Option.any_eq_true, Bool.and_eq_true, decide_eq_true_eq] at hb
  obtain ⟨⟨s, h⟩, hr, hbegun, row, hrow, hf, hport⟩ := hb
  have run : Run exampleApp.step
      (fun s h a => (∀ tookEffect, a ≠ .crash tookEffect) ∧ hidesDeleted exampleApp s h a)
      (System.initial (fun _ _ => none) 0) [] s h :=
    Run.of_executeIf failedRemoval (fun _ _ _ _ ht => hidesDeleted_of_test ht) .start hr
  refine ⟨s, h, row, run, hrow, hf, hport, hbegun, ?_⟩
  cases hroute : row.routable with
  | false => rfl
  | true =>
    rw [(routes_never_deleted run).1 exampleKey row hrow hroute] at hbegun
    cases hbegun

def failedExpiry : List Action :=
  deployAction "delivery-1" 100 :: applyActions 110 ++
    [.list, .begin 259300 259300, .call (.failed ⟨"ApiError".toList, "forbidden".toList⟩ false),
      .resume 259310 259310]

/-- The expired row is routable again after the deletion of its objects has begun. -/
theorem failed_deletion_routable : ¬ ∀ (s : System) (h : List (Event exampleApp.cm)),
    Run exampleApp.step anyStep (System.initial (fun _ _ => none) 0) [] s h → RoutesFresh s h := by
  intro all
  have hb : (runActions failedExpiry).any (fun q => (q.1.demos.get exampleKey).any fun row =>
      row.routable && begun exampleKey q.2) = true := by
    decide +kernel
  simp only [Option.any_eq_true, Bool.and_eq_true] at hb
  obtain ⟨q, hr, row, hrow, hroute, hbegun⟩ := hb
  rw [all q.1 q.2 (run_of_actions hr) exampleKey row hrow hroute] at hbegun
  cases hbegun

/-! ### An established route -/

/-- The first and the last clock reading of a step that the store sees. -/
def Action.readings : Action → Option (ℤ × ℤ)
  | .request _ _ _ later => some (later, later)
  | .begin now later => some (now, later)
  | .vault _ now later => some (now, later)
  | .resume now later => some (now, later)
  | .endPass now => some (now, now)
  | .list => none
  | .call _ => none
  | .crash _ => none

def clockForward (s : System) (a : Action) : Prop :=
  ∀ now later, a.readings = some (now, later) → s.clock ≤ now ∧ now ≤ later

instance (s : System) (a : Action) : Decidable (clockForward s a) :=
  match h : a.readings with
  | none => isTrue fun now later hr => by rw [h] at hr; cases hr
  | some (now, later) => decidable_of_iff (s.clock ≤ now ∧ now ≤ later) (by simp [clockForward, h])

theorem Stepped.clock_le {s t : System} {es : List (Event app.cm)} {a : Action} (hs : Stepped app s a t es)
    (hc : clockForward s a) : s.clock ≤ t.clock := by
  cases hs with
  | request => exact (hc _ _ rfl).1
  | list | callDelete | callApply | crash => exact le_rfl
  | project => exact (hc _ _ rfl).1
  | endPass => exact (hc _ _ rfl).1
  | beginDelete | beginApply | vaultFailed | deleted | deleteFailed | applied | applyFailed =>
    exact (hc _ _ rfl).1.trans (hc _ _ rfl).2

def Lifetimes (s : System) : Prop :=
  ∀ k row, s.demos.get k = some row → row.desiredPresent = true → row.expiresAt ≤ s.clock + demoLifetimeSeconds

theorem Lifetimes.step {s t : System} {es : List (Event app.cm)} {a : Action} (hl : Lifetimes s)
    (hs : Stepped app s a t es) (hc : clockForward s a) : Lifetimes t := by
  intro k row hrow hd
  have hclock := hs.clock_le hc
  by_cases hr : ∃ endpoint req now later, a = .request endpoint req now later
  · obtain ⟨endpoint, req, now, later, rfl⟩ := hr
    cases hs with
    | @request _ _ _ _ api _ _ hs =>
      have hrow' : api.store.demos.get k = some row := hrow
      rcases hs.get k with ⟨hg, -⟩ | ⟨p, -, -, -, hg, -⟩
      · have hold := hl k row (hg ▸ hrow') hd
        change row.expiresAt ≤ later + _
        change s.clock ≤ later at hclock
        omega
      · rw [hg, Option.some.injEq] at hrow'
        subst hrow'
        cases p with
        | deploy request => cases s.api.store.demos.get k <;> exact le_rfl
        | destroy request =>
          rw [((Payload.destroy request).rowAfter_delivery ..).2.2] at hd
          cases hd
  · obtain ⟨old, hold, he⟩ :=
      (hs.desired_of_internal fun endpoint req now later e => hr ⟨_, _, _, _, e⟩).1 k row hrow
    simp only [DemoRecord.desired, Prod.mk.injEq] at he
    have hb := hl k old hold (he.2.2.2.2.1 ▸ hd)
    rw [he.2.2.2.2.2]
    omega

/-- The row of the key is wanted until `expiry` at least and routable, with the port of
a configuration that was applied. -/
def RouteUp (k : Key) (expiry : ℤ) (s : System) (h : List (Event app.cm)) : Prop :=
  ∃ row config version, s.demos.get k = some row ∧ row.desiredPresent = true ∧ expiry ≤ row.expiresAt ∧
    row.port = some (ProjectConfig.port config) ∧ Event.applied k config version ∈ h ∧ row.state ≠ .deleting

structure Established (k : Key) (expiry : ℤ) (s : System) (h : List (Event app.cm)) : Prop where
  route : RouteUp k expiry s h
  held : ∀ r ∈ s.loop.held, r.key = k → r.desiredPresent = true ∧ expiry ≤ r.expiresAt
  spared : ∀ record thread todo, s.loop = .deleting record thread todo → record.key ≠ k
  clock : expiry ≤ s.clock + demoLifetimeSeconds

/-- A continuation: the clock stays below the expiry and no destroy of the key is accepted. -/
structure Continues (app : App) (k : Key) (expiry : ℤ) (s : System) (a : Action) : Prop where
  clock : clockForward s a
  before : ∀ now later, a.readings = some (now, later) → later < expiry
  wanted : ∀ endpoint req now later d body, a = .request endpoint req now later →
    Event.accepted .destroy k d body ∉ (app.serve s.api endpoint req now later).2.2

theorem RouteUp.quiet {k : Key} {expiry : ℤ} {s t : System} {h : List (Event app.cm)} (hu : RouteUp k expiry s h)
    (hd : t.demos = s.demos) (es : List (Event app.cm)) : RouteUp k expiry t (es ++ h) := by
  obtain ⟨row, config, version, hrow, h1, h2, h3, h4, h5⟩ := hu
  exact ⟨row, config, version, hd ▸ hrow, h1, h2, h3, List.mem_append_right _ h4, h5⟩

theorem RouteUp.update {k : Key} {expiry : ℤ} {s u : System} {h : List (Event app.cm)}
    (hu : RouteUp k expiry s h) (hd : u.demos = s.demos) (r : DemoRecord) (state : DemoState) (m : Text)
    (v p : Option ℤ) (now : ℤ) (loop : Loop) (es : List (Event app.cm))
    (hs : r.key = k → state ≠ .deleting)
    (hp : p = none ∨ ∃ config version, p = some (ProjectConfig.port config) ∧
      Event.applied r.key config version ∈ h) :
    RouteUp k expiry (u.update r state m v p now loop) (es ++ h) := by
  obtain ⟨row, config, version, hrow, h1, h2, h3, h4, h5⟩ := hu
  by_cases hk : k = r.key
  · subst hk
    have hget := update_get_self u r state m v p now loop
    rw [hd, hrow] at hget
    rcases hp with rfl | ⟨config', version', rfl, ha⟩
    · exact ⟨_, config, version, hget, h1, h2, h3, List.mem_append_right _ h4, hs rfl⟩
    · exact ⟨_, config', version', hget, h1, h2, rfl, List.mem_append_right _ ha, hs rfl⟩
  · have hget := update_get_of_ne u state m v p now loop hk
    rw [hd, hrow] at hget
    exact ⟨row, config, version, hget, h1, h2, h3, List.mem_append_right _ h4, h5⟩

theorem RouteUp.request {k : Key} {expiry : ℤ} {s : System} {h es : List (Event app.cm)}
    {endpoint : Endpoint} {req : HttpRequest} {now later : ℤ} {api : ApiState} {r : Response}
    (hu : RouteUp k expiry s h) (hs : Served app s.api endpoint req now later api r es)
    (hclock : expiry ≤ later + demoLifetimeSeconds) (hw : ∀ d body, Event.accepted .destroy k d body ∉ es) :
    RouteUp k expiry { s with api := api, clock := later } (es ++ h) := by
  obtain ⟨row, config, version, hrow, h1, h2, h3, h4, h5⟩ := hu
  rcases hs.get k with ⟨hg, -⟩ | ⟨p, rfl, -, -, hg, rfl⟩
  · exact ⟨row, config, version, hg.trans hrow, h1, h2, h3, List.mem_append_right _ h4, h5⟩
  · cases p with
    | destroy request => exact absurd (List.mem_cons_self ..) (hw _ _)
    | deploy request =>
      rw [show s.api.store.demos.get (Payload.deploy request).key = some row from hrow] at hg
      exact ⟨_, config, version, hg, rfl, hclock, h3, List.mem_append_right _ h4, by simp [Payload.rowAfter,
        DemoRecord.deployOver, DemoRecord.redeploy]⟩

theorem Established.step {k : Key} {expiry : ℤ} {s t : System} {h es : List (Event app.cm)} {a : Action}
    (he : Established k expiry s h) (hw : Worked s h) (hstep : app.step s a = some (t, es))
    (hc : Continues app k expiry s a) :
    Established k expiry t (es ++ h) ∧ Event.deleteStarted k ∉ es := by
  have hs := stepped_of_step hstep
  have hclock : expiry ≤ t.clock + demoLifetimeSeconds := by
    have h1 := he.clock
    have h2 := hs.clock_le hc.clock
    omega
  have todo_held {l : Loop} {todo : List DemoRecord} (hl : s.loop = l) (hsub : todo.Sublist l.held) :
      ∀ r ∈ todo, r.key = k → r.desiredPresent = true ∧ expiry ≤ r.expiresAt :=
    fun r hr => he.held r ((held_of_loop hl hsub).subset hr)
  cases hs with
  | @request endpoint req now later _ _ _ hs =>
    simp only [App.step, Option.some.injEq, Prod.mk.injEq] at hstep
    have hwanted := hc.wanted endpoint req now later
    rw [hstep.2] at hwanted
    refine ⟨⟨he.route.request hs hclock fun d body => hwanted d body rfl, he.held, he.spared, hclock⟩, ?_⟩
    cases hs <;> simp
  | list hl =>
    refine ⟨⟨he.route.quiet rfl _, fun r hr hk => ?_, fun _ _ _ hl' => (by cases hl'), hclock⟩, by simp⟩
    have hm : r ∈ s.demos.rows := by
      rw [← Store.listReconcilable_eq]
      exact hr
    obtain ⟨row, -, -, hrow, h1, h2, -⟩ := he.route
    rw [← hk, show s.demos.get r.key = some r from Table.get_of_mem hm, Option.some.injEq] at hrow
    exact hrow ▸ ⟨h1, h2⟩
  | @beginDelete record todo now later hl hdue =>
    have hne : record.key ≠ k := by
      intro hk
      obtain ⟨h1, h2⟩ := he.held record (mem_held hl (List.mem_cons_self ..)) hk
      have h3 := hc.before now later rfl
      have h4 := (hc.clock now later rfl).2
      rcases hdue with hdue | hdue
      · rw [h1] at hdue
        cases hdue
      · omega
    refine ⟨⟨he.route.update rfl _ _ _ _ _ _ _ _ (fun hk => absurd hk hne) (.inl rfl),
      todo_held hl (List.Sublist.refl _), fun _ _ _ hl' => ?_, hclock⟩, ?_⟩
    · cases hl'
      exact hne
    · simp [written, hne.symm]
  | beginApply hl _ _ =>
    exact ⟨⟨he.route.update rfl _ _ _ _ _ _ _ _ (fun _ => by simp) (.inl rfl),
      todo_held hl (List.Sublist.refl _), fun _ _ _ hl' => (by cases hl'), hclock⟩, by simp [written]⟩
  | project hl _ =>
    exact ⟨⟨he.route.quiet rfl _, todo_held hl (List.Sublist.refl _), fun _ _ _ hl' => (by cases hl'), hclock⟩,
      by simp⟩
  | callDelete hl _ =>
    refine ⟨⟨he.route.quiet rfl _, todo_held hl (List.Sublist.refl _), fun _ _ _ hl' => ?_, hclock⟩, by simp⟩
    cases hl'
    exact he.spared _ _ _ hl
  | @callApply _ _ _ _ _ _ _ thread hl _ =>
    refine ⟨⟨he.route.quiet rfl _, todo_held hl (List.Sublist.refl _), fun _ _ _ hl' => (by cases hl'), hclock⟩, ?_⟩
    cases thread <;> simp
  | @deleted record _ todo _ _ _ hl =>
    have hne := he.spared _ _ _ hl
    refine ⟨⟨?_, todo_held hl (List.sublist_cons_self ..), fun _ _ _ hl' => (by cases hl'), hclock⟩, by simp⟩
    obtain ⟨row, config, version, hrow, h1, h2, h3, h4, h5⟩ := he.route
    exact ⟨row, config, version, (s.api.store.get_deleteRecord_of_ne hne.symm).trans hrow, h1, h2, h3,
      List.mem_append_right _ h4, h5⟩
  | @vaultFailed _ todo _ _ _ health _ hl _ =>
    exact ⟨⟨he.route.update (u := { s with health := health }) rfl _ _ _ _ _ _ (.pass todo) _ (fun _ => by simp)
      (.inl rfl), todo_held hl (List.sublist_cons_self ..), fun _ _ _ hl' => (by cases hl'), hclock⟩, by simp [written]⟩
  | @deleteFailed _ _ todo _ _ health _ hl =>
    exact ⟨⟨he.route.update (u := { s with health := health }) rfl _ _ _ _ _ _ (.pass todo) _ (fun _ => by simp)
      (.inl rfl), todo_held hl (List.sublist_cons_self ..), fun _ _ _ hl' => (by cases hl'), hclock⟩, by simp [written]⟩
  | @applied record p ready todo _ _ health hl _ =>
    refine ⟨⟨he.route.update (u := { s with health := health }) rfl _ _ _ _ _ _ (.pass todo) _ (fun _ => ?_)
      (.inr ⟨p.config, p.version.value, rfl, ?_⟩), todo_held hl (List.sublist_cons_self ..),
      fun _ _ _ hl' => (by cases hl'), hclock⟩, by simp [written]⟩
    · cases ready <;> simp
    · exact (hw.applied record p _ _ hl).2
  | @applyFailed _ _ _ todo _ _ health _ hl _ _ =>
    exact ⟨⟨he.route.update (u := { s with health := health }) rfl _ _ _ _ _ _ (.pass todo) _ (fun _ => by simp)
      (.inl rfl), todo_held hl (List.sublist_cons_self ..), fun _ _ _ hl' => (by cases hl'), hclock⟩, by simp [written]⟩
  | endPass hl =>
    exact ⟨⟨he.route.quiet rfl _, fun _ hr => (by cases hr), fun _ _ _ hl' => (by cases hl'), hclock⟩, by simp⟩
  | crash =>
    exact ⟨⟨he.route.quiet rfl _, fun _ hr => (by cases hr), fun _ _ _ hl' => (by cases hl'), hclock⟩, by simp⟩

theorem applied_of_port {s t : System} {es : List (Event app.cm)} {a : Action} {k : Key} {v : Option ℤ}
    {port : ℤ} (hs : Stepped app s a t es) (hp : Event.store (.updated k.1 k.2 v (some port)) ∈ es) :
    ∃ record p ready todo, s.loop = .applying record p (.returned ready) todo ∧ record.key = k ∧
      t.loop = .pass todo ∧ ∀ row, t.demos.get k = some row →
        row.port = some p.config.port ∧ row.state ≠ .deleting := by
  cases hs with
  | request hs =>
    cases hs with
    | quiet => cases hp
    | repeated => simp at hp
    | effective p => cases p <;> simp [Payload.event] at hp
  | @callApply _ _ _ _ _ _ _ thread => cases thread <;> simp at hp
  | @applied record p ready todo _ _ _ hl _ =>
    simp only [written, List.mem_cons, reduceCtorEq, Event.store.injEq, StoreEvent.updated.injEq, List.not_mem_nil,
      or_false, false_or] at hp
    have hk : record.key = k := by
      rw [DemoRecord.key, ← hp.1, ← hp.2.1]
    refine ⟨record, p, ready, todo, hl, hk, rfl, fun row hrow => ?_⟩
    obtain ⟨old, -, ⟨-, rfl⟩ | ⟨hne, -⟩⟩ := row_of_update hrow
    · exact ⟨rfl, by cases ready <;> simp [DemoRecord.withState]⟩
    · exact absurd hk.symm hne
  | list | beginDelete | beginApply | project | vaultFailed | callDelete | deleted | deleteFailed | applyFailed
    | endPass | crash => simp [written] at hp

/-- Once an apply of a wanted demo has recorded its port, then as long as the clock stays
below the expiry the row has now and no destroy of the key is accepted, whatever else
is requested, Vault and the calls answer, or crashes: the row stays wanted and
routable with the port of a configuration whose apply returned, and no deletion of
the key is started. -/
theorem established_route_survives {cluster : Cluster} {clock : ℤ} {s t u : System}
    {h es h' : List (Event app.cm)} {a : Action} {k : Key} {v : Option ℤ} {port : ℤ} {row : DemoRecord}
    (run : Run app.step (fun s _ a => clockForward s a) (System.initial cluster clock) [] s h)
    (hclock : clockForward s a) (hs : app.step s a = some (t, es))
    (hport : Event.store (.updated k.1 k.2 v (some port)) ∈ es)
    (hrow : t.demos.get k = some row) (hd : row.desiredPresent = true)
    (cont : Run app.step (fun s _ a => Continues app k row.expiresAt s a) t (es ++ h) u h') :
    (∃ row' config version, u.demos.get k = some row' ∧ row'.desiredPresent = true ∧
      row'.routable = true ∧ row'.port = some (ProjectConfig.port config) ∧
      Event.applied k config version ∈ h') ∧
    ∃ news, h' = news ++ (es ++ h) ∧ Event.deleteStarted k ∉ news := by
  have hinv : (Tracked s h ∧ Worked s h) ∧ Lifetimes s := by
    refine run.invariant (I := fun s h => (Tracked s h ∧ Worked s h) ∧ Lifetimes s)
      ⟨⟨tracked_initial .., worked_initial ..⟩, fun k row hr => by cases hr⟩ ?_
    rintro s h a t es ⟨⟨ht, hw⟩, hl⟩ hc hs
    have hst := stepped_of_step hs
    exact ⟨⟨ht.step hst, hw.step hst⟩, hl.step hst hc⟩
  obtain ⟨⟨ht, hw⟩, hl⟩ := hinv
  have hst := stepped_of_step hs
  obtain ⟨record, p, ready, todo, hloop, hkey, htodo, hnew⟩ := applied_of_port hst hport
  -- the record of the key is done, and no other held record has its key
  have hnodup : (record.key :: todo.map DemoRecord.key).Nodup := by
    have hn := ht.nodup
    rw [hloop] at hn
    exact hn
  have hstart : Established k row.expiresAt t (es ++ h) := by
    refine ⟨⟨row, p.config, p.version.value, hrow, hd, le_rfl, (hnew row hrow).1, ?_, (hnew row hrow).2⟩, ?_, ?_,
      hl.step hst hclock k row hrow hd⟩
    · exact List.mem_append_right _ (hkey ▸ (hw.applied record p ready todo hloop).2)
    · rw [htodo]
      intro r hr hk
      exact absurd (List.mem_map_of_mem hr) (hk.trans hkey.symm ▸ (List.nodup_cons.mp hnodup).1)
    · rw [htodo]
      rintro _ _ _ ⟨⟩
  have hkept := cont.invariant (I := fun s h' => (Established k row.expiresAt s h' ∧ Worked s h') ∧
      ∃ news, h' = news ++ (es ++ h) ∧ Event.deleteStarted k ∉ news)
    ⟨⟨hstart, hw.step hst⟩, [], rfl, List.not_mem_nil⟩ ?_
  · obtain ⟨⟨he, -⟩, hnews⟩ := hkept
    obtain ⟨row', config, version, h1, h2, -, h3, h4, h5⟩ := he.route
    exact ⟨⟨row', config, version, h1, h2, routable_iff.mpr ⟨h2, ⟨_, h3⟩, h5⟩, h3, h4⟩, hnews⟩
  · rintro s₁ h₁ a₁ t₁ es₁ ⟨⟨he, hw₁⟩, news, rfl, hn⟩ hc hs₁
    obtain ⟨he', hno⟩ := he.step hw₁ hs₁ hc
    refine ⟨⟨he', hw₁.step (stepped_of_step hs₁)⟩, es₁ ++ news, by rw [List.append_assoc], ?_⟩
    rw [List.mem_append, not_or]
    exact ⟨hno, hn⟩

def establishing : List Action := deployAction "delivery-1" 100 :: (applyActions 110).take 8

def outage : List Action :=
  [.endPass 120, deployAction "delivery-2" 125, .list, .begin 130 130,
    .vault (.vaultError "Vault project lookup failed (HTTP 503)".toList "lookup_HTTP_503".toList) 130 130]

def Event.isDestroy {cm : CaseMapping} : Event cm → Bool
  | .accepted .destroy _ _ _ => true
  | _ => false

def continuesTest (app : App) (expiry : ℤ) (s : System) (a : Action) : Bool :=
  decide (clockForward s a) && a.readings.all (fun r => r.2 < expiry) &&
    match a with
    | .request endpoint req now later => !(app.serve s.api endpoint req now later).2.2.any Event.isDestroy
    | _ => true

theorem continues_of_test {k : Key} {expiry : ℤ} {s : System} {a : Action}
    (h : continuesTest app expiry s a = true) : Continues app k expiry s a := by
  simp only [continuesTest, Bool.and_eq_true, decide_eq_true_eq] at h
  obtain ⟨⟨hc, hb⟩, hn⟩ := h
  refine ⟨hc, fun now later hr => ?_, ?_⟩
  · rw [hr] at hb
    simpa using hb
  · rintro endpoint req now later d body rfl hm
    rw [Bool.not_eq_true', List.any_eq_false] at hn
    exact hn _ hm rfl

def Event.recordsPort {cm : CaseMapping} (k : Key) : Event cm → Option (Option ℤ × ℤ)
  | .store (.updated repository pr v (some port)) => if (repository, pr) = k then some (v, port) else none
  | _ => none

theorem mem_of_recordsPort {cm : CaseMapping} {es : List (Event cm)} {k : Key} {v : Option ℤ} {port : ℤ}
    (h : es.findSome? (Event.recordsPort k) = some (v, port)) :
    Event.store (.updated k.1 k.2 v (some port)) ∈ es := by
  obtain ⟨e, he, hr⟩ := List.exists_of_findSome?_eq_some h
  unfold Event.recordsPort at hr
  split at hr
  · split at hr
    · next hk =>
      cases hr
      rw [← hk]
      exact he
    · cases hr
  · cases hr

theorem established_route_survives_example : ∃ (t u : System) (h h' : List (Event exampleApp.cm))
    (row row' : DemoRecord), t.demos.get exampleKey = some row ∧
    executeIf exampleApp.step (fun s _ a => continuesTest exampleApp row.expiresAt s a) outage t h = some (u, h') ∧
    u.demos.get exampleKey = some row' ∧ row'.routable = true := by
  have hb : (executeIf exampleApp.step (fun s _ a => decide (clockForward s a)) establishing
      (System.initial (fun _ _ => none) 0) []).any (fun p => decide (clockForward p.1 (.resume 110 110)) &&
        (exampleApp.step p.1 (.resume 110 110)).any fun q =>
          (q.2.findSome? (Event.recordsPort exampleKey)).isSome &&
            (q.1.demos.get exampleKey).any fun row => row.desiredPresent &&
              (executeIf exampleApp.step (fun s _ a => continuesTest exampleApp row.expiresAt s a) outage q.1
                (q.2 ++ p.2)).isSome) =
        true := by
    decide +kernel
  simp only [Option.any_eq_true, Bool.and_eq_true, decide_eq_true_eq, Option.isSome_iff_exists] at hb
  obtain ⟨p, hp, hclock, q, hq, ⟨⟨v, port⟩, hport⟩, row, hrow, hd, ⟨u, h'⟩, hu⟩ := hb
  have run : Run exampleApp.step (fun s _ a => clockForward s a) (System.initial (fun _ _ => none) 0) [] p.1 p.2 :=
    Run.of_executeIf establishing (fun _ _ _ _ ht => of_decide_eq_true ht) .start hp
  have cont : Run exampleApp.step (fun s _ a => Continues exampleApp exampleKey row.expiresAt s a)
      q.1 (q.2 ++ p.2) u h' :=
    Run.of_executeIf outage (fun _ _ _ _ ht => continues_of_test ht) .start hu
  obtain ⟨⟨row', -, -, hrow', -, hr, -⟩, -⟩ :=
    established_route_survives run hclock hq (mem_of_recordsPort hport) hrow hd cont
  exact ⟨q.1, u, q.2 ++ p.2, h', row, row', hrow, hu, hrow', hr⟩

/-- The row is written at 1000000, and applied once the clock has been set back. -/
def establishingAhead : List Action := deployAction "delivery-1" 1000000 :: (applyActions 110).take 8

def expiringAgain : List Action := [.endPass 120, deployAction "delivery-2" 200, .list, .begin 259401 259401]

/-- A clock that was set back before the route was established can expire it early. -/
theorem clock_set_back_ends_route : ¬ ∀ (s t u : System) (h es h' : List (Event exampleApp.cm)) (a : Action)
    (k : Key) (v : Option ℤ) (port : ℤ) (row : DemoRecord),
    Run exampleApp.step anyStep (System.initial (fun _ _ => none) 0) [] s h → exampleApp.step s a = some (t, es) →
    Event.store (.updated k.1 k.2 v (some port)) ∈ es → t.demos.get k = some row → row.desiredPresent = true →
    Run exampleApp.step (fun s _ a => Continues exampleApp k row.expiresAt s a) t (es ++ h) u h' →
    ∃ row', u.demos.get k = some row' ∧ row'.routable = true := by
  intro all
  have hb : (runActions establishingAhead).any (fun p => (exampleApp.step p.1 (.resume 110 110)).any fun q =>
      (q.2.findSome? (Event.recordsPort exampleKey)).isSome && (q.1.demos.get exampleKey).any fun row =>
        row.desiredPresent && (executeIf exampleApp.step (fun s _ a => continuesTest exampleApp row.expiresAt s a)
          expiringAgain q.1 (q.2 ++ p.2)).any fun u => (u.1.demos.get exampleKey).any fun row' =>
            !row'.routable) = true := by
    decide +kernel
  simp only [Option.any_eq_true, Bool.and_eq_true, Option.isSome_iff_exists, Bool.not_eq_true'] at hb
  obtain ⟨p, hp, q, hq, ⟨⟨v, port⟩, hport⟩, row, hrow, hd, ⟨u, h'⟩, hu, row', hrow', hr⟩ := hb
  have cont : Run exampleApp.step (fun s _ a => Continues exampleApp exampleKey row.expiresAt s a)
      q.1 (q.2 ++ p.2) u h' :=
    Run.of_executeIf expiringAgain (fun _ _ _ _ ht => continues_of_test ht) .start hu
  obtain ⟨row'', hrow'', hroute⟩ :=
    all p.1 q.1 u p.2 q.2 h' _ _ v port row (run_of_actions hp) hq (mem_of_recordsPort hport) hrow hd cont
  rw [hrow', Option.some.injEq] at hrow''
  rw [← hrow'', hr] at hroute
  cases hroute

end DemoController
