import DemoController.Snapshot

/-!
# How an attempt ends

An attempt reads its record once and writes by key. Whether its last write suits
the row depends on what was accepted for the key while it ran: a deletion is due
for the row it removes, and a terminal state belongs to the delivery it is shown
for, exactly when the last mutation since the snapshot says so.
-/

namespace DemoController

open Lib

variable {app : App}

/-! ### Deletions -/

/-- The record, or what was accepted for its key since the snapshot, is to be deleted. -/
def DeletionDue (record : DemoRecord) (now : ℤ) : Option (StoreEvent app.cm) → Prop
  | none => record.desiredPresent = false ∨ record.expiresAt ≤ now
  | some (.deployed _ _ accepted) => accepted + demoLifetimeSeconds ≤ now
  | some _ => True

theorem deletionDue_iff {record row : DemoRecord} {e : Option (StoreEvent app.cm)}
    (hc : Current record row e) (hm : ∀ m, e = some m → m.isMutation = true) (now : ℤ) :
    row.desiredPresent = false ∨ row.expiresAt ≤ now ↔ DeletionDue record now e := by
  cases e with
  | none =>
    have hd : row.desired = record.desired := hc
    simp only [DemoRecord.desired, Prod.mk.injEq] at hd
    simp only [DeletionDue, hd.2.2.2.2.1, hd.2.2.2.2.2]
  | some m =>
    obtain ⟨hdel, hdep⟩ := hc
    cases m with
    | deployed request hash accepted =>
      simp only [StoreEvent.delivery?, Option.some.injEq, Prod.mk.injEq] at hdel
      have he := hdep _ rfl
      simp only [Prod.mk.injEq] at he
      simp only [DeletionDue, ← hdel.2.2, he.2.2, Bool.true_eq_false, false_or]
    | destroyed repository pr d hash now =>
      simp only [StoreEvent.delivery?, Option.some.injEq, Prod.mk.injEq] at hdel
      simp only [DeletionDue, ← hdel.2.2, true_or]
    | updated | deleted => cases hm _ rfl

theorem lastSince_isMutation {k : Key} {h : List (Event app.cm)} {m : StoreEvent app.cm}
    (hl : lastSince k h = some m) : m.isMutation = true ∧ m.key = k := by
  induction h with
  | nil => cases hl
  | cons e h ih =>
    cases e with
    | snapshot => cases hl
    | store e =>
      rw [lastSince] at hl
      split at hl
      · next hc =>
        cases hl
        exact hc
      · exact ih hl
    | accepted | wrote | deleteStarted | applied => exact ih hl

theorem deleting_of_deleted {s t : System} {a : Action} {es : List (Event app.cm)} {k : Key}
    {repository : Text} {pr : ℤ} (hs : Stepped app s a t es) (hk : k = (repository, pr))
    (hd : Event.store (.deleted repository pr) ∈ es) :
    ∃ record ready todo, s.loop = .deleting record (.returned ready) todo ∧ record.key = k := by
  cases hs with
  | request hr =>
    cases hr with
    | quiet => cases hd
    | repeated => simp at hd
    | effective p =>
      cases p <;> simp [Payload.event] at hd
  | @callApply _ _ _ _ _ _ _ thread => cases thread <;> simp at hd
  | @deleted record ready todo _ _ _ hl =>
    simp only [List.mem_singleton, Event.store.injEq, StoreEvent.deleted.injEq] at hd
    exact ⟨record, ready, todo, hl, by rw [hk, hd.1, hd.2]; rfl⟩
  | list | beginDelete | beginApply | project | vaultFailed | callDelete | deleteFailed | applied | applyFailed
    | endPass | crash => simp [written] at hd

/-- In every run, whatever the order of the steps and the clock, a row that is deleted
is desired absent or expired exactly when the last mutation of its key accepted since
the snapshot, or the record of the snapshot when there is none, is. -/
theorem delete_record_due_iff {cluster : Cluster} {clock : ℤ} {s t : System} {h es : List (Event app.cm)}
    {a : Action} {repository : Text} {pr : ℤ}
    (run : Run app.step anyStep (System.initial cluster clock) [] s h) (hs : app.step s a = some (t, es))
    (hd : Event.store (.deleted repository pr) ∈ es) :
    ∃ record thread todo row, s.loop = .deleting record thread todo ∧ record.key = (repository, pr) ∧
      s.demos.get (repository, pr) = some row ∧
      (row.desiredPresent = false ∨ row.expiresAt ≤ t.clock ↔
        DeletionDue record t.clock (lastSince (repository, pr) h)) := by
  obtain ⟨record, ready, todo, hl, hk⟩ := deleting_of_deleted (stepped_of_step hs) rfl hd
  obtain ⟨row, hrow, hc⟩ := (tracked_of_run run).row record (by rw [hl]; exact List.mem_cons_self ..)
  rw [hk] at hrow hc
  exact ⟨record, _, todo, row, hl, hk, hrow,
    deletionDue_iff hc (fun m hm => (lastSince_isMutation hm).1) _⟩

def Event.deletes {cm : CaseMapping} (k : Key) : Event cm → Bool
  | .store (.deleted repository pr) => (repository, pr) = k
  | _ => false

theorem mem_of_deletes {cm : CaseMapping} {es : List (Event cm)} {k : Key}
    (h : es.any (Event.deletes k) = true) : Event.store (.deleted k.1 k.2) ∈ es := by
  obtain ⟨e, he, hd⟩ := List.any_eq_true.mp h
  unfold Event.deletes at hd
  split at hd
  · rw [← of_decide_eq_true hd]
    exact he
  · cases hd

def redeployedWhileDeleting : List Action :=
  [destroyAction "delivery-3" 100, .list, .begin 110 110, deployAction "delivery-1" 120,
    .call .notFound, .call .notFound, .call .notFound, .call .notFound]

theorem redeployedWhileDeleting_runs : ∃ s t h es row, runActions redeployedWhileDeleting = some (s, h) ∧
    exampleApp.step s (.resume 130 130) = some (t, es) ∧
    Event.store (.deleted exampleKey.1 exampleKey.2) ∈ es ∧
    s.demos.get exampleKey = some row ∧ row.desiredPresent = true ∧ t.clock < row.expiresAt := by
  have hb : (runActions redeployedWhileDeleting).any (fun p =>
      (exampleApp.step p.1 (.resume 130 130)).any fun q => q.2.any (Event.deletes exampleKey) &&
        (p.1.demos.get exampleKey).any fun row =>
          row.desiredPresent && decide (q.1.clock < row.expiresAt)) = true := by
    decide +kernel
  simp only [Option.any_eq_true, Bool.and_eq_true, decide_eq_true_eq] at hb
  obtain ⟨⟨s, h⟩, hr, ⟨t, es⟩, hs, hd, row, hrow, hp, hx⟩ := hb
  exact ⟨s, t, h, es, row, hr, hs, mem_of_deletes hd, hrow, hp, hx⟩

theorem delete_record_due_iff_example : ∃ (s t : System) (h es : List (Event exampleApp.cm))
    (record row : DemoRecord), runActions redeployedWhileDeleting = some (s, h) ∧
    exampleApp.step s (.resume 130 130) = some (t, es) ∧ s.demos.get exampleKey = some row ∧
    (row.desiredPresent = false ∨ row.expiresAt ≤ t.clock ↔
      DeletionDue record t.clock (lastSince exampleKey h)) := by
  obtain ⟨s, t, h, es, -, hr, hs, hd, -⟩ := redeployedWhileDeleting_runs
  obtain ⟨record, -, -, row, -, -, hrow, hiff⟩ := delete_record_due_iff (run_of_actions hr) hs hd
  exact ⟨s, t, h, es, record, row, hr, hs, hrow, hiff⟩

/-- The row of an accepted deployment that has not expired can be deleted. -/
theorem accepted_deployment_deleted : ¬ ∀ (s t : System) (h es : List (Event exampleApp.cm)) (a : Action)
    (k : Key) (row : DemoRecord),
    Run exampleApp.step anyStep (System.initial (fun _ _ => none) 0) [] s h →
    exampleApp.step s a = some (t, es) → Event.store (.deleted k.1 k.2) ∈ es →
    s.demos.get k = some row → row.desiredPresent = false ∨ row.expiresAt ≤ t.clock := by
  intro all
  obtain ⟨s, t, h, es, row, hr, hs, hd, hrow, hp, hx⟩ := redeployedWhileDeleting_runs
  rcases all s t h es _ exampleKey row (run_of_actions hr) hs hd hrow with hn | hn
  · rw [hp] at hn
    cases hn
  · omega

/-! ### Applies -/

/-- The step hands the rendered objects of the record to `apply`. -/
def ApplyStarts (s t : System) (record : DemoRecord) : Prop :=
  ∃ p thread todo, s.loop = .loading record todo ∧ t.loop = .applying record p thread todo

def StoreEvent.isDestroy {cm : CaseMapping} : StoreEvent cm → Bool
  | .destroyed _ _ _ _ _ => true
  | _ => false

/-- Configuration is only loaded for a record that is to be present. -/
def LoadsPresent (s : System) : Prop := ∀ record todo, s.loop = .loading record todo → record.desiredPresent = true

theorem LoadsPresent.step {s t : System} {es : List (Event app.cm)} {a : Action} (hp : LoadsPresent s)
    (hs : Stepped app s a t es) : LoadsPresent t := by
  intro record todo hl
  cases hs with
  | request => exact hp record todo hl
  | beginApply _ hd _ =>
    cases hl
    exact hd
  | list | beginDelete | project | vaultFailed | callDelete | callApply | deleted | deleteFailed | applied
    | applyFailed | endPass | crash => cases hl

theorem desiredPresent_iff {record row : DemoRecord} {e : Option (StoreEvent app.cm)}
    (hc : Current record row e) (hm : ∀ m, e = some m → m.isMutation = true) (hr : record.desiredPresent = true) :
    row.desiredPresent = true ↔ e.any StoreEvent.isDestroy = false := by
  cases e with
  | none =>
    have hd : row.desired = record.desired := hc
    simp only [DemoRecord.desired, Prod.mk.injEq] at hd
    simp only [hd.2.2.2.2.1, hr, Option.any_none]
  | some m =>
    obtain ⟨hdel, -⟩ := hc
    cases m with
    | deployed | destroyed =>
      simp only [StoreEvent.delivery?, Option.some.injEq, Prod.mk.injEq] at hdel
      simp only [Option.any_some, StoreEvent.isDestroy, ← hdel.2.2, Bool.false_eq_true, Bool.true_eq_false]
    | updated | deleted => cases hm _ rfl

/-- In every run, whenever an apply starts for a record, its row is desired present
exactly when the last mutation of the key accepted since the snapshot is no destroy. -/
theorem apply_wanted_iff {cluster : Cluster} {clock : ℤ} {s t : System} {h es : List (Event app.cm)}
    {a : Action} {record : DemoRecord} (run : Run app.step anyStep (System.initial cluster clock) [] s h)
    (hs : app.step s a = some (t, es)) (hstart : ApplyStarts s t record) :
    ∃ row, t.demos.get record.key = some row ∧
      (row.desiredPresent = true ↔ (lastSince record.key h).any StoreEvent.isDestroy = false) := by
  have hboth : Tracked s h ∧ LoadsPresent s := by
    refine run.invariant (I := fun s h => Tracked s h ∧ LoadsPresent s)
      ⟨tracked_initial .., fun record todo hl => by cases hl⟩ ?_
    rintro s h a t es ⟨ht, hp⟩ - hs
    exact ⟨ht.step (stepped_of_step hs), hp.step (stepped_of_step hs)⟩
  obtain ⟨p, thread, todo, hl, hl'⟩ := hstart
  obtain ⟨row, hrow, hc⟩ := hboth.1.row record (by rw [hl]; exact List.mem_cons_self ..)
  have hsame : t.demos = s.demos := by
    cases stepped_of_step hs with
    | request => exact absurd (hl.symm.trans hl') (by simp)
    | project => rfl
    | callApply hl'' _ => exact absurd (hl.symm.trans hl'') (by simp)
    | list | beginDelete | beginApply | vaultFailed | callDelete | deleted | deleteFailed | applied | applyFailed
      | endPass | crash => cases hl'
  rw [hsame]
  exact ⟨row, hrow, desiredPresent_iff hc (fun m hm => (lastSince_isMutation hm).1) (hboth.2 record todo hl)⟩

def destroyedWhileLoading : List Action :=
  [deployAction "delivery-1" 100, .list, .begin 110 110, destroyAction "delivery-3" 120]

theorem destroyedWhileLoading_runs : ∃ s t h es record row, runActions destroyedWhileLoading = some (s, h) ∧
    exampleApp.step s (.vault (.project exampleProject) 130 130) = some (t, es) ∧ ApplyStarts s t record ∧
    record.key = exampleKey ∧ t.demos.get exampleKey = some row ∧ row.desiredPresent = false := by
  have hb : (runActions destroyedWhileLoading).any (fun p =>
      (exampleApp.step p.1 (.vault (.project exampleProject) 130 130)).any fun q =>
        decide (p.1.loop.held.map DemoRecord.key = [exampleKey]) && decide (q.1.loop.held.length = 1) &&
        (q.1.demos.get exampleKey).any fun row => !row.desiredPresent) = true := by
    decide +kernel
  simp only [Option.any_eq_true, Bool.and_eq_true, Bool.not_eq_true', decide_eq_true_eq] at hb
  obtain ⟨⟨s, h⟩, hr, ⟨t, es⟩, hs, ⟨hheld, hone⟩, row, hrow, hd⟩ := hb
  have hst := stepped_of_step hs
  cases hst with
  | @project record todo _ _ _ _ hl _ =>
    rw [hl] at hheld
    have hk : record.key = exampleKey := List.head_eq_of_cons_eq hheld
    exact ⟨s, _, h, _, record, row, hr, hs, ⟨_, _, _, hl, rfl⟩, hk, hrow, hd⟩
  | vaultFailed hl _ =>
    rw [hl] at hheld
    have htodo := List.map_eq_nil_iff.mp (List.tail_eq_of_cons_eq hheld)
    simp [System.update, Loop.held, htodo] at hone

theorem apply_wanted_iff_example : ∃ (s t : System) (h es : List (Event exampleApp.cm)) (record row : DemoRecord),
    runActions destroyedWhileLoading = some (s, h) ∧
    exampleApp.step s (.vault (.project exampleProject) 130 130) = some (t, es) ∧
    t.demos.get record.key = some row ∧
    (row.desiredPresent = true ↔ (lastSince record.key h).any StoreEvent.isDestroy = false) := by
  obtain ⟨s, t, h, es, record, -, hr, hs, hstart, -⟩ := destroyedWhileLoading_runs
  obtain ⟨row, hrow, hiff⟩ := apply_wanted_iff (run_of_actions hr) hs hstart
  exact ⟨s, t, h, es, record, row, hr, hs, hrow, hiff⟩

/-- A demo whose destroy was accepted can be applied again. -/
theorem destroyed_demo_applied : ¬ ∀ (s t : System) (h es : List (Event exampleApp.cm)) (a : Action)
    (record row : DemoRecord), Run exampleApp.step anyStep (System.initial (fun _ _ => none) 0) [] s h →
    exampleApp.step s a = some (t, es) → ApplyStarts s t record → t.demos.get record.key = some row →
    row.desiredPresent = true := by
  intro all
  obtain ⟨s, t, h, es, record, row, hr, hs, hstart, hk, hrow, hd⟩ := destroyedWhileLoading_runs
  have hp := all s t h es _ record row (run_of_actions hr) hs hstart (by rw [hk]; exact hrow)
  rw [hd] at hp
  cases hp

/-! ### Terminal states -/

def lastWrite {cm : CaseMapping} (k : Key) : List (Event cm) → Option (DemoRecord × DemoState)
  | [] => none
  | .wrote record state :: h => if record.key = k then some (record, state) else lastWrite k h
  | .store _ :: h => lastWrite k h
  | .accepted _ _ _ _ :: h => lastWrite k h
  | .snapshot :: h => lastWrite k h
  | .deleteStarted _ :: h => lastWrite k h
  | .applied _ _ _ :: h => lastWrite k h

def DemoState.isTerminal (state : DemoState) : Bool := state == .ready || state == .failed

/-- The row shows a terminal state only of an attempt for its own delivery. -/
def TerminalOwned (s : System) (h : List (Event app.cm)) : Prop :=
  ∀ k row, s.demos.get k = some row → row.state.isTerminal = true →
    ∃ record, lastWrite k h = some (record, row.state) ∧ record.deliveryId = row.deliveryId

/-- The record of the attempt that the action ends with a terminal state. -/
def App.terminalWrite (app : App) (s : System) : Action → Option DemoRecord
  | .vault outcome _ _ =>
    match s.loop, outcome with
    | .loading record _, .project p => if app.imageAuthorized record p.config then none else some record
    | .loading record _, _ => some record
    | _, _ => none
  | .resume _ _ =>
    match s.loop with
    | .deleting record (.raised _) _ => some record
    | .applying record p (.returned ready) _ =>
      if ready || !Store.bindable (some p.version.value) then some record else none
    | .applying record _ (.raised _) _ => some record
    | _ => none
  | _ => none

/-- Nothing with another delivery was accepted for the record's key since the snapshot. -/
def OwnDelivery (record : DemoRecord) (h : List (Event app.cm)) : Prop :=
  ∀ e d, lastSince record.key h = some e → e.delivery? = some d → d.1 = record.deliveryId

/-- Every attempt that ends with a terminal state still reconciles its own delivery. -/
def endsOwnDelivery (app : App) (s : System) (h : List (Event app.cm)) (a : Action) : Prop :=
  ∀ record, app.terminalWrite s a = some record → OwnDelivery record h

@[simp] theorem lastWrite_written {cm : CaseMapping} (r : DemoRecord) (state : DemoState) (v p : Option ℤ)
    (h : List (Event cm)) : lastWrite r.key (written r state v p ++ h) = some (r, state) := by
  simp [written, lastWrite]

theorem lastWrite_written_of_ne {cm : CaseMapping} {k : Key} {r : DemoRecord} (hk : k ≠ r.key)
    (state : DemoState) (v p : Option ℤ) (h : List (Event cm)) :
    lastWrite k (written r state v p ++ h) = lastWrite k h := by
  simp [written, lastWrite, hk.symm]

theorem Served.lastWrite {s t : ApiState} {endpoint : Endpoint} {req : HttpRequest} {now later : ℤ}
    {r : Response} {es : List (Event app.cm)} (hs : Served app s endpoint req now later t r es) (k : Key)
    (h : List (Event app.cm)) : lastWrite k (es ++ h) = lastWrite k h := by
  cases hs <;> rfl

theorem delivery_eq_iff {record row : DemoRecord} {h : List (Event app.cm)}
    (hc : Current record row (lastSince record.key h)) :
    record.deliveryId = row.deliveryId ↔ OwnDelivery record h := by
  unfold OwnDelivery
  cases hl : lastSince record.key h with
  | none =>
    rw [hl] at hc
    have hd : row.desired = record.desired := hc
    simp only [DemoRecord.desired, Prod.mk.injEq] at hd
    simp [hd.1]
  | some e =>
    rw [hl] at hc
    constructor
    · rintro hr e' d ⟨⟩ hd
      rw [hc.1, Option.some.injEq] at hd
      rw [← hd, hr]
    · exact fun own => (own e _ rfl hc.1).symm

theorem terminalOwned_update {s : System} {h : List (Event app.cm)} (ht : Tracked s h) (ho : TerminalOwned s h)
    {r : DemoRecord} (hr : r ∈ s.loop.held) (state : DemoState) (m : Text) (v p : Option ℤ) (now : ℤ)
    (loop : Loop) : TerminalOwned (s.update r state m v p now loop) (written r state v p ++ h) ↔
      (state.isTerminal = true → OwnDelivery r h) := by
  obtain ⟨row, hrow, hc⟩ := ht.row r hr
  constructor
  · intro hown hterm
    obtain ⟨record, hw, hd⟩ := hown r.key _ ((update_get_self ..).trans (by rw [hrow]; rfl)) hterm
    rw [lastWrite_written, Option.some.injEq, Prod.mk.injEq] at hw
    rw [← hw.1] at hd
    exact (delivery_eq_iff hc).mp hd
  · intro hown k row' hrow' hterm
    by_cases hk : k = r.key
    · subst hk
      rw [update_get_self, hrow] at hrow'
      cases hrow'
      exact ⟨r, lastWrite_written .., (delivery_eq_iff hc).mpr (hown hterm)⟩
    · rw [update_get_of_ne s _ _ _ _ _ _ hk] at hrow'
      rw [lastWrite_written_of_ne hk]
      exact ho k row' hrow' hterm

theorem TerminalOwned.quiet {s t : System} {h es : List (Event app.cm)} (ho : TerminalOwned s h)
    (hd : ∀ k row, t.demos.get k = some row → s.demos.get k = some row)
    (hes : ∀ k, lastWrite k (es ++ h) = lastWrite k h) : TerminalOwned t (es ++ h) := by
  intro k row hrow hterm
  rw [hes]
  exact ho k row (hd k row hrow) hterm

/-- A step keeps the ownership of terminal states exactly when the attempt it ends, if
any, still reconciles its own delivery. -/
theorem terminalOwned_step {s t : System} {h es : List (Event app.cm)} {a : Action} (ht : Tracked s h)
    (ho : TerminalOwned s h) (hs : Stepped app s a t es) :
    TerminalOwned t (es ++ h) ↔ endsOwnDelivery app s h a := by
  have same {o : Option DemoRecord} (hn : o = none) (hw : app.terminalWrite s a = o)
      (hq : TerminalOwned t (es ++ h)) : TerminalOwned t (es ++ h) ↔ endsOwnDelivery app s h a :=
    iff_of_true hq fun record hr => by rw [hw, hn] at hr; cases hr
  have ends {r : DemoRecord} (hw : app.terminalWrite s a = some r)
      (hq : TerminalOwned t (es ++ h) ↔ OwnDelivery r h) :
      TerminalOwned t (es ++ h) ↔ endsOwnDelivery app s h a := by
    rw [hq]
    constructor
    · intro own record hr
      rw [hw, Option.some.injEq] at hr
      exact hr ▸ own
    · exact fun all => all r hw
  have failed {r : DemoRecord} (hr : r ∈ s.loop.held) (health : Health) (m : Text) (now : ℤ) (loop : Loop) :
      TerminalOwned (System.update { s with health := health } r .failed m none none now loop)
        (written r .failed none none ++ h) ↔ OwnDelivery r h :=
    (terminalOwned_update (ht.observed health) ho hr ..).trans (by simp [DemoState.isTerminal])
  cases hs with
  | request hr =>
    refine same rfl rfl fun k row hrow hterm => ?_
    rw [hr.lastWrite]
    rcases hr.get k with ⟨hg, -⟩ | ⟨p, -, -, -, hg, -⟩
    · exact ho k row (hg ▸ hrow) hterm
    · rw [show System.demos _ = _ from rfl, hg, Option.some.injEq] at hrow
      rw [← hrow, Payload.rowAfter_state] at hterm
      split at hterm <;> cases hterm
  | list => exact same rfl rfl (ho.quiet (fun _ _ hr => hr) fun _ => rfl)
  | beginDelete hl _ =>
    exact same rfl rfl ((terminalOwned_update ht ho (mem_held hl (List.mem_cons_self ..)) ..).mpr
      fun hterm => by cases hterm)
  | beginApply hl _ _ =>
    exact same rfl rfl ((terminalOwned_update ht ho (mem_held hl (List.mem_cons_self ..)) ..).mpr
      fun hterm => by cases hterm)
  | project hl ha =>
    exact same rfl (by simp only [App.terminalWrite, hl, ha, if_true])
      (ho.quiet (fun _ _ hr => hr) fun _ => rfl)
  | @vaultFailed record _ outcome now later _ _ hl ha =>
    have hw : app.terminalWrite s (.vault outcome now later) = some record := by
      cases outcome with
      | project p => simp only [App.terminalWrite, hl, ha p rfl, Bool.false_eq_true, if_false]
      | vaultError | raised => simp only [App.terminalWrite, hl]
    exact ends hw (failed (mem_held hl (List.mem_cons_self ..)) ..)
  | callDelete => exact same rfl rfl (ho.quiet (fun _ _ hr => hr) fun _ => rfl)
  | @callApply _ _ _ _ _ _ _ thread =>
    refine same rfl rfl (ho.quiet (fun _ _ hr => hr) fun _ => ?_)
    cases thread <;> rfl
  | deleted hl =>
    exact same rfl (by simp only [App.terminalWrite, hl])
      (ho.quiet (fun _ _ hrow => Store.get_of_deleteRecord hrow) fun _ => rfl)
  | deleteFailed hl =>
    exact ends (by simp only [App.terminalWrite, hl]) (failed (mem_held hl (List.mem_cons_self ..)) ..)
  | @applied record p ready todo _ _ health hl hb =>
    have hm := mem_held hl (List.mem_cons_self ..)
    cases ready with
    | true =>
      refine @ends record (by simp only [App.terminalWrite, hl, Bool.true_or, if_true]) ?_
      refine (terminalOwned_update (ht.observed health) ho hm _ _ _ _ _ (.pass todo)).trans ?_
      simp [DemoState.isTerminal]
    | false =>
      refine same rfl (by simp only [App.terminalWrite, hl, hb, Bool.not_true, Bool.or_self,
        Bool.false_eq_true, if_false]) ?_
      exact (terminalOwned_update (ht.observed health) ho hm _ _ _ _ _ (.pass todo)).mpr
        fun hterm => by cases hterm
  | @applyFailed record p thread _ _ _ _ _ hl he hb =>
    refine ends ?_ (failed (mem_held hl (List.mem_cons_self ..)) ..)
    cases he with
    | returned ready => simp only [App.terminalWrite, hl, hb ready rfl, Bool.not_false, Bool.or_true, if_true]
    | raised error => simp only [App.terminalWrite, hl]
  | endPass hl => exact same rfl rfl (ho.quiet (fun _ _ hr => hr) fun _ => rfl)
  | crash => exact same rfl rfl (ho.quiet (fun _ _ hr => hr) fun _ => rfl)

/-- As long as every attempt that ends with a terminal state still reconciles its own
delivery, each terminal state is shown for the delivery of the attempt that wrote it;
the first attempt that ends otherwise leaves a row for which this fails. -/
theorem terminal_state_owned {cluster : Cluster} {clock : ℤ} {s : System} {h : List (Event app.cm)}
    (run : Run app.step (endsOwnDelivery app) (System.initial cluster clock) [] s h) :
    TerminalOwned s h ∧ ∀ a t es, app.step s a = some (t, es) →
      (TerminalOwned t (es ++ h) ↔ endsOwnDelivery app s h a) := by
  have hboth : Tracked s h ∧ TerminalOwned s h := by
    refine run.invariant (I := fun s h => Tracked s h ∧ TerminalOwned s h)
      ⟨tracked_initial .., fun k row hr => by cases hr⟩ ?_
    rintro s h a t es ⟨ht, ho⟩ hp hs
    have hst := stepped_of_step hs
    exact ⟨ht.step hst, (terminalOwned_step ht ho hst).mpr hp⟩
  exact ⟨hboth.2, fun a t es hs => terminalOwned_step hboth.1 hboth.2 (stepped_of_step hs)⟩

def redeployedWhileLoading : List Action :=
  [deployAction "delivery-1" 100, .list, .begin 110 110, deployAction "delivery-2" 120]

def vaultOutage : Action :=
  .vault (.vaultError "Vault project lookup failed (HTTP 503)".toList "lookup_HTTP_503".toList) 130 130

theorem redeployedWhileLoading_runs : ∃ s t h es row, runActions redeployedWhileLoading = some (s, h) ∧
    exampleApp.step s vaultOutage = some (t, es) ∧ t.demos.get exampleKey = some row ∧
    row.state = .failed ∧ row.deliveryId = "delivery-2".toList ∧
    (lastWrite exampleKey (es ++ h)).map (fun w => w.1.deliveryId) = some "delivery-1".toList := by
  have hb : (runActions redeployedWhileLoading).any (fun p => (exampleApp.step p.1 vaultOutage).any fun q =>
      (q.1.demos.get exampleKey).any fun row => decide (row.state = .failed) &&
        decide (row.deliveryId = "delivery-2".toList) && decide
          ((lastWrite exampleKey (q.2 ++ p.2)).map (fun w => w.1.deliveryId) = some "delivery-1".toList)) = true := by
    decide +kernel
  simp only [Option.any_eq_true, Bool.and_eq_true, decide_eq_true_eq] at hb
  obtain ⟨⟨s, h⟩, hr, ⟨t, es⟩, hs, row, hrow, ⟨hf, hd⟩, hw⟩ := hb
  exact ⟨s, t, h, es, row, hr, hs, hrow, hf, hd, hw⟩

def endsOwnTest (app : App) (s : System) (h : List (Event app.cm)) (a : Action) : Bool :=
  (app.terminalWrite s a).all fun record => (lastSince record.key h).all fun e =>
    e.delivery?.all fun d => decide (d.1 = record.deliveryId)

theorem endsOwnDelivery_of_test {s : System} {h : List (Event app.cm)} {a : Action}
    (ht : endsOwnTest app s h a = true) : endsOwnDelivery app s h a := by
  intro record hw e d he hd
  rw [endsOwnTest, hw, Option.all_some, he, Option.all_some, hd, Option.all_some] at ht
  exact of_decide_eq_true ht

/-- A demo becomes ready, is deployed again while it is known to be, and fails. -/
def ownAttempts : List Action :=
  deployAction "delivery-1" 100 :: applyActions 110 ++
    [deployAction "delivery-2" 120, .list, .begin 125 125, vaultOutage]

theorem terminal_state_owned_example : ∃ s h row record,
    Run exampleApp.step (endsOwnDelivery exampleApp) (System.initial (fun _ _ => none) 0) [] s h ∧
    s.demos.get exampleKey = some row ∧ row.state = .failed ∧ row.deliveryId = "delivery-2".toList ∧
    lastWrite exampleKey h = some (record, .failed) ∧ record.deliveryId = "delivery-2".toList := by
  have hb : (executeIf exampleApp.step (endsOwnTest exampleApp) ownAttempts
      (System.initial (fun _ _ => none) 0) []).any (fun q => (q.1.demos.get exampleKey).any fun row =>
        decide (row.state = .failed) && decide (row.deliveryId = "delivery-2".toList)) = true := by
    decide +kernel
  simp only [Option.any_eq_true, Bool.and_eq_true, decide_eq_true_eq] at hb
  obtain ⟨⟨s, h⟩, hr, row, hrow, hf, hd⟩ := hb
  have run : Run exampleApp.step (endsOwnDelivery exampleApp) (System.initial (fun _ _ => none) 0) [] s h :=
    Run.of_executeIf ownAttempts (fun _ _ _ _ ht => endsOwnDelivery_of_test ht) .start hr
  obtain ⟨record, hlast, hid⟩ := (terminal_state_owned run).1 exampleKey row hrow (by rw [hf]; rfl)
  exact ⟨s, h, row, record, run, hrow, hf, hd, hf ▸ hlast, hid.trans hd⟩

/-- A row can show the failure of an attempt for an earlier delivery. -/
theorem failure_of_earlier_delivery : ¬ ∀ (s : System) (h : List (Event exampleApp.cm)),
    Run exampleApp.step anyStep (System.initial (fun _ _ => none) 0) [] s h → TerminalOwned s h := by
  intro all
  obtain ⟨s, t, h, es, row, hr, hs, hrow, hf, hd, hw⟩ := redeployedWhileLoading_runs
  have hrun := (run_of_actions hr).next trivial hs
  obtain ⟨record, hlast, hid⟩ := all t (es ++ h) hrun exampleKey row hrow (by rw [hf]; rfl)
  rw [hlast, Option.map_some, hid, hd, Option.some.injEq] at hw
  revert hw
  decide

end DemoController
