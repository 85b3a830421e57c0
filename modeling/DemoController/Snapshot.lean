import DemoController.Reconciler

/-!
# What the loop knows of the rows it reconciles

Between the snapshot and the end of the pass only the API rewrites the rows of
the records the loop still holds, and only the loop deletes them. A held record
therefore has a row, and the row asks for what the record asked for unless a
mutation of its key was accepted since the snapshot.
-/

namespace DemoController

open Lib

variable {app : App}

/-- The last mutation of a key that was accepted since the loop's snapshot. -/
def lastSince {cm : CaseMapping} (k : Key) : List (Event cm) → Option (StoreEvent cm)
  | [] => none
  | .snapshot :: _ => none
  | .store e :: h => if e.isMutation = true ∧ e.key = k then some e else lastSince k h
  | .accepted _ _ _ _ :: h => lastSince k h
  | .wrote _ _ :: h => lastSince k h
  | .deleteStarted _ :: h => lastSince k h
  | .applied _ _ _ :: h => lastSince k h

/-- What the row of a held record asks for. -/
def Current {cm : CaseMapping} (record row : DemoRecord) : Option (StoreEvent cm) → Prop
  | none => row.desired = record.desired
  | some e => e.delivery? = some (row.deliveryId, row.requestHash, row.desiredPresent) ∧
      ∀ d, e.deploy? = some d → (row.commitSha, row.image, row.expiresAt) = d

/-- No two held records have one key, and each has a row the record or a later
mutation describes. -/
structure Tracked (s : System) (h : List (Event app.cm)) : Prop where
  nodup : (s.loop.held.map DemoRecord.key).Nodup
  row : ∀ r ∈ s.loop.held, ∃ row, s.demos.get r.key = some row ∧ Current r row (lastSince r.key h)

/-! ### Rows after an update, a delivery and a deletion -/

@[simp] theorem update_get_self (s : System) (r : DemoRecord) (state : DemoState) (m : Text) (v p : Option ℤ)
    (now : ℤ) (loop : Loop) : (s.update r state m v p now loop).demos.get r.key =
      (s.demos.get r.key).map (DemoRecord.withState state m v p now) :=
  s.api.store.get_updateState_self ..

theorem update_get_of_ne (s : System) {r : DemoRecord} (state : DemoState) (m : Text) (v p : Option ℤ)
    (now : ℤ) (loop : Loop) {k : Key} (h : k ≠ r.key) :
    (s.update r state m v p now loop).demos.get k = s.demos.get k :=
  s.api.store.get_updateState_of_ne _ _ _ _ _ h

theorem update_get (s : System) (r : DemoRecord) (state : DemoState) (m : Text) (v p : Option ℤ)
    (now : ℤ) (loop : Loop) {k : Key} {row : DemoRecord} (h : s.demos.get k = some row) :
    ∃ row', (s.update r state m v p now loop).demos.get k = some row' ∧ row'.desired = row.desired ∧
      row'.key = row.key := by
  by_cases hk : k = r.key
  · subst hk
    rw [update_get_self, h]
    exact ⟨_, rfl, rfl, rfl⟩
  · rw [update_get_of_ne s _ _ _ _ _ _ hk]
    exact ⟨row, h, rfl, rfl⟩

/-- One request either leaves the row of a key alone or rewrites it with a mutation
it records. -/
theorem Served.get {s t : ApiState} {endpoint : Endpoint} {req : HttpRequest} {now later : ℤ} {r : Response}
    {es : List (Event app.cm)} (hs : Served app s endpoint req now later t r es) (k : Key) :
    (t.store.demos.get k = s.store.demos.get k ∧ ∀ h, lastSince k (es ++ h) = lastSince k h) ∨
    ∃ p : Payload app.cm, p.key = k ∧ Admitted app s endpoint req now p ∧
      s.store.hasDelivery k p.deliveryId = false ∧
      t.store.demos.get k = some (p.rowAfter (sha256 req.body) later (s.store.demos.get k)) ∧
      es = [.accepted p.operation p.key p.deliveryId req.body, .store (p.event (sha256 req.body) later)] := by
  cases hs with
  | quiet hd _ => exact .inl ⟨by rw [hd], fun _ => rfl⟩
  | repeated p row _ _ _ _ hd _ => exact .inl ⟨by rw [hd], fun _ => rfl⟩
  | effective p ha hn hd _ =>
    by_cases hk : k = p.key
    · subst hk
      exact .inr ⟨p, rfl, ha, hn, by rw [hd, Payload.get_write_self], rfl⟩
    · refine .inl ⟨by rw [hd, Payload.get_write_of_ne _ _ _ _ hk], fun h => ?_⟩
      simp only [List.cons_append, List.nil_append, lastSince, Payload.event_key, Ne.symm hk, and_false, if_false]

@[simp] theorem lastSince_written {cm : CaseMapping} (k : Key) (r : DemoRecord) (state : DemoState)
    (v p : Option ℤ) (h : List (Event cm)) : lastSince k (written r state v p ++ h) = lastSince k h := by
  simp [written, lastSince, StoreEvent.isMutation, StoreEvent.time?]

theorem current_rowAfter {cm : CaseMapping} (record : DemoRecord) (p : Payload cm) (hash : Text) (now : ℤ)
    (old : Option DemoRecord) : Current record (p.rowAfter hash now old) (some (p.event hash now)) := by
  cases p <;> cases old
  all_goals
    refine ⟨rfl, ?_⟩
    rintro d ⟨⟩
    try rfl

theorem Current.of_desired {cm : CaseMapping} {record row row' : DemoRecord} {e : Option (StoreEvent cm)}
    (hc : Current record row e) (hd : row'.desired = row.desired) : Current record row' e := by
  simp only [DemoRecord.desired, Prod.mk.injEq] at hd
  obtain ⟨h1, h2, h3, h4, h5, h6⟩ := hd
  cases e with
  | none =>
    have hrow : row.desired = record.desired := hc
    change row'.desired = record.desired
    rw [← hrow]
    simp only [DemoRecord.desired, h1, h2, h3, h4, h5, h6]
  | some e => exact ⟨by rw [h1, h2, h5]; exact hc.1, fun d hd => by rw [h3, h4, h6]; exact hc.2 d hd⟩

theorem row_of_update {s : System} {r : DemoRecord} {state : DemoState} {m : Text} {v p : Option ℤ} {now : ℤ}
    {loop : Loop} {k : Key} {row : DemoRecord}
    (h : (s.update r state m v p now loop).demos.get k = some row) :
    ∃ old, s.demos.get k = some old ∧
      (k = r.key ∧ row = old.withState state m v p now ∨ k ≠ r.key ∧ row = old) := by
  by_cases hk : k = r.key
  · subst hk
    rw [update_get_self] at h
    obtain ⟨old, ho, rfl⟩ := Option.map_eq_some_iff.mp h
    exact ⟨old, ho, .inl ⟨rfl, rfl⟩⟩
  · rw [update_get_of_ne s _ _ _ _ _ _ hk] at h
    exact ⟨row, h, .inr ⟨hk, rfl⟩⟩

theorem get_of_update {s : System} {r : DemoRecord} {state : DemoState} {m : Text} {v p : Option ℤ} {now : ℤ}
    {loop : Loop} {k : Key} {row : DemoRecord}
    (h : (s.update r state m v p now loop).demos.get k = some row) :
    ∃ old, s.demos.get k = some old ∧ row.desired = old.desired := by
  obtain ⟨old, ho, ⟨-, rfl⟩ | ⟨-, rfl⟩⟩ := row_of_update h
  · exact ⟨old, ho, rfl⟩
  · exact ⟨_, ho, rfl⟩

/-- What the loop does to the rows: none is added and none asks for anything else. -/
theorem Stepped.desired_of_internal {s t : System} {es : List (Event app.cm)} {a : Action}
    (hs : Stepped app s a t es) (ha : ∀ endpoint req now later, a ≠ .request endpoint req now later) :
    (∀ k row, t.demos.get k = some row → ∃ old, s.demos.get k = some old ∧ row.desired = old.desired) ∧
    ∀ op k d body, Event.accepted op k d body ∉ es := by
  have same {t : System} (hd : t.demos = s.demos) (k : Key) (row : DemoRecord)
      (hr : t.demos.get k = some row) : ∃ old, s.demos.get k = some old ∧ row.desired = old.desired :=
    ⟨row, hd ▸ hr, rfl⟩
  cases hs with
  | request => exact absurd rfl (ha _ _ _ _)
  | list | project | callDelete | endPass | crash => exact ⟨same rfl, by simp⟩
  | @callApply _ _ _ _ _ _ _ thread => exact ⟨same rfl, by cases thread <;> simp⟩
  | beginDelete | beginApply | vaultFailed | deleteFailed | applied | applyFailed =>
    refine ⟨fun k row hr => ?_, by simp [written]⟩
    have hold := get_of_update hr
    exact hold
  | deleted => exact ⟨fun k row hr => ⟨row, Store.get_of_deleteRecord hr, rfl⟩, by simp⟩

/-! ### One step -/

theorem Tracked.update {s : System} {h es : List (Event app.cm)} (ht : Tracked s h) (r : DemoRecord)
    (state : DemoState) (m : Text) (v p : Option ℤ) (now : ℤ) {loop : Loop}
    (hsub : loop.held.Sublist s.loop.held) (hes : ∀ k, lastSince k (es ++ h) = lastSince k h) :
    Tracked (s.update r state m v p now loop) (es ++ h) := by
  refine ⟨ht.nodup.sublist (hsub.map _), fun q hq => ?_⟩
  obtain ⟨row, hrow, hc⟩ := ht.row q (hsub.subset hq)
  obtain ⟨row', hrow', hd, -⟩ := update_get s r state m v p now loop hrow
  rw [hes]
  exact ⟨row', hrow', hc.of_desired hd⟩

theorem Tracked.quiet {s t : System} {h es : List (Event app.cm)} (ht : Tracked s h) (hd : t.demos = s.demos)
    (hsub : t.loop.held.Sublist s.loop.held) (hes : ∀ k, lastSince k (es ++ h) = lastSince k h) :
    Tracked t (es ++ h) := by
  refine ⟨ht.nodup.sublist (hsub.map _), fun q hq => ?_⟩
  rw [hd, hes]
  exact ht.row q (hsub.subset hq)

theorem Tracked.observed {s : System} {h : List (Event app.cm)} (ht : Tracked s h) (health : Health) :
    Tracked { s with health := health } h := ⟨ht.nodup, ht.row⟩

theorem held_of_loop {s : System} {l : Loop} {todo : List DemoRecord} (hl : s.loop = l)
    (hs : todo.Sublist l.held) : todo.Sublist s.loop.held := by
  rw [hl]
  exact hs

theorem mem_held {s : System} {l : Loop} {r : DemoRecord} (hl : s.loop = l) (hr : r ∈ l.held) :
    r ∈ s.loop.held := by
  rw [hl]
  exact hr

theorem Stepped.held {s t : System} {es : List (Event app.cm)} {a : Action} (hs : Stepped app s a t es)
    {r : DemoRecord} (hr : r ∈ t.loop.held) : r ∈ s.loop.held ∨ s.demos.get r.key = some r := by
  have more {l : Loop} (hl : s.loop = l) (hr : r ∈ l.held) : r ∈ s.loop.held ∨ s.demos.get r.key = some r :=
    .inl (mem_held hl hr)
  cases hs with
  | request => exact .inl hr
  | list =>
    have hrow : r ∈ s.demos.rows := by
      rw [← Store.listReconcilable_eq]
      exact hr
    exact .inr (Table.get_of_mem hrow)
  | beginDelete hl _ | beginApply hl _ _ | project hl _ | callDelete hl _ | callApply hl _ => exact more hl hr
  | vaultFailed hl _ | deleted hl | deleteFailed hl | applied hl _ | applyFailed hl _ _ =>
    exact more hl (List.mem_cons_of_mem _ hr)
  | endPass | crash => cases hr

theorem Tracked.step {s t : System} {h es : List (Event app.cm)} {a : Action} (ht : Tracked s h)
    (hs : Stepped app s a t es) : Tracked t (es ++ h) := by
  cases hs with
  | request hr =>
    refine ⟨ht.nodup, fun q hq => ?_⟩
    obtain ⟨row, hrow, hc⟩ := ht.row q hq
    rcases hr.get q.key with ⟨hg, hl⟩ | ⟨p, hk, -, -, hg, rfl⟩
    · rw [hl]
      exact ⟨row, hg.trans hrow, hc⟩
    · refine ⟨_, hg, ?_⟩
      simp only [List.cons_append, List.nil_append, lastSince, Payload.event_isMutation, Payload.event_key, hk,
        and_self, if_true]
      exact current_rowAfter ..
  | list hl =>
    refine ⟨?_, fun q hq => ?_⟩
    · change (s.api.store.listReconcilable.map _).Nodup
      rw [Store.listReconcilable_eq]
      exact s.demos.unique
    · have hm : q ∈ s.demos.rows := by
        rw [← Store.listReconcilable_eq]
        exact hq
      exact ⟨q, Table.get_of_mem hm, rfl⟩
  | @beginDelete record _ _ _ hl _ =>
    refine ht.update record _ _ none none _ (held_of_loop hl (List.Sublist.refl _)) fun k => ?_
    exact lastSince_written k record .deleting none none h
  | beginApply hl _ _ =>
    exact ht.update _ _ _ _ _ _ (held_of_loop hl (List.Sublist.refl _)) fun k => lastSince_written ..
  | project hl _ => exact ht.quiet rfl (held_of_loop hl (List.Sublist.refl _)) fun k => rfl
  | vaultFailed hl _ =>
    exact (ht.observed _).update _ _ _ _ _ _ (held_of_loop hl (List.sublist_cons_self ..)) fun k =>
      lastSince_written ..
  | callDelete hl _ => exact ht.quiet rfl (held_of_loop hl (List.Sublist.refl _)) fun k => rfl
  | @callApply _ _ _ _ _ _ _ thread hl _ =>
    refine ht.quiet rfl (held_of_loop hl (List.Sublist.refl _)) fun k => ?_
    cases thread <;> rfl
  | @deleted r _ todo _ _ _ hl =>
    have hn : (r.key :: todo.map DemoRecord.key).Nodup := by
      have hd := ht.nodup
      rw [hl] at hd
      exact hd
    refine ⟨(List.nodup_cons.mp hn).2, fun q hq => ?_⟩
    have hne : q.key ≠ r.key := fun e => (List.nodup_cons.mp hn).1 (e ▸ List.mem_map_of_mem hq)
    obtain ⟨row, hrow, hc⟩ := ht.row q (by rw [hl]; exact List.mem_cons_of_mem _ hq)
    exact ⟨row, (s.api.store.get_deleteRecord_of_ne hne).trans hrow, hc⟩
  | deleteFailed hl =>
    exact (ht.observed _).update _ _ _ _ _ _ (held_of_loop hl (List.sublist_cons_self ..)) fun k =>
      lastSince_written ..
  | applied hl _ =>
    exact (ht.observed _).update _ _ _ _ _ _ (held_of_loop hl (List.sublist_cons_self ..)) fun k =>
      lastSince_written ..
  | applyFailed hl _ _ =>
    exact (ht.observed _).update _ _ _ _ _ _ (held_of_loop hl (List.sublist_cons_self ..)) fun k =>
      lastSince_written ..
  | endPass hl => exact ht.quiet rfl (List.nil_sublist _) fun k => rfl
  | crash => exact ht.quiet rfl (List.nil_sublist _) fun k => rfl

theorem tracked_initial (cluster : Cluster) (clock : ℤ) :
    Tracked (System.initial cluster clock) ([] : List (Event app.cm)) :=
  ⟨List.nodup_nil, fun r hr => by cases hr⟩

theorem tracked_of_run {permits : System → List (Event app.cm) → Action → Prop} {cluster : Cluster} {clock : ℤ}
    {s : System} {h : List (Event app.cm)}
    (run : Run app.step permits (System.initial cluster clock) [] s h) : Tracked s h := by
  refine run.invariant (tracked_initial ..) ?_
  intro s h a t es ht _ hs
  exact ht.step (stepped_of_step hs)

end DemoController
