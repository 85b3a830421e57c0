import DemoController.Lib.EventRun
import DemoController.Store

/-!
# A row is the record of its accepted history

Any sequence of calls on the store is kept as a history of the calls that had
an effect, newest first. What the row of a key holds is read off the events of
the key since its last deletion.
-/

namespace DemoController

open Lib

inductive StoreEvent (cm : CaseMapping) where
  | deployed (request : DeployRequest cm) (requestHash : Text) (now : ℤ)
  | destroyed (repository : Text) (pr : ℤ) (deliveryId requestHash : Text) (now : ℤ)
  | updated (repository : Text) (pr : ℤ) (vaultVersion port : Option ℤ)
  | deleted (repository : Text) (pr : ℤ)

inductive StoreCall (cm : CaseMapping) where
  | upsertDeploy (request : DeployRequest cm) (requestHash : Text) (now : ℤ)
  | requestDestroy (repository : Text) (pr : ℤ) (deliveryId requestHash : Text) (now : ℤ)
  | updateState (repository : Text) (pr : ℤ) (state : DemoState) (message : Text)
      (vaultVersion port : Option ℤ) (now : ℤ)
  | deleteRecord (repository : Text) (pr : ℤ)

variable {cm : CaseMapping}

/-- A call that raises or that repeats the stored delivery leaves no event. -/
def StoreCall.run (s : Store) : StoreCall cm → Store × List (StoreEvent cm)
  | .upsertDeploy request hash now =>
    match s.upsertDeploy request hash now with
    | .error _ => (s, [])
    | .ok (t, _, changed) => (t, if changed then [.deployed request hash now] else [])
  | .requestDestroy repository pr d hash now =>
    match s.requestDestroy repository pr d hash now with
    | .error _ => (s, [])
    | .ok (t, _) => (t, if s.hasDelivery (repository, pr) d then [] else [.destroyed repository pr d hash now])
  | .updateState repository pr state message v p now =>
    if Store.bindable v && Store.bindable p then
      (s.updateState repository pr state message v p now, [.updated repository pr v p])
    else (s, [])
  | .deleteRecord repository pr => (s.deleteRecord repository pr, [.deleted repository pr])

def storeStep (s : Store) (c : StoreCall cm) : Option (Store × List (StoreEvent cm)) := some (c.run s)

def runCalls (cs : List (StoreCall cm)) : Store × List (StoreEvent cm) :=
  cs.foldl (fun p c => ((c.run p.1).1, (c.run p.1).2 ++ p.2)) (Store.empty, [])

theorem run_of_calls (cs : List (StoreCall cm)) :
    Run storeStep anyStep Store.empty [] (runCalls cs).1 (runCalls cs).2 := by
  induction cs using List.reverseRecOn with
  | nil => exact .start
  | append_singleton cs c ih =>
    rw [runCalls, List.foldl_concat]
    exact ih.next trivial rfl

/-! ### Reading a history -/

namespace StoreEvent

def key : StoreEvent cm → Key
  | .deployed request _ _ => (request.repository, request.pr)
  | .destroyed repository pr _ _ _ => (repository, pr)
  | .updated repository pr _ _ => (repository, pr)
  | .deleted repository pr => (repository, pr)

def delivery? : StoreEvent cm → Option (Text × Text × Bool)
  | .deployed request hash _ => some (request.deliveryId, hash, true)
  | .destroyed _ _ d hash _ => some (d, hash, false)
  | _ => none

def deploy? : StoreEvent cm → Option (Option Text × Option Text × ℤ)
  | .deployed request _ now => some (some request.commitSha, some request.image, now + demoLifetimeSeconds)
  | _ => none

def time? : StoreEvent cm → Option ℤ
  | .deployed _ _ now => some now
  | .destroyed _ _ _ _ now => some now
  | _ => none

def version? : StoreEvent cm → Option ℤ
  | .updated _ _ v _ => v
  | _ => none

def port? : StoreEvent cm → Option ℤ
  | .updated _ _ _ p => p
  | _ => none

def isMutation (e : StoreEvent cm) : Bool := e.time?.isSome

def isDeletion : StoreEvent cm → Bool
  | .deleted _ _ => true
  | _ => false

end StoreEvent

/-- The events of a key since its last deletion, newest first. -/
def sinceDeletion (k : Key) : List (StoreEvent cm) → List (StoreEvent cm)
  | [] => []
  | e :: h => if e.key = k then (if e.isDeletion then [] else e :: sinceDeletion k h) else sinceDeletion k h

/-- Those from the first mutation on: what came before it met no row. -/
def fromFirstMutation : List (StoreEvent cm) → List (StoreEvent cm)
  | [] => []
  | e :: h => if e.isMutation || h.any StoreEvent.isMutation then e :: fromFirstMutation h else []

/-- What a row holds, given the events of its key since the last deletion. -/
structure Describes (es : List (StoreEvent cm)) (row : DemoRecord) : Prop where
  delivery : es.findSome? StoreEvent.delivery? = some (row.deliveryId, row.requestHash, row.desiredPresent)
  deploy : (row.commitSha, row.image, row.expiresAt) =
    (es.findSome? StoreEvent.deploy?).getD (none, none, row.createdAt)
  created : es.reverse.findSome? StoreEvent.time? = some row.createdAt
  version : row.vaultVersion = (fromFirstMutation es).findSome? StoreEvent.version?
  port : row.port = (fromFirstMutation es).findSome? StoreEvent.port?

/-- The events describe the row, or no mutation is among them that a row could come from. -/
def Recorded (es : List (StoreEvent cm)) : Option DemoRecord → Prop
  | none => es.any StoreEvent.isMutation = false
  | some row => Describes es row

theorem fromFirstMutation_none {es : List (StoreEvent cm)} (hm : es.any StoreEvent.isMutation = false) :
    fromFirstMutation es = [] := by
  cases es with
  | nil => rfl
  | cons e es =>
    rw [List.any_cons] at hm
    simp only [fromFirstMutation, hm, Bool.false_eq_true, if_false]

theorem fromFirstMutation_cons {e : StoreEvent cm} {es : List (StoreEvent cm)}
    (hm : (e.isMutation || es.any StoreEvent.isMutation) = true) :
    fromFirstMutation (e :: es) = e :: fromFirstMutation es := by
  simp only [fromFirstMutation, hm, if_true]

theorem Describes.any {es : List (StoreEvent cm)} {row : DemoRecord} (h : Describes es row) :
    es.any StoreEvent.isMutation = true := by
  obtain ⟨e, he, hd⟩ := List.exists_of_findSome?_eq_some h.delivery
  refine List.any_eq_true.mpr ⟨e, he, ?_⟩
  cases e with
  | deployed | destroyed => rfl
  | updated | deleted => cases hd

theorem reads_none {es : List (StoreEvent cm)} (hm : es.any StoreEvent.isMutation = false) :
    es.reverse.findSome? StoreEvent.time? = none ∧ es.findSome? StoreEvent.deploy? = none := by
  have hn (e : StoreEvent cm) (he : e ∈ es) : e.time? = none := by
    simpa [StoreEvent.isMutation] using List.any_eq_false.mp hm e he
  constructor
  · rw [List.findSome?_eq_none_iff]
    exact fun e he => hn e (List.mem_reverse.mp he)
  · rw [List.findSome?_eq_none_iff]
    intro e he
    cases e with
    | deployed => cases hn _ he
    | destroyed | updated | deleted => rfl

/-! ### One lemma for each effective call -/

/-- A mutation dates a row that was not there, and records neither version nor port. -/
theorem recorded_mutation {es : List (StoreEvent cm)} {o : Option DemoRecord} (hr : Recorded es o)
    {e : StoreEvent cm} {now : ℤ} (ht : e.time? = some now) (hv : e.version? = none) (hp : e.port? = none) :
    (e :: es).reverse.findSome? StoreEvent.time? = some ((o.map DemoRecord.createdAt).getD now) ∧
    (fromFirstMutation (e :: es)).findSome? StoreEvent.version? = o.bind DemoRecord.vaultVersion ∧
    (fromFirstMutation (e :: es)).findSome? StoreEvent.port? = o.bind DemoRecord.port := by
  have hm : (e.isMutation || es.any StoreEvent.isMutation) = true := by
    simp only [StoreEvent.isMutation, ht, Option.isSome_some, Bool.true_or]
  have hlast : [e].findSome? StoreEvent.time? = some now := by
    rw [List.findSome?_cons, ht]
  rw [List.reverse_cons, List.findSome?_append, hlast, fromFirstMutation_cons hm, List.findSome?_cons, hv,
    List.findSome?_cons, hp]
  cases o with
  | none =>
    rw [(reads_none hr).1, fromFirstMutation_none hr]
    exact ⟨rfl, rfl, rfl⟩
  | some r =>
    rw [hr.created]
    exact ⟨rfl, hr.version.symm, hr.port.symm⟩

theorem recorded_deploy {es : List (StoreEvent cm)} {o : Option DemoRecord} (hr : Recorded es o)
    (request : DeployRequest cm) (hash : Text) (now : ℤ) :
    Recorded (.deployed request hash now :: es) (some (DemoRecord.deployOver request hash now o)) := by
  obtain ⟨hcreated, hversion, hport⟩ :=
    recorded_mutation hr (e := .deployed request hash now) rfl rfl rfl
  cases o with
  | none => exact ⟨rfl, rfl, hcreated, hversion.symm, hport.symm⟩
  | some r => exact ⟨rfl, rfl, hcreated, hversion.symm, hport.symm⟩

theorem recorded_destroy {es : List (StoreEvent cm)} {o : Option DemoRecord} (hr : Recorded es o)
    (repository : Text) (pr : ℤ) (d hash : Text) (now : ℤ) :
    Recorded (.destroyed repository pr d hash now :: es)
      (some (DemoRecord.destroyOver repository pr d hash now o)) := by
  obtain ⟨hcreated, hversion, hport⟩ :=
    recorded_mutation hr (e := .destroyed repository pr d hash now) rfl rfl rfl
  cases o with
  | none =>
    refine ⟨rfl, ?_, hcreated, hversion.symm, hport.symm⟩
    rw [List.findSome?_cons]
    change _ = (es.findSome? StoreEvent.deploy?).getD _
    rw [(reads_none hr).2]
    rfl
  | some r => exact ⟨rfl, hr.deploy, hcreated, hversion.symm, hport.symm⟩

theorem recorded_update {es : List (StoreEvent cm)} {o : Option DemoRecord} (hr : Recorded es o)
    (repository : Text) (pr : ℤ) (state : DemoState) (message : Text) (v p : Option ℤ) (now : ℤ) :
    Recorded (.updated repository pr v p :: es) (o.map (DemoRecord.withState state message v p now)) := by
  cases o with
  | none => exact hr
  | some r =>
    have hany : (StoreEvent.isMutation (.updated repository pr v p : StoreEvent cm) ||
        es.any StoreEvent.isMutation) = true := Describes.any hr
    refine ⟨hr.delivery, hr.deploy, ?_, ?_, ?_⟩
    · rw [List.reverse_cons, List.findSome?_append, hr.created]
      rfl
    · rw [fromFirstMutation_cons hany, List.findSome?_cons]
      cases v with
      | none => exact hr.version
      | some v => rfl
    · rw [fromFirstMutation_cons hany, List.findSome?_cons]
      cases p with
      | none => exact hr.port
      | some p => rfl

/-! ### Runs of calls -/

theorem sinceDeletion_of_ne {k : Key} {e : StoreEvent cm} (h : List (StoreEvent cm)) (hk : k ≠ e.key) :
    sinceDeletion k (e :: h) = sinceDeletion k h := by
  simp only [sinceDeletion, if_neg (Ne.symm hk)]

theorem sinceDeletion_of_key {e : StoreEvent cm} (h : List (StoreEvent cm)) (hd : e.isDeletion = false) :
    sinceDeletion e.key (e :: h) = e :: sinceDeletion e.key h := by
  simp only [sinceDeletion, if_true, hd, Bool.false_eq_true, if_false]

def RecordsAll (s : Store) (h : List (StoreEvent cm)) : Prop :=
  ∀ k, Recorded (sinceDeletion k h) (s.demos.get k)

/-- A call that adds the event `e` keeps the record when it leaves the other keys
alone and the row of its own key is the one the event describes. -/
theorem RecordsAll.event {s t : Store} {h : List (StoreEvent cm)} {e : StoreEvent cm} (hr : RecordsAll s h)
    (other : ∀ k, k ≠ e.key → t.demos.get k = s.demos.get k)
    (own : Recorded (sinceDeletion e.key (e :: h)) (t.demos.get e.key)) : RecordsAll t (e :: h) := by
  intro k
  by_cases hk : k = e.key
  · rw [hk]
    exact own
  · rw [sinceDeletion_of_ne h hk, other k hk]
    exact hr k

theorem recordsAll_writeDeploy {s : Store} {h : List (StoreEvent cm)} (hr : RecordsAll s h)
    (request : DeployRequest cm) (hash : Text) (now : ℤ) :
    RecordsAll (s.writeDeploy (s.excludedOf request hash now)) (.deployed request hash now :: h) := by
  refine hr.event (fun k hk => s.get_writeDeploy_of_ne hk) ?_
  have hrow := s.get_writeDeploy_request request hash now
  rw [sinceDeletion_of_key h rfl]
  exact hrow ▸ recorded_deploy (hr (request.repository, request.pr)) request hash now

theorem recordsAll_writeDestroy {s : Store} {h : List (StoreEvent cm)} (hr : RecordsAll s h)
    (repository : Text) (pr : ℤ) (d hash : Text) (now : ℤ) :
    RecordsAll (s.writeDestroy repository pr d hash now) (.destroyed repository pr d hash now :: h) := by
  refine hr.event (fun k hk => s.get_writeDestroy_of_ne d hash now hk) ?_
  have hrow := s.get_writeDestroy_self repository pr d hash now
  rw [sinceDeletion_of_key h rfl]
  exact hrow ▸ recorded_destroy (hr (repository, pr)) repository pr d hash now

theorem recordsAll_updateState {s : Store} {h : List (StoreEvent cm)} (hr : RecordsAll s h)
    (repository : Text) (pr : ℤ) (state : DemoState) (message : Text) (v p : Option ℤ) (now : ℤ) :
    RecordsAll (s.updateState repository pr state message v p now) (.updated repository pr v p :: h) := by
  refine hr.event (fun k hk => s.get_updateState_of_ne state message v p now hk) ?_
  rw [sinceDeletion_of_key h rfl]
  exact s.get_updateState_self repository pr state message v p now ▸
    recorded_update (hr (repository, pr)) repository pr state message v p now

theorem recordsAll_deleteRecord {s : Store} {h : List (StoreEvent cm)} (hr : RecordsAll s h)
    (repository : Text) (pr : ℤ) :
    RecordsAll (s.deleteRecord repository pr) (.deleted repository pr :: h) := by
  refine hr.event (fun k hk => s.get_deleteRecord_of_ne hk) ?_
  have hs : sinceDeletion (repository, pr) (.deleted repository pr :: h : List (StoreEvent cm)) = [] := by
    simp only [sinceDeletion, StoreEvent.key, StoreEvent.isDeletion, if_true]
  exact hs ▸ s.get_deleteRecord_self repository pr ▸ (rfl : [].any StoreEvent.isMutation = false)

theorem recordsAll_run {s : Store} {h : List (StoreEvent cm)} (hr : RecordsAll s h) (c : StoreCall cm) :
    RecordsAll (c.run s).1 ((c.run s).2 ++ h) := by
  cases c with
  | upsertDeploy request hash now =>
    cases hd : s.hasDelivery (request.repository, request.pr) request.deliveryId with
    | true =>
      obtain ⟨r, hg, hid⟩ := Store.hasDelivery_iff.mp hd
      simp only [StoreCall.run, Store.upsertDeploy_duplicate hg hid]
      by_cases hh : r.requestHash ≠ hash
      · simpa only [if_pos hh, List.nil_append] using hr
      · simpa only [if_neg hh, Bool.false_eq_true, if_false, List.nil_append] using hr
    | false =>
      simp only [StoreCall.run, Store.upsertDeploy_effective hd]
      exact recordsAll_writeDeploy hr request hash now
  | requestDestroy repository pr d hash now =>
    cases hd : s.hasDelivery (repository, pr) d with
    | true =>
      obtain ⟨r, hg, hid⟩ := Store.hasDelivery_iff.mp hd
      simp only [StoreCall.run, Store.requestDestroy_duplicate hg hid]
      by_cases hh : r.requestHash ≠ hash
      · simpa only [if_pos hh, List.nil_append] using hr
      · simpa only [if_neg hh, hd, if_true, List.nil_append] using hr
    | false =>
      simp only [StoreCall.run, Store.requestDestroy_effective hd, hd]
      exact recordsAll_writeDestroy hr repository pr d hash now
  | updateState repository pr state message v p now =>
    simp only [StoreCall.run]
    split
    · exact recordsAll_updateState hr repository pr state message v p now
    · exact hr
  | deleteRecord repository pr => exact recordsAll_deleteRecord hr repository pr

theorem recordsAll_of_run {s : Store} {h : List (StoreEvent cm)}
    (run : Run storeStep anyStep Store.empty [] s h) : RecordsAll s h := by
  refine run.invariant (fun k => rfl) ?_
  intro s h c t es hr _ hs
  have hc : c.run s = (t, es) := Option.some_inj.mp hs
  have hk := recordsAll_run hr c
  rw [hc] at hk
  exact hk

/-- After any sequence of calls, a row exists exactly for the keys with an effective
mutation since their last deletion, holds what the events since then say, and is
listed for reconciliation. -/
theorem row_is_accepted_history {s : Store} {h : List (StoreEvent cm)}
    (run : Run storeStep anyStep Store.empty [] s h) (k : Key) :
    ((s.demos.get k).isSome = true ↔ ∃ e ∈ sinceDeletion k h, e.isMutation = true) ∧
    ∀ row, s.demos.get k = some row →
      Describes (sinceDeletion k h) row ∧ row ∈ s.listReconcilable := by
  have hr := recordsAll_of_run run k
  constructor
  · rw [← List.any_eq_true]
    cases hs : s.demos.get k with
    | none =>
      rw [hs] at hr
      have hn : (sinceDeletion k h).any StoreEvent.isMutation = false := hr
      rw [hn]
      simp
    | some row =>
      rw [hs] at hr
      simp only [Option.isSome_some, Describes.any hr]
  · intro row hs
    rw [hs] at hr
    exact ⟨hr, by rw [Store.listReconcilable_eq]; exact Table.mem_of_get hs⟩

def exampleDigest : Text := List.replicate 64 'b'

def exampleDeploy : DeployRequest CaseMapping.ascii where
  repository := "canonical/example".toList
  pr := 8
  commitSha := List.replicate 40 'a'
  image := "ghcr.io/canonical/example@sha256:".toList ++ exampleDigest
  deliveryId := "delivery-8".toList
  repository_ok := by decide
  pr_ok := by decide
  commitSha_ok := by decide
  image_ok := by decide
  deliveryId_ok := by decide

def exampleHash : Text := "request-hash".toList

def exampleKey : Key := ("canonical/example".toList, 8)

def exampleCalls : List (StoreCall CaseMapping.ascii) :=
  [.upsertDeploy exampleDeploy exampleHash 100,
    .updateState exampleKey.1 exampleKey.2 .ready [] (some 2) (some 8000) 110,
    .requestDestroy exampleKey.1 exampleKey.2 "delivery-9".toList exampleHash 120]

theorem row_is_accepted_history_example :
    ∃ row, (runCalls exampleCalls).1.demos.get exampleKey = some row ∧ row.port = some 8000 ∧
      Describes (sinceDeletion exampleKey (runCalls exampleCalls).2) row :=
  ⟨_, rfl, rfl, ((row_is_accepted_history (run_of_calls exampleCalls) exampleKey).2 _ rfl).1⟩

def earlyUpdate : List (StoreCall CaseMapping.ascii) :=
  [.updateState exampleKey.1 exampleKey.2 .ready [] (some 2) (some 8000) 100,
    .upsertDeploy exampleDeploy exampleHash 101]

/-- The port of a row need not be the last one given to `update_state` since the
deletion: a call before the first mutation meets no row. -/
theorem port_before_first_mutation : ¬ ∀ (s : Store) (h : List (StoreEvent CaseMapping.ascii)),
    Run storeStep anyStep Store.empty [] s h → ∀ k row, s.demos.get k = some row →
      row.port = (sinceDeletion k h).findSome? StoreEvent.port? := by
  intro all
  have hrow := all _ _ (run_of_calls earlyUpdate) exampleKey _ rfl
  cases hrow

end DemoController
