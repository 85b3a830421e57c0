import DemoController.Snapshot

/-!
# Every object in the cluster has a row

The loop deletes the objects of a demo before its row, works on one record at a
time, and holds only records that have a row. So whatever the calls answer, and
wherever the process crashes, an object the controller applied is under the name
of a stored row.
-/

namespace DemoController

open Lib

variable {app : App}

def Holds (c : Cluster) (kind : Kind) (name : Text) : Prop := ∃ r, c.applied kind name = some r

def nameOf (app : App) (k : Key) : Text := resourceName app.cm k.1 k.2

def HasRow (app : App) (s : System) (name : Text) : Prop :=
  ∃ k row, s.demos.get k = some row ∧ nameOf app k = name

/-- Where the worker thread of a deletion is: the calls left are deletes of the demo's
objects, and what is still there is among them. -/
def Deleting (c : Cluster) (name : Text) : Thread → Prop
  | .running call rest => (∀ x ∈ call :: rest, ∃ kind, x = .delete kind name) ∧
      ∀ kind, Holds c kind name → Call.delete kind name ∈ call :: rest
  | .returned _ => ∀ kind, ¬ Holds c kind name
  | .raised _ => True

def Applying (name : Text) : Thread → Prop
  | .running call rest => ∀ x ∈ call :: rest, x.name = name
  | _ => True

def Working (app : App) (c : Cluster) : Loop → Prop
  | .deleting record thread _ => Deleting c (nameOf app record.key) thread
  | .applying record _ thread _ => Applying (nameOf app record.key) thread
  | _ => True

structure Owned (app : App) (s : System) : Prop where
  owned : ∀ kind name, Holds s.cluster kind name → HasRow app s name
  working : Working app s.cluster s.loop

/-! ### Calls -/

theorem holds_set_none {c : Cluster} {kind k : Kind} {name n : Text}
    (h : Holds (c.set kind name none) k n) : Holds c k n ∧ ¬ (k = kind ∧ n = name) := by
  obtain ⟨r, hr⟩ := h
  rw [applied_set] at hr
  split at hr
  · cases hr
  · next hne => exact ⟨⟨r, hr⟩, hne⟩

theorem holds_effect {c : Cluster} {call : Call} {k : Kind} {n : Text} (h : Holds (call.effect c) k n) :
    Holds c k n ∨ n = call.name := by
  by_cases hn : n = call.name
  · exact .inr hn
  · obtain ⟨r, hr⟩ := h
    rw [Cluster.applied, Call.effect_of_ne c call k hn] at hr
    exact .inl ⟨r, hr⟩

theorem Thread.step_cluster {c c' : Cluster} {call : Call} {rest : List Call} {outcome : Outcome}
    {thread : Thread} (h : Thread.step c call rest outcome = some (c', thread)) :
    c' = c ∨ c' = call.effect c := by
  unfold Thread.step at h
  split at h
  · next tookEffect =>
    cases h
    cases tookEffect
    · exact .inl rfl
    · exact .inr rfl
  · split at h
    · cases h
    · cases h
      exact .inr rfl
  · split at h
    · split at h
      · cases h
        exact .inl rfl
      · cases h
    · cases h
  · split at h
    · cases h
      exact .inl rfl
    · cases h

theorem Thread.step_thread {c c' : Cluster} {call : Call} {rest : List Call} {outcome : Outcome}
    {thread : Thread} (h : Thread.step c call rest outcome = some (c', thread)) :
    thread = .ofCalls rest ∨ (∃ error, thread = .raised error) ∨
      ∃ name view, call = .get name ∧ thread = .returned view := by
  unfold Thread.step at h
  split at h
  · cases h
    exact .inr (.inl ⟨_, rfl⟩)
  · split at h
    · cases h
    · cases h
      exact .inl rfl
  · split at h
    · split at h
      · cases h
        exact .inl rfl
      · cases h
    · cases h
  · split at h
    · cases h
      exact .inr (.inr ⟨_, _, rfl, rfl⟩)
    · cases h

theorem deleting_ofCalls {c : Cluster} {name : Text} {calls : List Call}
    (hc : ∀ x ∈ calls, ∃ kind, x = .delete kind name)
    (hk : ∀ kind, Holds c kind name → Call.delete kind name ∈ calls) : Deleting c name (.ofCalls calls) := by
  cases calls with
  | nil => exact fun kind h => by cases hk kind h
  | cons call rest => exact ⟨hc, hk⟩

theorem applying_ofCalls {name : Text} {calls : List Call} (hc : ∀ x ∈ calls, x.name = name) :
    Applying name (.ofCalls calls) := by
  cases calls with
  | nil => trivial
  | cons call rest => exact hc

theorem deleting_step {c c' : Cluster} {name : Text} {call : Call} {rest : List Call} {outcome : Outcome}
    {thread : Thread} (hd : Deleting c name (.running call rest))
    (h : Thread.step c call rest outcome = some (c', thread)) : Deleting c' name thread := by
  obtain ⟨hcalls, hkinds⟩ := hd
  obtain ⟨kind, rfl⟩ := hcalls call (List.mem_cons_self ..)
  have hrest : ∀ x ∈ rest, ∃ kind, x = .delete kind name := fun x hx => hcalls x (List.mem_cons_of_mem _ hx)
  have absent {c' : Cluster} (hc : ∀ k, Holds c' k name → Holds c k name ∧ k ≠ kind) :
      Deleting c' name (.ofCalls rest) := by
    refine deleting_ofCalls hrest fun k hk => ?_
    obtain ⟨hk, hne⟩ := hc k hk
    rcases List.mem_cons.mp (hkinds k hk) with he | he
    · cases he
      exact absurd rfl hne
    · exact he
  cases outcome with
  | failed =>
    cases h
    trivial
  | done =>
    cases h
    refine absent fun k hk => ?_
    obtain ⟨hh, hne⟩ := holds_set_none hk
    exact ⟨hh, fun e => hne ⟨e, rfl⟩⟩
  | notFound =>
    simp only [Thread.step] at h
    split at h
    · next hn =>
      cases h
      refine absent fun k hk => ⟨hk, ?_⟩
      rintro rfl
      obtain ⟨r, hr⟩ := hk
      rw [Cluster.applied, Option.isNone_iff_eq_none.mp hn] at hr
      cases hr
    · cases h
  | got => cases h

theorem applying_step {c c' : Cluster} {name : Text} {call : Call} {rest : List Call} {outcome : Outcome}
    {thread : Thread} (ha : Applying name (.running call rest))
    (h : Thread.step c call rest outcome = some (c', thread)) : Applying name thread := by
  rcases Thread.step_thread h with rfl | ⟨error, rfl⟩ | ⟨n, view, -, rfl⟩
  · exact applying_ofCalls fun x hx => ha x (List.mem_cons_of_mem _ hx)
  · trivial
  · trivial

/-! ### Rows -/

theorem update_keeps {s : System} {r : DemoRecord} {state : DemoState} {m : Text} {v p : Option ℤ} {now : ℤ}
    {loop : Loop} {k : Key} {row : DemoRecord} (h : s.demos.get k = some row) :
    ∃ row', (s.update r state m v p now loop).demos.get k = some row' := by
  obtain ⟨row', hrow, -⟩ := update_get s r state m v p now loop h
  exact ⟨row', hrow⟩

theorem Stepped.keeps_row {s t : System} {es : List (Event app.cm)} {a : Action} (hs : Stepped app s a t es)
    {k : Key} {row : DemoRecord} (hr : s.demos.get k = some row)
    (hk : ∀ record ready todo, s.loop = .deleting record (.returned ready) todo → record.key ≠ k) :
    ∃ row', t.demos.get k = some row' := by
  cases hs with
  | request hs =>
    rcases hs.get k with ⟨hg, -⟩ | ⟨p, -, -, -, hg, -⟩
    · exact ⟨row, hg.trans hr⟩
    · exact ⟨_, hg⟩
  | list | project | callDelete | callApply | endPass | crash => exact ⟨row, hr⟩
  | beginDelete | beginApply | vaultFailed | deleteFailed | applied | applyFailed => exact update_keeps hr
  | deleted hl => exact ⟨row, (s.api.store.get_deleteRecord_of_ne (hk _ _ _ hl).symm).trans hr⟩

theorem hasRow_step {s t : System} {es : List (Event app.cm)} {a : Action} {name : Text}
    (hs : Stepped app s a t es) (hr : HasRow app s name)
    (hk : ∀ record ready todo, s.loop = .deleting record (.returned ready) todo →
      nameOf app record.key ≠ name) : HasRow app t name := by
  obtain ⟨k, row, hrow, hn⟩ := hr
  obtain ⟨row', hrow'⟩ := hs.keeps_row hrow fun record ready todo hl e => hk record ready todo hl (e ▸ hn)
  exact ⟨k, row', hrow', hn⟩

theorem holds_delete_step {c c' : Cluster} {name : Text} {call : Call} {rest : List Call} {outcome : Outcome}
    {thread : Thread} (hd : Deleting c name (.running call rest))
    (h : Thread.step c call rest outcome = some (c', thread)) {kind : Kind} {n : Text} (hh : Holds c' kind n) :
    Holds c kind n := by
  obtain ⟨k, rfl⟩ := hd.1 call (List.mem_cons_self ..)
  rcases Thread.step_cluster h with rfl | rfl
  · exact hh
  · exact (holds_set_none hh).1

theorem crashedCluster_cases (s : System) (tookEffect : Bool) : s.crashedCluster tookEffect = s.cluster ∨
    (∃ record call rest todo, s.loop = .deleting record (.running call rest) todo ∧
      s.crashedCluster tookEffect = call.effect s.cluster) ∨
    (∃ record p call rest todo, s.loop = .applying record p (.running call rest) todo ∧
      s.crashedCluster tookEffect = call.effect s.cluster) := by
  unfold System.crashedCluster
  split
  · next record call rest todo hl => exact .inr (.inl ⟨record, call, rest, todo, hl, rfl⟩)
  · next record p call rest todo hl => exact .inr (.inr ⟨record, p, call, rest, todo, hl, rfl⟩)
  · exact .inl rfl

/-- An object that was not there before the step has the name of the record that is
being applied. -/
theorem Stepped.holds {s t : System} {es : List (Event app.cm)} {a : Action} (hs : Stepped app s a t es)
    (ho : Owned app s) {kind : Kind} {name : Text} (hh : Holds t.cluster kind name) :
    Holds s.cluster kind name ∨
      ∃ record p thread todo, s.loop = .applying record p thread todo ∧ nameOf app record.key = name := by
  have hw := ho.working
  cases hs with
  | callDelete hl hstep =>
    rw [hl] at hw
    exact .inl (holds_delete_step hw hstep hh)
  | callApply hl hstep =>
    rw [hl] at hw
    rcases Thread.step_cluster hstep with rfl | rfl
    · exact .inl hh
    · rcases holds_effect hh with hh | rfl
      · exact .inl hh
      · exact .inr ⟨_, _, _, _, hl, (hw _ (List.mem_cons_self ..)).symm⟩
  | @crash tookEffect =>
    rcases crashedCluster_cases s tookEffect with hc | ⟨record, call, rest, todo, hl, hc⟩ |
      ⟨record, p, call, rest, todo, hl, hc⟩
    · exact .inl (hc ▸ hh)
    · rw [hl] at hw
      obtain ⟨k, rfl⟩ := hw.1 call (List.mem_cons_self ..)
      rw [hc] at hh
      exact .inl (holds_set_none hh).1
    · rw [hl] at hw
      rw [hc] at hh
      rcases holds_effect hh with hh | rfl
      · exact .inl hh
      · exact .inr ⟨_, _, _, _, hl, (hw _ (List.mem_cons_self ..)).symm⟩
  | request | list | beginDelete | beginApply | project | vaultFailed | deleted | deleteFailed | applied
    | applyFailed | endPass => exact .inl hh

theorem Working.step {s t : System} {es : List (Event app.cm)} {a : Action} (hs : Stepped app s a t es)
    (hw : Working app s.cluster s.loop) : Working app t.cluster t.loop := by
  cases hs with
  | request => exact hw
  | @beginDelete record _ _ _ hl _ =>
    change Deleting s.cluster (nameOf app record.key)
      (.ofCalls (deleteCalls app.cm record.repository record.pr))
    refine deleting_ofCalls (fun x hx => ?_) fun kind _ => ?_
    · obtain ⟨kind, -, rfl⟩ := List.mem_map.mp hx
      exact ⟨kind, rfl⟩
    · exact List.mem_map.mpr ⟨kind, by cases kind <;> simp, rfl⟩
  | project hl _ => exact applying_ofCalls fun x hx => applyCalls_name _ _ _ _ _ _ x hx
  | callDelete hl hstep =>
    rw [hl] at hw
    exact deleting_step hw hstep
  | callApply hl hstep =>
    rw [hl] at hw
    exact applying_step hw hstep
  | list | beginApply | vaultFailed | deleted | deleteFailed | applied | applyFailed | endPass | crash => trivial

theorem Owned.step {s t : System} {h es : List (Event app.cm)} {a : Action} (ht : Tracked s h)
    (ho : Owned app s) (hs : Stepped app s a t es) : Owned app t := by
  refine ⟨fun kind name hh => ?_, Working.step hs ho.working⟩
  have hw := ho.working
  rcases hs.holds ho hh with hh | ⟨record, p, thread, todo, hl, rfl⟩
  · refine hasRow_step hs (ho.owned kind name hh) fun record ready todo hl hn => ?_
    -- the deletion that ends has left no object under its name
    rw [hl] at hw
    exact hw kind (hn ▸ hh)
  · obtain ⟨row, hrow, -⟩ := ht.row record (mem_held hl (List.mem_cons_self ..))
    refine hasRow_step hs ⟨_, row, hrow, rfl⟩ fun _ _ _ hl' _ => ?_
    rw [hl] at hl'
    cases hl'

/-- In every state of every run from an empty store and a cluster without demo objects,
whatever the calls answer and wherever the process crashes, an object the controller
applied is under the resource name of a stored row. -/
theorem no_orphaned_resources {cluster : Cluster} {clock : ℤ} {s : System} {h : List (Event app.cm)}
    (clean : ∀ kind name, ¬ Holds cluster kind name)
    (run : Run app.step anyStep (System.initial cluster clock) [] s h) {kind : Kind} {name : Text}
    (hh : Holds s.cluster kind name) :
    ∃ row ∈ s.demos.rows, resourceName app.cm row.repository row.pr = name := by
  have hboth : Tracked s h ∧ Owned app s := by
    refine run.invariant (I := fun s h => Tracked s h ∧ Owned app s)
      ⟨tracked_initial .., fun kind name hh => absurd hh (clean kind name), trivial⟩ ?_
    rintro s h a t es ⟨ht, ho⟩ _ hs
    exact ⟨ht.step (stepped_of_step hs), ho.step ht (stepped_of_step hs)⟩
  obtain ⟨k, row, hrow, hn⟩ := hboth.2.owned kind name hh
  refine ⟨row, Table.mem_of_get hrow, ?_⟩
  rw [← hn, nameOf, ← Table.get_key hrow]
  rfl

theorem no_orphaned_resources_example : ∃ s h, ∃ name, Holds (System.cluster s) .service name ∧
    runActions (deployAction "delivery-1" 100 :: applyActions 110) = some (s, h) ∧
    ∃ row ∈ s.demos.rows, resourceName exampleApp.cm row.repository row.pr = name := by
  have hb : (runActions (deployAction "delivery-1" 100 :: applyActions 110)).any (fun q =>
      (q.1.cluster.applied .service (nameOf exampleApp exampleKey)).isSome) = true := by
    decide +kernel
  simp only [Option.any_eq_true] at hb
  obtain ⟨q, hr, hsome⟩ := hb
  have hh : Holds q.1.cluster .service (nameOf exampleApp exampleKey) := Option.isSome_iff_exists.mp hsome
  refine ⟨q.1, q.2, _, hh, hr, no_orphaned_resources ?_ (run_of_actions hr) hh⟩
  rintro kind name ⟨r, hr⟩
  cases hr

end DemoController
