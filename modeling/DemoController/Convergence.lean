import DemoController.Environment
import DemoController.Ownership

/-!
# A pass converges

Without requests, failures and expiries a pass is determined up to its clock
readings: each record of the snapshot is worked on alone, so the calls of a pass
are those of its records one after the other, and a call touches nothing but the
objects of its record's name.
-/

namespace DemoController

open Lib

variable {app : App}

/-! ### A pass in which nothing fails -/

/-- What the outside answers: Vault for each repository, and whether the deployment of
a name is reported available (each is read once in a pass). The clock readings lie
between two instants. -/
structure Answers where
  vault : Text → VaultProject
  available : Text → Bool
  first : ℤ
  last : ℤ
  ordered : first ≤ last

/-- No request, no crash and no failing call. -/
def Permitted (app : App) (e : Answers) (s : System) (_ : List (Event app.cm)) : Action → Prop
  | .begin now _ => e.first ≤ now ∧ now ≤ e.last
  | .vault outcome _ _ =>
    ∃ record todo, s.loop = .loading record todo ∧ outcome = .project (e.vault record.repository)
  | .call (.failed ..) => False
  | .call (.got view) =>
    ∃ record p thread todo, s.loop = .applying record p thread todo ∧
      view.isReady = e.available (nameOf app record.key)
  | .call _ => True
  | .resume _ _ => True
  | _ => False

theorem Permitted.answered {e : Answers} {s : System} {h : List (Event app.cm)} {outcome : Outcome}
    (allowed : Permitted app e s h (.call outcome)) (error : PyError) (tookEffect : Bool) :
    outcome ≠ .failed error tookEffect := by
  intro he
  rw [he] at allowed
  exact allowed

theorem Permitted.reported {e : Answers} {s : System} {h : List (Event app.cm)} {outcome : Outcome}
    {record : DemoRecord} {p : VaultProject} {thread : Thread} {todo : List DemoRecord}
    (allowed : Permitted app e s h (.call outcome)) (hl : s.loop = .applying record p thread todo)
    (view : DeploymentView) (hv : outcome = .got view) : view.isReady = e.available (nameOf app record.key) := by
  rw [hv] at allowed
  obtain ⟨record', p', thread', todo', hl', hready⟩ := allowed
  rw [hl] at hl'
  cases hl'
  exact hready

/-- One pass of `run`: the snapshot, its records, and the end. -/
def Pass (app : App) (e : Answers) (s t : System) : Prop :=
  ∃ a u es h now, app.step s .list = some (a, es) ∧ Run app.step (Permitted app e) a [] u h ∧
    app.step u (.endPass now) = some (t, [])

def DemoRecord.kept (r : DemoRecord) (now : ℤ) : Bool := r.desiredPresent && decide (now < r.expiresAt)

def DemoRecord.reconciled (r : DemoRecord) (p : VaultProject) (available : Bool) (now : ℤ) : DemoRecord :=
  { r with
    state := if available then .ready else .reconciling
    message := (if available then "deployment is ready" else "waiting for deployment readiness").toList
    vaultVersion := some p.version.value
    port := some p.config.port
    updatedAt := now }

/-- What a pass supposes of the rows: resource names of their own, images Vault allows,
versions SQLite can bind, and no expiry between the two instants. -/
structure Favourable (app : App) (e : Answers) (rows : List DemoRecord) : Prop where
  distinct : ∀ r ∈ rows, ∀ q ∈ rows, nameOf app r.key = nameOf app q.key → r.key = q.key
  authorized : ∀ r ∈ rows, r.kept e.first = true → app.imageAuthorized r (e.vault r.repository).config = true
  version : ∀ r ∈ rows, r.kept e.first = true → Store.bindable (some (e.vault r.repository).version.value) = true
  lasting : ∀ r ∈ rows, e.first < r.expiresAt → e.last < r.expiresAt

/-! ### The calls of a pass -/

def Answers.rendered (app : App) (e : Answers) (r : DemoRecord) : RenderedResources :=
  app.rendered r (e.vault r.repository)

def callsFor (app : App) (e : Answers) (r : DemoRecord) : List Call :=
  if r.kept e.first then applyCalls (e.rendered app r) else deleteCalls app.cm r.repository r.pr

def Loop.left (app : App) (e : Answers) : Loop → List Call
  | .idle => []
  | .pass todo => todo.flatMap (callsFor app e)
  | .deleting _ thread todo => thread.left ++ todo.flatMap (callsFor app e)
  | .loading record todo => callsFor app e record ++ todo.flatMap (callsFor app e)
  | .applying _ _ thread todo => thread.left ++ todo.flatMap (callsFor app e)

theorem callsFor_name (e : Answers) (r : DemoRecord) (call : Call) (h : call ∈ callsFor app e r) :
    call.name = nameOf app r.key := by
  unfold callsFor at h
  split at h
  · exact applyCalls_name _ _ _ _ _ _ call h
  · exact deleteCalls_name call h

theorem afterCalls_others (c : Cluster) (e : Answers) {rows : List DemoRecord} {name : Text}
    (h : ∀ r ∈ rows, nameOf app r.key ≠ name) (kind : Kind) :
    afterCalls c (rows.flatMap (callsFor app e)) kind name = c kind name := by
  apply afterCalls_of_ne
  intro call hc
  obtain ⟨r, hr, hcall⟩ := List.mem_flatMap.mp hc
  rw [callsFor_name e r call hcall]
  exact h r hr

theorem afterCalls_own (app : App) (c : Cluster) (e : Answers) {rows : List DemoRecord}
    (distinct : (rows.map fun r => nameOf app r.key).Nodup) {r : DemoRecord} (hr : r ∈ rows) :
    ∃ d : Cluster, (∀ kind, d kind (nameOf app r.key) = c kind (nameOf app r.key)) ∧
      ∀ kind, afterCalls c (rows.flatMap (callsFor app e)) kind (nameOf app r.key) =
        afterCalls d (callsFor app e r) kind (nameOf app r.key) := by
  obtain ⟨before, after, rfl⟩ := List.append_of_mem hr
  rw [List.map_append, List.map_cons] at distinct
  obtain ⟨-, hcons, hbefore⟩ := List.nodup_append.mp distinct
  refine ⟨afterCalls c (before.flatMap (callsFor app e)), fun kind => ?_, fun kind => ?_⟩
  · apply afterCalls_others
    intro q hq
    exact hbefore _ (List.mem_map_of_mem hq) _ (List.mem_cons_self ..)
  · rw [List.flatMap_append, afterCalls_append, List.flatMap_cons, afterCalls_append]
    apply afterCalls_others
    intro q hq he
    exact (List.nodup_cons.mp hcons).1 (List.mem_map.mpr ⟨q, hq, he⟩)

/-! ### The threads of a pass -/

/-- A deletion makes no read and does not fail. -/
def Thread.DeletesOn : Thread → Prop
  | .running call rest => ∀ x ∈ call :: rest, ∀ n, x ≠ .get n
  | .returned _ => True
  | .raised _ => False

/-- An apply reads the deployment last and returns what is reported. -/
def Thread.AppliesOn (available : Bool) : Thread → Prop
  | .running call rest => ∃ calls n, call :: rest = calls ++ [.get n] ∧ ∀ x ∈ calls, ∀ n, x ≠ .get n
  | .returned ready => ready = available
  | .raised _ => False

/-- An answered call has taken effect, and only a read ends a thread. -/
theorem Thread.deletesOn_ofCalls {calls : List Call} (h : ∀ x ∈ calls, ∀ n, x ≠ .get n) :
    (Thread.ofCalls calls).DeletesOn := by
  cases calls with
  | nil => trivial
  | cons call rest => exact h

theorem Thread.appliesOn_ofCalls {calls : List Call} {n : Text} (available : Bool)
    (h : ∀ x ∈ calls, ∀ n, x ≠ .get n) : (Thread.ofCalls (calls ++ [.get n])).AppliesOn available := by
  cases calls with
  | nil => exact ⟨[], n, rfl, h⟩
  | cons call rest => exact ⟨call :: rest, n, rfl, h⟩

theorem Thread.deletesOn_delete (cm : CaseMapping) (repository : Text) (pr : ℤ) :
    (Thread.ofCalls (deleteCalls cm repository pr)).DeletesOn := by
  apply Thread.deletesOn_ofCalls
  intro x hx n
  obtain ⟨kind, -, rfl⟩ := List.mem_map.mp hx
  exact nofun

theorem Thread.appliesOn_apply (resources : RenderedResources) (available : Bool) :
    (Thread.ofCalls (applyCalls resources)).AppliesOn available := by
  obtain ⟨calls, hcalls, heq⟩ := applyCalls_eq resources
  rw [heq]
  exact Thread.appliesOn_ofCalls available hcalls

theorem Thread.AppliesOn.step {c c' : Cluster} {call : Call} {rest : List Call} {outcome : Outcome}
    {thread : Thread} {available : Bool} (ha : (Thread.running call rest).AppliesOn available)
    (h : Thread.step c call rest outcome = some (c', thread))
    (ho : ∀ error tookEffect, outcome ≠ .failed error tookEffect)
    (hv : ∀ view, outcome = .got view → view.isReady = available) :
    thread.AppliesOn available ∧ afterCalls c' thread.left = afterCalls c (call :: rest) := by
  obtain ⟨calls, m, he, hcalls⟩ := ha
  rcases Thread.step_answered h ho with ⟨rfl, rfl, hg⟩ | ⟨n, view, rfl, rfl, rfl, rfl⟩
  · cases calls with
    | nil =>
      rw [List.nil_append, List.cons.injEq] at he
      exact absurd he.1 (hg m)
    | cons x calls =>
      rw [List.cons_append, List.cons.injEq] at he
      obtain ⟨rfl, rfl⟩ := he
      refine ⟨Thread.appliesOn_ofCalls available fun y hy => hcalls y (List.mem_cons_of_mem _ hy), ?_⟩
      rw [Thread.left_ofCalls]
      rfl
  · cases calls with
    | nil =>
      rw [List.nil_append, List.cons.injEq] at he
      obtain ⟨-, rfl⟩ := he
      exact ⟨hv view rfl, rfl⟩
    | cons x calls =>
      rw [List.cons_append, List.cons.injEq] at he
      exact absurd he.1.symm (hcalls x (List.mem_cons_self ..) n)

theorem Thread.DeletesOn.step {c c' : Cluster} {call : Call} {rest : List Call} {outcome : Outcome}
    {thread : Thread} (hd : (Thread.running call rest).DeletesOn)
    (h : Thread.step c call rest outcome = some (c', thread))
    (ho : ∀ error tookEffect, outcome ≠ .failed error tookEffect) :
    thread.DeletesOn ∧ afterCalls c' thread.left = afterCalls c (call :: rest) := by
  rcases Thread.step_answered h ho with ⟨rfl, rfl, -⟩ | ⟨n, view, rfl, -, -, -⟩
  · refine ⟨Thread.deletesOn_ofCalls fun x hx => hd x (List.mem_cons_of_mem _ hx), ?_⟩
    rw [Thread.left_ofCalls]
    rfl
  · exact absurd rfl (hd _ (List.mem_cons_self ..) n)

/-! ### Inside a pass -/

/-- The row is the record's but for what `update_state` writes on the way. -/
def SameDemo (r row : DemoRecord) : Prop :=
  row = { r with state := row.state, message := row.message, updatedAt := row.updatedAt }

/-- What the pass leaves of a record's row. -/
def Settled (app : App) (e : Answers) (s : System) (r : DemoRecord) : Prop :=
  if r.kept e.first then
    ∃ now, s.demos.get r.key =
      some (r.reconciled (e.vault r.repository) (e.available (nameOf app r.key)) now)
  else s.demos.get r.key = none

/-- The record in hand is applied when it is kept and deleted when it is not. -/
def OnCourse (app : App) (e : Answers) : Loop → Prop
  | .idle => False
  | .pass _ => True
  | .deleting record thread _ => record.kept e.first = false ∧ thread.DeletesOn
  | .loading record _ => record.kept e.first = true
  | .applying record p thread _ =>
    record.kept e.first = true ∧ p = e.vault record.repository ∧
      thread.AppliesOn (e.available (nameOf app record.key))

/-- A pass over `rows` from the cluster `c`: the calls left lead where all calls lead,
the records behind are settled and the others have their row. -/
structure Passing (app : App) (e : Answers) (rows : List DemoRecord) (c : Cluster) (s : System) : Prop where
  course : OnCourse app e s.loop
  calls : afterCalls s.cluster (s.loop.left app e) = afterCalls c (rows.flatMap (callsFor app e))
  behind : ∃ done, rows = done ++ s.loop.held ∧ ∀ r ∈ done, Settled app e s r
  held : ∀ r ∈ s.loop.held, ∃ row, s.demos.get r.key = some row ∧ SameDemo r row
  absent : ∀ k, (∀ r ∈ rows, r.key ≠ k) → s.demos.get k = none

theorem Settled.of_get {e : Answers} {s t : System} {r : DemoRecord} (h : Settled app e s r)
    (hg : t.demos.get r.key = s.demos.get r.key) : Settled app e t r := by
  unfold Settled at h ⊢
  rw [hg]
  exact h

theorem SameDemo.withState {r row : DemoRecord} (h : SameDemo r row) (state : DemoState) (m : Text) (now : ℤ) :
    SameDemo r (row.withState state m none none now) := by
  unfold SameDemo at h
  rw [h]
  rfl

theorem SameDemo.reconciled {r row : DemoRecord} (h : SameDemo r row) (p : VaultProject) (available : Bool)
    (now : ℤ) : row.withState (if available then .ready else .reconciling)
      (if available then "deployment is ready" else "waiting for deployment readiness").toList
      (some p.version.value) (some p.config.port) now = r.reconciled p available now := by
  unfold SameDemo at h
  rw [h]
  cases available <;> rfl

section

variable {e : Answers} {rows : List DemoRecord} {c : Cluster} {s t : System}

theorem Passing.frame (hp : Passing app e rows c s) (unique : (rows.map DemoRecord.key).Nodup)
    {record : DemoRecord} {todo : List DemoRecord} (hh : s.loop.held = record :: todo)
    (hg : ∀ k, k ≠ record.key → t.demos.get k = s.demos.get k) :
    (∃ done, rows = done ++ record :: todo ∧ ∀ r ∈ done, Settled app e t r) ∧
    (∀ r ∈ todo, ∃ row, t.demos.get r.key = some row ∧ SameDemo r row) ∧
    ∀ k, (∀ r ∈ rows, r.key ≠ k) → t.demos.get k = none := by
  obtain ⟨done, hrows, hdone⟩ := hp.behind
  rw [hh] at hrows
  rw [hrows, List.map_append, List.map_cons] at unique
  have hsplit := List.nodup_append.mp unique
  refine ⟨⟨done, hrows, fun r hr => ?_⟩, fun r hr => ?_, fun k hk => ?_⟩
  · have hne : r.key ≠ record.key :=
      hsplit.2.2 _ (List.mem_map_of_mem hr) _ (List.mem_cons_self ..)
    exact (hdone r hr).of_get (hg _ hne)
  · have hne : r.key ≠ record.key := fun he =>
      (List.nodup_cons.mp hsplit.2.1).1 (he ▸ List.mem_map_of_mem hr)
    rw [hg _ hne]
    exact hp.held r (by rw [hh]; exact List.mem_cons_of_mem _ hr)
  · have hr : record ∈ rows := by
      rw [hrows]
      exact List.mem_append_right _ (List.mem_cons_self ..)
    rw [hg k (hk record hr).symm]
    exact hp.absent k hk

theorem Passing.goOn (hp : Passing app e rows c s) (unique : (rows.map DemoRecord.key).Nodup)
    {record : DemoRecord} {todo : List DemoRecord} (hh : s.loop.held = record :: todo)
    (hh' : t.loop.held = record :: todo) (hg : ∀ k, k ≠ record.key → t.demos.get k = s.demos.get k)
    (hrow : ∃ row, t.demos.get record.key = some row ∧ SameDemo record row)
    (hcourse : OnCourse app e t.loop)
    (hcalls : afterCalls t.cluster (t.loop.left app e) = afterCalls s.cluster (s.loop.left app e)) :
    Passing app e rows c t := by
  obtain ⟨hbehind, hheld, habsent⟩ := hp.frame unique hh hg
  refine ⟨hcourse, hcalls.trans hp.calls, by rw [hh']; exact hbehind, fun r hr => ?_, habsent⟩
  rw [hh'] at hr
  rcases List.mem_cons.mp hr with rfl | hr
  · exact hrow
  · exact hheld r hr

theorem Passing.settle (hp : Passing app e rows c s) (unique : (rows.map DemoRecord.key).Nodup)
    {record : DemoRecord} {todo : List DemoRecord} (hh : s.loop.held = record :: todo)
    (hl : t.loop = .pass todo) (hg : ∀ k, k ≠ record.key → t.demos.get k = s.demos.get k)
    (hsettled : Settled app e t record)
    (hcalls : afterCalls t.cluster (t.loop.left app e) = afterCalls s.cluster (s.loop.left app e)) :
    Passing app e rows c t := by
  obtain ⟨⟨done, hrows, hdone⟩, hheld, habsent⟩ := hp.frame unique hh hg
  have hh' : t.loop.held = todo := by rw [hl]; rfl
  refine ⟨by rw [hl]; trivial, hcalls.trans hp.calls, ⟨done ++ [record], ?_, fun r hr => ?_⟩, ?_, habsent⟩
  · rw [hh', hrows, List.append_assoc]
    rfl
  · rcases List.mem_append.mp hr with hr | hr
    · exact hdone r hr
    · rw [List.mem_singleton.mp hr]
      exact hsettled
  · rw [hh']
    exact hheld

theorem Passing.updated (hp : Passing app e rows c s) {record : DemoRecord} (hr : record ∈ s.loop.held)
    (state : DemoState) (m : Text) (now : ℤ) (loop : Loop) :
    ∃ row, (s.update record state m none none now loop).demos.get record.key = some row ∧
      SameDemo record row := by
  obtain ⟨row, hrow, hsame⟩ := hp.held record hr
  rw [update_get_self, hrow]
  exact ⟨_, rfl, hsame.withState state m now⟩

end

theorem kept_false {r : DemoRecord} {first last now : ℤ} (h : r.desiredPresent = false ∨ r.expiresAt ≤ now)
    (hn : now ≤ last) (lasting : first < r.expiresAt → last < r.expiresAt) : r.kept first = false := by
  unfold DemoRecord.kept
  rcases h with h | h
  · rw [h, Bool.false_and]
  · have hne : ¬ first < r.expiresAt := fun hf => absurd (lasting hf) (by omega)
    rw [decide_eq_false hne, Bool.and_false]

theorem kept_true {r : DemoRecord} {first now : ℤ} (hd : r.desiredPresent = true) (h : now < r.expiresAt)
    (hn : first ≤ now) : r.kept first = true := by
  unfold DemoRecord.kept
  rw [hd, decide_eq_true (show first < r.expiresAt by omega), Bool.and_true]

theorem Passing.step {e : Answers} {rows : List DemoRecord} {c : Cluster} {s t : System} {a : Action}
    {h es : List (Event app.cm)} (unique : (rows.map DemoRecord.key).Nodup) (fav : Favourable app e rows)
    (hp : Passing app e rows c s) (allowed : Permitted app e s h a) (hs : Stepped app s a t es) :
    Passing app e rows c t := by
  have hcourse := hp.course
  have inRows {r : DemoRecord} (hr : r ∈ s.loop.held) : r ∈ rows := by
    obtain ⟨done, hrows, -⟩ := hp.behind
    rw [hrows]
    exact List.mem_append_right _ hr
  cases hs with
  | request => exact allowed.elim
  | list => exact allowed.elim
  | @beginDelete record todo now later hl hc =>
    have hr : record ∈ s.loop.held := mem_held hl (List.mem_cons_self ..)
    have hk : record.kept e.first = false :=
      kept_false hc allowed.2 (fav.lasting record (inRows hr))
    refine hp.goOn unique (by rw [hl]; rfl) rfl (fun k hne => update_get_of_ne s _ _ _ _ _ _ hne)
      (hp.updated hr ..) ⟨hk, Thread.deletesOn_delete _ _ _⟩ ?_
    rw [hl]
    simp only [System.update, Loop.left, Thread.left_ofCalls, List.flatMap_cons, callsFor, hk,
      Bool.false_eq_true, if_false]
  | @beginApply record todo now later hl hd hn =>
    have hr : record ∈ s.loop.held := mem_held hl (List.mem_cons_self ..)
    refine hp.goOn unique (by rw [hl]; rfl) rfl (fun k hne => update_get_of_ne s _ _ _ _ _ _ hne)
      (hp.updated hr ..) (kept_true hd hn allowed.1) ?_
    rw [hl]
    rfl
  | @project record todo p now later health hl ha =>
    obtain ⟨record', todo', hl', he⟩ := allowed
    rw [hl] at hl' hcourse
    cases hl'
    cases he
    have hk : record.kept e.first = true := hcourse
    refine hp.goOn unique (by rw [hl]; rfl) rfl (fun _ _ => rfl)
      (hp.held record (mem_held hl (List.mem_cons_self ..))) ⟨hk, rfl, Thread.appliesOn_apply _ _⟩ ?_
    rw [hl]
    simp only [Loop.left, Thread.left_ofCalls, callsFor, hk, if_true, Answers.rendered]
  | @vaultFailed record todo outcome now later health message hl hf =>
    obtain ⟨record', todo', hl', rfl⟩ := allowed
    rw [hl] at hl' hcourse
    cases hl'
    have hk : record.kept e.first = true := hcourse
    have ha := fav.authorized record (inRows (mem_held hl (List.mem_cons_self ..))) hk
    rw [hf _ rfl] at ha
    cases ha
  | @callDelete record call rest todo outcome cluster thread hl hstep =>
    rw [hl] at hcourse
    obtain ⟨hd, hc⟩ := hcourse.2.step hstep allowed.answered
    refine hp.goOn unique (by rw [hl]; rfl) rfl (fun _ _ => rfl)
      (hp.held record (mem_held hl (List.mem_cons_self ..))) ⟨hcourse.1, hd⟩ ?_
    rw [hl]
    simp only [Loop.left, afterCalls_append, hc]
    rfl
  | @callApply record p call rest todo outcome cluster thread hl hstep =>
    rw [hl] at hcourse
    obtain ⟨hk, hv, ha⟩ := hcourse
    obtain ⟨ha', hc⟩ := ha.step hstep allowed.answered (allowed.reported hl)
    refine hp.goOn unique (by rw [hl]; rfl) rfl (fun _ _ => rfl)
      (hp.held record (mem_held hl (List.mem_cons_self ..))) ⟨hk, hv, ha'⟩ ?_
    rw [hl]
    simp only [Loop.left, afterCalls_append, hc]
    rfl
  | @deleted record ready todo now later health hl =>
    rw [hl] at hcourse
    refine hp.settle unique (by rw [hl]; rfl) rfl (fun k hne => s.api.store.get_deleteRecord_of_ne hne) ?_ ?_
    · unfold Settled
      rw [hcourse.1]
      exact s.api.store.get_deleteRecord_self ..
    · rw [hl]
      rfl
  | deleteFailed hl =>
    rw [hl] at hcourse
    exact hcourse.2.elim
  | @applied record p ready todo now later health hl hb =>
    rw [hl] at hcourse
    obtain ⟨hk, rfl, rfl⟩ := hcourse
    refine hp.settle unique (by rw [hl]; rfl) rfl (fun k hne => update_get_of_ne _ _ _ _ _ _ _ hne) ?_ ?_
    · obtain ⟨row, hrow, hsame⟩ := hp.held record (mem_held hl (List.mem_cons_self ..))
      have hget : (System.demos { s with health := health }).get record.key = some row := hrow
      unfold Settled
      rw [hk, if_pos rfl, update_get_self, hget]
      exact ⟨later, congrArg some (hsame.reconciled ..)⟩
    · rw [hl]
      rfl
  | @applyFailed record p thread todo now later health message hl hend hb =>
    rw [hl] at hcourse
    obtain ⟨hk, rfl, ha⟩ := hcourse
    cases hend with
    | raised error => exact ha.elim
    | returned ready =>
      have hv := fav.version record (inRows (mem_held hl (List.mem_cons_self ..))) hk
      rw [hb ready rfl] at hv
      cases hv
  | endPass => exact allowed.elim
  | crash => exact allowed.elim

/-! ### A pass comes to an end -/

/-- A bound on the steps the loop has left in the pass. -/
def Loop.weight : Loop → ℕ
  | .idle => 0
  | .pass todo => 10 * todo.length
  | .deleting _ thread todo => 10 * todo.length + 1 + thread.left.length
  | .loading _ todo => 10 * todo.length + 9
  | .applying _ _ thread todo => 10 * todo.length + 1 + thread.left.length

theorem applyCalls_length (resources : RenderedResources) : (applyCalls resources).length = 5 := by
  obtain ⟨deployment, service, configMap, secret⟩ := resources
  cases configMap <;> cases secret <;> rfl

theorem Thread.left_step {c c' : Cluster} {call : Call} {rest : List Call} {outcome : Outcome}
    {thread : Thread} (h : Thread.step c call rest outcome = some (c', thread)) :
    thread.left.length < (Thread.running call rest).left.length := by
  rcases Thread.step_thread h with rfl | ⟨error, rfl⟩ | ⟨name, ready, -, rfl⟩
  · rw [Thread.left_ofCalls]
    exact Nat.lt_succ_self _
  · exact Nat.zero_lt_succ _
  · exact Nat.zero_lt_succ _

theorem weight_step {e : Answers} {s t : System} {a : Action} {h es : List (Event app.cm)}
    (allowed : Permitted app e s h a) (hs : Stepped app s a t es) : t.loop.weight < s.loop.weight := by
  cases hs with
  | request | list | endPass | crash => exact allowed.elim
  | beginDelete hl _ =>
    rw [hl]
    simp only [System.update, Loop.weight, Thread.left_ofCalls, deleteCalls, List.length_cons, List.length_map,
      List.length_nil]
    omega
  | beginApply hl _ _ =>
    rw [hl]
    simp only [System.update, Loop.weight, List.length_cons]
    omega
  | project hl _ =>
    rw [hl]
    simp only [Loop.weight, Thread.left_ofCalls, applyCalls_length]
    omega
  | callDelete hl hstep =>
    have hlt := Thread.left_step hstep
    rw [hl]
    simp only [Loop.weight]
    omega
  | callApply hl hstep =>
    have hlt := Thread.left_step hstep
    rw [hl]
    simp only [Loop.weight]
    omega
  | vaultFailed hl _ =>
    rw [hl]
    simp only [System.update, Loop.weight]
    omega
  | deleted hl =>
    rw [hl]
    simp only [Loop.weight]
    omega
  | deleteFailed hl | applied hl _ | applyFailed hl _ _ =>
    rw [hl]
    simp only [System.update, Loop.weight]
    omega

theorem DeploymentView.exists_isReady (b : Bool) : ∃ view : DeploymentView, view.isReady = b := by
  cases b with
  | true => exact ⟨⟨none, some 1, some (none, some 1)⟩, by decide⟩
  | false => exact ⟨⟨none, some 1, none⟩, rfl⟩

theorem Passing.goes_on {e : Answers} {rows : List DemoRecord} {c : Cluster} {s : System}
    (hp : Passing app e rows c s) (h : List (Event app.cm)) (hend : s.loop ≠ .pass []) :
    ∃ a, Permitted app e s h a ∧ (app.step s a).isSome = true := by
  have hcourse := hp.course
  cases hl : s.loop with
  | idle =>
    rw [hl] at hcourse
    exact hcourse.elim
  | pass todo =>
    cases todo with
    | nil => exact absurd hl hend
    | cons record todo =>
      refine ⟨.begin e.first e.first, ⟨le_refl _, e.ordered⟩, ?_⟩
      simp only [App.step, hl, Option.isSome_some]
  | loading record todo =>
    refine ⟨.vault (.project (e.vault record.repository)) e.first e.first, ⟨record, todo, hl, rfl⟩, ?_⟩
    simp only [App.step, hl, Option.isSome_some]
  | deleting record thread todo =>
    rw [hl] at hcourse
    cases thread with
    | raised error => exact hcourse.2.elim
    | returned ready =>
      refine ⟨.resume e.first e.first, trivial, ?_⟩
      simp only [App.step, hl, Option.isSome_some]
    | running call rest =>
      refine ⟨.call .done, trivial, ?_⟩
      cases call with
      | get n => exact absurd rfl (hcourse.2 _ (List.mem_cons_self ..) n)
      | apply r => simp only [App.step, hl, Thread.step, Option.map_some, Option.isSome_some]
      | delete kind name => simp only [App.step, hl, Thread.step, Option.map_some, Option.isSome_some]
  | applying record p thread todo =>
    rw [hl] at hcourse
    obtain ⟨-, -, ha⟩ := hcourse
    cases thread with
    | raised error => exact ha.elim
    | returned ready =>
      refine ⟨.resume e.first e.first, trivial, ?_⟩
      simp only [App.step, hl, Option.isSome_some]
    | running call rest =>
      cases call with
      | get n =>
        obtain ⟨view, hview⟩ := DeploymentView.exists_isReady (e.available (nameOf app record.key))
        refine ⟨.call (.got view), ⟨record, p, _, todo, hl, hview⟩, ?_⟩
        simp only [App.step, hl, Thread.step, Option.map_some, Option.isSome_some]
      | apply r =>
        refine ⟨.call .done, trivial, ?_⟩
        simp only [App.step, hl, Thread.step, Option.map_some, Option.isSome_some]
      | delete kind name =>
        refine ⟨.call .done, trivial, ?_⟩
        simp only [App.step, hl, Thread.step, Option.map_some, Option.isSome_some]

/-! ### What a pass does -/

theorem passing_start (e : Answers) {s a : System} {es : List (Event app.cm)}
    (h : app.step s .list = some (a, es)) : Passing app e s.demos.rows s.cluster a := by
  cases stepped_of_step h with
  | list hl =>
    have hlist : s.api.store.listReconcilable = s.demos.rows := s.api.store.listReconcilable_eq
    refine ⟨trivial, ?_, ⟨[], ?_, fun r hr => by cases hr⟩, fun r hr => ?_, fun k hk => ?_⟩
    · simp only [Loop.left, hlist]
    · exact hlist.symm
    · have hm : r ∈ s.demos.rows := hlist ▸ hr
      exact ⟨r, Table.get_of_mem hm, rfl⟩
    · have hn : s.demos.get k = none := Table.get_eq_none_iff.mpr fun hm => by
        obtain ⟨r, hr, he⟩ := List.mem_map.mp hm
        exact hk r hr he
      exact hn

theorem Passing.run {e : Answers} {rows : List DemoRecord} {c : Cluster} {a u : System}
    {h k : List (Event app.cm)} (unique : (rows.map DemoRecord.key).Nodup) (fav : Favourable app e rows)
    (hp : Passing app e rows c a) (run : Run app.step (Permitted app e) a h u k) : Passing app e rows c u := by
  refine run.invariant (I := fun s _ => Passing app e rows c s) hp ?_
  intro s h b t es hs allowed hstep
  exact hs.step unique fav allowed (stepped_of_step hstep)

theorem pass_exists {e : Answers} {s : System} (idle : s.loop = .idle) (fav : Favourable app e s.demos.rows) :
    ∃ t, Pass app e s t := by
  have hlist : app.step s .list = some ({ s with loop := .pass s.api.store.listReconcilable }, [.snapshot]) := by
    simp only [App.step, idle]
  have hrun : ∃ u k, Run app.step (Permitted app e) { s with loop := .pass s.api.store.listReconcilable } [] u k ∧
      Passing app e s.demos.rows s.cluster u ∧ u.loop = .pass [] := by
    refine Run.reaches (fun t => t.loop.weight) (fun t h ht hne => ht.goes_on h hne) ?_ _ [] (passing_start e hlist)
    intro t h a u es ht allowed hs
    have hstepped := stepped_of_step hs
    exact ⟨ht.step s.demos.unique fav allowed hstepped, weight_step allowed hstepped⟩
  obtain ⟨u, k, run, -, hend⟩ := hrun
  have hstep : app.step u (.endPass e.first) =
      some ({ u with loop := .idle, lastCompletedAt := some e.first, clock := e.first }, []) := by
    simp only [App.step, hend]
  exact ⟨_, _, u, _, k, e.first, hlist, run, hstep⟩

/-- What a pass leaves: the kept rows, reconciled, their objects, and what is not a
row's own as it was. Into the objects of a kept row go the rendered ones, and nothing else
is in them unless another manager put it there. -/
structure Converged (app : App) (e : Answers) (s t : System) : Prop where
  idle : t.loop = .idle
  kept : ∀ r ∈ s.demos.rows, r.kept e.first = true → ∃ now, t.demos.get r.key =
    some (r.reconciled (e.vault r.repository) (e.available (nameOf app r.key)) now)
  only : ∀ row ∈ t.demos.rows, ∃ r ∈ s.demos.rows, r.kept e.first = true ∧ r.key = row.key
  applied : ∀ r ∈ s.demos.rows, r.kept e.first = true →
    AppliedOver s.cluster t.cluster (nameOf app r.key) (e.rendered app r).all
  exactly : ∀ r ∈ s.demos.rows, r.kept e.first = true → Unshared s.cluster (nameOf app r.key) →
    HoldsExactly t.cluster (nameOf app r.key) (e.rendered app r).all
  removed : ∀ r ∈ s.demos.rows, r.kept e.first = false → ∀ kind, t.cluster kind (nameOf app r.key) = none
  untouched : ∀ name, (∀ r ∈ s.demos.rows, nameOf app r.key ≠ name) →
    ∀ kind, t.cluster kind name = s.cluster kind name

theorem pass_converged {e : Answers} {s t : System} (fav : Favourable app e s.demos.rows)
    (hp : Pass app e s t) : Converged app e s t := by
  obtain ⟨a, u, es, h, now, hlist, run, hend⟩ := hp
  have hu : Passing app e s.demos.rows s.cluster u :=
    (passing_start e hlist).run s.demos.unique fav run
  have names : (s.demos.rows.map fun r => nameOf app r.key).Nodup :=
    (List.Nodup.of_map _ s.demos.unique).map_on fun r hr q hq he =>
      s.demos.row_inj hr hq (fav.distinct r hr q hq he)
  cases stepped_of_step hend with
  | endPass hl =>
    have hcluster : u.cluster = afterCalls s.cluster (s.demos.rows.flatMap (callsFor app e)) := by
      have hc := hu.calls
      rw [hl] at hc
      exact hc
    have hsettled : ∀ r ∈ s.demos.rows, Settled app e u r := by
      obtain ⟨done, hrows, hdone⟩ := hu.behind
      rw [hl] at hrows
      have hall : s.demos.rows = done := hrows.trans (List.append_nil done)
      rw [hall]
      exact hdone
    have happlied : ∀ r ∈ s.demos.rows, r.kept e.first = true →
        AppliedOver s.cluster u.cluster (nameOf app r.key) (e.rendered app r).all := by
      intro r hr hk kind o
      obtain ⟨d, hbefore, hd⟩ := afterCalls_own app s.cluster e names hr
      have hcalls : callsFor app e r = applyCalls (e.rendered app r) := if_pos hk
      rw [hcluster, hd kind, hcalls, ← hbefore kind]
      exact afterCalls_apply d (renderResources_name _ _ _ _ _ _) kind o
    refine ⟨rfl, fun r hr hk => ?_, fun row hrow => ?_, happlied, fun r hr hk alone => ?_, fun r hr hk kind => ?_,
      fun name hn kind => ?_⟩
    · have hs := hsettled r hr
      unfold Settled at hs
      rw [hk, if_pos rfl] at hs
      exact hs
    · have hget : u.demos.get row.key = some row := Table.get_of_mem hrow
      have hex : ∃ r ∈ s.demos.rows, r.key = row.key := by
        by_contra hno
        push Not at hno
        rw [hu.absent row.key hno] at hget
        cases hget
      obtain ⟨r, hr, hkey⟩ := hex
      refine ⟨r, hr, ?_, hkey⟩
      have hs := hsettled r hr
      unfold Settled at hs
      by_contra hk
      rw [if_neg hk, hkey, hget] at hs
      cases hs
    · exact (happlied r hr hk).exactly alone
    · obtain ⟨d, -, hd⟩ := afterCalls_own app s.cluster e names hr
      have hcalls : callsFor app e r = deleteCalls app.cm r.repository r.pr := if_neg (by simp [hk])
      show u.cluster kind (nameOf app r.key) = none
      rw [hcluster, hd kind, hcalls]
      exact afterCalls_delete ..
    · show u.cluster kind name = s.cluster kind name
      rw [hcluster]
      exact afterCalls_others s.cluster e hn kind

/-! ### A second pass -/

def Answers.report (e : Answers) (available : Text → Bool) : Answers := { e with available := available }

/-- What a second pass leaves: the cluster as it was, and of each row only `updated_at`
changed, with the state and the message where the readiness did. -/
structure Unchanged (app : App) (e : Answers) (available : Text → Bool) (t u : System) : Prop where
  cluster : u.cluster = t.cluster
  rows : ∀ row ∈ t.demos.rows, ∃ row', u.demos.get row.key = some row' ∧ SameDemo row row' ∧
    (available (nameOf app row.key) = e.available (nameOf app row.key) →
      row' = { row with updatedAt := row'.updatedAt })
  only : ∀ row' ∈ u.demos.rows, ∃ row ∈ t.demos.rows, row.key = row'.key

theorem Converged.row {e : Answers} {s t : System} (hc : Converged app e s t) {row : DemoRecord}
    (h : row ∈ t.demos.rows) : ∃ r ∈ s.demos.rows, r.kept e.first = true ∧ ∃ now,
      row = r.reconciled (e.vault r.repository) (e.available (nameOf app r.key)) now := by
  obtain ⟨r, hr, hk, hkey⟩ := hc.only row h
  obtain ⟨now, hnow⟩ := hc.kept r hr hk
  have hget : t.demos.get r.key = some row := by
    rw [hkey]
    exact Table.get_of_mem h
  exact ⟨r, hr, hk, now, Option.some_inj.mp (hget.symm.trans hnow)⟩

theorem Favourable.after {e : Answers} {s t : System} (fav : Favourable app e s.demos.rows)
    (hc : Converged app e s t) (available : Text → Bool) :
    Favourable app (e.report available) t.demos.rows := by
  refine ⟨fun row hrow row' hrow' he => ?_, fun row hrow _ => ?_, fun row hrow _ => ?_, fun row hrow hf => ?_⟩
  · obtain ⟨r, hr, -, hkey⟩ := hc.only row hrow
    obtain ⟨r', hr', -, hkey'⟩ := hc.only row' hrow'
    rw [← hkey, ← hkey'] at he ⊢
    exact fav.distinct r hr r' hr' he
  · obtain ⟨r, hr, hk, now, rfl⟩ := hc.row hrow
    exact fav.authorized r hr hk
  · obtain ⟨r, hr, hk, now, rfl⟩ := hc.row hrow
    exact fav.version r hr hk
  · obtain ⟨r, hr, -, now, rfl⟩ := hc.row hrow
    exact fav.lasting r hr hf

theorem second_pass_unchanged {e : Answers} {available : Text → Bool} {s t u : System} (hc : Converged app e s t)
    (hc' : Converged app (e.report available) t u) : Unchanged app e available t u := by
  refine ⟨?_, fun row hrow => ?_, fun row' hrow' => ?_⟩
  · funext kind name
    by_cases hn : ∃ row ∈ t.demos.rows, nameOf app row.key = name
    · obtain ⟨row, hrow, rfl⟩ := hn
      obtain ⟨r, hr, hk, now, rfl⟩ := hc.row hrow
      have hfirst := hc.applied r hr hk
      have hsecond := hc'.applied _ hrow hk
      exact AppliedOver.again hfirst hsecond kind
    · push Not at hn
      exact hc'.untouched name hn kind
  · obtain ⟨r, hr, hk, now, rfl⟩ := hc.row hrow
    obtain ⟨now', hnow⟩ := hc'.kept _ hrow hk
    refine ⟨_, hnow, rfl, fun hsame => ?_⟩
    have hsame' : (e.report available).available (nameOf app r.key) = e.available (nameOf app r.key) := hsame
    show DemoRecord.reconciled _ _ ((e.report available).available (nameOf app r.key)) now' = _
    rw [hsame']
    rfl
  · obtain ⟨row, hrow, -, hkey⟩ := hc'.only row' hrow'
    exact ⟨row, hrow, hkey⟩

/-- From any store whose rows have resource names of their own and any cluster, a pass in
which Vault answers with valid configurations of the rows' images and no call fails comes
to its end. It leaves exactly the kept rows, each `ready` or `reconciling` with the
version and port of its configuration; under a kept row's name the rendered objects, and
exactly these where no other manager has put anything into them, under a removed row's name
none, and every other object as it was. A second pass with the same Vault data changes
neither the cluster nor any column but `updated_at`, and the state and the message where the
readiness changed. -/
theorem reconciliation_converges {e : Answers} {s : System} (idle : s.loop = .idle)
    (fav : Favourable app e s.demos.rows) :
    (∃ t, Pass app e s t) ∧ ∀ t, Pass app e s t → Converged app e s t ∧
      ∀ available : Text → Bool, (∃ u, Pass app (e.report available) t u) ∧
        ∀ u, Pass app (e.report available) t u → Unchanged app e available t u := by
  refine ⟨pass_exists idle fav, fun t ht => ?_⟩
  have hc := pass_converged fav ht
  refine ⟨hc, fun available => ?_⟩
  have fav' := fav.after hc available
  exact ⟨pass_exists hc.idle fav', fun u hu => second_pass_unchanged hc (pass_converged fav' hu)⟩

def exampleAnswers : Answers := ⟨fun _ => ⟨plainConfig, .int 3⟩, fun _ => true, 110, 200, by decide⟩

/-- A demo that is to go. -/
def removedRecord : DemoRecord := { exampleRecord with pr := 9, desiredPresent := false }

/-- The apply of an earlier configuration was given up for the one demo and complete for the other. -/
def leftoverCluster : Cluster :=
  afterCalls (fun _ _ => none)
    ((applyCalls (exampleApp.rendered exampleRecord ⟨formerConfig, .int 2⟩)).take 2 ++
      applyCalls (exampleApp.rendered removedRecord ⟨formerConfig, .int 2⟩))

def leftoverSystem : System :=
  let api := (System.initial leftoverCluster 100).api
  { System.initial leftoverCluster 100 with
    api := { api with store := { api.store with demos := ⟨[exampleRecord, removedRecord], by decide +kernel⟩ } } }

theorem leftover_favourable : Favourable exampleApp exampleAnswers leftoverSystem.demos.rows where
  distinct := by decide +kernel
  authorized := by decide +kernel
  version := by decide +kernel
  lasting := by decide +kernel

theorem reconciliation_converges_example : ∃ t u : System,
    (∀ kind, (leftoverSystem.cluster kind (nameOf exampleApp removedRecord.key)).isSome = true) ∧
    (leftoverSystem.cluster .secret (nameOf exampleApp exampleRecord.key)).isSome = true ∧
    Pass exampleApp exampleAnswers leftoverSystem t ∧ Converged exampleApp exampleAnswers leftoverSystem t ∧
    HoldsExactly t.cluster (nameOf exampleApp exampleRecord.key)
      (exampleAnswers.rendered exampleApp exampleRecord).all ∧
    Pass exampleApp (exampleAnswers.report fun _ => false) t u ∧
    Unchanged exampleApp exampleAnswers (fun _ => false) t u := by
  have hleft : ∀ kind, (leftoverSystem.cluster kind (nameOf exampleApp removedRecord.key)).isSome = true := by
    intro kind
    cases kind <;> decide +kernel
  have hsecret : (leftoverSystem.cluster .secret (nameOf exampleApp exampleRecord.key)).isSome = true := by
    decide +kernel
  obtain ⟨⟨t, ht⟩, hall⟩ := reconciliation_converges (s := leftoverSystem) rfl leftover_favourable
  obtain ⟨hc, hsecond⟩ := hall t ht
  obtain ⟨⟨u, hu⟩, hunchanged⟩ := hsecond fun _ => false
  have hrow : exampleRecord ∈ leftoverSystem.demos.rows := List.mem_cons_self ..
  have hexactly := hc.exactly exampleRecord hrow (by decide) (unshared_of_test (by decide +kernel))
  exact ⟨t, u, hleft, hsecret, ht, hc, hexactly, hu, hunchanged u hu⟩

def sharedSystem : System := { leftoverSystem with cluster := sharedCluster }

/-- What another manager has put into the ConfigMap stays in it. -/
theorem other_manager_survives_pass : ¬ ∀ s t : System, s.loop = .idle →
    Favourable exampleApp exampleAnswers s.demos.rows → Pass exampleApp exampleAnswers s t →
    ∀ r ∈ s.demos.rows, r.kept exampleAnswers.first = true →
      HoldsExactly t.cluster (nameOf exampleApp r.key) (exampleAnswers.rendered exampleApp r).all := by
  intro all
  obtain ⟨t, ht⟩ := pass_exists (s := sharedSystem) rfl leftover_favourable
  have hrow : exampleRecord ∈ sharedSystem.demos.rows := List.mem_cons_self ..
  have hkept : exampleRecord.kept exampleAnswers.first = true := by
    decide
  obtain ⟨configMap, hconfigMap⟩ :
      ∃ c, (exampleAnswers.rendered exampleApp exampleRecord).configMap = some c := ⟨_, rfl⟩
  have hin : Resource.configMap configMap ∈ (exampleAnswers.rendered exampleApp exampleRecord).all := by
    simp only [RenderedResources.all, hconfigMap, Option.map_some, Option.toList_some, List.cons_append, List.mem_cons,
      true_or]
  have hover := (pass_converged (s := sharedSystem) leftover_favourable ht).applied exampleRecord hrow hkept
  have hexactly := all sharedSystem t rfl leftover_favourable ht exampleRecord hrow hkept
  obtain ⟨r, -, -, hr⟩ := (hexactly .configMap _).mp ((hover .configMap _).mpr ⟨_, hin, rfl, rfl⟩)
  cases hconfigMap
  have hothers := congrArg Stored.others hr
  revert hothers
  show _ ≠ []
  decide +kernel

end DemoController
