import DemoController.Routes
import DemoController.Images

/-!
# What a stored row is

Every row comes from a delivery that passed its validators and is only written over by
another one or by the loop, so at any time it is a demo the rest of the system can work
with: its columns fit together, its times are in order and it was deployed from an image of
its own repository.
-/

namespace DemoController

open Lib

variable {app : App}

/-- The Vault version and the port are written together, from a configuration that was
applied. -/
def AppliedColumns (version port : Option ℤ) : Prop :=
  version = none ∧ port = none ∨
    ∃ v p, version = some v ∧ port = some p ∧ Store.bindable (some v) = true ∧ 1024 ≤ p ∧ p ≤ 65535

/-- `first` is the clock when the store was created. -/
structure SoundRow (app : App) (first clock : ℤ) (row : DemoRecord) : Prop where
  repository : isRepository row.repository = true
  pr : 1 ≤ row.pr ∧ row.pr ≤ 2147483647
  deliveryId : isDeliveryId row.deliveryId = true
  commitSha : ∀ sha, row.commitSha = some sha → isSha sha = true
  image : ∀ image, row.image = some image → imageRepository (app.cm.lower image) = some row.repository ∧
    (app.authorizedImage row.repository).isPrefixOf (app.cm.lower image) = true
  present : row.desiredPresent = true → row.commitSha.isSome = true ∧ row.image.isSome = true
  applied : AppliedColumns row.vaultVersion row.port
  ready : row.state = .ready → row.port.isSome = true
  message : row.message.length ≤ 1000
  times : first ≤ row.createdAt ∧ row.createdAt ≤ row.updatedAt ∧ row.updatedAt ≤ clock
  expiry : row.createdAt ≤ row.expiresAt ∧ row.expiresAt ≤ row.updatedAt + demoLifetimeSeconds

/-! ### Where a row comes from -/

/-- The row of a key after a step is the one before it, what an admitted delivery leaves
of it, or that with the columns of the loop. -/
inductive RowStep (app : App) (s : System) (a : Action) (clock : ℤ) (k : Key) : DemoRecord → Prop
  | same {row : DemoRecord} : s.demos.get k = some row → RowStep app s a clock k row
  | delivered {endpoint : Endpoint} {req : HttpRequest} {now : ℤ} (p : Payload app.cm) :
      a = .request endpoint req now clock → Admitted app s.api endpoint req now p → p.key = k →
      RowStep app s a clock k (p.rowAfter (sha256 req.body) clock (s.demos.get k))
  | looped {old : DemoRecord} (state : DemoState) (message : Text) {version port : Option ℤ} :
      s.demos.get k = some old → AppliedColumns version port → (state = .ready → port.isSome = true) →
      RowStep app s a clock k (old.withState state message version port clock)

theorem rowStep_update {s u : System} {a : Action} {r : DemoRecord} {state : DemoState} {m : Text}
    {v p : Option ℤ} {now : ℤ} {loop : Loop} {k : Key} {row : DemoRecord}
    (h : (u.update r state m v p now loop).demos.get k = some row) (hu : u.demos = s.demos)
    (hvp : AppliedColumns v p) (hready : state = .ready → p.isSome = true) : RowStep app s a now k row := by
  obtain ⟨old, hold, ⟨-, rfl⟩ | ⟨-, rfl⟩⟩ := row_of_update h
  · exact .looped state m (hu ▸ hold) hvp hready
  · exact .same (hu ▸ hold)

theorem Stepped.rowStep {s t : System} {es : List (Event app.cm)} {a : Action} (hs : Stepped app s a t es)
    {k : Key} {row : DemoRecord} (h : t.demos.get k = some row) : RowStep app s a t.clock k row := by
  cases hs with
  | request hserved =>
    rcases hserved.get k with ⟨hg, -⟩ | ⟨p, hk, hadm, -, hg, -⟩
    · exact .same (hg ▸ h)
    · rw [← Option.some.inj (hg.symm.trans h)]
      exact .delivered p rfl hadm hk
  | list | project | callDelete | callApply | endPass | crash => exact .same h
  | beginDelete | beginApply | vaultFailed | deleteFailed | applyFailed =>
    have hrow {a : Action} : RowStep app s a _ k row := rowStep_update h rfl (.inl ⟨rfl, rfl⟩) fun hc => by cases hc
    exact hrow
  | @applied _ p _ _ _ _ _ _ hb =>
    have hrow {a : Action} : RowStep app s a _ k row := rowStep_update h rfl
      (.inr ⟨_, _, rfl, rfl, hb, p.config.port_ok⟩) fun _ => rfl
    exact hrow
  | deleted => exact .same (Store.get_of_deleteRecord h)

/-! ### One step keeps the rows sound -/

theorem SoundRow.later {first clock clock' : ℤ} {row : DemoRecord} (h : SoundRow app first clock row)
    (hle : clock ≤ clock') : SoundRow app first clock' row :=
  { h with times := ⟨h.times.1, h.times.2.1, h.times.2.2.trans hle⟩ }

theorem AppliedColumns.or {v p v' p' : Option ℤ} (h : AppliedColumns v p) (h' : AppliedColumns v' p') :
    AppliedColumns (v.or v') (p.or p') := by
  rcases h with ⟨rfl, rfl⟩ | ⟨v, p, rfl, rfl, hb, hp⟩
  · exact h'
  · exact .inr ⟨v, p, rfl, rfl, hb, hp⟩

theorem SoundRow.looped {first clock now : ℤ} {old : DemoRecord} (h : SoundRow app first clock old)
    (hle : clock ≤ now) (state : DemoState) (message : Text) {version port : Option ℤ}
    (hvp : AppliedColumns version port) (hready : state = .ready → port.isSome = true) :
    SoundRow app first now (old.withState state message version port now) where
  repository := h.repository
  pr := h.pr
  deliveryId := h.deliveryId
  commitSha := h.commitSha
  image := h.image
  present := h.present
  applied := hvp.or h.applied
  ready hstate := by
    obtain ⟨n, hn⟩ := Option.isSome_iff_exists.mp (hready hstate)
    rw [DemoRecord.withState, hn]
    rfl
  message := List.length_take_le _ _
  times := ⟨h.times.1, h.times.2.1.trans (h.times.2.2.trans hle), le_rfl⟩
  expiry := ⟨h.expiry.1, h.expiry.2.trans (add_le_add_left (h.times.2.2.trans hle) _)⟩

theorem SoundRow.deployed {first clock now : ℤ} {request : DeployRequest app.cm} (hash : Text)
    (hregistry : (app.authorizedImage request.repository).isPrefixOf (app.cm.lower request.image) = true)
    (hfirst : first ≤ now) (hle : clock ≤ now) {old : Option DemoRecord}
    (hold : ∀ r, old = some r → SoundRow app first clock r ∧ r.key = (request.repository, request.pr)) :
    SoundRow app first now (DemoRecord.deployOver request hash now old) := by
  have himage : ∀ image, some request.image = some image →
      imageRepository (app.cm.lower image) = some request.repository ∧
        (app.authorizedImage request.repository).isPrefixOf (app.cm.lower image) = true := by
    rintro image ⟨⟩
    exact ⟨request.image_ok, hregistry⟩
  have hsha : ∀ sha, some request.commitSha = some sha → isSha sha = true := by
    rintro sha ⟨⟩
    exact request.commitSha_ok
  have hmessage : "deployment accepted".toList.length ≤ 1000 := by decide
  have hlifetime : (0 : ℤ) ≤ demoLifetimeSeconds := by decide
  cases old with
  | none =>
    exact ⟨request.repository_ok, request.pr_ok, request.deliveryId_ok, hsha, himage, fun _ => ⟨rfl, rfl⟩,
      .inl ⟨rfl, rfl⟩, fun hc => (by cases hc), hmessage, ⟨hfirst, le_rfl, le_rfl⟩,
      ⟨le_add_of_nonneg_right hlifetime, le_rfl⟩⟩
  | some r =>
    obtain ⟨hr, hkey⟩ := hold r rfl
    have hrepo : r.repository = request.repository := (Prod.mk.inj hkey).1
    have hcreated : r.createdAt ≤ now := hr.times.2.1.trans (hr.times.2.2.trans hle)
    refine ⟨hr.repository, hr.pr, request.deliveryId_ok, hsha, ?_, fun _ => ⟨rfl, rfl⟩, hr.applied,
      fun hc => (by cases hc), hmessage, ⟨hr.times.1, hcreated, le_rfl⟩,
      ⟨hcreated.trans (le_add_of_nonneg_right hlifetime), le_rfl⟩⟩
    exact hrepo ▸ himage

theorem SoundRow.destroyed {first clock now : ℤ} (request : DestroyRequest) (hash : Text) (hfirst : first ≤ now)
    (hle : clock ≤ now) {old : Option DemoRecord} (hold : ∀ r, old = some r → SoundRow app first clock r) :
    SoundRow app first now
      (DemoRecord.destroyOver request.repository request.pr request.deliveryId hash now old) := by
  have hmessage : "deletion accepted".toList.length ≤ 1000 := by decide
  have hlifetime : (0 : ℤ) ≤ demoLifetimeSeconds := by decide
  cases old with
  | none =>
    exact ⟨request.repository_ok, request.pr_ok, request.deliveryId_ok, fun sha h => (by cases h),
      fun image h => (by cases h), fun h => (by cases h), .inl ⟨rfl, rfl⟩, fun h => (by cases h), hmessage,
      ⟨hfirst, le_rfl, le_rfl⟩,
      ⟨le_rfl, le_add_of_nonneg_right hlifetime⟩⟩
  | some r =>
    have hr := hold r rfl
    have hupdated : r.updatedAt ≤ now := hr.times.2.2.trans hle
    exact ⟨hr.repository, hr.pr, request.deliveryId_ok, hr.commitSha, hr.image, fun h => (by cases h), hr.applied,
      fun h => (by cases h), hmessage, ⟨hr.times.1, hr.times.2.1.trans hupdated, le_rfl⟩,
      ⟨hr.expiry.1, hr.expiry.2.trans (add_le_add_left hupdated _)⟩⟩

structure SoundRows (app : App) (first : ℤ) (s : System) : Prop where
  clock : first ≤ s.clock
  rows : ∀ k row, s.demos.get k = some row → SoundRow app first s.clock row

theorem SoundRows.step {first : ℤ} {s t : System} {es : List (Event app.cm)} {a : Action} (h : SoundRows app first s)
    (hs : Stepped app s a t es) (hc : clockForward s a) : SoundRows app first t := by
  have hclock := hs.clock_le hc
  refine ⟨h.clock.trans hclock, fun k row hrow => ?_⟩
  generalize ht : t.clock = clock at hclock
  have hfirst := h.clock.trans hclock
  cases ht ▸ hs.rowStep hrow with
  | same hold => exact (h.rows k row hold).later hclock
  | delivered p ha hadm hk =>
    subst hk
    have hkey : ∀ r, s.demos.get p.key = some r → SoundRow app first s.clock r ∧ r.key = p.key := fun r hr =>
      ⟨h.rows _ r hr, Table.get_key hr⟩
    cases p with
    | deploy request => exact .deployed _ (hadm.registry request rfl) hfirst hclock hkey
    | destroy request => exact .destroyed request _ hfirst hclock fun r hr => (hkey r hr).1
  | looped state message hold hvp hready => exact (h.rows k _ hold).looped hclock state message hvp hready

/-- In every state a run with a forward clock reaches the rows are sound. -/
theorem rows_sound {cluster : Cluster} {first : ℤ} {s : System} {h : List (Event app.cm)}
    (run : Run app.step (fun s _ a => clockForward s a) (System.initial cluster first) [] s h) :
    first ≤ s.clock ∧ ∀ row ∈ s.demos.rows, SoundRow app first s.clock row := by
  have hsound : SoundRows app first s := by
    refine run.invariant (I := fun s _ => SoundRows app first s) ⟨le_rfl, fun k row hr => by cases hr⟩ ?_
    intro s h a t es hi hp hs
    exact hi.step (stepped_of_step hs) hp
  exact ⟨hsound.clock, fun row hrow => hsound.rows _ row (Table.get_of_mem hrow)⟩

/-- A demo that is deployed, becomes ready and is to be removed again. -/
def rowActions : List Action := deployAction "delivery-1" 100 :: applyActions 110 ++ [destroyAction "delivery-3" 120]

theorem rows_sound_example : ∃ s : System, ∃ row ∈ s.demos.rows,
    row.port = some 8000 ∧ row.desiredPresent = false ∧ SoundRow exampleApp 0 s.clock row := by
  have hb : (executeIf exampleApp.step (fun s _ a => decide (clockForward s a)) rowActions
      (System.initial (fun _ _ => none) 0) []).any (fun p => p.1.demos.rows.any fun row =>
        decide (row.port = some 8000) && !row.desiredPresent) = true := by
    decide +kernel
  simp only [Option.any_eq_true, List.any_eq_true, Bool.and_eq_true, decide_eq_true_eq, Bool.not_eq_true'] at hb
  obtain ⟨⟨s, h⟩, hr, row, hrow, hport, hd⟩ := hb
  have run : Run exampleApp.step (fun s _ a => clockForward s a) (System.initial (fun _ _ => none) 0) [] s h :=
    Run.of_executeIf rowActions (fun _ _ _ _ ht => of_decide_eq_true ht) .start hr
  exact ⟨s, row, hrow, hport, hd, (rows_sound run).2 row hrow⟩

end DemoController
