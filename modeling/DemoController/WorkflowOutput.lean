import DemoController.WorkflowJob

/-!
# What a job hands on (`write_github_output`)

The later steps of a workflow read the outputs of the job line by line. The message and the
hostname in them come from the controller, so they are put on one line first.
-/

namespace DemoController

open Lib

def urlNames : List Text := ["demo_url".toList, "url".toList]

def hostnameNames : List Text := ["hostname".toList]

section

variable (cm : CaseMapping) (floatText : Text → Text) (result : Fields)

def demoUrl : Text :=
  let url := findValue cm floatText urlNames (.obj result)
  if url = [] then
    let host := findValue cm floatText hostnameNames (.obj result)
    if host = [] then [] else "https://".toList ++ host
  else url

/-- `values` of `write_github_output`. -/
def outputValues : List (Text × Text) :=
  [("state".toList, stateOf cm floatText result), ("demo_url".toList, demoUrl cm floatText result),
    ("message".toList, findValue cm floatText messageNames (.obj result))]

end

def oneLine (value : Text) : Text := value.map fun c => if c = '\r' ∨ c = '\n' then ' ' else c

def outputLine (output : Text × Text) : Text := output.1 ++ '=' :: oneLine output.2

/-- What `write_github_output` appends to the file. -/
def githubOutput (cm : CaseMapping) (floatText : Text → Text) (result : Fields) : Text :=
  (outputValues cm floatText result).flatMap fun output => outputLine output ++ ['\n']

/-- What `main` writes and hands on, unless an exception escapes it. -/
def mainResult : Except RequestError Fields → Option Fields
  | .ok result => some result
  | .error (.api error) => some [("state".toList, .str "failed".toList), ("message".toList, .str error.message)]
  | .error (.escaped _) => none

/-- What `main` appends to the file. -/
def mainOutput (cm : CaseMapping) (floatText : Text → Text) (outcome : Except RequestError Fields) : Text :=
  ((mainResult outcome).map (githubOutput cm floatText)).getD []

/-- The outputs in a file: its lines, each cut at its first `=`. -/
def readOutputs (file : Text) : List (Text × Text) := (file.splitOn '\n').filterMap (cut '=')

/-! ### One line for each output -/

theorem oneLine_plain (value : Text) : '\r' ∉ oneLine value ∧ '\n' ∉ oneLine value := by
  have hchar : ∀ c ∈ oneLine value, c ≠ '\r' ∧ c ≠ '\n' := by
    intro c hc
    obtain ⟨d, -, rfl⟩ := List.mem_map.mp hc
    split
    · decide
    · next hd => exact not_or.mp hd
  exact ⟨fun h => (hchar _ h).1 rfl, fun h => (hchar _ h).2 rfl⟩

theorem splitOn_lines {lines : List Text} (h : ∀ line ∈ lines, '\n' ∉ line) :
    (lines.flatMap fun line => line ++ ['\n']).splitOn '\n' = lines ++ [[]] := by
  induction lines with
  | nil => rfl
  | cons line lines ih =>
    obtain ⟨hline, hlines⟩ := List.forall_mem_cons.mp h
    rw [List.flatMap_cons, List.append_assoc, List.singleton_append,
      List.splitOn_append_cons_self_of_not_mem hline, ih hlines]
    rfl

theorem outputValues_names (cm : CaseMapping) (floatText : Text → Text) (result : Fields) :
    ∀ output ∈ outputValues cm floatText result, '=' ∉ output.1 ∧ '\n' ∉ output.1 := by
  simp only [outputValues, List.forall_mem_cons]
  exact ⟨by decide, by decide, by decide, fun _ h => absurd h List.not_mem_nil⟩

/-- Whatever the result holds, the file reads back as the three outputs. -/
theorem readOutputs_githubOutput (cm : CaseMapping) (floatText : Text → Text) (result : Fields) :
    readOutputs (githubOutput cm floatText result) =
      (outputValues cm floatText result).map fun output => (output.1, oneLine output.2) := by
  have hnames := outputValues_names cm floatText result
  rw [githubOutput]
  generalize outputValues cm floatText result = outputs at hnames
  have hlines : ∀ line ∈ outputs.map outputLine, '\n' ∉ line := by
    intro line hline
    obtain ⟨output, houtput, rfl⟩ := List.mem_map.mp hline
    have hvalue := (oneLine_plain output.2).2
    simp only [outputLine, List.mem_append, List.mem_cons, not_or]
    exact ⟨(hnames output houtput).2, by decide, hvalue⟩
  have hcut : ∀ output ∈ outputs, cut '=' (outputLine output) = some (output.1, oneLine output.2) :=
    fun output houtput => cut_append (hnames output houtput).1 _
  have hsplit := splitOn_lines hlines
  rw [List.flatMap_map] at hsplit
  have hread : ∀ outputs' : List (Text × Text), (∀ output ∈ outputs', output ∈ outputs) →
      (outputs'.map outputLine).filterMap (cut '=') = outputs'.map fun output => (output.1, oneLine output.2) := by
    intro outputs' hall
    induction outputs' with
    | nil => rfl
    | cons output outputs' ih =>
      obtain ⟨houtput, hrest⟩ := List.forall_mem_cons.mp hall
      rw [List.map_cons, List.filterMap_cons, hcut output houtput, ih hrest]
      rfl
  rw [readOutputs, hsplit, List.filterMap_append, hread outputs fun _ h => h]
  exact List.append_nil _

/-! ### The outputs of a job -/

theorem ownValue_absent {cm : CaseMapping} {floatText : Text → Text} {names : List Text} {fields : Fields}
    (h : ∀ name ∈ fields.map Prod.fst, isLowerText name = true ∧ names.contains name = false) :
    ownValue cm floatText names fields = none := by
  induction fields with
  | nil => rfl
  | cons f fields ih =>
    rw [List.map_cons, List.forall_mem_cons] at h
    exact (ownValue_skip h.1.1 h.1.2).trans (ih h.2)

def Json.isLeaf : Json → Bool
  | .obj _ => false
  | .arr _ => false
  | _ => true

theorem findInFields_leaves {cm : CaseMapping} {floatText : Text → Text} {names : List Text} {fields : Fields}
    (h : ∀ f ∈ fields, f.2.isLeaf = true) : findInFields cm floatText names fields = [] := by
  induction fields with
  | nil => rfl
  | cons f fields ih =>
    obtain ⟨name, value⟩ := f
    obtain ⟨hvalue, hfields⟩ := List.forall_mem_cons.mp h
    have hnone : findValue cm floatText names value = [] := by
      cases value with
      | obj fields => cases hvalue
      | arr items => cases hvalue
      | null | bool b | int n | number t | str t => simp only [findValue]
    rw [findInFields, if_pos hnone]
    exact ih hfields

theorem findValue_absent {cm : CaseMapping} {floatText : Text → Text} {names : List Text} {fields : Fields}
    (hnames : ∀ name ∈ fields.map Prod.fst, isLowerText name = true ∧ names.contains name = false)
    (hleaves : ∀ f ∈ fields, f.2.isLeaf = true) : findValue cm floatText names (.obj fields) = [] := by
  rw [findValue, ownValue_absent hnames, Option.getD_none, findInFields_leaves hleaves]

theorem findValue_present {cm : CaseMapping} {floatText : Text → Text} {names : List Text} {before after : Fields}
    {name t : Text} (hbefore : ∀ n ∈ before.map Prod.fst, isLowerText n = true ∧ names.contains n = false)
    (hname : isLowerText name = true ∧ names.contains name = true) :
    findValue cm floatText names (.obj (before ++ (name, .str t) :: after)) = t := by
  have hown : ownValue cm floatText names (before ++ (name, .str t) :: after) = some t := by
    induction before with
    | nil => exact ownValue_hit hname.1 hname.2 rfl
    | cons f before ih =>
      rw [List.map_cons, List.forall_mem_cons] at hbefore
      exact (ownValue_skip hbefore.1.1 hbefore.1.2).trans (ih hbefore.2)
  rw [findValue, hown, Option.getD_some]

section

variable (cm : CaseMapping) (floatText : Text → Text)

theorem leaves_status (d : DemoStatus) : ∀ f ∈ d.fields, f.2.isLeaf = true := by
  have htext (t : Option Text) : (textOrNull t).isLeaf = true := by
    cases t with
    | none => rfl
    | some t => rfl
  have hint (n : Option ℤ) : (intOrNull n).isLeaf = true := by
    cases n with
    | none => rfl
    | some n => rfl
  simp only [DemoStatus.fields, List.forall_mem_cons, htext, hint]
  exact ⟨rfl, rfl, trivial, trivial, rfl, rfl, trivial, rfl, rfl, fun _ h => absurd h List.not_mem_nil⟩

theorem outputValues_status (d : DemoStatus) (hhost : d.hostname ≠ []) : outputValues cm floatText d.fields =
    [("state".toList, stateText d.state), ("demo_url".toList, "https://".toList ++ d.hostname),
      ("message".toList, d.message)] := by
  have hurl : findValue cm floatText urlNames (.obj d.fields) = [] := by
    refine findValue_absent ?_ (leaves_status d)
    change ∀ name ∈ ["repository".toList, "pr".toList, "commit_sha".toList, "image".toList, "hostname".toList,
      "state".toList, "vault_version".toList, "message".toList, "updated_at".toList], _
    decide
  have hhostname : findValue cm floatText hostnameNames (.obj d.fields) = d.hostname := by
    refine @findValue_present cm floatText hostnameNames (d.fields.take 4) (d.fields.drop 5) "hostname".toList _ ?_ ?_
    · change ∀ name ∈ ["repository".toList, "pr".toList, "commit_sha".toList, "image".toList], _
      decide
    · decide
  have hmessage : findValue cm floatText messageNames (.obj d.fields) = d.message := by
    refine @findValue_present cm floatText messageNames (d.fields.take 7) (d.fields.drop 8) "message".toList _ ?_ ?_
    · change ∀ name ∈ ["repository".toList, "pr".toList, "commit_sha".toList, "image".toList, "hostname".toList,
        "state".toList, "vault_version".toList], _
      decide
    · decide
  rw [outputValues, stateOf_fields, demoUrl, hurl, hmessage, if_pos rfl, hhostname]
  dsimp only
  rw [if_neg hhost]

/-- A result with a state of its own and a message, and no hostname. -/
theorem outputValues_short {state message : Text} (hlower : isLowerText state = true)
    (hstrip : strip isSpace state = state) :
    outputValues cm floatText [("state".toList, .str state), ("message".toList, .str message)] =
      [("state".toList, state), ("demo_url".toList, []), ("message".toList, message)] := by
  have hleaves : ∀ f ∈ ([("state".toList, .str state), ("message".toList, .str message)] : Fields),
      f.2.isLeaf = true := by
    simp only [List.forall_mem_cons]
    exact ⟨rfl, rfl, fun _ h => absurd h List.not_mem_nil⟩
  have hstate : findValue cm floatText stateNames
      (.obj [("state".toList, .str state), ("message".toList, .str message)]) = state :=
    @findValue_present cm floatText stateNames [] _ _ _ (fun _ h => absurd h List.not_mem_nil) (by decide)
  have hmessage : findValue cm floatText messageNames
      (.obj [("state".toList, .str state), ("message".toList, .str message)]) = message := by
    refine @findValue_present cm floatText messageNames [("state".toList, .str state)] [] "message".toList _ ?_
      (by decide)
    change ∀ name ∈ ["state".toList], _
    decide
  have habsent (names : List Text) (hnames : ∀ name ∈ ["state".toList, "message".toList],
      isLowerText name = true ∧ names.contains name = false) :
      findValue cm floatText names (.obj [("state".toList, .str state), ("message".toList, .str message)]) = [] :=
    findValue_absent hnames hleaves
  rw [outputValues, stateOf, hstate, hstrip, lower_lowerText cm hlower, demoUrl, habsent urlNames (by decide),
    habsent hostnameNames (by decide), hmessage, if_pos rfl]
  rfl

end

section

variable {app : App} {args : WorkflowArgs} {key : Text} {floatText : Text → Text} {p : Payload app.cm}

theorem readOutputs_mainOutput {cm : CaseMapping} (outcome : Except RequestError Fields) {result : Fields}
    (h : mainResult outcome = some result) : readOutputs (mainOutput cm floatText outcome) =
      (outputValues cm floatText result).map fun output => (output.1, oneLine output.2) := by
  rw [mainOutput, h]
  exact readOutputs_githubOutput ..

theorem getReadyByHostname_of_ready {s : System} {first : ℤ} {k : Key} {row : DemoRecord}
    (sound : SoundRows app first s) (hrow : s.demos.get k = some row) (hstate : row.state = .ready)
    (hpresent : row.desiredPresent = true) : ∃ r, r.routable = true ∧
      hostname app.cm r.repository r.pr app.settings.hostnameSuffix =
        hostname app.cm k.1 k.2 app.settings.hostnameSuffix ∧
      Store.getReadyByHostname app.cm app.settings.hostnameSuffix s.api.store
        (hostname app.cm k.1 k.2 app.settings.hostnameSuffix) = some r := by
  have hkey : row.key = k := Table.get_key hrow
  have hroutable : row.routable = true := by
    refine routable_iff.mpr ⟨hpresent, Option.isSome_iff_exists.mp ((sound.rows k row hrow).ready hstate), ?_⟩
    rw [hstate]
    decide
  have hmem : row ∈ s.api.store.demos.rows.filter DemoRecord.routable :=
    List.mem_filter.mpr ⟨Table.mem_of_get hrow, hroutable⟩
  cases hfound : Store.getReadyByHostname app.cm app.settings.hostnameSuffix s.api.store
      (hostname app.cm k.1 k.2 app.settings.hostnameSuffix) with
  | none =>
    have hnone := List.find?_eq_none.mp hfound row hmem
    rw [decide_eq_true_eq, ← hkey] at hnone
    exact absurd rfl hnone
  | some r =>
    have hhost := List.find?_some hfound
    rw [decide_eq_true_eq] at hhost
    exact ⟨r, (List.mem_filter.mp (List.mem_of_find?_eq_some hfound)).2, hhost, rfl⟩

/-- What the later steps read of a job that ends: nothing where an exception escapes, and
otherwise one of three. A demo of its own URL is served unless it is being removed again. -/
theorem job_outputs (setup : JobSetup app args key p) {cluster : Cluster} {first : ℤ} (hfirst : 0 ≤ first)
    {s t : System} {j : Job} {outcome : Except RequestError Fields} {a : JobAction} {h es : List (Event app.cm)}
    (run : Run (app.jobStep args key floatText) (fun s _ a => jobForward s a) (System.initial cluster first, .posting)
      [] (s, j) h) (hclock : s.clock < 2 ^ 63) (hgoing : ∀ result, j ≠ .ended result)
    (hs : app.jobStep args key floatText (s, j) a = some ((t, .ended outcome), es)) :
    (∃ error, outcome = .error (.escaped error) ∧ mainOutput app.cm floatText outcome = []) ∨
    (∃ error, outcome = .error (.api error) ∧ readOutputs (mainOutput app.cm floatText outcome) =
      [("state".toList, "failed".toList), ("demo_url".toList, []), ("message".toList, oneLine error.message)]) ∨
    (args.desiredAbsence = true ∧ t.demos.get p.key = none ∧
      readOutputs (mainOutput app.cm floatText outcome) =
        [("state".toList, "destroyed".toList), ("demo_url".toList, []),
          ("message".toList, "Demo resources no longer exist".toList)]) ∨
    args.desiredAbsence = false ∧ ∃ row, t.demos.get p.key = some row ∧ row.state = .ready ∧
      readOutputs (mainOutput app.cm floatText outcome) =
        [("state".toList, "ready".toList),
          ("demo_url".toList,
            oneLine ("https://".toList ++ hostname app.cm p.key.1 p.key.2 app.settings.hostnameSuffix)),
          ("message".toList, oneLine row.message)] ∧
      (row.desiredPresent = true → ∃ r, r.routable = true ∧
        hostname app.cm r.repository r.pr app.settings.hostnameSuffix =
          hostname app.cm p.key.1 p.key.2 app.settings.hostnameSuffix ∧
        Store.getReadyByHostname app.cm app.settings.hostnameSuffix t.api.store
          (hostname app.cm p.key.1 p.key.2 app.settings.hostnameSuffix) = some r) := by
  cases outcome with
  | error error =>
    cases error with
    | escaped error => exact .inl ⟨error, rfl, rfl⟩
    | api error =>
      refine .inr (.inl ⟨error, rfl, ?_⟩)
      rw [readOutputs_mainOutput _ rfl, outputValues_short app.cm floatText (by decide) (by decide)]
      rfl
  | ok result =>
    refine .inr (.inr ?_)
    rw [readOutputs_mainOutput (.ok result) rfl]
    have hsound : SoundRows app first s := by
      have hcontroller := controller_run anyStep (fun _ _ _ _ _ _ => trivial) (fun _ _ _ hp => hp)
        (fun _ _ _ _ => trivial) run
      refine hcontroller.invariant (I := fun s _ => SoundRows app first s) ⟨le_rfl, fun k row hr => by cases hr⟩ ?_
      rintro s h a t es hi ⟨hc, -⟩ hs
      exact hi.step (stepped_of_step hs) hc
    have hstepped := jobStepped_of_step hs
    cases j with
    | posting =>
      generalize hjob : Job.ended (.ok result) = j' at hstepped
      cases hstepped with
      | controller => cases hjob
      | @delivered x _ _ _ answer label hx =>
        cases hread : readAnswer x.unread label answer with
        | error error =>
          rw [hread] at hjob
          cases hjob
        | ok fields =>
          rw [hread] at hjob
          cases hjob
    | ended result => exact absurd rfl (hgoing result)
    | polling deadline last =>
      obtain ⟨hdemos, -, -, ⟨habsence, hgone, rfl⟩ | ⟨habsence, row, hrow, hstate, rfl⟩⟩ :=
        success_of_poll setup hsound hfirst hclock hstepped
      · refine .inl ⟨habsence, hdemos ▸ hgone, ?_⟩
        rw [destroyedResult, outputValues_short app.cm floatText (by decide) (by decide)]
        decide
      · have hkey : row.key = p.key := Table.get_key hrow
        have hhost : (Store.status app.cm app.settings.hostnameSuffix row).hostname =
            hostname app.cm p.key.1 p.key.2 app.settings.hostnameSuffix := by
          rw [← hkey]
          rfl
        have hne : (Store.status app.cm app.settings.hostnameSuffix row).hostname ≠ [] := by
          rw [hhost, hostname]
          simp
        have hserved := getReadyByHostname_of_ready hsound hrow hstate
        have hready : oneLine (stateText row.state) = "ready".toList := by
          rw [hstate]
          decide
        refine .inr ⟨habsence, row, hdemos ▸ hrow, hstate, ?_, fun hpresent => ?_⟩
        · rw [outputValues_status app.cm floatText _ hne, hhost, ← hready]
          rfl
        · obtain ⟨r, hr, hrhost, hget⟩ := hserved hpresent
          refine ⟨r, hr, hrhost, ?_⟩
          rw [Store.getReadyByHostname, show t.api.store.demos = s.api.store.demos from hdemos]
          exact hget

end

theorem job_outputs_example : ∃ s t h es outcome row,
    Run (workflowApp.jobStep exampleArgs "repository-key".toList id) (fun s _ a => jobForward s a)
      (System.initial (fun _ _ => none) 0, .posting) [] s h ∧
    workflowApp.jobStep exampleArgs "repository-key".toList id s examplePoll = some ((t, .ended outcome), es) ∧
    readOutputs (mainOutput workflowApp.cm id outcome) =
      [("state".toList, "ready".toList),
        ("demo_url".toList, oneLine ("https://".toList ++
          hostname workflowApp.cm "canonical/example".toList 8 workflowApp.settings.hostnameSuffix)),
        ("message".toList, oneLine (DemoRecord.message row))] := by
  obtain ⟨s, t, deadline, last, result, h, es, hown, hclock, hs⟩ := deploymentActions_run
  have run : Run (workflowApp.jobStep exampleArgs "repository-key".toList id) (fun s _ a => jobForward s a)
      (System.initial (fun _ _ => none) 0, .posting) [] (s, .polling deadline last) h :=
    hown.mono fun _ _ _ hp => hp.1
  rcases job_outputs (exampleSetup exampleArgs_fits) le_rfl run hclock (fun _ hj => by cases hj) hs with
    ⟨error, he, -⟩ | ⟨error, he, -⟩ | ⟨habsence, -⟩ | ⟨-, row, -, -, houtputs, -⟩
  · cases he
  · cases he
  · cases habsence
  · exact ⟨_, t, h, es, _, row, run, hs, houtputs⟩

end DemoController
