import DemoController.Ownership
import DemoController.Rows
import DemoController.WorkflowRun

/-!
# Waiting for a demo (`poll` of `demo_api.py`)

The job asks for the status of its demo until the answer is one it knows to be final. It
looks for the state anywhere in the answer, so what it reads depends on the whole JSON
text that the controller writes.
-/

namespace DemoController

open Lib

abbrev Fields := List (Text × Json)

/-! ### Reading an answer -/

section

variable (cm : CaseMapping) (floatText : Text → Text) (names : List Text)

/-- `str(value)` of a scalar; `floatText` is `str` of the float a number is read as. -/
def scalarText : Json → Option Text
  | .bool b => some (if b then "True".toList else "False".toList)
  | .int n => some (decimal n)
  | .number t => some (floatText t)
  | .str t => some t
  | _ => none

/-- The first scalar among the fields that goes by one of the names. -/
def ownValue (fields : Fields) : Option Text :=
  fields.findSome? fun f => if names.contains (cm.lower f.1) then scalarText floatText f.2 else none

mutual

def findValue : Json → Text
  | .obj fields => (ownValue cm floatText names fields).getD (findInFields fields)
  | .arr items => findInItems items
  | _ => []

def findInItems : List Json → Text
  | [] => []
  | item :: items => if findValue item = [] then findInItems items else findValue item

def findInFields : Fields → Text
  | [] => []
  | (_, value) :: fields => if findValue value = [] then findInFields fields else findValue value

end

end

def stateNames : List Text := ["state".toList, "status".toList, "phase".toList]

def messageNames : List Text := ["error".toList, "message".toList, "detail".toList]

def stateOf (cm : CaseMapping) (floatText : Text → Text) (response : Fields) : Text :=
  cm.lower (strip isSpace (findValue cm floatText stateNames (.obj response)))

def terminalSuccess : List Text :=
  ["ready".toList, "deployed".toList, "succeeded".toList, "success".toList, "deleted".toList, "destroyed".toList]

def terminalFailure : List Text := ["failed".toList, "error".toList, "rejected".toList, "expired".toList]

structure ApiError where
  message : Text
  status : Option ℕ := none

/-- What ends a request: the error that `main` handles, or an exception that escapes it. -/
inductive RequestError where
  | api (error : ApiError)
  | escaped (error : PyError)

def RequestError.status : RequestError → Option ℕ
  | .api error => error.status
  | .escaped _ => none

/-- How a request fails without an answer: what `urlopen` raises while it connects and sends
is a `URLError`, what it and `read` raise while the answer comes in is not. -/
inductive Failure where
  | urlError (reason : Text)
  | raised (error : PyError)

/-- What `urlopen` makes of a request. -/
inductive HttpAnswer where
  | response (code : ℕ) (body : Bytes)
  | failed (failure : Failure)

/-- What `json.loads` makes of the bytes of an answer. -/
inductive Loaded where
  | value (v : Json)
  | decodeError
  /-- another `ValueError`: no Unicode text, or an integer with too many digits -/
  | raised (error : PyError)

/-- `json.loads(body)`. `unread` is its outcome where the body is not the UTF-8 text of a
value that `loads` has: it looks for other encodings too, and reads lone surrogates. -/
def loadsBody (unread : Loaded) (body : Bytes) : Loaded :=
  match (decode body).bind loads with
  | some v => .value v
  | none => unread

/-- The end of `request`; `label` is the method and the target. -/
def readAnswer (unread : Loaded) (label : Text) : HttpAnswer → Except RequestError Fields
  | .failed (.urlError reason) => .error (.api ⟨label ++ " failed: ".toList ++ reason, none⟩)
  | .failed (.raised error) => .error (.escaped error)
  | .response code body =>
    if code < 200 ∨ 300 ≤ code then
      .error (.api ⟨label ++ " returned HTTP ".toList ++ decimal code ++ ": ".toList ++
        (decodeReplace body).take 2000, some code⟩)
    else if body = [] then .ok []
    else match loadsBody unread body with
      | .value (.obj fields) => .ok fields
      | .value _ => .error (.api ⟨label ++ " returned a non-object JSON response".toList, none⟩)
      | .decodeError => .error (.api ⟨label ++ " returned invalid JSON".toList, none⟩)
      | .raised error => .error (.escaped error)

inductive Polled where
  | again (last : Fields)
  | finished (result : Except RequestError Fields)

def destroyedResult : Fields :=
  [("state".toList, .str "destroyed".toList), ("message".toList, .str "Demo resources no longer exist".toList)]

/-- One turn of the loop of `poll`. -/
def pollTurn (cm : CaseMapping) (floatText : Text → Text) (desiredAbsence : Bool) :
    Except RequestError Fields → Polled
  | .error error =>
    if desiredAbsence = true ∧ error.status = some 404 then .finished (.ok destroyedResult)
    else .finished (.error error)
  | .ok last =>
    let state := stateOf cm floatText last
    if terminalFailure.contains state then
      let message := findValue cm floatText messageNames (.obj last)
      .finished (.error (.api
        ⟨if message = [] then "Controller reported terminal state ".toList ++ state else message, none⟩))
    else if terminalSuccess.contains state &&
        (!desiredAbsence || ["deleted".toList, "destroyed".toList].contains state) then
      .finished (.ok last)
    else .again last

/-! ### What the controller answers -/

def stateText : DemoState → Text
  | .pending => "pending".toList
  | .reconciling => "reconciling".toList
  | .ready => "ready".toList
  | .failed => "failed".toList
  | .deleting => "deleting".toList

def textOrNull : Option Text → Json
  | none => .null
  | some t => .str t

def intOrNull : Option ℤ → Json
  | none => .null
  | some n => .int n

def DemoStatus.fields (d : DemoStatus) : Fields :=
  [("repository".toList, .str d.repository), ("pr".toList, .int d.pr), ("commit_sha".toList, textOrNull d.commitSha),
    ("image".toList, textOrNull d.image), ("hostname".toList, .str d.hostname),
    ("state".toList, .str (stateText d.state)), ("vault_version".toList, intOrNull d.vaultVersion),
    ("message".toList, .str d.message), ("updated_at".toList, .int d.updatedAt)]

/-- The answer as it goes over HTTP. -/
def Response.answer : Response → HttpAnswer
  | .rejected code detail => .response code (encode (jsonText responseChar (.obj [("detail".toList, .str detail)])))
  | .unhandled _ => .response 500 (encode "Internal Server Error".toList)
  | .answered code demo => .response code (encode (jsonText responseChar (.obj demo.fields)))

/-- A text that `str.lower` leaves alone. -/
def isLowerText (t : Text) : Bool := t.all fun c => c.toNat < 128 && !c.isUpper

theorem lower_lowerText (cm : CaseMapping) {t : Text} (h : isLowerText t = true) : cm.lower t = t := by
  refine lower_of_ascii cm fun c hc => ?_
  have hchar := List.all_eq_true.mp h c hc
  rw [Bool.and_eq_true, decide_eq_true_eq, Bool.not_eq_true'] at hchar
  exact hchar

theorem ownValue_skip {cm : CaseMapping} {floatText : Text → Text} {names : List Text} {name : Text}
    {value : Json} {fields : Fields} (hf : isLowerText name = true) (hn : names.contains name = false) :
    ownValue cm floatText names ((name, value) :: fields) = ownValue cm floatText names fields := by
  rw [ownValue, List.findSome?_cons, lower_lowerText cm hf, if_neg (by rw [hn]; exact Bool.false_ne_true)]
  rfl

theorem ownValue_hit {cm : CaseMapping} {floatText : Text → Text} {names : List Text} {name : Text}
    {value : Json} {fields : Fields} {t : Text} (hf : isLowerText name = true) (hn : names.contains name = true)
    (ht : scalarText floatText value = some t) : ownValue cm floatText names ((name, value) :: fields) = some t := by
  rw [ownValue, List.findSome?_cons, lower_lowerText cm hf, if_pos hn, ht]

theorem stateText_plain (state : DemoState) :
    isLowerText (stateText state) = true ∧ strip isSpace (stateText state) = stateText state := by
  cases state with
  | pending => decide
  | reconciling => decide
  | ready => decide
  | failed => decide
  | deleting => decide

/-- The client finds the state of the demo in the answer. -/
theorem stateOf_fields (cm : CaseMapping) (floatText : Text → Text) (d : DemoStatus) :
    stateOf cm floatText d.fields = stateText d.state := by
  have hown : ownValue cm floatText stateNames d.fields = some (stateText d.state) := by
    rw [DemoStatus.fields]
    refine (ownValue_skip (by decide) (by decide)).trans ?_
    refine (ownValue_skip (by decide) (by decide)).trans ?_
    refine (ownValue_skip (by decide) (by decide)).trans ?_
    refine (ownValue_skip (by decide) (by decide)).trans ?_
    refine (ownValue_skip (by decide) (by decide)).trans ?_
    exact ownValue_hit (by decide) (by decide) rfl
  rw [stateOf, findValue, hown, Option.getD_some, (stateText_plain d.state).2]
  exact lower_lowerText cm (stateText_plain d.state).1

/-- A status answer is a success only for a deployment, of a demo that is ready. -/
theorem pollTurn_fields {cm : CaseMapping} {floatText : Text → Text} {desiredAbsence : Bool} {d : DemoStatus}
    {result : Fields} (h : pollTurn cm floatText desiredAbsence (.ok d.fields) = .finished (.ok result)) :
    desiredAbsence = false ∧ d.state = .ready ∧ result = d.fields := by
  rw [pollTurn, stateOf_fields] at h
  dsimp only at h
  split at h
  · cases h
  · split at h
    · next hstate =>
      have hready : ∀ state : DemoState, terminalSuccess.contains (stateText state) = true → state = .ready ∧
          ["deleted".toList, "destroyed".toList].contains (stateText state) = false := by
        intro state
        cases state with
        | pending => decide
        | reconciling => decide
        | ready => decide
        | failed => decide
        | deleting => decide
      obtain ⟨hsuccess, habsence⟩ := Bool.and_eq_true_iff.mp hstate
      obtain ⟨hd, hnot⟩ := hready _ hsuccess
      rw [hnot, Bool.or_false, Bool.not_eq_true'] at habsence
      cases h
      exact ⟨habsence, hd, rfl⟩
    · cases h

/-! ### The answer to a status request -/

/-- What a status request for the key can be answered. -/
inductive StatusAnswer (app : App) (s : Store) (k : Key) : Response → Prop
  | refused {code : ℕ} {detail : Text} : 400 ≤ code → code ≠ 404 → StatusAnswer app s k (.rejected code detail)
  | raised {error : Text} : StatusAnswer app s k (.unhandled error)
  | absent {detail : Text} : s.demos.get k = none → StatusAnswer app s k (.rejected 404 detail)
  | present {row : DemoRecord} : s.demos.get k = some row →
      StatusAnswer app s k (.answered 200 (Store.status app.cm app.settings.hostnameSuffix row))

section

variable {app : App}

theorem bodyLimit_answer {req : HttpRequest} {r : Response} (h : app.bodyLimit req = some r) (s : Store) (k : Key) :
    StatusAnswer app s k r := by
  unfold App.bodyLimit at h
  dsimp only at h
  repeat' split at h
  all_goals cases h <;> exact .refused (by decide) (by decide)

theorem verify_answer {req : HttpRequest} {now : ℤ} {r : Response} (h : app.verify req now = .error r) (s : Store)
    (k : Key) : StatusAnswer app s k r := by
  unfold App.verify at h
  dsimp only at h
  repeat' split at h
  all_goals cases h
  all_goals first
    | exact .raised
    | exact .refused (by decide) (by decide)

theorem authenticate_answer {t : ApiState} {req : HttpRequest} {now : ℤ} {r : Response}
    (h : (app.authenticate t req now).2 = .error r) (s : Store) (k : Key) : StatusAnswer app s k r := by
  unfold App.authenticate at h
  split at h
  · next e hv =>
    cases h
    exact verify_answer hv s k
  · unfold App.checkUse at h
    dsimp only at h
    repeat' split at h
    all_goals cases h <;> exact .refused (by decide) (by decide)

theorem serve_status {s : ApiState} {owner name pr : Text} {n : ℤ} (hpr : app.pd.laxInt (.str pr) = some n)
    (req : HttpRequest) (now later : ℤ) :
    StatusAnswer app s.store (app.cm.lower (owner ++ "/".toList ++ name), n)
      (app.serve s (.demoStatus owner name pr) req now later).2.1 := by
  unfold App.serve
  split
  · next r hr => exact bodyLimit_answer hr ..
  · have hdemos := app.authenticate_demos s req now
    dsimp only
    split
    · next r hr => exact authenticate_answer hr ..
    · next repository hrepo =>
      simp only [App.handle, App.demoStatus, hpr]
      split
      · exact .refused (by decide) (by decide)
      · split
        · exact .raised
        · rw [hdemos]
          split
          · next hnone => exact .absent hnone
          · next row hrow => exact .present hrow

/-- A row that the API can render. -/
theorem status_plain {first clock : ℤ} {row : DemoRecord} (h : SoundRow app first clock row) (hfirst : 0 ≤ first)
    (hclock : clock < 2 ^ 63) :
    (Json.obj (Store.status app.cm app.settings.hostnameSuffix row).fields).isPlain = true := by
  obtain ⟨hlow, hhigh⟩ := h.pr
  obtain ⟨hcreated, hordered, hlast⟩ := h.times
  have hpr : (decimal row.pr.natAbs).length ≤ 4300 := decimal_short (by omega)
  have hupdated : (decimal row.updatedAt.natAbs).length ≤ 4300 := decimal_short (by omega)
  have hversion : (intOrNull row.vaultVersion).isPlain = true := by
    rcases h.applied with ⟨hv, -⟩ | ⟨v, -, hv, -, hb, -⟩
    · rw [hv]
      rfl
    · rw [Store.bindable, Option.all_some, Bool.and_eq_true, decide_eq_true_eq, decide_eq_true_eq] at hb
      rw [hv, intOrNull, Json.isPlain, decide_eq_true_eq]
      exact decimal_short hb
  have htext (t : Option Text) : (textOrNull t).isPlain = true := by
    cases t with
    | none => rfl
    | some t => rfl
  rw [isPlain_obj]
  refine ⟨show ["repository".toList, "pr".toList, "commit_sha".toList, "image".toList, "hostname".toList,
    "state".toList, "vault_version".toList, "message".toList, "updated_at".toList].Nodup by decide, ?_⟩
  simp only [DemoStatus.fields, Store.status, List.forall_mem_cons, List.not_mem_nil, Json.isPlain,
    decide_eq_true hpr, decide_eq_true hupdated, hversion, htext]
  tauto

theorem readAnswer_answered (unread : Loaded) (label : Text) {code : ℕ} (hcode : 200 ≤ code ∧ code < 300)
    {d : DemoStatus} (h : (Json.obj d.fields).isPlain = true) :
    readAnswer unread label (Response.answered code d).answer = .ok d.fields := by
  have hne : encode (jsonText responseChar (.obj d.fields)) ≠ [] := by
    intro hnil
    obtain ⟨c, u, hopens, -⟩ := opens_jsonText responseChar (Json.readable_of_isPlain h)
    have htext : jsonText responseChar (.obj d.fields) = [] := encode_injective hnil
    rw [hopens] at htext
    cases htext
  have hloaded : loadsBody unread (encode (jsonText responseChar (.obj d.fields))) = .value (.obj d.fields) := by
    rw [loadsBody, decode_eq_some_iff.mpr rfl, Option.bind_some, (loads_readable (Json.readable_of_isPlain h)).1]
  rw [Response.answer, readAnswer, if_neg (by omega), if_neg hne, hloaded]

theorem readAnswer_refused (unread : Loaded) (label : Text) {code : ℕ} (hcode : 400 ≤ code) (body : Bytes) :
    ∃ message, readAnswer unread label (.response code body) = .error (.api ⟨message, some code⟩) := by
  rw [readAnswer, if_pos (by omega)]
  exact ⟨_, rfl⟩

/-- A turn ends with success when the demo is gone, for a removal, and when it is ready,
for a deployment. -/
theorem StatusAnswer.success {s : Store} {k : Key} {r : Response} (h : StatusAnswer app s k r)
    (plain : ∀ row, s.demos.get k = some row →
      (Json.obj (Store.status app.cm app.settings.hostnameSuffix row).fields).isPlain = true)
    {cm : CaseMapping} {floatText : Text → Text} {desiredAbsence : Bool} {unread : Loaded} {label : Text}
    {result : Fields}
    (hturn : pollTurn cm floatText desiredAbsence (readAnswer unread label r.answer) = .finished (.ok result)) :
    desiredAbsence = true ∧ s.demos.get k = none ∧ result = destroyedResult ∨
      desiredAbsence = false ∧ ∃ row, s.demos.get k = some row ∧ row.state = .ready ∧
        result = (Store.status app.cm app.settings.hostnameSuffix row).fields := by
  cases h with
  | refused hcode hne =>
    obtain ⟨message, he⟩ := readAnswer_refused unread label hcode _
    rw [Response.answer, he, pollTurn, if_neg fun hc => hne (Option.some.inj hc.2)] at hturn
    cases hturn
  | raised =>
    obtain ⟨message, he⟩ := readAnswer_refused unread label (show 400 ≤ 500 by decide) _
    rw [Response.answer, he, pollTurn, if_neg fun hc => absurd (Option.some.inj hc.2) (by decide)] at hturn
    cases hturn
  | absent hnone =>
    obtain ⟨message, he⟩ := readAnswer_refused unread label (show 400 ≤ 404 by decide) _
    rw [Response.answer, he, pollTurn] at hturn
    split at hturn
    · next hc =>
      cases hturn
      exact .inl ⟨hc.1, hnone, rfl⟩
    · cases hturn
  | @present row hrow =>
    rw [readAnswer_answered unread label (by decide) (plain row hrow)] at hturn
    obtain ⟨ha, hstate, hresult⟩ := pollTurn_fields hturn
    exact .inr ⟨ha, row, hrow, hstate, hresult⟩

end

end DemoController
