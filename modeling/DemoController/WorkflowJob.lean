import DemoController.Attempts
import DemoController.Deliveries
import DemoController.WorkflowStatus

/-!
# A job and the controller

The job runs beside the controller: between its requests the controller takes any steps
of its own and serves anybody else, and a request or its answer can be lost. What a job
that succeeds says about the demo is said about the state its last answer came from.
-/

namespace DemoController

open Lib

/-! ### Runs of a job beside the controller -/

inductive Fate where
  | answered
  /-- the controller serves the request, but the client reads no answer -/
  | unanswered (failure : Failure)
  | undelivered (failure : Failure)

/-- How one request of the client fares; `unread` is what `json.loads` makes of an answer
that is not the UTF-8 text of a value. -/
structure ClientExchange where
  env : Surroundings
  added : List (Text × Text)
  fate : Fate
  unread : Loaded
  now : ℤ
  later : ℤ

/-- One request of the client and what it is answered, `none` for one that is no request
to the handlers of the API or that the client cannot send. -/
def App.exchange (app : App) (s : System) (call : ClientCall) (x : ClientExchange) :
    Option (System × List (Event app.cm) × HttpAnswer) :=
  match x.fate with
  | .undelivered failure => some (s, [], .failed failure)
  | .unanswered failure => (call.presented app.cm x.env x.added).bind fun req => (route req).bind fun endpoint =>
    (app.step s (.request endpoint req x.now x.later)).map fun r => (r.1, r.2, .failed failure)
  | .answered => (call.presented app.cm x.env x.added).bind fun req => (route req).bind fun endpoint =>
    (app.step s (.request endpoint req x.now x.later)).map fun r =>
      (r.1, r.2, (app.serve s.api endpoint req x.now x.later).2.1.answer)

/-- The method and the target in the texts of an `ApiError`. -/
def ClientCall.label (cm : CaseMapping) (env : Surroundings) (call : ClientCall) : Text :=
  cm.upper call.method ++ " ".toList ++ ((call.target? env).map ClientCall.requestTarget).getD []

/-- Where `main` is. -/
inductive Job where
  | posting
  | polling (deadline : ℤ) (last : Fields)
  | ended (result : Except RequestError Fields)

/-- `monotonic` is the reading of `time.monotonic()` at the head of the loop, and after the
delivery the one the deadline counts from. -/
inductive JobAction where
  | controller (a : Action)
  | deliver (x : ClientExchange) (monotonic : ℤ)
  | poll (x : ClientExchange) (monotonic : ℤ)

def timedOut (cm : CaseMapping) (floatText : Text → Text) (timeout : ℤ) (last : Fields) : ApiError where
  message := "Timed out after ".toList ++ decimal timeout ++ "s waiting for the demo; last state was ".toList ++
    if stateOf cm floatText last = [] then "unknown".toList else stateOf cm floatText last

def Polled.job (deadline : ℤ) : Polled → Job
  | .again last => .polling deadline last
  | .finished result => .ended result

/-- The job after the answer to its delivery. -/
def Job.delivered (deadline : ℤ) : Except RequestError Fields → Job
  | .ok _ => .polling deadline []
  | .error error => .ended (.error error)

section

variable (app : App) (args : WorkflowArgs) (key : Text) (floatText : Text → Text)

def App.jobStep (s : System × Job) : JobAction → Option ((System × Job) × List (Event app.cm))
  | .controller a => (app.step s.1 a).map fun r => ((r.1, s.2), r.2)
  | .deliver x monotonic =>
    match s.2 with
    | .posting => (app.exchange s.1 (args.delivery app.cm key) x).map fun r =>
      ((r.1, .delivered (monotonic + args.timeout)
        (readAnswer x.unread ((args.delivery app.cm key).label app.cm x.env) r.2.2)), r.2.1)
    | _ => none
  | .poll x monotonic =>
    match s.2 with
    | .polling deadline last =>
      if monotonic < deadline then
        (app.exchange s.1 (args.statusCall app.cm key) x).map fun r =>
          ((r.1, (pollTurn app.cm floatText args.desiredAbsence
            (readAnswer x.unread ((args.statusCall app.cm key).label app.cm x.env) r.2.2)).job deadline), r.2.1)
      else some ((s.1, .ended (.error (.api (timedOut app.cm floatText args.timeout last)))), [])
    | _ => none

end

/-- The clock of the controller does not go back. -/
def jobForward (s : System × Job) : JobAction → Prop
  | .controller a => clockForward s.1 a
  | .deliver x _ => s.1.clock ≤ x.later
  | .poll x _ => s.1.clock ≤ x.later

instance (s : System × Job) (a : JobAction) : Decidable (jobForward s a) :=
  match a with
  | .controller b => inferInstanceAs (Decidable (clockForward s.1 b))
  | .deliver x _ => inferInstanceAs (Decidable (s.1.clock ≤ x.later))
  | .poll x _ => inferInstanceAs (Decidable (s.1.clock ≤ x.later))

/-- An exchange is a request to the controller or nothing at all. -/
inductive Exchanged (app : App) (s : System) (call : ClientCall) (x : ClientExchange) :
    System → List (Event app.cm) → HttpAnswer → Prop
  | nothing (failure : Failure) : Exchanged app s call x s [] (.failed failure)
  | served {req : HttpRequest} {endpoint : Endpoint} {t : System} {es : List (Event app.cm)} {answer : HttpAnswer} :
      call.presented app.cm x.env x.added = some req → route req = some endpoint →
      app.step s (.request endpoint req x.now x.later) = some (t, es) →
      (∃ failure, answer = .failed failure) ∨ answer = (app.serve s.api endpoint req x.now x.later).2.1.answer →
      Exchanged app s call x t es answer

theorem exchanged {app : App} {s t : System} {call : ClientCall} {x : ClientExchange} {es : List (Event app.cm)}
    {answer : HttpAnswer} (h : app.exchange s call x = some (t, es, answer)) :
    Exchanged app s call x t es answer := by
  unfold App.exchange at h
  split at h
  · cases h
    exact .nothing _
  · obtain ⟨req, hreq, h⟩ := Option.bind_eq_some_iff.mp h
    obtain ⟨endpoint, hroute, h⟩ := Option.bind_eq_some_iff.mp h
    obtain ⟨⟨u, es'⟩, hs, he⟩ := Option.map_eq_some_iff.mp h
    cases he
    exact .served hreq hroute hs (.inl ⟨_, rfl⟩)
  · obtain ⟨req, hreq, h⟩ := Option.bind_eq_some_iff.mp h
    obtain ⟨endpoint, hroute, h⟩ := Option.bind_eq_some_iff.mp h
    obtain ⟨⟨u, es'⟩, hs, he⟩ := Option.map_eq_some_iff.mp h
    cases he
    exact .served hreq hroute hs (.inr rfl)

/-! ### What a step of the two can do -/

section

variable {app : App} {args : WorkflowArgs} {key : Text} {floatText : Text → Text}

inductive JobStepped (app : App) (args : WorkflowArgs) (key : Text) (floatText : Text → Text) (s : System) :
    Job → JobAction → System → Job → List (Event app.cm) → Prop
  | controller {j : Job} {a : Action} {t : System} {es : List (Event app.cm)} : app.step s a = some (t, es) →
      JobStepped app args key floatText s j (.controller a) t j es
  | delivered {x : ClientExchange} {monotonic : ℤ} {t : System} {es : List (Event app.cm)} {answer : HttpAnswer}
      (label : Text) : Exchanged app s (args.delivery app.cm key) x t es answer →
      JobStepped app args key floatText s .posting (.deliver x monotonic) t
        (.delivered (monotonic + args.timeout) (readAnswer x.unread label answer)) es
  | polled {x : ClientExchange} {monotonic deadline : ℤ} {last : Fields} {t : System} {es : List (Event app.cm)}
      {answer : HttpAnswer} (label : Text) : Exchanged app s (args.statusCall app.cm key) x t es answer →
      JobStepped app args key floatText s (.polling deadline last) (.poll x monotonic) t
        ((pollTurn app.cm floatText args.desiredAbsence (readAnswer x.unread label answer)).job deadline) es
  | timedOut {x : ClientExchange} {monotonic deadline : ℤ} {last : Fields} :
      JobStepped app args key floatText s (.polling deadline last) (.poll x monotonic) s
        (.ended (.error (.api (timedOut app.cm floatText args.timeout last)))) []

theorem jobStepped_of_step {s t : System} {j j' : Job} {a : JobAction} {es : List (Event app.cm)}
    (h : app.jobStep args key floatText (s, j) a = some ((t, j'), es)) :
    JobStepped app args key floatText s j a t j' es := by
  cases a with
  | controller a =>
    obtain ⟨⟨u, es'⟩, hs, he⟩ := Option.map_eq_some_iff.mp h
    cases he
    exact .controller hs
  | deliver x monotonic =>
    simp only [App.jobStep] at h
    split at h
    · obtain ⟨⟨u, es', answer⟩, hs, he⟩ := Option.map_eq_some_iff.mp h
      cases he
      exact .delivered _ (exchanged hs)
    · cases h
  | poll x monotonic =>
    simp only [App.jobStep] at h
    split at h
    · split at h
      · obtain ⟨⟨u, es', answer⟩, hs, he⟩ := Option.map_eq_some_iff.mp h
        cases he
        exact .polled _ (exchanged hs)
      · cases h
        exact .timedOut
    · cases h

/-- The controller's part of a step. -/
theorem JobStepped.step {s t : System} {j j' : Job} {a : JobAction} {es : List (Event app.cm)}
    (h : JobStepped app args key floatText s j a t j' es) :
    t = s ∧ es = [] ∨ ∃ b, app.step s b = some (t, es) ∧ ((∃ endpoint req now later,
      b = .request endpoint req now later ∧ (jobForward (s, j) a → s.clock ≤ later)) ∨ a = .controller b) := by
  cases h with
  | controller hs => exact .inr ⟨_, hs, .inr rfl⟩
  | delivered label hx =>
    cases hx with
    | nothing => exact .inl ⟨rfl, rfl⟩
    | served _ _ hs _ => exact .inr ⟨_, hs, .inl ⟨_, _, _, _, rfl, fun hf => hf⟩⟩
  | polled label hx =>
    cases hx with
    | nothing => exact .inl ⟨rfl, rfl⟩
    | served _ _ hs _ => exact .inr ⟨_, hs, .inl ⟨_, _, _, _, rfl, fun hf => hf⟩⟩
  | timedOut => exact .inl ⟨rfl, rfl⟩

/-- Beside a job every attempt of the controller that ends with a terminal state still
reconciles its own delivery. -/
def jobOwnDelivery (app : App) (s : System × Job) (h : List (Event app.cm)) : JobAction → Prop
  | .controller a => endsOwnDelivery app s.1 h a
  | _ => True

/-- What the controller does beside a job is a run of its own, in which the steps beside
the requests are as `permitted` says. -/
theorem controller_run (permitted : System → List (Event app.cm) → Action → Prop)
    (requests : ∀ s h endpoint req now later, permitted s h (.request endpoint req now later))
    {permits : System × Job → List (Event app.cm) → JobAction → Prop}
    (forward : ∀ s h a, permits s h a → jobForward s a)
    (others : ∀ s h b, permits s h (.controller b) → permitted s.1 h b) {s t : System × Job}
    {h k : List (Event app.cm)} (run : Run (app.jobStep args key floatText) permits s h t k) :
    Run app.step (fun s h a => clockForward s a ∧ permitted s h a) s.1 h t.1 k := by
  refine run.project Prod.fst ?_
  rintro ⟨s, j⟩ h a ⟨t, j'⟩ es hp hs
  have hforward := forward _ _ _ hp
  rcases (jobStepped_of_step hs).step with ⟨rfl, rfl⟩ | ⟨b, hb, ⟨endpoint, req, now, later, rfl, hlater⟩ | rfl⟩
  · exact .inl ⟨rfl, rfl⟩
  · refine .inr ⟨_, ⟨?_, requests ..⟩, hb⟩
    rintro _ _ ⟨⟩
    exact ⟨hlater hforward, le_rfl⟩
  · exact .inr ⟨b, ⟨hforward, others _ _ _ hp⟩, hb⟩

/-! ### The delivery and what came after it -/

theorem update_keeps_desired {s : System} {r : DemoRecord} {state : DemoState} {m : Text} {v p : Option ℤ} {now : ℤ}
    {loop : Loop} {k : Key} {row : DemoRecord} (h : s.demos.get k = some row) :
    ∃ row', (s.update r state m v p now loop).demos.get k = some row' ∧ row'.desired = row.desired := by
  obtain ⟨row', hrow', hdesired, -⟩ := update_get s r state m v p now loop h
  exact ⟨row', hrow', hdesired⟩

/-- A step keeps a row and what it asks for, or records what it does to the key. -/
theorem Stepped.row_or_event {s t : System} {a : Action} {es : List (Event app.cm)} (hs : Stepped app s a t es)
    {k : Key} {row : DemoRecord} (hrow : s.demos.get k = some row) :
    (∃ row', t.demos.get k = some row' ∧ row'.desired = row.desired) ∨
    (∃ row', t.demos.get k = some row') ∧ (∃ e, Event.store e ∈ es ∧ e.key = k ∧ e.isMutation = true) ∨
    Event.store (.deleted k.1 k.2) ∈ es := by
  cases hs with
  | request hserved =>
    rcases hserved.get k with ⟨hg, -⟩ | ⟨q, rfl, -, -, hg, rfl⟩
    · exact .inl ⟨row, hg.trans hrow, rfl⟩
    · exact .inr (.inl ⟨⟨_, hg⟩, _, List.mem_cons_of_mem _ (List.mem_cons_self ..), q.event_key ..,
        q.event_isMutation ..⟩)
  | list | project | callDelete | callApply | endPass | crash => exact .inl ⟨row, hrow, rfl⟩
  | beginDelete | beginApply | vaultFailed | deleteFailed | applied | applyFailed =>
    exact .inl (update_keeps_desired hrow)
  | @deleted record _ _ _ _ _ _ =>
    by_cases hk : record.key = k
    · subst hk
      exact .inr (.inr (List.mem_cons_self ..))
    · exact .inl ⟨row, (s.api.store.get_deleteRecord_of_ne (Ne.symm hk)).trans hrow, rfl⟩

/-- Since the delivery was accepted (`news` are the events after it): its row is there and
carries it, or the events tell otherwise. -/
structure Awaited (p : Payload app.cm) (body : Bytes) (s : System) (news : List (Event app.cm)) : Prop where
  row : (∃ row, s.demos.get p.key = some row) ∨ Event.store (.deleted p.key.1 p.key.2) ∈ news
  delivery : (∃ row, s.demos.get p.key = some row ∧ row.deliveryId = p.deliveryId ∧ row.requestHash = sha256 body) ∨
    ∃ e, Event.store e ∈ news ∧ e.key = p.key ∧ (e.isMutation = true ∨ e.isDeletion = true)

theorem Awaited.step {p : Payload app.cm} {body : Bytes} {s t : System} {a : Action} {news es : List (Event app.cm)}
    (h : Awaited p body s news) (hs : Stepped app s a t es) : Awaited p body t (es ++ news) := by
  have hdeletion : Event.store (.deleted p.key.1 p.key.2) ∈ es ++ news → ∃ e, Event.store e ∈ es ++ news ∧
      e.key = p.key ∧ (e.isMutation = true ∨ e.isDeletion = true) := fun hd => ⟨_, hd, rfl, .inr rfl⟩
  constructor
  · rcases h.row with ⟨row, hrow⟩ | hd
    · rcases hs.row_or_event hrow with ⟨row', hrow', -⟩ | ⟨hrow', -⟩ | hd
      · exact .inl ⟨row', hrow'⟩
      · exact .inl hrow'
      · exact .inr (List.mem_append_left _ hd)
    · exact .inr (List.mem_append_right _ hd)
  · rcases h.delivery with ⟨row, hrow, hid, hhash⟩ | ⟨e, he, hk⟩
    · rcases hs.row_or_event hrow with ⟨row', hrow', hdesired⟩ | ⟨-, e, he, hk, hm⟩ | hd
      · obtain ⟨hid', hhash'⟩ := delivery_of_desired hdesired
        exact .inl ⟨row', hrow', hid'.trans hid, hhash'.trans hhash⟩
      · exact .inr ⟨e, List.mem_append_left _ he, hk, .inl hm⟩
      · exact .inr (hdeletion (List.mem_append_left _ hd))
    · exact .inr ⟨e, List.mem_append_right _ he, hk⟩

/-- Before it polls a job has had its delivery accepted. -/
def Job.Accepted (app : App) (p : Payload app.cm) (body : Bytes) (s : System) (h : List (Event app.cm)) : Job → Prop
  | .polling _ _ => ∃ news old, h = news ++ .accepted p.operation p.key p.deliveryId body :: old ∧
      Awaited p body s news
  | _ => True

theorem accepted_events {s : ApiState} {endpoint : Endpoint} {req : HttpRequest} {now later : ℤ}
    {p : Payload app.cm} (hp : app.payload? endpoint req.body = some p)
    (hacc : (app.serve s endpoint req now later).2.1.isAccepted = true) :
    ∃ es, (app.serve s endpoint req now later).2.2 = .accepted p.operation p.key p.deliveryId req.body :: es := by
  have hserved := served app s endpoint req now later
  generalize app.serve s endpoint req now later = r at hacc hserved
  obtain ⟨t, answer, es⟩ := r
  cases hserved with
  | quiet _ hn =>
    rw [hn] at hacc
    cases hacc
  | repeated q _ hq =>
    obtain rfl := Option.some.inj (hq.payload.symm.trans hp)
    exact ⟨_, rfl⟩
  | effective q hq =>
    obtain rfl := Option.some.inj (hq.payload.symm.trans hp)
    exact ⟨_, rfl⟩

theorem handle_answer {s : Store} {endpoint : Endpoint} {req : HttpRequest} {repository : Text} {later : ℤ}
    (hstatus : ∀ owner name pr, endpoint ≠ .demoStatus owner name pr) :
    (app.handle s endpoint req repository later).response.isAccepted = true ∨
      ∃ code detail, (app.handle s endpoint req repository later).response = .rejected code detail ∧ 400 ≤ code := by
  cases endpoint with
  | deploy =>
    simp only [App.handle, App.deploy]
    repeat' split
    all_goals first
      | exact .inl rfl
      | exact .inr ⟨_, _, rfl, by decide⟩
  | destroy =>
    simp only [App.handle, App.destroy]
    repeat' split
    all_goals first
      | exact .inl rfl
      | exact .inr ⟨_, _, rfl, by decide⟩
  | demoStatus owner name pr => exact absurd rfl (hstatus owner name pr)

theorem delivery_answer {s : ApiState} {endpoint : Endpoint} {req : HttpRequest} {now later : ℤ}
    (hstatus : ∀ owner name pr, endpoint ≠ .demoStatus owner name pr) :
    (app.serve s endpoint req now later).2.1.isAccepted = true ∨
      (∃ error, (app.serve s endpoint req now later).2.1 = .unhandled error) ∨
      ∃ code detail, (app.serve s endpoint req now later).2.1 = .rejected code detail ∧ 400 ≤ code := by
  have hrefused {r : Response} (hr : StatusAnswer app Store.empty ([], 0) r) (hacc : r.isAccepted = false) :
      (∃ error, r = .unhandled error) ∨ ∃ code detail, r = .rejected code detail ∧ 400 ≤ code := by
    cases hr with
    | refused hcode => exact .inr ⟨_, _, rfl, hcode⟩
    | raised => exact .inl ⟨_, rfl⟩
    | absent => exact .inr ⟨_, _, rfl, by decide⟩
    | present hrow => cases hrow
  unfold App.serve
  split
  · next r hr => exact .inr (hrefused (bodyLimit_answer hr ..) (bodyLimit_refuses hr))
  · dsimp only
    split
    · next r hr => exact .inr (hrefused (authenticate_answer hr ..) (authenticate_refuses hr))
    · exact (handle_answer hstatus).imp_right .inr

/-- The client goes on to poll only after an accepted delivery. -/
theorem accepted_of_read {s : ApiState} {endpoint : Endpoint} {req : HttpRequest} {now later : ℤ} {unread : Loaded}
    {label : Text} {fields : Fields} (hstatus : ∀ owner name pr, endpoint ≠ .demoStatus owner name pr)
    (h : readAnswer unread label (app.serve s endpoint req now later).2.1.answer = .ok fields) :
    (app.serve s endpoint req now later).2.1.isAccepted = true := by
  rcases @delivery_answer app s endpoint req now later hstatus with
    hacc | ⟨error, he⟩ | ⟨code, detail, he, hcode⟩
  · exact hacc
  · obtain ⟨message, hread⟩ := readAnswer_refused unread label (show 400 ≤ 500 by decide)
      (encode "Internal Server Error".toList)
    rw [he, Response.answer, hread] at h
    cases h
  · obtain ⟨message, hread⟩ := readAnswer_refused unread label hcode
      (encode (jsonText responseChar (.obj [("detail".toList, .str detail)])))
    rw [he, Response.answer, hread] at h
    cases h

theorem endpoint_ne_status (args : WorkflowArgs) (owner name pr : Text) :
    args.endpoint ≠ .demoStatus owner name pr := by
  rw [WorkflowArgs.endpoint]
  split
  · exact Endpoint.noConfusion
  · exact Endpoint.noConfusion

/-- What a job relies on: the controller's libraries behave as documented, and the job is
set up for the controller. -/
structure JobSetup (app : App) (args : WorkflowArgs) (key : Text) (p : Payload app.cm) : Prop where
  upper : UpperIdempotent app.cm
  methods : app.cm.upper "POST".toList = "POST".toList ∧ app.cm.upper "GET".toList = "GET".toList
  pydantic : app.pd.ReadsFlat
  path : ∀ n : ℤ, 0 ≤ n → n < 2 ^ 31 → app.pd.laxInt (.str (decimal n)) = some n
  fits : args.Fits app key p

/-- The delivery of a job that goes on to poll. -/
theorem awaited_of_delivery {p : Payload app.cm} (setup : JobSetup app args key p) {s t : System} {x : ClientExchange}
    {es : List (Event app.cm)} {answer : HttpAnswer} {label : Text} {fields : Fields}
    (hx : Exchanged app s (args.delivery app.cm key) x t es answer)
    (hread : readAnswer x.unread label answer = .ok fields) :
    ∃ rest, es = .accepted p.operation p.key p.deliveryId (compactJson (args.body app.cm)) :: rest ∧
      Awaited p (compactJson (args.body app.cm)) t [] := by
  have hfailed {failure : Failure} (he : answer = .failed failure) : False := by
    rw [he] at hread
    cases failure <;> cases hread
  cases hx with
  | nothing => exact (hfailed rfl).elim
  | served hreq hroute hstep hanswer =>
    rcases hanswer with ⟨failure, rfl⟩ | rfl
    · exact (hfailed rfl).elim
    · have hpresented := presented_delivery setup.upper setup.fits hreq
      obtain rfl := Option.some.inj (hroute.symm.trans (presented_delivery_route setup.methods.1 hpresented))
      have hacc := accepted_of_read (endpoint_ne_status args) hread
      have hpayload := payload_of_body setup.pydantic setup.fits.carries
      rw [← hpresented.body] at hpayload ⊢
      obtain ⟨rest, hevents⟩ := accepted_events hpayload hacc
      obtain ⟨row, hrow, hid, hhash⟩ := row_of_accepted hpayload hacc
      cases hstep
      exact ⟨rest, hevents, .inl ⟨row, hrow⟩, .inl ⟨row, hrow, hid, hhash⟩⟩

theorem Job.Accepted.step {p : Payload app.cm} (setup : JobSetup app args key p) {s t : System} {j j' : Job}
    {a : JobAction} {h es : List (Event app.cm)} (hj : j.Accepted app p (compactJson (args.body app.cm)) s h)
    (hs : JobStepped app args key floatText s j a t j' es) :
    j'.Accepted app p (compactJson (args.body app.cm)) t (es ++ h) := by
  have hkept {deadline : ℤ} {last last' : Fields} {b : Action}
      (haccepted : (Job.polling deadline last).Accepted app p (compactJson (args.body app.cm)) s h)
      (hb : app.step s b = some (t, es)) :
      (Job.polling deadline last').Accepted app p (compactJson (args.body app.cm)) t (es ++ h) := by
    obtain ⟨news, old, rfl, haw⟩ := haccepted
    exact ⟨es ++ news, old, (List.append_assoc ..).symm, haw.step (stepped_of_step hb)⟩
  cases hs with
  | controller hb =>
    cases j with
    | posting => trivial
    | polling deadline last => exact hkept hj hb
    | ended result => trivial
  | @delivered x _ _ _ answer label hx =>
    cases hread : readAnswer x.unread label answer with
    | error error => trivial
    | ok fields =>
      obtain ⟨rest, rfl, haw⟩ := awaited_of_delivery setup hx hread
      exact ⟨[], rest ++ h, rfl, haw⟩
  | @polled x _ _ _ _ _ answer label hx =>
    cases pollTurn app.cm floatText args.desiredAbsence (readAnswer x.unread label answer) with
    | finished result => trivial
    | again last =>
      cases hx with
      | nothing => exact hj
      | served _ _ hb _ => exact hkept hj hb
  | timedOut => trivial

theorem demos_of_status {s : ApiState} {owner name pr : Text} (req : HttpRequest) (now later : ℤ) :
    (app.serve s (.demoStatus owner name pr) req now later).1.store.demos = s.store.demos ∧
      (app.serve s (.demoStatus owner name pr) req now later).2.2 = [] := by
  have hserved := served app s (.demoStatus owner name pr) req now later
  generalize app.serve s (.demoStatus owner name pr) req now later = r at hserved
  obtain ⟨t, answer, es⟩ := r
  cases hserved with
  | quiet hd _ => exact ⟨hd, rfl⟩
  | repeated q _ hq => cases hq.payload
  | effective q hq => cases hq.payload

/-- The state in which a job ends with success. -/
theorem success_of_poll {p : Payload app.cm} (setup : JobSetup app args key p) {first : ℤ} {s t : System}
    {deadline : ℤ} {last result : Fields} {a : JobAction} {es : List (Event app.cm)} (sound : SoundRows app first s)
    (hfirst : 0 ≤ first) (hclock : s.clock < 2 ^ 63)
    (hs : JobStepped app args key floatText s (.polling deadline last) a t (.ended (.ok result)) es) :
    t.demos = s.demos ∧ t.cluster = s.cluster ∧ es = [] ∧
      (args.desiredAbsence = true ∧ s.demos.get p.key = none ∧ result = destroyedResult ∨
        args.desiredAbsence = false ∧ ∃ row, s.demos.get p.key = some row ∧ row.state = .ready ∧
          result = (Store.status app.cm app.settings.hostnameSuffix row).fields) := by
  generalize hjob : Job.ended (.ok result) = j' at hs
  cases hs with
  | controller => cases hjob
  | timedOut => cases hjob
  | @polled x _ _ _ _ _ answer label hx =>
    cases hturn : pollTurn app.cm floatText args.desiredAbsence (readAnswer x.unread label answer) with
    | again last' =>
      rw [hturn] at hjob
      cases hjob
    | finished outcome =>
      rw [hturn, Polled.job, Job.ended.injEq] at hjob
      rw [← hjob] at hturn
      have hfailed {failure : Failure} (he : answer = .failed failure) : False := by
        subst he
        cases failure with
        | urlError reason =>
          rw [readAnswer, pollTurn, if_neg fun hc => by cases hc.2] at hturn
          cases hturn
        | raised error =>
          rw [readAnswer, pollTurn, if_neg fun hc => by cases hc.2] at hturn
          cases hturn
      cases hx with
      | nothing => exact (hfailed rfl).elim
      | @served req endpoint _ _ _ hreq hroute hstep hanswer =>
        rcases hanswer with ⟨failure, rfl⟩ | rfl
        · exact (hfailed rfl).elim
        · obtain ⟨owner, name, hstatus, hrepo⟩ := presented_status setup.methods.2 setup.fits hreq
          obtain rfl := Option.some.inj (hroute.symm.trans hstatus)
          obtain ⟨hkey, hlow, hhigh⟩ := carried_pr setup.fits.carries
          have hpr := setup.path args.prNumber (by omega) (by omega)
          have hresponse := @serve_status app s.api owner name _ _ hpr req x.now x.later
          have hpkey : (app.cm.lower (owner ++ "/".toList ++ name), args.prNumber) = p.key :=
            Prod.ext hrepo (by rw [hkey])
          rw [hpkey] at hresponse
          have hquiet := @demos_of_status app s.api owner name (decimal args.prNumber) req x.now x.later
          cases hstep
          exact ⟨hquiet.1, rfl, hquiet.2,
            hresponse.success (fun row hrow => status_plain (sound.rows _ row hrow) hfirst hclock) hturn⟩

/-- The invariants of the controller in a run with a forward clock. -/
theorem run_invariants {permitted : System → List (Event app.cm) → Action → Prop} {cluster : Cluster} {first : ℤ}
    {s : System} {h : List (Event app.cm)} (clean : ∀ kind name, ¬ Holds cluster kind name)
    (run : Run app.step (fun s h a => clockForward s a ∧ permitted s h a) (System.initial cluster first) [] s h) :
    Tracked s h ∧ Owned app s ∧ SoundRows app first s := by
  refine run.invariant (I := fun s h => Tracked s h ∧ Owned app s ∧ SoundRows app first s)
    ⟨tracked_initial .., ?_, ?_⟩ ?_
  · exact ⟨fun kind name hh => absurd hh (clean kind name), trivial⟩
  · exact ⟨le_rfl, fun k row hr => by cases hr⟩
  · rintro s h a t es ⟨ht, ho, hi⟩ ⟨hc, -⟩ hs
    have hst := stepped_of_step hs
    exact ⟨ht.step hst, ho.step ht hst, hi.step hst hc⟩

theorem accepted_run {p : Payload app.cm} (setup : JobSetup app args key p)
    {permits : System × Job → List (Event app.cm) → JobAction → Prop} {s : System} {t : System × Job}
    {h k : List (Event app.cm)} (run : Run (app.jobStep args key floatText) permits (s, .posting) h t k) :
    t.2.Accepted app p (compactJson (args.body app.cm)) t.1 k := by
  refine run.invariant (I := fun s h => s.2.Accepted app p (compactJson (args.body app.cm)) s.1 h) trivial ?_
  rintro ⟨s, j⟩ h a ⟨t, j'⟩ es hj _ hs
  exact hj.step setup (jobStepped_of_step hs)

/-- A job that removes a demo and succeeds ends with the demo gone: its row was deleted
after the delivery was accepted, and no object is left but of a demo that shares the name. -/
theorem destroy_job {p : Payload app.cm} (setup : JobSetup app args key p) (removal : args.desiredAbsence = true)
    {cluster : Cluster} {first : ℤ} (clean : ∀ kind name, ¬ Holds cluster kind name) (hfirst : 0 ≤ first)
    {s t : System} {deadline : ℤ} {last result : Fields} {a : JobAction} {h es : List (Event app.cm)}
    (run : Run (app.jobStep args key floatText) (fun s _ a => jobForward s a) (System.initial cluster first, .posting)
      [] (s, .polling deadline last) h) (hclock : s.clock < 2 ^ 63)
    (hs : app.jobStep args key floatText (s, .polling deadline last) a = some ((t, .ended (.ok result)), es)) :
    t.demos.get p.key = none ∧
    (∀ kind, Holds t.cluster kind (nameOf app p.key) →
      ∃ k row, k ≠ p.key ∧ t.demos.get k = some row ∧ nameOf app k = nameOf app p.key) ∧
    ∃ news old, es ++ h = news ++ .accepted p.operation p.key p.deliveryId (compactJson (args.body app.cm)) :: old ∧
      Event.store (.deleted p.key.1 p.key.2) ∈ news := by
  have hcontroller := controller_run anyStep (fun _ _ _ _ _ _ => trivial) (fun _ _ _ hp => hp)
    (fun _ _ _ _ => trivial) run
  obtain ⟨-, howned, hsound⟩ := run_invariants clean hcontroller
  obtain ⟨hdemos, hcluster, rfl, hend⟩ := success_of_poll setup hsound hfirst hclock (jobStepped_of_step hs)
  have hgone : s.demos.get p.key = none := by
    rcases hend with ⟨-, hgone, -⟩ | ⟨habsence, -⟩
    · exact hgone
    · rw [removal] at habsence
      cases habsence
  rw [hdemos, hcluster]
  refine ⟨hgone, fun kind hh => ?_, ?_⟩
  · obtain ⟨k, row, hrow, hname⟩ := howned.owned kind _ hh
    refine ⟨k, row, ?_, hrow, hname⟩
    rintro rfl
    rw [hgone] at hrow
    cases hrow
  · obtain ⟨news, old, hh, haw⟩ := accepted_run setup run
    refine ⟨news, old, hh, ?_⟩
    rcases haw.row with ⟨row, hrow⟩ | hd
    · rw [show s.demos.get p.key = some row from hrow] at hgone
      cases hgone
    · exact hd

end

def exampleExchange (uuid : String) (now : ℤ) : ClientExchange where
  env := { workflowRunner with uuid := uuid.toList, now }
  added := []
  fate := .answered
  unread := .decodeError
  now
  later := now

def runJob (args : WorkflowArgs) (test : System × Job → List (Event workflowApp.cm) → JobAction → Bool)
    (actions : List JobAction) :
    Option ((System × Job) × List (Event workflowApp.cm)) :=
  executeIf (workflowApp.jobStep args "repository-key".toList id) test actions
    (System.initial (fun _ _ => none) 0, .posting) []

def Job.isPolling : Job → Bool
  | .polling _ _ => true
  | _ => false

def Job.succeeded : Job → Bool
  | .ended (.ok _) => true
  | _ => false

theorem Job.of_isPolling {j : Job} (h : j.isPolling = true) : ∃ deadline last, j = .polling deadline last := by
  cases j with
  | polling deadline last => exact ⟨deadline, last, rfl⟩
  | posting => cases h
  | ended result => cases h

theorem Job.of_succeeded {j : Job} (h : j.succeeded = true) : ∃ result, j = .ended (.ok result) := by
  cases j with
  | ended result =>
    cases result with
    | ok fields => exact ⟨fields, rfl⟩
    | error error => cases h
  | posting => cases h
  | polling deadline last => cases h

theorem exampleSetup {args : WorkflowArgs} {p : Payload workflowApp.cm}
    (fits : args.Fits workflowApp "repository-key".toList p) :
    JobSetup workflowApp args "repository-key".toList p where
  upper := upperIdempotent_ascii
  methods := ⟨by decide, by decide⟩
  pydantic := readsFlat_loads
  path n hlow hhigh := pyInt_decimal hlow (by
    have hshort := decimal_short (n := n) (by omega)
    rwa [Int.natAbs_of_nonneg hlow] at hshort)
  fits

def examplePoll : JobAction := .poll (exampleExchange "0b9f6f0c-3c4e-4b0e-9d53-2f6f2d0c1a7e" 1700000020) 12

def exampleRemoval : WorkflowArgs := { exampleArgs with operation := .destroy "delivery-2".toList }

theorem exampleDestroyDelivery_ok : isDeliveryId "delivery-2".toList = true := by decide

def exampleDestroyRequest : DestroyRequest where
  repository := "canonical/example".toList
  pr := 8
  deliveryId := "delivery-2".toList
  repository_ok := exampleRequest.repository_ok
  pr_ok := exampleRequest.pr_ok
  deliveryId_ok := exampleDestroyDelivery_ok

theorem exampleRemoval_fits : exampleRemoval.Fits workflowApp "repository-key".toList
    (.destroy exampleDestroyRequest) := by
  exact ⟨⟨rfl, rfl, rfl⟩, by decide, "https".toList, "demos.test".toList, 1, exampleOrigin, rfl⟩

/-- A demo that another job deployed is removed. -/
def removalActions : List JobAction :=
  (.request .deploy exampleDelivery 1700000003 1700000003 :: applyActions 1700000005).map .controller ++
    .deliver (exampleExchange "" 1700000008) 5 ::
    [.list, .begin 1700000010 1700000010, .call .done, .call .done, .call .done, .call .done,
      .resume 1700000011 1700000011].map .controller

theorem destroy_job_example : ∃ s t h es, Run (workflowApp.jobStep exampleRemoval "repository-key".toList id)
      (fun s _ a => jobForward s a) (System.initial (fun _ _ => none) 0, .posting) [] s h ∧
    workflowApp.jobStep exampleRemoval "repository-key".toList id s examplePoll = some (t, es) ∧
    ∃ news old, es ++ h = news ++ .accepted .destroy ("canonical/example".toList, 8) "delivery-2".toList
        (compactJson (exampleRemoval.body workflowApp.cm)) :: old ∧
      Event.store (.deleted "canonical/example".toList 8) ∈ news := by
  have hb : (runJob exampleRemoval (fun s _ a => decide (jobForward s a)) removalActions).any (fun q =>
      q.1.2.isPolling && decide (q.1.1.clock < 2 ^ 63) &&
        (workflowApp.jobStep exampleRemoval "repository-key".toList id q.1 examplePoll).any fun r =>
          r.1.2.succeeded) = true := by
    decide +kernel
  simp only [Option.any_eq_true, Bool.and_eq_true, decide_eq_true_eq] at hb
  obtain ⟨⟨⟨s, j⟩, h⟩, hr, ⟨hpolling, hclock⟩, ⟨⟨t, j'⟩, es⟩, hs, hsucceeded⟩ := hb
  have run : Run (workflowApp.jobStep exampleRemoval "repository-key".toList id) (fun s _ a => jobForward s a)
      (System.initial (fun _ _ => none) 0, .posting) [] (s, j) h :=
    Run.of_executeIf removalActions (fun _ _ _ _ ht => of_decide_eq_true ht) .start hr
  refine ⟨(s, j), (t, j'), h, es, run, hs, ?_⟩
  obtain ⟨deadline, last, rfl⟩ := Job.of_isPolling hpolling
  obtain ⟨result, rfl⟩ := Job.of_succeeded hsucceeded
  refine (destroy_job (exampleSetup exampleRemoval_fits) rfl ?_ le_rfl run hclock hs).2.2
  rintro kind name ⟨r, hr⟩
  cases hr

section

variable {app : App} {args : WorkflowArgs} {key : Text} {floatText : Text → Text}

/-- A job that deploys a demo and succeeds ends with the demo ready, and its result is the
status of the demo. The row carries the delivery of the job, unless the demo was deployed or
removed again in the meantime. Where no attempt of the run ended under another delivery,
accepted since its snapshot, it was an attempt for the row's delivery that found the demo
ready. -/
theorem deploy_job {p : Payload app.cm} (setup : JobSetup app args key p) (deployment : args.desiredAbsence = false)
    {cluster : Cluster} {first : ℤ} (clean : ∀ kind name, ¬ Holds cluster kind name) (hfirst : 0 ≤ first)
    {s t : System} {deadline : ℤ} {last result : Fields} {a : JobAction} {h es : List (Event app.cm)}
    (run : Run (app.jobStep args key floatText) (fun s _ a => jobForward s a) (System.initial cluster first, .posting)
      [] (s, .polling deadline last) h) (hclock : s.clock < 2 ^ 63)
    (hs : app.jobStep args key floatText (s, .polling deadline last) a = some ((t, .ended (.ok result)), es)) :
    ∃ row, t.demos.get p.key = some row ∧ row.state = .ready ∧
      result = (Store.status app.cm app.settings.hostnameSuffix row).fields ∧
      (∃ news old, es ++ h = news ++ .accepted p.operation p.key p.deliveryId (compactJson (args.body app.cm)) :: old ∧
        (row.deliveryId = p.deliveryId ∧ row.requestHash = sha256 (compactJson (args.body app.cm)) ∨
          ∃ e, Event.store e ∈ news ∧ e.key = p.key ∧ (e.isMutation = true ∨ e.isDeletion = true))) ∧
      (Run (app.jobStep args key floatText) (fun s h a => jobForward s a ∧ jobOwnDelivery app s h a)
          (System.initial cluster first, .posting) [] (s, .polling deadline last) h →
        ∃ record, lastWrite p.key (es ++ h) = some (record, .ready) ∧ record.deliveryId = row.deliveryId) := by
  have hcontroller := controller_run anyStep (fun _ _ _ _ _ _ => trivial) (fun _ _ _ hp => hp)
    (fun _ _ _ _ => trivial) run
  obtain ⟨-, -, hsound⟩ := run_invariants clean hcontroller
  obtain ⟨hdemos, -, rfl, hend⟩ := success_of_poll setup hsound hfirst hclock (jobStepped_of_step hs)
  obtain ⟨row, hrow, hready, hresult⟩ : ∃ row, s.demos.get p.key = some row ∧ row.state = .ready ∧
      result = (Store.status app.cm app.settings.hostnameSuffix row).fields := by
    rcases hend with ⟨habsence, -⟩ | ⟨-, hrow⟩
    · rw [deployment] at habsence
      cases habsence
    · exact hrow
  refine ⟨row, hdemos ▸ hrow, hready, hresult, ?_, fun hown => ?_⟩
  · obtain ⟨news, old, hh, haw⟩ := accepted_run setup run
    refine ⟨news, old, hh, haw.delivery.imp_left ?_⟩
    rintro ⟨row', hrow', hdelivery⟩
    obtain rfl := Option.some.inj (hrow.symm.trans hrow')
    exact hdelivery
  · have hattempts := controller_run (endsOwnDelivery app) (fun _ _ _ _ _ _ _ hw => by cases hw)
      (fun _ _ _ hp => hp.1) (fun _ _ _ hp => hp.2) hown
    have hterminal : Tracked s h ∧ TerminalOwned s h := by
      refine hattempts.invariant (I := fun s h => Tracked s h ∧ TerminalOwned s h)
        ⟨tracked_initial .., fun k row hr => by cases hr⟩ ?_
      rintro s h a t es ⟨ht, ho⟩ ⟨-, hp⟩ hs
      have hst := stepped_of_step hs
      exact ⟨ht.step hst, (terminalOwned_step ht ho hst).mpr hp⟩
    obtain ⟨record, hwrite, hid⟩ := hterminal.2 p.key row hrow (by rw [hready]; rfl)
    rw [hready] at hwrite
    exact ⟨record, hwrite, hid⟩

end

/-- The job delivers, and the controller reconciles the demo. -/
def deploymentActions : List JobAction :=
  .deliver (exampleExchange "" 1700000003) 5 :: (applyActions 1700000010).map .controller

def jobOwnTest (app : App) (s : System × Job) (h : List (Event app.cm)) : JobAction → Bool
  | .controller a => endsOwnTest app s.1 h a
  | _ => true

theorem jobOwnDelivery_of_test {app : App} {s : System × Job} {h : List (Event app.cm)} {a : JobAction}
    (ht : jobOwnTest app s h a = true) : jobOwnDelivery app s h a := by
  cases a with
  | controller b => exact endsOwnDelivery_of_test ht
  | deliver x monotonic => trivial
  | poll x monotonic => trivial

/-- Beside the example job every attempt reconciles its own delivery, and the job succeeds
at its next poll. -/
theorem deploymentActions_run : ∃ s t deadline last result h es,
    Run (workflowApp.jobStep exampleArgs "repository-key".toList id)
      (fun s h a => jobForward s a ∧ jobOwnDelivery workflowApp s h a)
      (System.initial (fun _ _ => none) 0, .posting) [] (s, .polling deadline last) h ∧ s.clock < 2 ^ 63 ∧
    workflowApp.jobStep exampleArgs "repository-key".toList id (s, .polling deadline last) examplePoll =
      some ((t, .ended (.ok result)), es) := by
  have hb : (runJob exampleArgs (fun s h a => decide (jobForward s a) && jobOwnTest workflowApp s h a)
      deploymentActions).any (fun q => q.1.2.isPolling && decide (q.1.1.clock < 2 ^ 63) &&
        (workflowApp.jobStep exampleArgs "repository-key".toList id q.1 examplePoll).any fun r =>
          r.1.2.succeeded) = true := by
    decide +kernel
  simp only [Option.any_eq_true, Bool.and_eq_true, decide_eq_true_eq] at hb
  obtain ⟨⟨⟨s, j⟩, h⟩, hr, ⟨hpolling, hclock⟩, ⟨⟨t, j'⟩, es⟩, hs, hsucceeded⟩ := hb
  obtain ⟨deadline, last, rfl⟩ := Job.of_isPolling hpolling
  obtain ⟨result, rfl⟩ := Job.of_succeeded hsucceeded
  refine ⟨s, t, deadline, last, result, h, es, ?_, hclock, hs⟩
  refine Run.of_executeIf deploymentActions (fun s h a _ ht => ?_) .start hr
  rw [Bool.and_eq_true, decide_eq_true_eq] at ht
  exact ⟨ht.1, jobOwnDelivery_of_test ht.2⟩

theorem deploy_job_example : ∃ s t h es, Run (workflowApp.jobStep exampleArgs "repository-key".toList id)
      (fun s _ a => jobForward s a) (System.initial (fun _ _ => none) 0, .posting) [] s h ∧
    workflowApp.jobStep exampleArgs "repository-key".toList id s examplePoll = some (t, es) ∧
    ∃ row record, t.1.demos.get ("canonical/example".toList, 8) = some row ∧ row.state = .ready ∧
      lastWrite ("canonical/example".toList, 8) (es ++ h) = some (record, .ready) ∧
      record.deliveryId = row.deliveryId := by
  obtain ⟨s, t, deadline, last, result, h, es, hown, hclock, hs⟩ := deploymentActions_run
  have run : Run (workflowApp.jobStep exampleArgs "repository-key".toList id) (fun s _ a => jobForward s a)
      (System.initial (fun _ _ => none) 0, .posting) [] (s, .polling deadline last) h :=
    hown.mono fun _ _ _ hp => hp.1
  obtain ⟨row, hrow, hready, -, -, hlast⟩ := deploy_job (exampleSetup exampleArgs_fits) rfl (by
    rintro kind name ⟨r, hr⟩
    cases hr) le_rfl run hclock hs
  obtain ⟨record, hwrite, hid⟩ := hlast hown
  exact ⟨_, _, _, _, run, hs, row, record, hrow, hready, hwrite, hid⟩

end DemoController
