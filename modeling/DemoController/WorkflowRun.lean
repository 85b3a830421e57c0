import DemoController.Images
import DemoController.JsonText
import DemoController.NonceBinding

/-!
# What the workflow sends (`main` of `demo_api.py`)

The job lower-cases what it was called with and sends one delivery. The controller reads
the body the client wrote, so whether the delivery is accepted is up to the rate limit and
to what the nonce and the row of the key already stand for; a retry is no other delivery.
-/

namespace DemoController

open Lib

inductive WorkflowOperation where
  | deploy (commitSha image deliveryId : Text)
  | destroy (deliveryId : Text)

/-- The arguments of the script; `timeout` and `interval` are seconds. -/
structure WorkflowArgs where
  apiUrl : Text
  repository : Text
  prNumber : ℤ
  timeout : ℤ := 600
  interval : ℤ := 10
  operation : WorkflowOperation

namespace WorkflowArgs

variable (cm : CaseMapping) (args : WorkflowArgs)

def deliveryId : Text :=
  match args.operation with
  | .deploy _ _ deliveryId => deliveryId
  | .destroy deliveryId => deliveryId

def body : List (Text × Json) :=
  match args.operation with
  | .deploy commitSha image deliveryId =>
    [("commit_sha".toList, .str (cm.lower commitSha)), ("delivery_id".toList, .str deliveryId),
      ("image".toList, .str (cm.lower image)), ("pr".toList, .int args.prNumber),
      ("repository".toList, .str (cm.lower args.repository))]
  | .destroy deliveryId =>
    [("delivery_id".toList, .str deliveryId), ("pr".toList, .int args.prNumber),
      ("repository".toList, .str (cm.lower args.repository))]

def endpoint : Endpoint :=
  match args.operation with
  | .deploy _ _ _ => .deploy
  | .destroy _ => .destroy

def path : Text :=
  match args.operation with
  | .deploy _ _ _ => "/api/v1/deploy".toList
  | .destroy _ => "/api/v1/destroy".toList

/-- The first request of `main`, under the key of the environment. -/
def delivery (key : Text) : ClientCall where
  apiUrl := args.apiUrl
  method := "POST".toList
  path := args.path
  repository := cm.lower args.repository
  key
  body := some (args.body cm)
  nonce := some args.deliveryId

/-- The arguments, lower-cased, are those of a valid delivery. -/
def Carries (p : Payload cm) : Prop :=
  match args.operation, p with
  | .deploy commitSha image deliveryId, .deploy request =>
    request.repository = cm.lower args.repository ∧ request.pr = args.prNumber ∧
      request.commitSha = cm.lower commitSha ∧ request.image = cm.lower image ∧ request.deliveryId = deliveryId
  | .destroy deliveryId, .destroy request =>
    request.repository = cm.lower args.repository ∧ request.pr = args.prNumber ∧ request.deliveryId = deliveryId
  | _, _ => False

end WorkflowArgs

def Json.isScalar : Json → Bool
  | .int _ => true
  | .str _ => true
  | _ => false

/-- On objects of texts and integers pydantic's parser is `json.loads`. -/
structure Pydantic.ReadsFlat (pd : Pydantic) : Prop where
  object : ∀ t fields, loads t = some (.obj fields) → (∀ f ∈ fields, f.2.isScalar = true) →
    pd.parseObject (encode t) = some fields
  int : ∀ n, pd.laxInt (.int n) = some n

/-! ### The body -/

theorem repository_lower_of (cm : CaseMapping) {repository : Text} (h : isRepository repository = true) :
    cm.lower repository = repository := by
  obtain ⟨owner, name, rfl, howner, hname⟩ := repository_parts h
  refine lower_of_ascii cm fun c hc => ?_
  rcases List.mem_append.mp hc with hc | hc
  · exact segment_lowerAscii howner c hc
  · rcases List.mem_cons.mp hc with rfl | hc
    · exact ⟨by decide, by decide⟩
    · exact segment_lowerAscii hname c hc

theorem sha_lower_of (cm : CaseMapping) {sha : Text} (h : isSha sha = true) : cm.lower sha = sha :=
  lower_of_ascii cm fun c hc => (isHexDigit_spec (List.all_eq_true.mp (Bool.and_eq_true_iff.mp h).2 c hc)).1

theorem carried_pr {cm : CaseMapping} {args : WorkflowArgs} {p : Payload cm} (h : args.Carries cm p) :
    p.key = (cm.lower args.repository, args.prNumber) ∧ 1 ≤ args.prNumber ∧ args.prNumber ≤ 2147483647 := by
  unfold WorkflowArgs.Carries at h
  split at h
  · next request hop =>
    exact ⟨Prod.ext h.1 h.2.1, h.2.1 ▸ request.pr_ok⟩
  · next request hop =>
    exact ⟨Prod.ext h.1 h.2.1, h.2.1 ▸ request.pr_ok⟩
  · exact h.elim

theorem loads_body {cm : CaseMapping} {args : WorkflowArgs} (h : 1 ≤ args.prNumber ∧ args.prNumber ≤ 2147483647) :
    loads (dumps (.obj (args.body cm))) = some (.obj (args.body cm)) := by
  have hpr : (decimal args.prNumber.natAbs).length ≤ 4300 := decimal_short (by omega)
  have hplain : (Json.obj (args.body cm)).isPlain = true := by
    rw [isPlain_obj, WorkflowArgs.body]
    split
    · refine ⟨show ["commit_sha".toList, "delivery_id".toList, "image".toList, "pr".toList,
        "repository".toList].Nodup by decide, ?_⟩
      simp only [List.forall_mem_cons, List.not_mem_nil, Json.isPlain, decide_eq_true hpr]
      tauto
    · refine ⟨show ["delivery_id".toList, "pr".toList, "repository".toList].Nodup by decide, ?_⟩
      simp only [List.forall_mem_cons, List.not_mem_nil, Json.isPlain, decide_eq_true hpr]
      tauto
  rw [(loads_readable (Json.readable_of_isPlain hplain)).2.2, WorkflowArgs.body]
  split
  · rfl
  · rfl

theorem deploy_validates {cm : CaseMapping} {pd : Pydantic} {body : Bytes} {fields : List (Text × Json)}
    (request : DeployRequest cm) (hparse : pd.parseObject body = some fields)
    (honly : onlyFields fields ["repository", "pr", "commit_sha", "image", "delivery_id"] = true)
    (hrepo : textField fields "repository" = some request.repository)
    (hpr : intField pd fields "pr" = some request.pr)
    (hsha : textField fields "commit_sha" = some request.commitSha)
    (himage : textField fields "image" = some request.image)
    (hid : textField fields "delivery_id" = some request.deliveryId) :
    DeployRequest.modelValidateJson cm pd body = some request := by
  simp only [DeployRequest.modelValidateJson, hparse, honly, hrepo, hpr, hsha, himage, hid, Option.bind_eq_bind,
    Option.bind_some, guard_true, Option.pure_def, repository_lower_of cm request.repository_ok,
    sha_lower_of cm request.commitSha_ok]
  exact dif_pos ⟨request.repository_ok, request.pr_ok, request.commitSha_ok, request.image_ok, request.deliveryId_ok⟩

theorem destroy_validates {cm : CaseMapping} {pd : Pydantic} {body : Bytes} {fields : List (Text × Json)}
    (request : DestroyRequest) (hparse : pd.parseObject body = some fields)
    (honly : onlyFields fields ["repository", "pr", "delivery_id"] = true)
    (hrepo : textField fields "repository" = some request.repository)
    (hpr : intField pd fields "pr" = some request.pr)
    (hid : textField fields "delivery_id" = some request.deliveryId) :
    DestroyRequest.modelValidateJson cm pd body = some request := by
  simp only [DestroyRequest.modelValidateJson, hparse, honly, hrepo, hpr, hid, Option.bind_eq_bind,
    Option.bind_some, guard_true, Option.pure_def, repository_lower_of cm request.repository_ok]
  exact dif_pos ⟨request.repository_ok, request.pr_ok, request.deliveryId_ok⟩

/-- The controller reads from the body what the job was called with, lower-cased. -/
theorem payload_of_body {app : App} (hpd : app.pd.ReadsFlat) {args : WorkflowArgs} {p : Payload app.cm}
    (h : args.Carries app.cm p) : app.payload? args.endpoint (compactJson (args.body app.cm)) = some p := by
  have hloads := @loads_body app.cm args (carried_pr h).2
  have hscalar : ∀ f ∈ args.body app.cm, f.2.isScalar = true := by
    rw [WorkflowArgs.body]
    split
    · simp only [List.forall_mem_cons, List.not_mem_nil, Json.isScalar]
      tauto
    · simp only [List.forall_mem_cons, List.not_mem_nil, Json.isScalar]
      tauto
  have hparse : app.pd.parseObject (compactJson (args.body app.cm)) = some (args.body app.cm) :=
    hpd.object _ _ hloads hscalar
  generalize compactJson (args.body app.cm) = raw at hparse
  unfold WorkflowArgs.Carries at h
  split at h
  · next commitSha image deliveryId request hop =>
    obtain ⟨hrepo, hpr, hsha, himage, hid⟩ := h
    rw [WorkflowArgs.body, hop] at hparse
    rw [WorkflowArgs.endpoint, hop, App.payload?]
    dsimp only at hparse ⊢
    rw [deploy_validates request hparse rfl (congrArg some hrepo.symm) ((hpd.int _).trans (congrArg some hpr.symm))
      (congrArg some hsha.symm) (congrArg some himage.symm) (congrArg some hid.symm)]
    rfl
  · next deliveryId request hop =>
    obtain ⟨hrepo, hpr, hid⟩ := h
    rw [WorkflowArgs.body, hop] at hparse
    rw [WorkflowArgs.endpoint, hop, App.payload?]
    dsimp only at hparse ⊢
    rw [destroy_validates request hparse rfl (congrArg some hrepo.symm) ((hpd.int _).trans (congrArg some hpr.symm))
      (congrArg some hid.symm)]
    rfl
  · exact h.elim

/-! ### Acceptance -/

theorem serve_accepted_iff {app : App} {s : ApiState} {endpoint : Endpoint} {req : HttpRequest} {now later : ℤ}
    {p : Payload app.cm} (hp : app.payload? endpoint req.body = some p) :
    (app.serve s endpoint req now later).2.1.isAccepted = true ↔ Admitted app s endpoint req now p ∧
      ∀ row, s.store.demos.get p.key = some row → row.deliveryId = p.deliveryId →
        row.requestHash = sha256 req.body := by
  have hsame {q : Payload app.cm} (hq : Admitted app s endpoint req now q) : q = p :=
    Option.some.inj (hq.payload.symm.trans hp)
  constructor
  · intro hacc
    have hserved := served app s endpoint req now later
    generalize hr : app.serve s endpoint req now later = r at hacc hserved
    obtain ⟨t, answer, es⟩ := r
    cases hserved with
    | quiet _ hn =>
      rw [hn] at hacc
      cases hacc
    | repeated q row hq hrow _ hhash =>
      obtain rfl := hsame hq
      refine ⟨hq, fun row' hrow' _ => ?_⟩
      rw [hrow] at hrow'
      rw [← Option.some.inj hrow', hhash]
    | effective q hq hnone =>
      obtain rfl := hsame hq
      refine ⟨hq, fun row hrow hid => ?_⟩
      rw [Store.hasDelivery_iff.mpr ⟨row, hrow, hid⟩] at hnone
      cases hnone
  · rintro ⟨hadm, hhash⟩
    obtain ⟨hsize, hauth, hpass⟩ := admitted_iff.mp hadm
    have hdemos := app.authenticate_demos s req now
    simp only [App.serve, hsize, hauth]
    cases hd : (app.authenticate s req now).1.store.hasDelivery p.key p.deliveryId with
    | false => rw [handle_effective hpass hd]; rfl
    | true =>
      obtain ⟨row, hrow, hid⟩ := Store.hasDelivery_iff.mp hd
      rw [handle_repeated hpass hrow hid]
      rw [hdemos] at hrow
      rw [if_neg (not_not.mpr (hhash row hrow hid))]
      rfl

/-- The row of an accepted delivery's key carries the delivery. -/
theorem row_of_accepted {app : App} {s : ApiState} {endpoint : Endpoint} {req : HttpRequest} {now later : ℤ}
    {p : Payload app.cm} (hp : app.payload? endpoint req.body = some p)
    (hacc : (app.serve s endpoint req now later).2.1.isAccepted = true) :
    ∃ row, (app.serve s endpoint req now later).1.store.demos.get p.key = some row ∧
      row.deliveryId = p.deliveryId ∧ row.requestHash = sha256 req.body := by
  have hserved := served app s endpoint req now later
  generalize hr : app.serve s endpoint req now later = r at hacc hserved
  obtain ⟨t, answer, es⟩ := r
  cases hserved with
  | quiet _ hn =>
    rw [hn] at hacc
    cases hacc
  | repeated q row hq hrow hid hhash hdemos =>
    obtain rfl := Option.some.inj (hq.payload.symm.trans hp)
    exact ⟨row, by rw [hdemos]; exact hrow, hid, hhash⟩
  | effective q hq _ hdemos =>
    obtain rfl := Option.some.inj (hq.payload.symm.trans hp)
    have hrow := q.get_write_self s.store (sha256 req.body) later
    obtain ⟨hid, hhash, -⟩ := q.rowAfter_delivery (sha256 req.body) later (s.store.demos.get q.key)
    exact ⟨_, by rw [hdemos]; exact hrow, hid, hhash⟩

/-! ### The job's request -/

/-- The URL is the controller's origin, the arguments are valid and the key is the one the
controller has for the repository. -/
structure WorkflowArgs.Fits (app : App) (args : WorkflowArgs) (key : Text) (p : Payload app.cm) : Prop where
  carries : args.Carries app.cm p
  credential : app.credential p.key.1 = some (.text key)
  url : ∃ scheme netloc n, IsOrigin scheme netloc ∧ args.apiUrl = originUrl scheme netloc ++ List.replicate n '/'

/-- What the controller gets of a call. -/
def ClientCall.presented (cm : CaseMapping) (env : Surroundings) (added : List (Text × Text)) (call : ClientCall) :
    Option HttpRequest :=
  (call.sent? cm env).map fun target => (call.request cm env target).delivered added

/-- The clocks of the two sides agree to within the signature's age. -/
structure InTime (app : App) (env : Surroundings) (now : ℤ) : Prop where
  clock : 0 ≤ env.now ∧ (ClientCall.timestamp env).length ≤ 4300
  fresh : (now - env.now).natAbs ≤ app.settings.signatureMaxAgeSeconds

theorem rstrip_replicate {t : Text} {c : Char} (n : ℕ) :
    rstrip (· == c) (t ++ List.replicate n c) = rstrip (· == c) t := by
  induction n with
  | zero => rw [List.replicate_zero, List.append_nil]
  | succ n ih =>
    have hlast : (t ++ List.replicate n c ++ [c]).rdropWhile (· == c) = (t ++ List.replicate n c).rdropWhile (· == c) :=
      List.rdropWhile_concat_pos _ _ _ (beq_self_eq_true c)
    rw [List.replicate_succ', ← List.append_assoc, rstrip, hlast]
    exact ih

theorem rstrip_origin {scheme netloc : Text} (h : IsOrigin scheme netloc) (n : ℕ) :
    rstrip (· == '/') (originUrl scheme netloc ++ List.replicate n '/') = originUrl scheme netloc := by
  have hurl : originUrl scheme netloc = (scheme ++ [':', '/', '/']) ++ netloc := by
    simp only [originUrl, List.append_assoc, List.cons_append, List.nil_append]
  rw [rstrip_replicate, hurl]
  refine rstrip_of_last h.host fun c hc => ?_
  rw [beq_eq_false_iff_ne]
  rintro rfl
  exact absurd (h.netloc _ hc).1 (by decide)

theorem target_of_origin {cm : CaseMapping} {env : Surroundings} {call : ClientCall} {target : SplitResult}
    (hurl : ∃ scheme netloc n, IsOrigin scheme netloc ∧ call.apiUrl = originUrl scheme netloc ++ List.replicate n '/')
    (hpath : IsPath call.path) (h : call.sent? cm env = some target) :
    target.path = call.path ∧ target.query = [] := by
  obtain ⟨scheme, netloc, n, horigin, hapi⟩ := hurl
  obtain ⟨htarget, -⟩ := Option.filter_eq_some_iff.mp h
  rw [ClientCall.target?, hapi, rstrip_origin horigin, urlsplit_origin _ horigin hpath] at htarget
  split at htarget
  · rw [← Option.some.inj htarget]
    exact ⟨rfl, rfl⟩
  · cases htarget

theorem carried {cm : CaseMapping} {args : WorkflowArgs} {p : Payload cm} (h : args.Carries cm p) :
    args.deliveryId = p.deliveryId ∧ args.deliveryId ≠ [] ∧ cm.lower (cm.lower args.repository) = p.key.1 := by
  have hnonempty {id : Text} (hid : isDeliveryId id = true) : id ≠ [] := by
    rintro rfl
    exact absurd hid (by decide)
  unfold WorkflowArgs.Carries at h
  rw [WorkflowArgs.deliveryId]
  split at h
  · next request hop =>
    rw [hop]
    refine ⟨h.2.2.2.2.symm, ?_, ?_⟩
    · exact h.2.2.2.2 ▸ hnonempty request.deliveryId_ok
    · rw [← h.1]
      exact repository_lower_of cm request.repository_ok
  · next request hop =>
    rw [hop]
    refine ⟨h.2.2.symm, ?_, ?_⟩
    · exact h.2.2 ▸ hnonempty request.deliveryId_ok
    · rw [← h.1]
      exact repository_lower_of cm request.repository_ok
  · exact h.elim

theorem delivery_path (args : WorkflowArgs) : IsPath args.path ∧ hasEscape args.path = false := by
  have hdeploy : IsPath "/api/v1/deploy".toList := ⟨rfl, forall_mem_of_all (by decide)⟩
  have hdestroy : IsPath "/api/v1/destroy".toList := ⟨rfl, forall_mem_of_all (by decide)⟩
  rw [WorkflowArgs.path]
  split
  · exact ⟨hdeploy, by decide⟩
  · exact ⟨hdestroy, by decide⟩

/-- The delivery as the controller gets it. -/
structure Presented (app : App) (args : WorkflowArgs) (p : Payload app.cm) (env : Surroundings)
    (req : HttpRequest) : Prop where
  body : req.body = compactJson (args.body app.cm)
  nonce : req.header? "x-demos-nonce" = some p.deliveryId
  target : req.method = app.cm.upper "POST".toList ∧ req.path = args.path
  verified : ∀ now, InTime app env now → app.verify req now = .ok p.key.1

theorem presented_delivery {app : App} (upper : UpperIdempotent app.cm) {args : WorkflowArgs} {key : Text}
    {p : Payload app.cm} (fits : args.Fits app key p) {env : Surroundings} {added : List (Text × Text)}
    {req : HttpRequest} (h : (args.delivery app.cm key).presented app.cm env added = some req) :
    Presented app args p env req := by
  obtain ⟨target, hsent, rfl⟩ := Option.map_eq_some_iff.mp h
  obtain ⟨hid, hnonempty, hrepo⟩ := carried fits.carries
  obtain ⟨hpath, hescape⟩ := delivery_path args
  obtain ⟨htarget, hquery⟩ := target_of_origin fits.url hpath hsent
  have hplain : PlainTarget target := by
    refine ⟨?_, hquery, ?_⟩
    · rw [htarget]
      intro hnil
      have hslash := hpath.slash
      rw [show args.path = [] from hnil] at hslash
      cases hslash
    · rw [htarget]
      exact hescape
  have hnonce : (args.delivery app.cm key).nonceText env = args.deliveryId := by
    cases hd : args.deliveryId with
    | nil => exact absurd hd hnonempty
    | cons c t =>
      rw [ClientCall.nonceText, WorkflowArgs.delivery, hd]
  refine ⟨delivered_body env _ target added, ?_, ⟨rfl, ?_⟩, fun now htime => ?_⟩
  · rw [← hid, ← hnonce]
    rfl
  · have hunquote := (@requestTarget_iff app env (args.delivery app.cm key) target added).mpr hplain
    rw [← hunquote, ClientCall.requestTarget, if_pos hquery, htarget]
    rfl
  · have hverified := @client_request_verifies app env (args.delivery app.cm key) target added upper hplain
      (by rw [show (args.delivery app.cm key).repository = app.cm.lower args.repository from rfl, hrepo]
          exact fits.credential) htime.clock now htime.fresh
    rw [hverified]
    exact congrArg Except.ok hrepo

/-! ### A job -/

/-- A parser that is `json.loads` throughout. -/
def loadsPydantic : Pydantic where
  parseObject body := ((decode body).bind loads).bind fun
    | .obj fields => some fields
    | _ => none
  laxInt
    | .int n => some n
    | .str t => pyInt t
    | _ => none
  intError _ := "Input should be a valid integer".toList

theorem readsFlat_loads : loadsPydantic.ReadsFlat := by
  refine ⟨fun t fields h _ => ?_, fun n => rfl⟩
  rw [loadsPydantic]
  dsimp only
  rw [decode_eq_some_iff.mpr rfl, Option.bind_some, h, Option.bind_some]

def workflowApp : App := { exampleApp with pd := loadsPydantic }

def exampleArgs : WorkflowArgs where
  apiUrl := "https://demos.test/".toList
  repository := "Canonical/Example".toList
  prNumber := 8
  operation := .deploy (List.replicate 40 'A') exampleImage.toList "delivery-1".toList

theorem exampleImage_ok : imageRepository (workflowApp.cm.lower exampleImage.toList) =
    some "canonical/example".toList := by
  decide

theorem exampleDelivery_ok : isDeliveryId "delivery-1".toList = true := by decide

def exampleRequest : DeployRequest workflowApp.cm where
  repository := "canonical/example".toList
  pr := 8
  commitSha := List.replicate 40 'a'
  image := exampleImage.toList
  deliveryId := "delivery-1".toList
  repository_ok := exampleDeploy.repository_ok
  pr_ok := exampleDeploy.pr_ok
  commitSha_ok := exampleDeploy.commitSha_ok
  image_ok := exampleImage_ok
  deliveryId_ok := exampleDelivery_ok

theorem exampleOrigin : IsOrigin "https".toList "demos.test".toList := by
  refine ⟨by decide, by decide, by decide, fun c hc => ?_⟩
  have hall : "demos.test".toList.all (fun c => !isNetlocEnd c && !isUnsafe c) = true := by decide
  have hc' := List.all_eq_true.mp hall c hc
  rwa [Bool.and_eq_true, Bool.not_eq_true', Bool.not_eq_true'] at hc'

theorem exampleArgs_fits : exampleArgs.Fits workflowApp "repository-key".toList (.deploy exampleRequest) := by
  exact ⟨⟨rfl, rfl, rfl, rfl, rfl⟩, by decide, "https".toList, "demos.test".toList, 1, exampleOrigin, rfl⟩

def exampleDelivery : HttpRequest :=
  ((exampleArgs.delivery .ascii "repository-key".toList).request .ascii workflowRunner
    (pollTarget "/api/v1/deploy")).delivered []

theorem exampleDelivery_sent : (exampleArgs.delivery workflowApp.cm "repository-key".toList).presented workflowApp.cm
    workflowRunner [] = some exampleDelivery := by
  have hsent : (exampleArgs.delivery workflowApp.cm "repository-key".toList).sent? workflowApp.cm workflowRunner =
      some (pollTarget "/api/v1/deploy") := by decide +kernel
  rw [ClientCall.presented, hsent]
  rfl

theorem exampleDelivery_size : workflowApp.bodyLimit exampleDelivery = none := by decide +kernel

theorem inTime_example : InTime workflowApp workflowRunner 1700000003 := ⟨by decide, by decide⟩

theorem exampleDelivery_accepted :
    (workflowApp.serve ApiState.empty exampleArgs.endpoint exampleDelivery 1700000003 1700000003).2.1.isAccepted =
      true := by
  have hreq := presented_delivery upperIdempotent_ascii exampleArgs_fits exampleDelivery_sent
  have hpayload : workflowApp.payload? exampleArgs.endpoint exampleDelivery.body = some (.deploy exampleRequest) := by
    rw [hreq.body]
    exact payload_of_body readsFlat_loads exampleArgs_fits.carries
  refine (serve_accepted_iff hpayload).mpr ⟨⟨exampleDelivery_size, hreq.verified _ inTime_example, ?_, hpayload, ?_,
    hreq.nonce⟩, fun row hrow => by cases hrow⟩
  · exact ⟨by decide, by decide +kernel, fun row hrow => absurd hrow List.not_mem_nil⟩
  · intro request hrequest
    cases hrequest
    decide

/-! ### What the controller answers -/

/-- A delivery in time is accepted unless it is too large, its image is not the
repository's, the rate limit or the nonce refuse it, or the row has it for another body;
the row then carries it. -/
theorem client_delivery_accepted_iff {app : App} (upper : UpperIdempotent app.cm) (pydantic : app.pd.ReadsFlat)
    {args : WorkflowArgs} {key : Text} {p : Payload app.cm} (fits : args.Fits app key p) {env : Surroundings}
    {added : List (Text × Text)} {req : HttpRequest}
    (sent : (args.delivery app.cm key).presented app.cm env added = some req) (s : ApiState) {now : ℤ} (later : ℤ)
    (time : InTime app env now) :
    ((app.serve s args.endpoint req now later).2.1.isAccepted = true ↔ app.bodyLimit req = none ∧
      (∀ request, p = .deploy request →
        (app.authorizedImage request.repository).isPrefixOf (app.cm.lower request.image) = true) ∧
      App.Unused app s p.key.1 req now ∧
      ∀ row, s.store.demos.get p.key = some row → row.deliveryId = p.deliveryId → row.requestHash = sha256 req.body) ∧
    ((app.serve s args.endpoint req now later).2.1.isAccepted = true →
      ∃ row, (app.serve s args.endpoint req now later).1.store.demos.get p.key = some row ∧
        row.deliveryId = p.deliveryId ∧ row.requestHash = sha256 (compactJson (args.body app.cm))) := by
  have hreq := presented_delivery upper fits sent
  have hpayload : app.payload? args.endpoint req.body = some p := by
    rw [hreq.body]
    exact payload_of_body pydantic fits.carries
  refine ⟨?_, fun hacc => ?_⟩
  · rw [serve_accepted_iff hpayload]
    constructor
    · rintro ⟨hadm, hhash⟩
      exact ⟨hadm.size, hadm.registry, hadm.unused, hhash⟩
    · rintro ⟨hsize, hregistry, hunused, hhash⟩
      exact ⟨⟨hsize, hreq.verified now time, hunused, hpayload, hregistry, hreq.nonce⟩, hhash⟩
  · rw [← hreq.body]
    exact row_of_accepted hpayload hacc

theorem client_delivery_accepted_iff_example : ∃ row,
    (workflowApp.serve ApiState.empty exampleArgs.endpoint exampleDelivery 1700000003 1700000003).1.store.demos.get
        (Payload.deploy exampleRequest).key = some row ∧
      row.deliveryId = (Payload.deploy exampleRequest).deliveryId ∧
      row.requestHash = sha256 (compactJson (exampleArgs.body workflowApp.cm)) :=
  (client_delivery_accepted_iff upperIdempotent_ascii readsFlat_loads exampleArgs_fits exampleDelivery_sent
    ApiState.empty 1700000003 inTime_example).2 exampleDelivery_accepted

/-! ### Retries -/

/-- The bytes whose hash the controller keeps with the nonce. -/
def WorkflowArgs.fingerprint (app : App) (args : WorkflowArgs) (p : Payload app.cm) : Bytes :=
  joinLines [encode p.key.1, encode (app.cm.upper (app.cm.upper "POST".toList)), encode args.path,
    encode p.deliveryId, compactJson (args.body app.cm)]

/-- The row of the key carries the delivery, and so does the nonce as far as it is bound. -/
structure Standing (app : App) (args : WorkflowArgs) (p : Payload app.cm) (s : ApiState) : Prop where
  row : ∃ row, s.store.demos.get p.key = some row ∧ row.deliveryId = p.deliveryId ∧
    row.requestHash = sha256 (compactJson (args.body app.cm))
  nonce : ∀ n, s.store.nonces.get (p.key.1, p.deliveryId) = some n →
    n.requestFingerprint = sha256 (args.fingerprint app p)

section

variable {app : App} {args : WorkflowArgs} {p : Payload app.cm} {env : Surroundings} {req : HttpRequest}

theorem Presented.header (h : Presented app args p env req) : req.header "x-demos-nonce" = p.deliveryId := by
  rw [HttpRequest.header, h.nonce]
  rfl

theorem Presented.fingerprint (h : Presented app args p env req) :
    app.requestFingerprint p.key.1 req = args.fingerprint app p := by
  rw [App.requestFingerprint, h.body, h.header, h.target.1, h.target.2, WorkflowArgs.fingerprint]

/-- What the nonce table holds for the delivery after a request with it. -/
theorem used_fingerprint {s : ApiState} (hreq : Presented app args p env req) {now : ℤ} {n : NonceRow}
    (hrepo : p.key.1 = app.repositoryOf req)
    (hbound : ∀ m, s.store.nonces.get (p.key.1, p.deliveryId) = some m →
      now - app.settings.signatureMaxAgeSeconds * 2 ≤ m.seenAt →
      m.requestFingerprint = sha256 (args.fingerprint app p))
    (hn : (app.use s req now).1.nonces.get (p.key.1, p.deliveryId) = some n) :
    n.requestFingerprint = sha256 (args.fingerprint app p) := by
  have hself := get_useNonce_self s.store (app.repositoryOf req) (req.header "x-demos-nonce")
    (sha256 (app.fingerprint req)) now (app.settings.signatureMaxAgeSeconds * 2)
  rw [App.use, hrepo, ← hreq.header, hself] at hn
  rw [← Option.some.inj hn]
  cases hf : (s.store.nonces.get (app.repositoryOf req, req.header "x-demos-nonce")).filter fun r =>
      decide (now - app.settings.signatureMaxAgeSeconds * 2 ≤ r.seenAt) with
  | none => rw [Option.getD_none, App.fingerprint, ← hrepo, hreq.fingerprint]
  | some m =>
    obtain ⟨hm, hyoung⟩ := Option.filter_eq_some_iff.mp hf
    rw [Option.getD_some]
    refine hbound m ?_ (of_decide_eq_true hyoung)
    rw [hrepo, ← hreq.header]
    exact hm

theorem nonces_write {cm : CaseMapping} (s : Store) (p : Payload cm) (hash : Text) (now : ℤ) :
    (p.write s hash now).nonces = s.nonces := by
  cases p with
  | deploy request => rfl
  | destroy request => rfl

theorem serve_nonces {s : ApiState} {endpoint : Endpoint} {now later : ℤ} (hadm : Admitted app s endpoint req now p) :
    (app.serve s endpoint req now later).1.store.nonces = (app.use s req now).1.nonces := by
  obtain ⟨size, hauth, hpass⟩ := admitted_iff.mp hadm
  have hused := authenticated app s req now
  rw [hauth] at hused
  cases hused with
  | used _ _ hstore _ =>
    rw [← hstore]
    simp only [App.serve, size, hauth]
    cases hd : (app.authenticate s req now).1.store.hasDelivery p.key p.deliveryId with
    | false =>
      rw [handle_effective hpass hd]
      exact nonces_write ..
    | true =>
      obtain ⟨row, hrow, hid⟩ := Store.hasDelivery_iff.mp hd
      rw [handle_repeated hpass hrow hid]
      split
      · rfl
      · rfl

/-- An accepted delivery stands. -/
theorem Presented.stands (hreq : Presented app args p env req) (pydantic : app.pd.ReadsFlat)
    (carries : args.Carries app.cm p) {s : ApiState} {now later : ℤ}
    (hacc : (app.serve s args.endpoint req now later).2.1.isAccepted = true) :
    Standing app args p (app.serve s args.endpoint req now later).1 := by
  have hpayload : app.payload? args.endpoint req.body = some p := by
    rw [hreq.body]
    exact payload_of_body pydantic carries
  obtain ⟨hadm, -⟩ := (serve_accepted_iff hpayload).mp hacc
  have hrow := row_of_accepted hpayload hacc
  rw [hreq.body] at hrow
  refine ⟨hrow, fun n hn => ?_⟩
  rw [serve_nonces hadm] at hn
  refine used_fingerprint hreq (App.repository_of_verify hadm.verified) (fun m hm hyoung => ?_) hn
  obtain ⟨hmem, hkey⟩ := Table.get_eq_some_iff.mp hm
  rw [← hreq.fingerprint]
  exact hadm.unused.binding m hmem (by rw [hkey, hreq.header]) hyoung

theorem Standing.unused {s : ApiState} (h : Standing app args p s) (hreq : Presented app args p env req) {now : ℤ}
    (hnonempty : p.deliveryId ≠ [])
    (hrate : (App.recent s.requests p.key.1 now).length < app.settings.rateLimitPerMinute) :
    App.Unused app s p.key.1 req now := by
  refine ⟨hrate, by rw [hreq.header]; exact hnonempty, fun row hrow hkey _ => ?_⟩
  rw [hreq.fingerprint]
  refine h.nonce row ?_
  rw [← hreq.header, ← hkey]
  exact Table.get_of_mem hrow

def rateExceeded : Response := .rejected 429 "rate limit exceeded".toList

theorem Standing.retry {s : ApiState} (h : Standing app args p s) (pydantic : app.pd.ReadsFlat)
    (carries : args.Carries app.cm p)
    (registry : ∀ request, p = .deploy request →
      (app.authorizedImage request.repository).isPrefixOf (app.cm.lower request.image) = true)
    (hreq : Presented app args p env req) {now : ℤ} (later : ℤ) (time : InTime app env now)
    (size : app.bodyLimit req = none) :
    Standing app args p (app.serve s args.endpoint req now later).1 ∧
      (app.serve s args.endpoint req now later).1.store.demos = s.store.demos ∧
      ((app.serve s args.endpoint req now later).2.1.isAccepted = true ∨
        (app.serve s args.endpoint req now later).2.1 = rateExceeded) := by
  obtain ⟨hid, hnonempty, -⟩ := carried carries
  have hverify := hreq.verified now time
  have hdemos := app.authenticate_demos s req now
  by_cases hrate : app.settings.rateLimitPerMinute ≤ (App.recent s.requests p.key.1 now).length
  · have hauth : app.authenticate s req now =
        (⟨s.store, (app.checkRate s.requests p.key.1 now).1⟩, .error rateExceeded) := by
      simp only [App.authenticate, hverify, App.checkUse, App.checkRate, if_pos hrate]
      rfl
    simp only [App.serve, size, hauth]
    exact ⟨⟨h.row, h.nonce⟩, trivial, .inr trivial⟩
  · have hunused : App.Unused app s p.key.1 req now := h.unused hreq (hid ▸ hnonempty) (not_le.mp hrate)
    have hauth := (App.authenticate_ok_iff s req now p.key.1).mpr ⟨hverify, hunused⟩
    have hpayload : app.payload? args.endpoint req.body = some p := by
      rw [hreq.body]
      exact payload_of_body pydantic carries
    obtain ⟨row, hrow, hrid, hhash⟩ := h.row
    have hhandled := @handle_repeated app _ _ req p later ⟨hpayload, registry, hreq.nonce⟩ _ (hdemos ▸ hrow) hrid
    rw [hreq.body, if_neg (not_not.mpr hhash)] at hhandled
    simp only [App.serve, size, hauth, hhandled]
    refine ⟨⟨⟨row, hdemos ▸ hrow, hrid, hhash⟩, fun n hn => ?_⟩, hdemos, .inl rfl⟩
    have hused := authenticated app s req now
    rw [hauth] at hused
    cases hused with
    | used _ _ hstore _ =>
      rw [hstore] at hn
      exact used_fingerprint hreq (App.repository_of_verify hverify) (fun m hm _ => h.nonce m hm) hn

end

/-- One attempt of the job after the other: its request and the clock readings of the
controller. -/
def App.attempts (app : App) (endpoint : Endpoint) : List (HttpRequest × ℤ × ℤ) → ApiState → ApiState × List Response
  | [], s => (s, [])
  | (req, now, later) :: rest, s =>
    let served := app.serve s endpoint req now later
    let others := app.attempts endpoint rest served.1
    (others.1, served.2.1 :: others.2)

theorem Standing.attempts {app : App} (upper : UpperIdempotent app.cm) (pydantic : app.pd.ReadsFlat)
    {args : WorkflowArgs} {key : Text} {p : Payload app.cm} (fits : args.Fits app key p)
    (registry : ∀ request, p = .deploy request →
      (app.authorizedImage request.repository).isPrefixOf (app.cm.lower request.image) = true)
    {retries : List (HttpRequest × ℤ × ℤ)}
    (sent : ∀ r ∈ retries, app.bodyLimit r.1 = none ∧ ∃ env added, InTime app env r.2.1 ∧
      (args.delivery app.cm key).presented app.cm env added = some r.1)
    {s : ApiState} (standing : Standing app args p s) :
    (app.attempts args.endpoint retries s).1.store.demos = s.store.demos ∧
      ∀ r ∈ (app.attempts args.endpoint retries s).2, r.isAccepted = true ∨ r = rateExceeded := by
  induction retries generalizing s with
  | nil => exact ⟨rfl, fun r hr => absurd hr List.not_mem_nil⟩
  | cons r rest ih =>
    obtain ⟨req, now, later⟩ := r
    obtain ⟨size, env, added, time, hsent⟩ := sent _ (List.mem_cons_self ..)
    have hreq := presented_delivery upper fits hsent
    obtain ⟨hstanding, hdemos, hanswer⟩ :=
      standing.retry pydantic fits.carries registry hreq later time size
    obtain ⟨hrest, hothers⟩ := ih (fun q hq => sent q (List.mem_cons_of_mem _ hq)) hstanding
    refine ⟨hrest.trans hdemos, fun q hq => ?_⟩
    rcases List.mem_cons.mp hq with rfl | hq
    · exact hanswer
    · exact hothers q hq

/-- However often the job is run again after an accepted delivery, the demos stay as the
delivery left them, and each attempt is accepted or meets the rate limit. -/
theorem client_retries {app : App} (upper : UpperIdempotent app.cm) (pydantic : app.pd.ReadsFlat)
    {args : WorkflowArgs} {key : Text} {p : Payload app.cm} (fits : args.Fits app key p)
    {first : HttpRequest} {s : ApiState} {now later : ℤ}
    (sentFirst : ∃ env added, (args.delivery app.cm key).presented app.cm env added = some first)
    (accepted : (app.serve s args.endpoint first now later).2.1.isAccepted = true)
    {retries : List (HttpRequest × ℤ × ℤ)}
    (sent : ∀ r ∈ retries, app.bodyLimit r.1 = none ∧ ∃ env added, InTime app env r.2.1 ∧
      (args.delivery app.cm key).presented app.cm env added = some r.1) :
    (app.attempts args.endpoint retries (app.serve s args.endpoint first now later).1).1.store.demos =
        (app.serve s args.endpoint first now later).1.store.demos ∧
      ∀ r ∈ (app.attempts args.endpoint retries (app.serve s args.endpoint first now later).1).2,
        r.isAccepted = true ∨ r = rateExceeded := by
  obtain ⟨env, added, hsent⟩ := sentFirst
  have hreq := presented_delivery upper fits hsent
  have hpayload : app.payload? args.endpoint first.body = some p := by
    rw [hreq.body]
    exact payload_of_body pydantic fits.carries
  obtain ⟨hadm, -⟩ := (serve_accepted_iff hpayload).mp accepted
  exact (hreq.stands pydantic fits.carries accepted).attempts upper pydantic fits hadm.registry sent

/-- The same request once more, and the job run again. -/
def exampleRetries : List (HttpRequest × ℤ × ℤ) :=
  [(exampleDelivery, 1700000004, 1700000004), (exampleDelivery, 1700000070, 1700000071)]

theorem client_retries_example :
    let t := (workflowApp.serve ApiState.empty exampleArgs.endpoint exampleDelivery 1700000003 1700000003).1
    (workflowApp.attempts exampleArgs.endpoint exampleRetries t).1.store.demos = t.store.demos ∧
      ∀ r ∈ (workflowApp.attempts exampleArgs.endpoint exampleRetries t).2, r.isAccepted = true ∨ r = rateExceeded := by
  refine client_retries upperIdempotent_ascii readsFlat_loads exampleArgs_fits
    ⟨workflowRunner, [], exampleDelivery_sent⟩ exampleDelivery_accepted ?_
  intro r hr
  rcases List.mem_cons.mp hr with rfl | hr
  · exact ⟨exampleDelivery_size, workflowRunner, [], ⟨by decide, by decide⟩, exampleDelivery_sent⟩
  · rw [List.mem_singleton.mp hr]
    exact ⟨exampleDelivery_size, workflowRunner, [], ⟨by decide, by decide⟩, exampleDelivery_sent⟩

end DemoController
