import DemoController.WorkflowPoll

/-!
# The status request of a job

`poll` quotes the parts of the repository into the path, urllib sends the path, the server
unquotes it and the API splits it again: the request is for the demo of the job.
-/

namespace DemoController

open Lib

/-! ### Routing -/

/-- `/api/v1/demos/(?P<owner>[^/]+)/(?P<name>[^/]+)/(?P<pr>[^/]+)`. -/
def statusRoute (path : Text) : Option Endpoint :=
  let root := "/api/v1/demos/".toList
  if root.isPrefixOf path then
    match (path.drop root.length).splitOn '/' with
    | [owner, name, pr] => if owner = [] ∨ name = [] ∨ pr = [] then none else some (.demoStatus owner name pr)
    | _ => none
  else none

/-- The handler of the API a request is for. -/
def route (req : HttpRequest) : Option Endpoint :=
  if req.method = "POST".toList ∧ req.path = "/api/v1/deploy".toList then some .deploy
  else if req.method = "POST".toList ∧ req.path = "/api/v1/destroy".toList then some .destroy
  else if req.method = "GET".toList then statusRoute req.path
  else none

def isUnreserved (c : Char) : Bool := c.isAlphanum || c == '_' || c == '.' || c == '-' || c == '~'

/-- `urllib.parse.quote(part, safe="")`. -/
def quotePart (part : Text) : Text := part.flatMap (quoteChar isUnreserved)

namespace WorkflowArgs

variable (cm : CaseMapping) (args : WorkflowArgs)

def encodedRepository : Text := ['/'].intercalate (((cm.lower args.repository).splitOn '/').map quotePart)

def statusPath : Text := "/api/v1/demos/".toList ++ (args.encodedRepository cm ++ ['/'] ++ decimal args.prNumber)

/-- The request of `poll`. -/
def statusCall (key : Text) : ClientCall where
  apiUrl := args.apiUrl
  method := "GET".toList
  path := args.statusPath cm
  repository := cm.lower args.repository
  key

def desiredAbsence : Bool :=
  match args.operation with
  | .deploy _ _ _ => false
  | .destroy _ => true

end WorkflowArgs

theorem segment_unreserved {n : ℕ} {part : Text} (h : isSegment n part = true) : quotePart part = part := by
  have hchar : ∀ c ∈ part, quoteChar isUnreserved c = [c] := by
    intro c hc
    have hsegment := segment_chars h c hc
    refine if_pos ?_
    simp only [isSegmentChar, isAlnum, Bool.or_eq_true] at hsegment
    have hunfold : isUnreserved c =
        (c.isUpper || c.isLower || c.isDigit || c == '_' || c == '.' || c == '-' || c == '~') := rfl
    simp only [hunfold, Bool.or_eq_true]
    tauto
  rw [quotePart, List.flatMap_congr hchar]
  exact List.flatMap_singleton' part

theorem segment_ne_slash {n : ℕ} {part : Text} (h : isSegment n part = true) : part ≠ [] ∧ '/' ∉ part := by
  constructor
  · rintro rfl
    cases h
  · intro hc
    exact absurd (segment_chars h _ hc) (by decide)

theorem statusPath_eq {cm : CaseMapping} {args : WorkflowArgs} {owner name : Text}
    (hrepo : cm.lower args.repository = owner ++ '/' :: name) (howner : isSegment 38 owner = true)
    (hname : isSegment 99 name = true) :
    args.statusPath cm = "/api/v1/demos/".toList ++ (owner ++ '/' :: (name ++ '/' :: decimal args.prNumber)) := by
  have hencoded : args.encodedRepository cm = owner ++ '/' :: name := by
    rw [WorkflowArgs.encodedRepository, hrepo, List.splitOn_append_cons_self_of_not_mem (segment_ne_slash howner).2,
      List.splitOn_eq_singleton (segment_ne_slash hname).2, List.map_cons, List.map_singleton,
      segment_unreserved howner, segment_unreserved hname, List.intercalate_cons_cons, List.intercalate_singleton,
      List.append_assoc, List.singleton_append]
  have hrest : args.encodedRepository cm ++ ['/'] ++ decimal args.prNumber =
      owner ++ '/' :: (name ++ '/' :: decimal args.prNumber) := by
    rw [hencoded, List.append_assoc, List.append_assoc, List.cons_append, List.singleton_append]
  exact congrArg ("/api/v1/demos/".toList ++ ·) hrest

/-- The characters of a status path. -/
theorem statusPath_chars {cm : CaseMapping} {args : WorkflowArgs} {owner name : Text} (hpr : 0 ≤ args.prNumber)
    (hrepo : cm.lower args.repository = owner ++ '/' :: name) (howner : isSegment 38 owner = true)
    (hname : isSegment 99 name = true) : ∀ c ∈ args.statusPath cm, isImageChar c = true := by
  have hroot : ∀ c ∈ "/api/v1/demos/".toList, isImageChar c = true := forall_mem_of_all (by decide)
  have hsegment {n : ℕ} {part : Text} (h : isSegment n part = true) : ∀ c ∈ part, isImageChar c = true := by
    intro c hc
    rw [isImageChar, segment_chars h c hc]
    rfl
  rw [statusPath_eq hrepo howner hname]
  simp only [List.mem_append, List.mem_cons]
  rintro c (hc | hc | rfl | hc | rfl | hc)
  · exact hroot c hc
  · exact hsegment howner c hc
  · rfl
  · exact hsegment hname c hc
  · rfl
  · rw [isImageChar, isSegmentChar, isAlnum, decimal_digits hpr c hc, Bool.or_true]
    rfl

theorem hasEscape_of_notMem {t : Text} (h : '%' ∉ t) : hasEscape t = false := by
  induction t with
  | nil => rfl
  | cons c t ih =>
    obtain ⟨hc, ht⟩ := not_or.mp fun hm => h (List.mem_cons.mpr hm)
    rw [hasEscape, ih ht, Bool.or_false]
    cases he : escaped? Char.toNat (c :: t) with
    | none => rfl
    | some v =>
      obtain ⟨p, x, y, rest, -, -, hsplit, hp, -⟩ := escaped_eq_some he
      obtain ⟨rfl, -⟩ := List.cons.inj hsplit
      have hpercent : c = '%' := by
        rw [← Char.ofNat_toNat c, hp]
      exact absurd hpercent.symm hc

theorem statusRoute_append {owner name pr : Text} (howner : owner ≠ [] ∧ '/' ∉ owner)
    (hname : name ≠ [] ∧ '/' ∉ name) (hpr : pr ≠ [] ∧ '/' ∉ pr) :
    statusRoute ("/api/v1/demos/".toList ++ (owner ++ '/' :: (name ++ '/' :: pr))) =
      some (.demoStatus owner name pr) := by
  unfold statusRoute
  generalize "/api/v1/demos/".toList = root
  dsimp only
  rw [if_pos (List.isPrefixOf_iff_prefix.mpr (List.prefix_append ..)), List.drop_left,
    List.splitOn_append_cons_self_of_not_mem howner.2, List.splitOn_append_cons_self_of_not_mem hname.2,
    List.splitOn_eq_singleton hpr.2]
  exact if_neg (by tauto)

theorem Payload.key_ok {cm : CaseMapping} (p : Payload cm) :
    isRepository p.key.1 = true ∧ 1 ≤ p.key.2 ∧ p.key.2 ≤ 2147483647 := by
  cases p with
  | deploy request => exact ⟨request.repository_ok, request.pr_ok⟩
  | destroy request => exact ⟨request.repository_ok, request.pr_ok⟩

section

variable {app : App} {args : WorkflowArgs} {key : Text} {p : Payload app.cm} {env : Surroundings}
  {added : List (Text × Text)} {req : HttpRequest}

/-- The status request of a job is answered by the handler of its own demo. -/
theorem presented_status (get : app.cm.upper "GET".toList = "GET".toList) (fits : args.Fits app key p)
    (h : (args.statusCall app.cm key).presented app.cm env added = some req) :
    ∃ owner name, route req = some (.demoStatus owner name (decimal args.prNumber)) ∧
      app.cm.lower (owner ++ "/".toList ++ name) = p.key.1 := by
  obtain ⟨target, hsent, rfl⟩ := Option.map_eq_some_iff.mp h
  have hkey := (carried_pr fits.carries).1
  have hpos : 0 ≤ args.prNumber := by
    have := (carried_pr fits.carries).2
    omega
  obtain ⟨owner, name, hrepo, howner, hname⟩ := repository_parts p.key_ok.1
  have hlower : app.cm.lower args.repository = owner ++ '/' :: name := by rw [← hrepo, hkey]
  have hpath := statusPath_eq hlower howner hname
  have hchars := statusPath_chars hpos hlower howner hname
  have hbad {c : Char} (hc : isImageChar c = false) : c ∉ args.statusPath app.cm := fun hm => by
    rw [hchars c hm] at hc
    cases hc
  have hispath : IsPath (args.statusPath app.cm) := by
    refine ⟨by rw [hpath]; rfl, fun c hc => ⟨?_, ?_, ?_⟩⟩
    · rintro rfl
      exact hbad (by decide) hc
    · rintro rfl
      exact hbad (by decide) hc
    · rw [Bool.eq_false_iff]
      intro hunsafe
      simp only [isUnsafe, Bool.or_eq_true, beq_iff_eq] at hunsafe
      rcases hunsafe with (rfl | rfl) | rfl
      all_goals exact hbad (by decide) hc
  obtain ⟨htarget, hquery⟩ := target_of_origin fits.url hispath hsent
  have hplain : PlainTarget target := by
    refine ⟨?_, hquery, ?_⟩
    · intro hnil
      have hslash := hispath.slash
      rw [← show target.path = args.statusPath app.cm from htarget, hnil] at hslash
      cases hslash
    · rw [htarget]
      exact hasEscape_of_notMem (hbad (by decide))
  have hunquote := (@requestTarget_iff app env (args.statusCall app.cm key) target added).mpr hplain
  rw [ClientCall.requestTarget, if_pos hquery, htarget] at hunquote
  refine ⟨owner, name, ?_, ?_⟩
  · have hmethod : (((args.statusCall app.cm key).request app.cm env target).delivered added).method =
        "GET".toList := get
    have hpost : "GET".toList ≠ "POST".toList := by decide
    rw [route, hmethod, if_neg fun hc => hpost hc.1, if_neg fun hc => hpost hc.1, if_pos rfl, ← hunquote]
    change statusRoute (args.statusPath app.cm) = _
    rw [hpath]
    exact statusRoute_append (segment_ne_slash howner) (segment_ne_slash hname) ⟨decimal_ne_nil hpos, fun hc =>
      absurd (decimal_digits hpos _ hc) (by decide)⟩
  · have hslash : owner ++ "/".toList ++ name = owner ++ '/' :: name := List.append_assoc ..
    rw [hslash, ← hlower]
    exact (carried fits.carries).2.2

theorem presented_delivery_route (post : app.cm.upper "POST".toList = "POST".toList)
    (hreq : Presented app args p env req) : route req = some args.endpoint := by
  rw [route, hreq.target.1, hreq.target.2, post, WorkflowArgs.path, WorkflowArgs.endpoint]
  cases args.operation with
  | deploy commitSha image deliveryId => exact if_pos ⟨rfl, rfl⟩
  | destroy deliveryId =>
    have hpath : "/api/v1/destroy".toList ≠ "/api/v1/deploy".toList := by decide
    dsimp only
    rw [if_neg fun hc => hpath hc.2]
    exact if_pos ⟨rfl, rfl⟩

end

end DemoController
