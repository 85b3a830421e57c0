import DemoController.Images
import DemoController.Proxy

/-!
# What the proxy keeps of a request and of a response

The headers of the request go through a dictionary, which keeps one value for each
name. Those of the response are kept line by line, with the body that httpx has
decoded already.
-/

namespace DemoController

open Lib

variable {app : App} {hx : Httpx} {s : Store} {req : BrowserRequest} {path : Text}

/-! ### The headers of the request -/

def reservedNames : List Text :=
  ["host".toList, "content-length".toList, "connection".toList, "x-forwarded-host".toList]

/-- The lines that are to reach the workload. -/
def BrowserRequest.forwarded (req : BrowserRequest) : List (Text × Text) :=
  req.items.filter fun h => !reservedNames.contains h.1

/-- Every line arrives as often as it was sent, with one line for each name of the host. -/
structure HeadersKept (app : App) (req : BrowserRequest) (sent : List (Text × Text)) : Prop where
  lines : ∀ h, h.1 ∉ reservedNames → sent.count h = req.items.count h
  host : sent.filter (fun h => h.1 = "host".toList) = [("host".toList, app.requestedHost req)]
  forwardedHost : sent.filter (fun h => h.1 = "x-forwarded-host".toList) =
    [("x-forwarded-host".toList, app.requestedHost req)]

theorem isLowerAscii_toLower {c : Char} (h : c.toNat < 128) : IsLowerAscii c.toLower := by
  have hshift : ('a'.val - 'A'.val).toNat = 32 := by decide
  unfold Char.toLower
  split
  · next hletter =>
    have hlow : 65 ≤ c.val.toNat := UInt32.le_iff_toNat_le.mp hletter.1
    have hhigh : c.val.toNat ≤ 90 := UInt32.le_iff_toNat_le.mp hletter.2
    have hsum : (c.val + ('a'.val - 'A'.val)).toNat = c.val.toNat + 32 := by
      rw [UInt32.toNat_add, hshift]
      omega
    refine ⟨hsum.trans_lt (by omega), isUpper_eq_false_iff.mpr fun hu => ?_⟩
    have hz : (c.val + ('a'.val - 'A'.val)).toNat ≤ 90 := UInt32.le_iff_toNat_le.mp hu.2
    omega
  · next hother => exact ⟨h, isUpper_eq_false_iff.mpr hother⟩

theorem lower_item (cm : CaseMapping) {h : Text × Text} (hh : h ∈ req.items) : cm.lower h.1 = h.1 := by
  obtain ⟨g, hg, rfl⟩ := List.mem_map.mp hh
  refine lower_of_ascii cm fun c hc => ?_
  obtain ⟨d, hd, rfl⟩ := List.mem_map.mp hc
  exact isLowerAscii_toLower (req.names_ok g hg d hd)

theorem filter_upstreamHeaders (q : Text → Bool) (hhost : q "host".toList = false)
    (hfor : q "x-forwarded-host".toList = false) :
    (app.upstreamHeaders req).filter (fun h => q h.1) = Dict.ofItems (req.items.filter fun h =>
      q h.1 && decide (h.1 ∉ ["host".toList, "content-length".toList, "connection".toList])) := by
  have hnames : (req.items.filter fun h =>
      app.cm.lower h.1 ∉ ["host".toList, "content-length".toList, "connection".toList]) =
      req.items.filter fun h => h.1 ∉ ["host".toList, "content-length".toList, "connection".toList] :=
    List.filter_congr fun h hh => by rw [lower_item app.cm hh]
  unfold App.upstreamHeaders
  dsimp only
  rw [Dict.filter_set, if_neg (by rw [hfor]; exact Bool.false_ne_true), Dict.filter_set,
    if_neg (by rw [hhost]; exact Bool.false_ne_true), hnames, Dict.filter_ofItems, List.filter_filter]

theorem forwarded_eq (req : BrowserRequest) : req.forwarded = req.items.filter fun h => h.1 ∉ reservedNames := by
  refine List.filter_congr fun h _ => ?_
  rw [List.contains_eq_mem, decide_not]

theorem filter_forwarded (app : App) (req : BrowserRequest) :
    (app.upstreamHeaders req).filter (fun h => h.1 ∉ reservedNames) = Dict.ofItems req.forwarded := by
  rw [filter_upstreamHeaders (fun n => n ∉ reservedNames) rfl rfl, forwarded_eq]
  refine congrArg _ (List.filter_congr fun h _ => ?_)
  by_cases hr : h.1 ∈ reservedNames
  · simp only [hr, not_true_eq_false, decide_false, Bool.false_and]
  · have hsub : h.1 ∉ ["host".toList, "content-length".toList, "connection".toList] := fun hin => by
      refine hr ?_
      simp only [reservedNames, List.mem_cons, List.not_mem_nil, or_false] at hin ⊢
      tauto
    simp only [hr, hsub, not_false_eq_true, decide_true, Bool.and_self]

theorem filter_unsent {n : Text} (hn : n = "content-length".toList ∨ n = "connection".toList) :
    (app.upstreamHeaders req).filter (fun h => h.1 = n) = [] := by
  have hhost : decide ("host".toList = n) = false := by rcases hn with rfl | rfl <;> rfl
  have hfor : decide ("x-forwarded-host".toList = n) = false := by rcases hn with rfl | rfl <;> rfl
  have hin : n ∈ ["host".toList, "content-length".toList, "connection".toList] := by
    rcases hn with rfl | rfl
    · exact List.mem_cons_of_mem _ (List.mem_cons_self ..)
    · exact List.mem_cons_of_mem _ (List.mem_cons_of_mem _ (List.mem_cons_self ..))
  rw [filter_upstreamHeaders (fun m => m = n) hhost hfor, List.filter_eq_nil_iff.mpr]
  · rfl
  · intro h _ hboth
    obtain ⟨heq, hout⟩ := Bool.and_eq_true_iff.mp hboth
    rw [of_decide_eq_true heq] at hout
    exact of_decide_eq_true hout hin

theorem filter_host : (app.upstreamHeaders req).filter (fun h => h.1 = "host".toList) =
    [("host".toList, app.requestedHost req)] := by
  have hne : ¬ decide ("x-forwarded-host".toList = "host".toList) = true := by decide
  unfold App.upstreamHeaders
  dsimp only
  rw [Dict.filter_set (fun n => decide (n = "host".toList)), if_neg hne]
  exact Dict.filter_set_self (Dict.nodup_ofItems _)

theorem filter_forwardedHost : (app.upstreamHeaders req).filter (fun h => h.1 = "x-forwarded-host".toList) =
    [("x-forwarded-host".toList, app.requestedHost req)] :=
  Dict.filter_set_self (Dict.nodup_set (Dict.nodup_ofItems _))

theorem mem_upstreamHeaders {h : Text × Text} : h ∈ app.upstreamHeaders req ↔
    h ∈ Dict.ofItems req.forwarded ∨ h = ("host".toList, app.requestedHost req) ∨
      h = ("x-forwarded-host".toList, app.requestedHost req) := by
  have part {q : Text × Text → Bool} {l : List (Text × Text)} (he : (app.upstreamHeaders req).filter q = l)
      (hq : q h = true) : h ∈ app.upstreamHeaders req ↔ h ∈ l := by
    rw [← he, List.mem_filter, and_iff_left hq]
  have back {q : Text × Text → Bool} {l : List (Text × Text)} (he : (app.upstreamHeaders req).filter q = l)
      (hin : h ∈ l) : h ∈ app.upstreamHeaders req := by
    rw [← he] at hin
    exact (List.mem_filter.mp hin).1
  constructor
  · intro hin
    by_cases hr : h.1 ∈ reservedNames
    · simp only [reservedNames, List.mem_cons, List.not_mem_nil, or_false] at hr
      rcases hr with hr | hr | hr | hr
      · exact .inr (.inl (List.mem_singleton.mp ((part filter_host (decide_eq_true hr)).mp hin)))
      · exact absurd ((part (filter_unsent (.inl rfl)) (decide_eq_true hr)).mp hin) List.not_mem_nil
      · exact absurd ((part (filter_unsent (.inr rfl)) (decide_eq_true hr)).mp hin) List.not_mem_nil
      · exact .inr (.inr (List.mem_singleton.mp ((part filter_forwardedHost (decide_eq_true hr)).mp hin)))
    · exact .inl ((part (filter_forwarded app req) (decide_eq_true hr)).mp hin)
  · rintro (hin | hin | hin)
    · exact back (filter_forwarded app req) hin
    · exact back filter_host (List.mem_singleton.mpr hin)
    · exact back filter_forwardedHost (List.mem_singleton.mpr hin)

theorem upstreamHeaders_encodes :
    ((app.upstreamHeaders req).all fun h => hx.encodes h.1 && hx.encodes h.2) = true ↔
      (∀ h ∈ Dict.ofItems req.forwarded, hx.encodes h.1 = true ∧ hx.encodes h.2 = true) ∧
        hx.encodes (app.requestedHost req) = true := by
  have hhost : hx.encodes "host".toList = true := hx.encodes_ascii _ (forall_mem_of_all (by decide))
  have hfor : hx.encodes "x-forwarded-host".toList = true := hx.encodes_ascii _ (forall_mem_of_all (by decide))
  simp only [List.all_eq_true, Bool.and_eq_true]
  constructor
  · intro hall
    refine ⟨fun h hin => hall h (mem_upstreamHeaders.mpr (.inl hin)), ?_⟩
    exact (hall _ (mem_upstreamHeaders.mpr (.inr (.inl rfl)))).2
  · rintro ⟨hall, hrequested⟩ h hin
    rcases mem_upstreamHeaders.mp hin with hin | rfl | rfl
    · exact hall h hin
    · exact ⟨hhost, hrequested⟩
    · exact ⟨hfor, hrequested⟩

theorem filter_frame (hx : Httpx) (method : Text) (body : Bytes) (headers : List (Text × Text)) (q : Text → Bool)
    (hq : q "content-length".toList = false) :
    (hx.frame method body headers).filter (fun h => q h.1) = headers.filter fun h => q h.1 := by
  have hboth (l : List (Text × Text)) : l.filter (fun h => q h.1) =
      (l.filter fun h => h.1 ≠ "content-length".toList).filter fun h => q h.1 := by
    rw [List.filter_filter]
    refine List.filter_congr fun h _ => ?_
    by_cases hn : h.1 = "content-length".toList
    · rw [hn, hq, Bool.false_and]
    · rw [decide_eq_true hn, Bool.and_true]
  rw [hboth, hx.frame_keeps, ← hboth]

/-- Lines are kept by the dictionary exactly when no name is repeated. -/
theorem lines_kept_iff (app : App) (hx : Httpx) (req : BrowserRequest) (method : Text) (body : Bytes) :
    (∀ h : Text × Text, h.1 ∉ reservedNames →
      (hx.frame method body (app.upstreamHeaders req)).count h = req.items.count h) ↔
    (req.forwarded.map Prod.fst).Nodup := by
  have hsent (h : Text × Text) (hr : h.1 ∉ reservedNames) :
      (hx.frame method body (app.upstreamHeaders req)).count h = (Dict.ofItems req.forwarded).count h := by
    rw [← List.count_filter (p := fun h => decide (h.1 ∉ reservedNames)) (decide_eq_true hr),
      filter_frame hx method body _ (fun n => n ∉ reservedNames) rfl, filter_forwarded]
  have hreceived (h : Text × Text) (hr : h.1 ∉ reservedNames) : req.items.count h = req.forwarded.count h := by
    rw [forwarded_eq]
    exact (List.count_filter (p := fun h : Text × Text => decide (h.1 ∉ reservedNames)) (decide_eq_true hr)).symm
  constructor
  · intro hall
    have hperm : (Dict.ofItems req.forwarded).Perm req.forwarded := by
      refine List.perm_iff_count.mpr fun h => ?_
      by_cases hr : h.1 ∈ reservedNames
      · have hout : h ∉ req.forwarded := fun hin => by
          rw [forwarded_eq] at hin
          exact of_decide_eq_true (List.mem_filter.mp hin).2 hr
        have hout' : h ∉ Dict.ofItems req.forwarded := fun hin => by
          rw [← filter_forwarded app req] at hin
          exact of_decide_eq_true (List.mem_filter.mp hin).2 hr
        rw [List.count_eq_zero_of_not_mem hout, List.count_eq_zero_of_not_mem hout']
      · rw [← hsent h hr, hall h hr, hreceived h hr]
    exact (hperm.map Prod.fst).nodup_iff.mp (Dict.nodup_ofItems _)
  · intro hnodup h hr
    rw [hsent h hr, hreceived h hr, Dict.ofItems_of_nodup hnodup]

/-- The request to the workload keeps the headers exactly when no forwarded name is
repeated and httpx can encode what is forwarded. -/
theorem headers_kept_iff (hx : Httpx) {record : DemoRecord} {port : ℤ} {query : Text} (path : Text)
    (hp : app.proxied s req = some (record, port)) (hq : req.query = some query) :
    (∃ request, app.Forwards hx s req path request ∧ HeadersKept app req request.headers) ↔
      (req.forwarded.map Prod.fst).Nodup ∧
        (∀ h ∈ req.forwarded, hx.encodes h.1 = true ∧ hx.encodes h.2 = true) ∧
        hx.encodes (app.requestedHost req) = true := by
  constructor
  · rintro ⟨request, ⟨record', port', query', -, -, hr⟩, hkept⟩
    unfold Httpx.request at hr
    split at hr
    · next hall =>
      cases hr
      have hnodup := (lines_kept_iff app hx req req.method req.body).mp hkept.lines
      have henc := upstreamHeaders_encodes.mp hall
      rw [Dict.ofItems_of_nodup hnodup] at henc
      exact ⟨hnodup, henc⟩
    · cases hr
  · rintro ⟨hnodup, henc⟩
    rw [← Dict.ofItems_of_nodup hnodup] at henc
    have hall := upstreamHeaders_encodes.mpr henc
    refine ⟨_, ⟨record, port, query, hp, hq, if_pos hall⟩, ?_, ?_, ?_⟩
    · exact (lines_kept_iff app hx req req.method req.body).mpr hnodup
    · exact (filter_frame hx _ _ _ (fun n => n = "host".toList) rfl).trans filter_host
    · exact (filter_frame hx _ _ _ (fun n => n = "x-forwarded-host".toList) rfl).trans filter_forwardedHost

def cookies (lines : List String) : List (Text × Text) := lines.map fun line => ("Cookie".toList, line.toList)

/-- A visit with one `Cookie` line for each cookie. -/
def cookieVisit (lines : List String) : BrowserRequest :=
  visit "/login" "" (cookies lines) fun h hh c hc => by
    obtain ⟨line, -, rfl⟩ := List.mem_map.mp hh
    have hascii : ∀ c ∈ "Cookie".toList, c.toNat < 128 := forall_mem_of_all (by decide)
    exact hascii c hc

theorem cookieVisit_forwards : ∃ request,
    exampleApp.Forwards exampleHttpx readyStore (cookieVisit ["session=alice"]) [] request := by
  have hp : exampleApp.proxied readyStore (cookieVisit ["session=alice"]) = some (readyRecord, 8000) := by
    decide +kernel
  exact ⟨_, readyRecord, 8000, [], hp, by decide +kernel, if_pos (by decide +kernel)⟩

theorem headers_kept_example : ∃ request,
    exampleApp.Forwards exampleHttpx readyStore (cookieVisit ["session=alice"]) [] request ∧
      HeadersKept exampleApp (cookieVisit ["session=alice"]) request.headers := by
  have hp : exampleApp.proxied readyStore (cookieVisit ["session=alice"]) = some (readyRecord, 8000) := by
    decide +kernel
  have hq : (cookieVisit ["session=alice"]).query = some [] := by decide +kernel
  exact (headers_kept_iff exampleHttpx [] hp hq).mpr ⟨by decide +kernel, by decide +kernel, by decide +kernel⟩

def twoCookies : BrowserRequest := cookieVisit ["session=alice", "csrf=token"]

/-- Of two `Cookie` lines only the last arrives. -/
theorem cookie_line_lost : ¬ ∀ req : BrowserRequest, exampleApp.proxied readyStore req = some (readyRecord, 8000) →
    ∃ request, exampleApp.Forwards exampleHttpx readyStore req [] request ∧
      HeadersKept exampleApp req request.headers := by
  intro all
  have hp : exampleApp.proxied readyStore twoCookies = some (readyRecord, 8000) := by decide +kernel
  obtain ⟨request, ⟨record, port, query, -, -, hr⟩, hkept⟩ := all _ hp
  unfold Httpx.request at hr
  split at hr
  · cases hr
    have hnodup := (lines_kept_iff exampleApp exampleHttpx twoCookies twoCookies.method twoCookies.body).mp
      hkept.lines
    exact absurd hnodup (by decide +kernel)
  · cases hr

/-! ### The response -/

/-- The response is the upstream's: its status, its lines but those of the connection,
its length and what its body decodes to. -/
structure Relayed (hx : Httpx) (upstream : UpstreamResponse) (response : ProxyResponse) : Prop where
  status : response.statusCode = upstream.statusCode
  lines : (response.headers.filter fun h => isEndToEnd h.1) = upstream.headers.filter fun h => isEndToEnd h.1
  length : (response.headers.filter fun h => !isEndToEnd h.1) =
    [(asciiBytes "content-length", encode (decimal response.body.length))]
  content : hx.undo (contentEncodings response.headers) response.body =
    hx.undo (contentEncodings upstream.headers) upstream.raw

/-- What the body decodes to decodes to itself, as when there is no coding to undo. -/
def DecodesToItself (hx : Httpx) (upstream : UpstreamResponse) : Prop :=
  ∃ content, hx.undo (contentEncodings upstream.headers) upstream.raw = some content ∧
    hx.undo (contentEncodings upstream.headers) content = some content

def relayedHeaders (upstream : UpstreamResponse) (content : Bytes) : List (Bytes × Bytes) :=
  (upstream.headers.filter fun h => isEndToEnd h.1) ++
    [(asciiBytes "content-length", encode (decimal content.length))]

theorem relay_eq {upstream : UpstreamResponse} {content : Bytes}
    (h : hx.undo (contentEncodings upstream.headers) upstream.raw = some content) :
    relay hx upstream = .answered ⟨upstream.statusCode, relayedHeaders upstream content, content⟩ := by
  have hlength : isEndToEnd (asciiBytes "content-length") = false := by decide
  have hout : asciiBytes "content-length" ∉ (upstream.headers.filter fun h => isEndToEnd h.1).map Prod.fst := by
    intro hin
    obtain ⟨g, hg, heq⟩ := List.mem_map.mp hin
    have hend := (List.mem_filter.mp hg).2
    rw [heq, hlength] at hend
    cases hend
  simp only [relay, h, Dict.set_of_notMem hout, relayedHeaders]

theorem contentEncodings_relayed (upstream : UpstreamResponse) (content : Bytes) :
    contentEncodings (relayedHeaders upstream content) = contentEncodings upstream.headers := by
  have hlength : ¬ decide (lowerBytes (asciiBytes "content-length") = asciiBytes "content-encoding") = true := by
    decide
  have hencoding {name : Bytes} (hn : lowerBytes name = asciiBytes "content-encoding") : isEndToEnd name = true := by
    rw [isEndToEnd, hn]
    decide
  unfold contentEncodings relayedHeaders
  rw [List.filter_append, List.filter_cons, if_neg hlength, List.filter_nil, List.append_nil, List.filter_filter]
  refine congrArg _ (List.filter_congr fun h _ => ?_)
  by_cases hn : lowerBytes h.1 = asciiBytes "content-encoding"
  · rw [hencoding hn, Bool.and_true]
  · rw [decide_eq_false hn, Bool.false_and]

theorem relayed_lines (upstream : UpstreamResponse) (content : Bytes) :
    ((relayedHeaders upstream content).filter fun h => isEndToEnd h.1) =
      (upstream.headers.filter fun h => isEndToEnd h.1) ∧
    ((relayedHeaders upstream content).filter fun h => !isEndToEnd h.1) =
      [(asciiBytes "content-length", encode (decimal content.length))] := by
  have hlength : isEndToEnd (asciiBytes "content-length") = false := by decide
  constructor
  · rw [relayedHeaders, List.filter_append, List.filter_filter, List.filter_cons, hlength]
    simp only [Bool.and_self, Bool.false_eq_true, if_false, List.filter_nil, List.append_nil]
  · have hnone : ((upstream.headers.filter fun h => isEndToEnd h.1).filter fun h => !isEndToEnd h.1) = [] :=
      List.filter_eq_nil_iff.mpr fun h hin => by rw [(List.mem_filter.mp hin).2]; decide
    rw [relayedHeaders, List.filter_append, hnone, List.nil_append, List.filter_cons, hlength]
    rfl

/-- The route answers with the upstream's response exactly when its decoded body decodes to itself. -/
theorem response_relayed_iff {request : UpstreamRequest} (hf : app.Forwards hx s req path request)
    (send : UpstreamRequest → Option UpstreamResponse) {upstream : UpstreamResponse} (hsend : send request = some upstream) :
    (∃ response, app.proxy hx s req path send = .answered response ∧ Relayed hx upstream response) ↔
      DecodesToItself hx upstream := by
  rw [proxy_of_forwards hf send hsend]
  constructor
  · rintro ⟨response, ha, hrel⟩
    cases hu : hx.undo (contentEncodings upstream.headers) upstream.raw with
    | none =>
      rw [relay, hu] at ha
      cases ha
    | some content =>
      rw [relay_eq hu] at ha
      cases ha
      have hcontent := hrel.content
      dsimp only at hcontent
      rw [contentEncodings_relayed, hu] at hcontent
      exact ⟨content, hu, hcontent⟩
  · rintro ⟨content, hu, hself⟩
    obtain ⟨hlines, hlength⟩ := relayed_lines upstream content
    refine ⟨_, relay_eq hu, rfl, hlines, hlength, ?_⟩
    dsimp only
    rw [contentEncodings_relayed, hself, hu]

def plainUpstream : UpstreamResponse where
  statusCode := 200
  headers := [(asciiBytes "Set-Cookie", asciiBytes "session=bob"), (asciiBytes "Set-Cookie", asciiBytes "csrf=token"),
    (asciiBytes "Content-Length", asciiBytes "2"), (asciiBytes "Connection", asciiBytes "close")]
  raw := asciiBytes "hi"

def gzipUpstream : UpstreamResponse where
  statusCode := 200
  headers := [(asciiBytes "Content-Encoding", asciiBytes "gzip")]
  raw := gzipBody

theorem response_relayed_example : ∃ response,
    exampleApp.proxy exampleHttpx readyStore (cookieVisit ["session=alice"]) [] (fun _ => some plainUpstream) =
      .answered response ∧ Relayed exampleHttpx plainUpstream response := by
  obtain ⟨request, hf⟩ := cookieVisit_forwards
  exact (response_relayed_iff hf (fun _ => some plainUpstream) rfl).mpr
    ⟨asciiBytes "hi", by decide +kernel, by decide +kernel⟩

/-- A compressed body arrives decoded under the header that says it is compressed. -/
theorem gzip_not_relayed : ¬ ∀ upstream, ∃ response,
    exampleApp.proxy exampleHttpx readyStore (cookieVisit ["session=alice"]) [] (fun _ => some upstream) =
      .answered response ∧ Relayed exampleHttpx upstream response := by
  intro all
  obtain ⟨request, hf⟩ := cookieVisit_forwards
  obtain ⟨response, ha, hrel⟩ := all gzipUpstream
  have hu : exampleHttpx.undo (contentEncodings gzipUpstream.headers) gzipUpstream.raw = some (asciiBytes "hi") := by
    decide +kernel
  rw [proxy_of_forwards hf (fun _ => some gzipUpstream) rfl, relay_eq hu] at ha
  cases ha
  have hcontent := hrel.content
  dsimp only at hcontent
  rw [contentEncodings_relayed, hu] at hcontent
  exact absurd hcontent (by decide +kernel)

end DemoController
