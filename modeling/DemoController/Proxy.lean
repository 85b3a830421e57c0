import DemoController.Api
import DemoController.Lib.Dict
import DemoController.Lib.Percent

/-!
# The proxy route (`api.py`)

A request for a demo's hostname goes on to the Service of the demo. Its path comes
decoded from the server and its query from the URL that Starlette builds; both are
pasted into the text of a URL that httpx parses. The answer carries the upstream's
headers and the body httpx has decoded.
-/

namespace DemoController

open Lib

/-- What the route takes from httpx. -/
structure Httpx where
  /-- a text can be sent in a header -/
  encodes : Text → Bool
  /-- the headers of a request once it says how long its body is -/
  frame : Text → Bytes → List (Text × Text) → List (Text × Text)
  /-- the characters a path or a query keeps unquoted -/
  pathLegal : Char → Bool
  queryLegal : Char → Bool
  /-- the body with the codings of `Content-Encoding` undone, `none` on a `DecodingError` -/
  undo : List Bytes → Bytes → Option Bytes
  encodes_ascii : ∀ t : Text, (∀ c ∈ t, c.toNat < 128) → encodes t = true
  frame_keeps : ∀ method body headers, (frame method body headers).filter (fun h => h.1 ≠ "content-length".toList) =
    headers.filter fun h => h.1 ≠ "content-length".toList
  path_slash : pathLegal '/' = true
  query_illegal : ∀ c ∈ ['#', '\t', '\r', '\n'], queryLegal c = false

/-- A request on the wire: the path and the query of its target as sent, header
names as written (tokens, so ASCII) and values decoded as latin-1. -/
structure BrowserRequest where
  method : Text
  rawPath : Bytes
  rawQuery : Bytes
  headers : List (Text × Text)
  body : Bytes
  names_ok : ∀ h ∈ headers, ∀ c ∈ h.1, c.toNat < 128

structure Url where
  host : Text
  port : Text
  path : Text
  query : Text

structure UpstreamRequest where
  method : Text
  url : Url
  headers : List (Text × Text)
  body : Bytes

/-- A response as received: `raw` is its body before any coding is undone. -/
structure UpstreamResponse where
  statusCode : ℕ
  headers : List (Bytes × Bytes)
  raw : Bytes

structure ProxyResponse where
  statusCode : ℕ
  headers : List (Bytes × Bytes)
  body : Bytes

inductive ProxyAnswer where
  | notFound
  | unavailable
  | unhandled (error : Text)
  | answered (response : ProxyResponse)

/-! ### The request as the route sees it -/

/-- Header names are lower-cased by the server. -/
def BrowserRequest.items (req : BrowserRequest) : List (Text × Text) :=
  req.headers.map fun h => (h.1.map Char.toLower, h.2)

def BrowserRequest.header (req : BrowserRequest) (name : String) : Text := (req.items.lookup name.toList).getD []

/-- `scope["path"]`: the server unquotes the path. -/
def BrowserRequest.path (req : BrowserRequest) : Text := decodeReplace (percentDecode req.rawPath)

/-- `request.url.query`: the URL is the decoded path and the query decoded as UTF-8,
after the scheme and the host; `urlsplit` drops tabs and line ends. -/
def BrowserRequest.query (req : BrowserRequest) : Option Text :=
  (decode req.rawQuery).map fun query =>
    let url := req.path ++ if query = [] then [] else '?' :: query
    let url := (url.filter fun c => c ≠ '\t' ∧ c ≠ '\r' ∧ c ≠ '\n').takeWhile (· ≠ '#')
    ((cut '?' url).map Prod.snd).getD []

/-! ### What httpx makes of it -/

def Httpx.parseUrl (hx : Httpx) (target : Text) : Url :=
  let whole := target.takeWhile (· ≠ '#')
  let front := whole.takeWhile (· ≠ '?')
  let query := (whole.dropWhile (· ≠ '?')).drop 1
  let rest := removePrefix "http://".toList front
  let authority := afterLast '@' (rest.takeWhile (· ≠ '/'))
  { host := authority.takeWhile (· ≠ ':')
    port := (authority.dropWhile (· ≠ ':')).drop 1
    path := quote hx.pathLegal (rest.dropWhile (· ≠ '/'))
    query := quote hx.queryLegal query }

/-- `httpx.Request(method, target, content=body, headers=headers)`. -/
def Httpx.request (hx : Httpx) (method target : Text) (body : Bytes) (headers : List (Text × Text)) :
    Option UpstreamRequest :=
  if headers.all fun h => hx.encodes h.1 && hx.encodes h.2 then
    some ⟨method, hx.parseUrl target, hx.frame method body headers, body⟩
  else none

def lowerBytes (name : Bytes) : Bytes := name.map fun b => if 65 ≤ b.toNat ∧ b.toNat ≤ 90 then b + 32 else b

def asciiBytes (t : String) : Bytes := encode t.toList

def contentEncodings (headers : List (Bytes × Bytes)) : List Bytes :=
  (headers.filter fun h => lowerBytes h.1 = asciiBytes "content-encoding").map Prod.snd

/-! ### The route -/

namespace App

variable (app : App)

def requestedHost (req : BrowserRequest) : Text :=
  rstrip (· == '.') (app.cm.lower ((req.header "host").takeWhile (· ≠ ':')))

/-- The row and the port a request is for, `none` where the route answers 404. -/
def proxied (s : Store) (req : BrowserRequest) : Option (DemoRecord × ℤ) :=
  let requested := app.requestedHost req
  if !('.' :: app.settings.hostnameSuffix).isSuffixOf requested then none
  else (s.getReadyByHostname app.cm app.settings.hostnameSuffix requested).bind fun record =>
    record.port.bind fun port => if port = 0 then none else some (record, port)

def serviceHost (record : DemoRecord) : Text :=
  resourceName app.cm record.repository record.pr ++ ".".toList ++ app.settings.namespace_ ++
    ".svc.cluster.local".toList

def target (record : DemoRecord) (port : ℤ) (path query : Text) : Text :=
  "http://".toList ++ app.serviceHost record ++ ":".toList ++ decimal port ++ "/".toList ++ path ++
    if query = [] then [] else "?".toList ++ query

def upstreamHeaders (req : BrowserRequest) : List (Text × Text) :=
  let headers := Dict.ofItems (req.items.filter fun h =>
    app.cm.lower h.1 ∉ ["host".toList, "content-length".toList, "connection".toList])
  Dict.set (Dict.set headers "host".toList (app.requestedHost req)) "x-forwarded-host".toList (app.requestedHost req)

end App

def isEndToEnd (name : Bytes) : Bool :=
  lowerBytes name ∉ [asciiBytes "content-length", asciiBytes "connection", asciiBytes "transfer-encoding"]

def relay (hx : Httpx) (upstream : UpstreamResponse) : ProxyAnswer :=
  match hx.undo (contentEncodings upstream.headers) upstream.raw with
  | none => .unavailable
  | some content =>
    let headers := upstream.headers.filter fun h => isEndToEnd h.1
    .answered ⟨upstream.statusCode, Dict.set headers (asciiBytes "content-length") (encode (decimal content.length)),
      content⟩

/-- `proxy(path, request)`; `send` is what the client makes of the request, `none` an `httpx.HTTPError`. -/
def App.proxy (app : App) (hx : Httpx) (s : Store) (req : BrowserRequest) (path : Text)
    (send : UpstreamRequest → Option UpstreamResponse) : ProxyAnswer :=
  match app.proxied s req with
  | none => .notFound
  | some (record, port) =>
    match req.query with
    | none => .unhandled "UnicodeDecodeError".toList
    | some query =>
      match hx.request req.method (app.target record port path query) req.body (app.upstreamHeaders req) with
      | none => .unhandled "UnicodeEncodeError".toList
      | some request =>
        match send request with
        | none => .unavailable
        | some upstream => relay hx upstream

def App.Forwards (app : App) (hx : Httpx) (s : Store) (req : BrowserRequest) (path : Text)
    (request : UpstreamRequest) : Prop :=
  ∃ record port query, app.proxied s req = some (record, port) ∧ req.query = some query ∧
    hx.request req.method (app.target record port path query) req.body (app.upstreamHeaders req) = some request

theorem proxy_of_forwards {app : App} {hx : Httpx} {s : Store} {req : BrowserRequest} {path : Text}
    {request : UpstreamRequest} (h : app.Forwards hx s req path request)
    (send : UpstreamRequest → Option UpstreamResponse) {upstream : UpstreamResponse}
    (hsend : send request = some upstream) : app.proxy hx s req path send = relay hx upstream := by
  obtain ⟨record, port, query, hp, hq, hr⟩ := h
  simp only [App.proxy, hp, hq, hr, hsend]

/-! ### A demo to proxy -/

def isPrintable (c : Char) : Bool := 0x20 < c.toNat && c.toNat < 0x7f

/-- The body `hi`, compressed. -/
def gzipBody : Bytes :=
  [31, 139, 8, 0, 0, 0, 0, 0, 2, 3, 203, 200, 4, 0, 172, 42, 147, 216, 2, 0, 0, 0]

def exampleHttpx : Httpx where
  encodes t := t.all fun c => c.toNat < 128
  frame _ body headers :=
    if body = [] then headers else headers ++ [("content-length".toList, decimal body.length)]
  pathLegal c := isPrintable c && !"\"#<>?`".toList.contains c && !(['{', '}'].contains c)
  queryLegal c := isPrintable c && !"\"#<>".toList.contains c
  undo encodings raw :=
    if encodings = [asciiBytes "gzip"] then if raw = gzipBody then some (asciiBytes "hi") else none else some raw
  encodes_ascii t ht := List.all_eq_true.mpr fun c hc => decide_eq_true (ht c hc)
  frame_keeps method body headers := by
    split
    · rfl
    · rw [List.filter_append]
      exact List.append_nil _
  path_slash := by decide
  query_illegal := forall_mem_of_all (by decide)

def readyRecord : DemoRecord where
  repository := "canonical/example".toList
  pr := 8
  commitSha := none
  image := some exampleImage.toList
  deliveryId := "delivery-1".toList
  requestHash := []
  desiredPresent := true
  state := .ready
  vaultVersion := some 1
  port := some 8000
  message := "deployment is ready".toList
  createdAt := 0
  updatedAt := 0
  expiresAt := 1000

def readyStore : Store := { Store.empty with demos := Table.empty.insert readyRecord }

/-- A `GET` on the demo. -/
def visit (rawPath rawQuery : String) (headers : List (Text × Text))
    (names_ok : ∀ h ∈ headers, ∀ c ∈ h.1, c.toNat < 128) : BrowserRequest where
  method := "GET".toList
  rawPath := asciiBytes rawPath
  rawQuery := asciiBytes rawQuery
  headers := ("Host".toList, "example-pr-8.demos.canonical.com".toList) :: headers
  body := []
  names_ok := List.forall_mem_cons.mpr ⟨forall_mem_of_all (by decide), names_ok⟩

end DemoController
