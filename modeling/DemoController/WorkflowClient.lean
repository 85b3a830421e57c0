import DemoController.Lib.UrlSplit
import DemoController.Signatures
import Mathlib.Data.Char
import Mathlib.Data.List.Lex
import Mathlib.Data.List.Sort

/-!
# The workflow client (`demo_api.py`)

The client signs the target of the URL it splits, with its query and its escapes; the
controller signs the path it is presented, decoded and without the query. What lies
between the two delivers method, headers and body unchanged.
-/

namespace DemoController

open Lib

/-! ### `compact_json` -/

def hex4 (n : ℕ) : Text := [n / 4096 % 16, n / 256 % 16, n / 16 % 16, n % 16].map Nat.digitChar

/-- A character of a JSON string; what is not printable ASCII is written in UTF-16. -/
def jsonChar (c : Char) : Text :=
  if c = '"' ∨ c = '\\' then ['\\', c]
  else if c = '\n' then ['\\', 'n']
  else if c = '\r' then ['\\', 'r']
  else if c = '\t' then ['\\', 't']
  else if c.toNat = 0x0c then ['\\', 'f']
  else if c.toNat = 0x08 then ['\\', 'b']
  else if 0x20 ≤ c.toNat ∧ c.toNat ≤ 0x7e then [c]
  else if c.toNat < 0x10000 then ['\\', 'u'] ++ hex4 c.toNat
  else
    let n := c.toNat - 0x10000
    ['\\', 'u'] ++ hex4 (0xd800 + n / 0x400 % 0x400) ++ ['\\', 'u'] ++ hex4 (0xdc00 + n % 0x400)

def jsonString (t : Text) : Text := ['"'] ++ t.flatMap jsonChar ++ ['"']

mutual

/-- `json.dumps(value, separators=(",", ":"), sort_keys=True)`. -/
def dumps : Json → Text
  | .null => "null".toList
  | .bool b => if b then "true".toList else "false".toList
  | .int n => decimal n
  | .number text => text
  | .str t => jsonString t
  | .arr items => ['['] ++ List.intercalate [','] (dumpsItems items) ++ [']']
  | .obj fields =>
    let sorted := (dumpsFields fields).insertionSort fun a b => a.1 ≤ b.1
    ['\x7b'] ++ List.intercalate [','] (sorted.map fun f => jsonString f.1 ++ [':'] ++ f.2) ++ ['\x7d']

def dumpsItems : List Json → List Text
  | [] => []
  | item :: items => dumps item :: dumpsItems items

def dumpsFields : List (Text × Json) → List (Text × Text)
  | [] => []
  | (name, value) :: fields => (name, dumps value) :: dumpsFields fields

end

def compactJson (fields : List (Text × Json)) : Bytes := encode (dumps (.obj fields))

/-! ### `request` -/

/-- The arguments of `request`. -/
structure ClientCall where
  apiUrl : Text
  method : Text
  path : Text
  repository : Text
  key : Text
  body : Option (List (Text × Json)) := none
  nonce : Option Text := none

/-- The request given to urllib; its URL is put together from `target` again. -/
structure ApiRequest where
  target : SplitResult
  method : Text
  data : Option Bytes
  headers : List (Text × Text)

/-- What the script takes from its surroundings: the checks of `urlsplit` on the network
location, the clock, `uuid4()`, and which requests urllib makes over HTTP (not one without
a host, nor one with a line end in a header). -/
structure Surroundings where
  validNetloc : Text → Bool
  now : ℤ
  uuid : Text
  sends : ApiRequest → Bool

namespace ClientCall

variable (cm : CaseMapping) (env : Surroundings) (call : ClientCall)

def rawBody : Bytes :=
  match call.body with
  | some fields => compactJson fields
  | none => []

def timestamp : Text := decimal env.now

/-- `nonce or str(uuid.uuid4())`. -/
def nonceText : Text :=
  match call.nonce with
  | none => env.uuid
  | some [] => env.uuid
  | some nonce => nonce

/-- `urlsplit(f"{api_url.rstrip('/')}{path}")`. -/
def target? : Option SplitResult := urlsplit env.validNetloc (rstrip (· == '/') call.apiUrl ++ call.path)

def requestTarget (target : SplitResult) : Text :=
  if target.query = [] then target.path else target.path ++ "?".toList ++ target.query

def signed (target : SplitResult) : Bytes :=
  joinLines [encode (cm.upper call.method), encode (requestTarget target), encode (timestamp env),
    encode (call.nonceText env), call.rawBody]

def signature (target : SplitResult) : Text := hmacSha256 (encode call.key) (call.signed cm env target)

def request (target : SplitResult) : ApiRequest where
  target
  method := cm.upper call.method
  data := if call.body.isSome then some call.rawBody else none
  headers :=
    [("Accept".toList, "application/json".toList), ("Content-Type".toList, "application/json".toList),
      ("User-Agent".toList, "github-actions-demos-client/1".toList), ("X-Demos-Nonce".toList, call.nonceText env),
      ("X-Demos-Repository".toList, call.repository),
      ("X-Demos-Signature".toList, "sha256=".toList ++ call.signature cm env target),
      ("X-Demos-Timestamp".toList, timestamp env)]

/-- The target of the HTTP request a call makes, `none` where it makes none. -/
def sent? : Option SplitResult := (call.target? env).filter fun target => env.sends (call.request cm env target)

end ClientCall

/-- The request as it reaches the controller: an empty path is sent as `/`, the path is
presented decoded and without the query; `added` are the headers urllib adds. -/
def ApiRequest.delivered (r : ApiRequest) (added : List (Text × Text)) : HttpRequest where
  method := r.method
  path := unquote (if r.target.path = [] then "/".toList else r.target.path)
  headers := (r.headers.map fun h => (h.1.map Char.toLower, h.2)) ++ added
  body := r.data.getD []

/-- `str.upper` leaves an upper-cased text alone. -/
def UpperIdempotent (cm : CaseMapping) : Prop := ∀ t, cm.upper (cm.upper t) = cm.upper t

structure PlainTarget (target : SplitResult) : Prop where
  path : target.path ≠ []
  query : target.query = []
  escape : hasEscape target.path = false

/-! ### The delivered request -/

section

variable {app : App} (env : Surroundings) (call : ClientCall) (target : SplitResult) (added : List (Text × Text))

theorem delivered_header (name : String) (value : Text)
    (h : ((call.request app.cm env target).headers.map fun h => (h.1.map Char.toLower, h.2)).lookup name.toList =
      some value) : ((call.request app.cm env target).delivered added).header name = value := by
  rw [HttpRequest.header, HttpRequest.header?, ApiRequest.delivered]
  dsimp only
  rw [List.lookup_append, h]
  rfl

theorem delivered_nonce : ((call.request app.cm env target).delivered added).header "x-demos-nonce" =
    call.nonceText env := delivered_header env call target added _ _ rfl

theorem delivered_timestamp : ((call.request app.cm env target).delivered added).header "x-demos-timestamp" =
    ClientCall.timestamp env := delivered_header env call target added _ _ rfl

theorem delivered_repository : ((call.request app.cm env target).delivered added).header "x-demos-repository" =
    call.repository := delivered_header env call target added _ _ rfl

theorem delivered_signature : ((call.request app.cm env target).delivered added).suppliedSignature =
    call.signature app.cm env target := by
  rw [HttpRequest.suppliedSignature,
    delivered_header env call target added _ ("sha256=".toList ++ call.signature app.cm env target) rfl,
    removePrefix_append]

theorem delivered_body : ((call.request app.cm env target).delivered added).body = call.rawBody := by
  have hdata : ((call.request app.cm env target).delivered added).body =
      (if call.body.isSome then some call.rawBody else none).getD [] := rfl
  rw [hdata, ClientCall.rawBody]
  cases call.body with
  | none => rfl
  | some fields => rfl

theorem canonical_delivered (hupper : UpperIdempotent app.cm) :
    app.canonical ((call.request app.cm env target).delivered added) =
      joinLines [encode (app.cm.upper call.method),
        encode ((call.request app.cm env target).delivered added).path, encode (ClientCall.timestamp env),
        encode (call.nonceText env), call.rawBody] := by
  have hmethod : app.cm.upper ((call.request app.cm env target).delivered added).method = app.cm.upper call.method :=
    hupper call.method
  rw [App.canonical, hmethod, delivered_timestamp, delivered_nonce, delivered_body]

theorem joinLines_second_iff (a b c d e x : Bytes) :
    joinLines [a, b, c, d, e] = joinLines [a, x, c, d, e] ↔ b = x := by
  have hjoin (y : Bytes) : joinLines [a, y, c, d, e] = (a ++ [10]) ++ (y ++ ([10] ++ joinLines [c, d, e])) := by
    simp only [joinLines, List.intercalate_cons_cons, List.intercalate_singleton, List.append_assoc]
  rw [hjoin, hjoin, List.append_cancel_left_eq, List.append_cancel_right_eq]

theorem requestTarget_iff : ClientCall.requestTarget target =
    ((call.request app.cm env target).delivered added).path ↔ PlainTarget target := by
  have hpath : ((call.request app.cm env target).delivered added).path =
      unquote (if target.path = [] then "/".toList else target.path) := rfl
  have htarget : ClientCall.requestTarget target =
      target.path ++ (if target.query = [] then [] else '?' :: target.query) := by
    rw [ClientCall.requestTarget]
    split
    · rw [List.append_nil]
    · rw [List.append_assoc]
      rfl
  rw [hpath, htarget]
  by_cases hempty : target.path = []
  · -- an empty path is sent as `/` and signed as it is
    refine iff_of_false ?_ fun h => h.path hempty
    rw [if_pos hempty, hempty, List.nil_append]
    have hslash : unquote "/".toList = "/".toList := by decide +kernel
    rw [hslash]
    split
    · exact (List.cons_ne_nil _ _).symm
    · intro h
      exact absurd (List.cons.inj h).1 (by decide)
  · rw [if_neg hempty, unquote_append_iff]
    constructor
    · rintro ⟨hquery, hescape⟩
      refine ⟨hempty, ?_, hescape⟩
      by_contra hne
      rw [if_neg hne] at hquery
      cases hquery
    · intro h
      exact ⟨if_pos h.query, h.escape⟩

theorem same_bytes_iff (hupper : UpperIdempotent app.cm) :
    call.signed app.cm env target = app.canonical ((call.request app.cm env target).delivered added) ↔
      PlainTarget target := by
  rw [canonical_delivered env call target added hupper, ClientCall.signed, joinLines_second_iff,
    ← @requestTarget_iff app env call target added]
  exact encode_injective.eq_iff

theorem signature_ascii (cm : CaseMapping) : ∀ c ∈ call.signature cm env target, c.toNat < 128 := by
  intro c hc
  have hall : ∀ d ∈ "0123456789abcdef".toList, d.toNat < 128 := forall_mem_of_all (by decide)
  exact hall c (hex_digits _ c hc)

/-- A request to a plain target in time passes the checks of `authenticate` before the
rate limit when the repository's key is the one it was signed with. -/
theorem client_request_verifies (hupper : UpperIdempotent app.cm) (hplain : PlainTarget target)
    (hkey : app.credential (app.cm.lower call.repository) = some (.text call.key))
    (hclock : 0 ≤ env.now ∧ (ClientCall.timestamp env).length ≤ 4300) {now : ℤ}
    (hfresh : (now - env.now).natAbs ≤ app.settings.signatureMaxAgeSeconds) :
    app.verify ((call.request app.cm env target).delivered added) now = .ok (app.cm.lower call.repository) := by
  have hrepository : app.repositoryOf ((call.request app.cm env target).delivered added) =
      app.cm.lower call.repository := by
    rw [App.repositoryOf, delivered_repository]
  have hascii : ¬(call.signature app.cm env target).any (fun c => 128 ≤ c.toNat) = true := by
    rw [List.any_eq_true]
    rintro ⟨c, hc, hhigh⟩
    exact absurd (signature_ascii env call target app.cm c hc) (Nat.not_lt.mpr (of_decide_eq_true hhigh))
  have hbytes := (same_bytes_iff env call target added hupper).mpr hplain
  have hsupplied := @delivered_signature app env call target added
  rw [HttpRequest.suppliedSignature] at hsupplied
  unfold App.verify
  rw [hrepository, hkey, delivered_timestamp, ClientCall.timestamp, pyInt_decimal hclock.1 hclock.2]
  dsimp only [CredentialKey.encoded]
  rw [if_neg (not_lt.mpr hfresh), hsupplied, if_neg hascii, ← hbytes, ClientCall.signature, if_pos rfl]

end

/-- The client signs the bytes the controller rebuilds, and its signature is the one the
controller computes under the key, exactly when the target it splits is plain. -/
theorem client_signature_iff (app : App) (hupper : UpperIdempotent app.cm) (env : Surroundings) (call : ClientCall)
    (added : List (Text × Text)) :
    (∀ target, call.sent? app.cm env = some target →
      call.signed app.cm env target = app.canonical ((call.request app.cm env target).delivered added) ∧
        hmacSha256 (encode call.key) (app.canonical ((call.request app.cm env target).delivered added)) =
          ((call.request app.cm env target).delivered added).suppliedSignature) ↔
      ∀ target, call.sent? app.cm env = some target → PlainTarget target := by
  constructor
  · intro h target htarget
    exact (same_bytes_iff env call target added hupper).mp (h target htarget).1
  · intro h target htarget
    have hsigned := (same_bytes_iff env call target added hupper).mpr (h target htarget)
    refine ⟨hsigned, ?_⟩
    rw [← hsigned, delivered_signature]
    rfl

theorem toUpper_not_lower (c : Char) : ¬('a' ≤ c.toUpper ∧ c.toUpper ≤ 'z') := by
  intro hlower
  have hlow : 97 ≤ c.toUpper.val.toNat := UInt32.le_iff_toNat_le.mp hlower.1
  have hhigh : c.toUpper.val.toNat ≤ 122 := UInt32.le_iff_toNat_le.mp hlower.2
  unfold Char.toUpper at hlow hhigh hlower
  split at hlow
  · next hletter =>
    have hfirst : 97 ≤ c.val.toNat := UInt32.le_iff_toNat_le.mp hletter.1
    have hlast : c.val.toNat ≤ 122 := UInt32.le_iff_toNat_le.mp hletter.2
    have hshift : ('A'.val - 'a'.val).toNat = 4294967264 := by decide
    rw [UInt32.toNat_add, hshift] at hlow
    omega
  · next hletter =>
    rw [dif_neg hletter] at hlower
    exact hletter hlower

theorem upperIdempotent_ascii : UpperIdempotent .ascii := by
  intro t
  have hchar : ∀ c : Char, (Char.toUpper ∘ Char.toUpper) c = c.toUpper := by
    intro c
    have hlower := toUpper_not_lower c
    rw [Function.comp_apply]
    generalize c.toUpper = d at hlower
    exact dif_neg hlower
  show (t.map Char.toUpper).map Char.toUpper = t.map Char.toUpper
  rw [List.map_map, List.map_congr_left fun c _ => hchar c]

def workflowRunner : Surroundings where
  validNetloc := fun netloc => !netloc.contains '['
  now := 1700000000
  uuid := "0b9f6f0c-3c4e-4b0e-9d53-2f6f2d0c1a7e".toList
  sends := fun r => r.target.scheme == "https".toList && r.target.netloc != []

def pollCall (path : String) : ClientCall where
  apiUrl := "https://demos.test/".toList
  method := "GET".toList
  path := path.toList
  repository := "canonical/example".toList
  key := "repository-key".toList

def pollTarget (path : String) : SplitResult := ⟨"https".toList, "demos.test".toList, path.toList, [], []⟩

theorem pollCall_sent :
    (pollCall "/api/v1/demos/canonical/example/8").sent? .ascii workflowRunner =
        some (pollTarget "/api/v1/demos/canonical/example/8") ∧
      (pollCall "/api/v1/demos/canonical/a%20b/8").sent? .ascii workflowRunner =
        some (pollTarget "/api/v1/demos/canonical/a%20b/8") := by
  decide +kernel

theorem client_signature_iff_example :
    let call := pollCall "/api/v1/demos/canonical/example/8"
    let target := pollTarget "/api/v1/demos/canonical/example/8"
    let delivered := (call.request exampleApp.cm workflowRunner target).delivered []
    call.signed exampleApp.cm workflowRunner target = exampleApp.canonical delivered ∧
      hmacSha256 (encode call.key) (exampleApp.canonical delivered) = delivered.suppliedSignature := by
  refine (client_signature_iff exampleApp upperIdempotent_ascii workflowRunner _ []).mpr ?_ _ pollCall_sent.1
  intro target htarget
  obtain rfl := Option.some.inj (pollCall_sent.1.symm.trans htarget)
  exact ⟨by decide, rfl, by decide +kernel⟩

/-- A path with an escape is signed as it is written and checked as it is decoded. -/
theorem escaped_path_not_verified :
    ¬∀ (call : ClientCall) (target : SplitResult), call.sent? exampleApp.cm workflowRunner = some target →
      call.signed exampleApp.cm workflowRunner target =
        exampleApp.canonical ((call.request exampleApp.cm workflowRunner target).delivered []) := by
  intro h
  have hplain := (same_bytes_iff _ _ _ _ upperIdempotent_ascii).mp (h _ _ pollCall_sent.2)
  exact absurd hplain.escape (by decide +kernel)

end DemoController
