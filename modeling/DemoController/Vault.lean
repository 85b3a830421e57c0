import DemoController.Lib.Program
import DemoController.Reconciler

/-!
# The Vault client (`vault.py`)

`project` and the coroutines under it are programs of the operations through
which they meet the rest of the process: the two locks, the HTTP client, the
token fields and the monotonic clock, whose readings are in nanoseconds. What
httpx answers to a request is the result of the operation `send`.
-/

namespace DemoController

open Lib

/-! ### Requests and what httpx makes of them -/

inductive Method where
  | get
  | post
  deriving DecidableEq

structure VaultRequest where
  method : Method
  url : Text
  headers : List (Text × Text)
  json : Option (List (Text × Text)) := none
  deriving DecidableEq

/-- The subclasses of `httpx.TransportError`; `other` is one httpx does not define. -/
inductive TransportError where
  | poolTimeout
  | connectTimeout
  | connectError
  | proxyError
  | readTimeout
  | writeTimeout
  | readError
  | writeError
  | closeError
  | localProtocolError
  | remoteProtocolError
  | unsupportedProtocol
  | other (type : Text)
  deriving DecidableEq

namespace TransportError

def typeName : TransportError → Text
  | .poolTimeout => "PoolTimeout".toList
  | .connectTimeout => "ConnectTimeout".toList
  | .connectError => "ConnectError".toList
  | .proxyError => "ProxyError".toList
  | .readTimeout => "ReadTimeout".toList
  | .writeTimeout => "WriteTimeout".toList
  | .readError => "ReadError".toList
  | .writeError => "WriteError".toList
  | .closeError => "CloseError".toList
  | .localProtocolError => "LocalProtocolError".toList
  | .remoteProtocolError => "RemoteProtocolError".toList
  | .unsupportedProtocol => "UnsupportedProtocol".toList
  | .other type => type

/-- The errors that occur before the request is sent to Vault. -/
def isPreSend : TransportError → Bool
  | .poolTimeout => true
  | .connectTimeout => true
  | .connectError => true
  | .proxyError => true
  | _ => false

end TransportError

/-- What `response.json()` finds in the content: a value, no JSON text (a
`ValueError`), or one nested too deeply for the decoder (a `RecursionError`). -/
inductive Body where
  | json (value : Json)
  | invalid (error : PyError)
  | tooDeep (text : Text)

/-- `statusText` is the message of the error `raise_for_status` raises. -/
structure HttpResponse where
  statusCode : ℕ
  statusText : Text := []
  body : Body

/-- How `client.request` ends: `http` is any other `httpx.HTTPError`, `unsent` a
`ValueError` of building the request. -/
inductive Sent where
  | response (r : HttpResponse)
  | transport (error : TransportError) (text : Text)
  | http (error : PyError)
  | unsent (error : PyError)

/-! ### Exceptions -/

/-- By the `except` clauses that tell them apart: `data` is a `KeyError`, a
`TypeError`, a `ValueError` or a subclass, `other` what no clause names. -/
inductive VaultException where
  | vault (message category : Text)
  | transport (error : TransportError) (text : Text)
  | status (code : ℕ) (text : Text)
  | http (error : PyError)
  | data (error : PyError)
  | other (error : PyError)

namespace VaultException

def pyError : VaultException → PyError
  | .vault message _ => ⟨"VaultError".toList, message⟩
  | .transport error text => ⟨error.typeName, text⟩
  | .status _ text => ⟨"HTTPStatusError".toList, text⟩
  | .http error => error
  | .data error => error
  | .other error => error

def detail : VaultException → Text
  | .status code _ => "HTTP ".toList ++ decimal code
  | e => e.pyError.type

/-- `detail.replace(' ', '_')`. -/
def category (e : VaultException) : Text := e.detail.map fun c => if c = ' ' then '_' else c

/-- `except (httpx.HTTPError, KeyError, TypeError, ValueError)`. -/
def isCaught : VaultException → Bool
  | .vault _ _ => false
  | .other _ => false
  | _ => true

def isTransport : VaultException → Bool
  | .transport _ _ => true
  | _ => false

end VaultException

def authenticationError (e : VaultException) : VaultException :=
  .vault ("Vault authentication failed (".toList ++ e.detail ++ ")".toList)
    ("authentication_".toList ++ e.category)

def missingCredentials : VaultException :=
  .vault "Vault AppRole credentials are not configured".toList "missing_credentials".toList

def invalidAuthentication : VaultException :=
  .vault "Vault returned an invalid authentication response".toList "invalid_authentication_response".toList

def leaseOverflow : VaultException := .other ⟨"OverflowError".toList, "int too large to convert to float".toList⟩

def notConfigured : VaultException :=
  .vault "repository is not configured in Vault".toList "project_not_configured".toList

/-! ### Reading a response -/

def HttpResponse.raiseForStatus (r : HttpResponse) : Except VaultException Unit :=
  if 200 ≤ r.statusCode ∧ r.statusCode ≤ 299 then .ok () else .error (.status r.statusCode r.statusText)

def HttpResponse.json (r : HttpResponse) : Except VaultException Json :=
  match r.body with
  | .json value => .ok value
  | .invalid error => .error (.data error)
  | .tooDeep text => .error (.other ⟨"RecursionError".toList, text⟩)

namespace Json

def typeName : Json → Text
  | .null => "NoneType".toList
  | .bool _ => "bool".toList
  | .int _ => "int".toList
  | .number _ => "float".toList
  | .str _ => "str".toList
  | .arr _ => "list".toList
  | .obj _ => "dict".toList

/-- `value[name]`. -/
def item (name : String) : Json → Except VaultException Json
  | .obj fields =>
    match fields.lookup name.toList with
    | some j => .ok j
    | none => .error (.data ⟨"KeyError".toList, "'".toList ++ name.toList ++ "'".toList⟩)
  | .arr _ => .error (.data ⟨"TypeError".toList, "list indices must be integers or slices, not str".toList⟩)
  | .str _ => .error (.data ⟨"TypeError".toList, "string indices must be integers, not 'str'".toList⟩)
  | j => .error (.data ⟨"TypeError".toList, "'".toList ++ j.typeName ++ "' object is not subscriptable".toList⟩)

/-- `value.get(name)`. -/
def get (name : String) : Json → Except VaultException Json
  | .obj fields => .ok ((fields.lookup name.toList).getD .null)
  | j => .error (.other
      ⟨"AttributeError".toList, "'".toList ++ j.typeName ++ "' object has no attribute 'get'".toList⟩)

def int? : Json → Option PyInt
  | .int n => some (.int n)
  | .bool b => some (.bool b)
  | _ => none

/-- `bool(value)`. -/
def isTruthy (dv : DecodedValues) : Json → Bool
  | .null => false
  | .bool b => b
  | .int n => n ≠ 0
  | .number text => !dv.isZero text
  | .str t => !t.isEmpty
  | .arr items => !items.isEmpty
  | .obj fields => !fields.isEmpty

end Json

/-- The least integer no float is near enough to. -/
@[irreducible] def floatBound : ℕ := 2 ^ 1024 - 2 ^ 970

/-- The sum of a float and an integer, which converts the integer first. -/
def addLease (now lease : ℤ) : Option ℤ :=
  if lease.natAbs < floatBound then some (now + lease * 1000000000) else none

theorem addLease_of_lt {lease : ℤ} (now : ℤ) (h : lease.natAbs < floatBound) :
    addLease now lease = some (now + lease * 1000000000) :=
  if_pos h

theorem addLease_of_not_lt {lease : ℤ} (now : ℤ) (h : ¬ lease.natAbs < floatBound) : addLease now lease = none :=
  if_neg h

/-- What `_set_token` reads of the `auth` member: the token, the lease and `renewable`. -/
def readAuth (auth : Json) : Except VaultException (Text × ℤ × Json) := do
  let token ← auth.get "client_token"
  let lease ← auth.get "lease_duration"
  match token, lease.int? with
  | .str token, some lease => pure (token, lease.value, ← auth.get "renewable")
  | _, _ => throw invalidAuthentication

/-- The configuration and the version in the `data` member of a response. -/
def readPayload (dv : DecodedValues) (payload : Json) : Except VaultException VaultProject := do
  let record ← payload.item "data"
  match ProjectConfig.modelValidate dv record with
  | none => throw (.data ⟨"ValidationError".toList, dv.errorText record⟩)
  | some config =>
    let metadata ← payload.item "metadata"
    let version ← metadata.item "version"
    match version.int? with
    | none => throw (.data ⟨"TypeError".toList, "invalid KV version".toList⟩)
    | some version => pure ⟨config, version⟩

/-- What `project` makes of the response to its last read. -/
def readProject (dv : DecodedValues) (r : HttpResponse) : Except VaultException VaultProject := do
  if r.statusCode = 404 then throw notConfigured
  r.raiseForStatus
  let body ← r.json
  let payload ← body.item "data"
  readPayload dv payload

/-! ### Operations -/

inductive Lock where
  | token
  | request
  deriving DecidableEq

structure TokenState where
  token : Option Text := none
  expiresAt : ℤ := 0
  renewable : Bool := false
  deriving DecidableEq

/-- The truth of `_token`. -/
def TokenState.present (t : TokenState) : Bool := !(t.token.getD []).isEmpty

inductive VaultOp where
  | acquire (lock : Lock)
  | release (lock : Lock)
  | send (request : VaultRequest)
  /-- a new client in place of `self.client`; the result is the previous one -/
  | replaceClient
  | closeClient (client : ℕ)
  | sleep
  | tokens
  | setTokens (tokens : TokenState)
  | monotonic

abbrev VaultOp.Result : VaultOp → Type
  | .send _ => Sent
  | .replaceClient => ℕ
  | .tokens => TokenState
  | .monotonic => ℤ
  | _ => Unit

abbrev Coroutine (α : Type) := Program VaultOp VaultOp.Result VaultException α

namespace Coroutine

def acquire (lock : Lock) : Coroutine Unit := .call (VaultOp.acquire lock)
def send (request : VaultRequest) : Coroutine Sent := .call (VaultOp.send request)
def replaceClient : Coroutine ℕ := .call VaultOp.replaceClient
def closeClient (client : ℕ) : Coroutine Unit := .call (VaultOp.closeClient client)
def sleep : Coroutine Unit := .call VaultOp.sleep
def tokens : Coroutine TokenState := .call VaultOp.tokens
def setTokens (t : TokenState) : Coroutine Unit := .call (VaultOp.setTokens t)
def monotonic : Coroutine ℤ := .call VaultOp.monotonic

/-- `async with lock`. -/
def withLock {α : Type} (lock : Lock) (body : Coroutine α) : Coroutine α := do
  acquire lock
  body.ensuring (.release lock)

end Coroutine

/-! ### The client -/

structure VaultClient where
  address : Text
  roleId : Text
  secretId : Text
  kvMount : Text
  basePath : Text
  namespace_ : Option Text := none
  ownsClient : Bool := true

namespace VaultClient

/-- `__init__`; `injected` says that the caller passed a client. -/
def init (address roleId secretId kvMount basePath : Text) (namespace_ : Option Text) (injected : Bool) :
    VaultClient where
  address := rstrip (· == '/') address
  roleId
  secretId
  kvMount := strip (· == '/') kvMount
  basePath := strip (· == '/') basePath
  namespace_
  ownsClient := !injected

open Coroutine

variable (client : VaultClient)

/-- `_reset_client`: closing ends, if with an error that is logged. -/
def resetClient : Coroutine Unit := do
  let previous ← replaceClient
  closeClient previous

/-- The loop of `_request`. -/
def attempts (request : VaultRequest) : List ℕ → Coroutine HttpResponse
  | [] => throw (.other ⟨"AssertionError".toList, "unreachable".toList⟩)
  | attempt :: rest => do
    match ← send request with
    | .response r => pure r
    | .http error => throw (.http error)
    | .unsent error => throw (.data error)
    | .transport error text =>
      if !client.ownsClient then throw (.transport error text)
      else do
        resetClient
        if attempt ≠ 0 || !error.isPreSend then throw (.transport error text)
        else do
          sleep
          attempts request rest

def request (request : VaultRequest) : Coroutine HttpResponse :=
  withLock .request (client.attempts request [0, 1])

def headers (t : TokenState) (authenticated : Bool) : List (Text × Text) :=
  let namespace_ := client.namespace_.getD []
  (if namespace_.isEmpty then [] else [("X-Vault-Namespace".toList, namespace_)]) ++
    if authenticated && t.present then [("X-Vault-Token".toList, t.token.getD [])] else []

def renewalUrl : Text := client.address ++ "/v1/auth/token/renew-self".toList

def loginUrl : Text := client.address ++ "/v1/auth/approle/login".toList

def projectUrl (owner name : Text) : Text :=
  client.address ++ "/v1/".toList ++ client.kvMount ++ "/data/".toList ++ client.basePath ++ "/v1/".toList ++
    owner ++ "/".toList ++ name

def renewalRequest (t : TokenState) : VaultRequest := ⟨.post, client.renewalUrl, client.headers t true, none⟩

def loginRequest (t : TokenState) : VaultRequest :=
  ⟨.post, client.loginUrl, client.headers t false,
    some [("role_id".toList, client.roleId), ("secret_id".toList, client.secretId)]⟩

def readRequest (t : TokenState) (url : Text) : VaultRequest := ⟨.get, url, client.headers t true, none⟩

variable (dv : DecodedValues)

/-- `_set_token`: the token is stored before its expiry is computed. -/
def setToken (auth : Json) : Coroutine Unit := do
  let (token, lease, renewable) ← .ofExcept (readAuth auth)
  setTokens { ← tokens with token := some token }
  match addLease (← monotonic) lease with
  | none => throw leaseOverflow
  | some expiresAt =>
    setTokens { ← tokens with expiresAt := expiresAt, renewable := renewable.isTruthy dv }

/-- What the renewal and the login make of their response. -/
def authenticate (r : HttpResponse) : Coroutine Unit := do
  .ofExcept r.raiseForStatus
  let body ← .ofExcept r.json
  setToken dv (← .ofExcept (body.item "auth"))

/-- The first test of `_ensure_token`. -/
def isValid : Coroutine Bool := do
  let t ← tokens
  if t.present then do
    let now ← monotonic
    pure (decide (now < t.expiresAt - 30 * 1000000000))
  else pure false

/-- The `try` of the renewal; `true` where `_ensure_token` returns, `false` where it goes on. -/
def tryRenewal (t : TokenState) : Coroutine Bool :=
  Program.catching
    (do
      client.request (client.renewalRequest t) >>= authenticate dv
      pure true)
    fun error => do
      if error.isTransport then throw (authenticationError error)
      else if error.isCaught then do
        setTokens { ← tokens with token := none }
        pure false
      else throw error

def renew : Coroutine Bool := do
  let t ← tokens
  if t.present && t.renewable then client.tryRenewal dv t else pure false

def login : Coroutine Unit :=
  if client.roleId.isEmpty || client.secretId.isEmpty then throw missingCredentials
  else
    Program.catching (do client.request (client.loginRequest (← tokens)) >>= authenticate dv)
      fun error => if error.isCaught then throw (authenticationError error) else throw error

/-- `_ensure_token` with the lock held. -/
def tokenSteps : Coroutine Unit := do
  if ← isValid then pure ()
  else if ← client.renew dv then pure ()
  else client.login dv

def ensureToken : Coroutine Unit := withLock .token (client.tokenSteps dv)

def read (url : Text) : Coroutine HttpResponse := do
  client.request (client.readRequest (← tokens) url)

def isUnauthorized (r : HttpResponse) : Bool := r.statusCode = 401 || r.statusCode = 403

/-- The body of the `try` in `project`. -/
def lookup (url : Text) : Coroutine VaultProject := do
  let response ← client.read url
  if isUnauthorized response then do
    setTokens { ← tokens with token := none, expiresAt := 0 }
    client.ensureToken dv
    .ofExcept (readProject dv (← client.read url))
  else .ofExcept (readProject dv response)

/-- The handlers of `project`. -/
def lookupError : VaultException → VaultException
  | .vault message category => .vault message category
  | .data _ => .vault "Vault project returned invalid data".toList "invalid_project_data".toList
  | .other error => .other error
  | e =>
    .vault ("Vault project lookup failed (".toList ++ e.detail ++ ")".toList) ("lookup_".toList ++ e.category)

/-- `project`; only a repository with a slash can be unpacked. -/
def project (repository : Text) : Coroutine VaultProject := do
  client.ensureToken dv
  match cut '/' repository with
  | none => throw (.data ⟨"ValueError".toList, "not enough values to unpack (expected 2, got 1)".toList⟩)
  | some (owner, name) =>
    Program.catching (client.lookup dv (client.projectUrl owner name)) fun e => throw (lookupError e)

end VaultClient

/-! ### The client of the example -/

def exampleVault : VaultClient :=
  .init "https://vault.example/".toList "role".toList "secret-id".toList "kv".toList "demos".toList none true

def ownedVault : VaultClient := { exampleVault with ownsClient := true }

def exampleValues : DecodedValues where
  laxInt
    | .int n => some n
    | _ => none
  laxBool
    | .bool b => some b
    | _ => none
  isOne
    | .int n => n == 1
    | _ => false
  errorText _ := []
  isZero _ := false

def Json.ofFields (fields : List (String × Json)) : Json := .obj (fields.map fun f => (f.1.toList, f.2))

def okResponse (value : Json) : Sent := .response ⟨200, [], .json value⟩

def loginResponse : Sent :=
  okResponse (.ofFields [("auth", .ofFields [("client_token", .str "token".toList), ("lease_duration", .int 3600),
    ("renewable", .bool true)])])

def recordResponse (record : Json) : Sent :=
  okResponse (.ofFields [("data", .ofFields [("data", record), ("metadata", .ofFields [("version", .int 3)])])])

end DemoController
