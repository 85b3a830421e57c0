import DemoController.Lib.PyText

/-!
# Request and configuration models (`models.py`)

A value of one of these types has passed its validators: each validator is a
field, so the rest of the development never meets an unvalidated request.
JSON parsing and the lax integer coercion are pydantic's and are parameters.
-/

namespace DemoController

open Lib

inductive Json where
  | null
  | bool (b : Bool)
  | int (n : ℤ)
  | number (text : Text)
  | str (t : Text)
  | arr (items : List Json)
  | obj (fields : List (Text × Json))

/-- What the request models take from pydantic: the fields of a body that is a
JSON object (repeated names already resolved), the integer a value is read as, and
what FastAPI tells of a text that is read as none. -/
structure Pydantic where
  parseObject : Bytes → Option (List (Text × Json))
  laxInt : Json → Option ℤ
  intError : Text → Text

/-! ### Patterns -/

def isAlnum (c : Char) : Bool := c.isLower || c.isDigit
def isSegmentChar (c : Char) : Bool := isAlnum c || c == '_' || c == '.' || c == '-'
def isHexDigit (c : Char) : Bool := c.isDigit || ('a' ≤ c && c ≤ 'f')

/-- `[a-z0-9](?:[a-z0-9_.-]{0,n})`. -/
def isSegment (n : ℕ) : Text → Bool
  | [] => false
  | c :: cs => isAlnum c && cs.all isSegmentChar && cs.length ≤ n

/-- `REPOSITORY_RE`: the segments hold no slash, so the first one separates them. -/
def isRepository (t : Text) : Bool :=
  match cut '/' t with
  | none => false
  | some (owner, name) => isSegment 38 owner && isSegment 99 name

def isSha (t : Text) : Bool := t.length == 40 && t.all isHexDigit

/-- `[a-z0-9.-]+(?::[0-9]{1,5})?`, the registry group. -/
def isRegistry (t : Text) : Bool :=
  let host := fun h : Text => !h.isEmpty && h.all fun c => isAlnum c || c == '.' || c == '-'
  match cut ':' t with
  | none => host t
  | some (h, port) => host h && port.all Char.isDigit && 1 ≤ port.length && port.length ≤ 5

/-- `[a-z0-9](?:[a-z0-9_.-]*/)+[a-z0-9_.-]+`, the repo group: a slash follows the
first character and text follows the last slash. -/
def isImagePath : Text → Bool
  | [] => false
  | c :: cs =>
    isAlnum c && cs.all (fun d => isSegmentChar d || d == '/') && cs.contains '/' &&
      cs.getLast? != some '/'

/-- `IMAGE_RE.fullmatch(t)`, as the text of its repo group. The registry holds no
slash and the path no at sign, so both groups end at the first one. -/
def imageRepository (t : Text) : Option Text :=
  match cut '/' t with
  | none => none
  | some (registry, rest) =>
    match cut '@' rest with
    | none => none
    | some (repo, digest) =>
      let hex := removePrefix "sha256:".toList digest
      if isRegistry registry && isImagePath repo && "sha256:".toList.isPrefixOf digest &&
          hex.length == 64 && hex.all isHexDigit then some repo
      else none

/-- `^[A-Za-z0-9_.:-]+$` with 8 to 128 characters. -/
def isDeliveryId (t : Text) : Bool :=
  8 ≤ t.length && t.length ≤ 128 && t.all fun c => c.isAlphanum || c == '_' || c == '.' || c == ':' || c == '-'

def isEnvName : Text → Bool
  | [] => false
  | c :: cs => (c.isUpper || c == '_') && cs.all fun d => d.isUpper || d.isDigit || d == '_'

/-! ### Deploy and destroy requests -/

structure DeployRequest (cm : CaseMapping) where
  repository : Text
  pr : ℤ
  commitSha : Text
  image : Text
  deliveryId : Text
  repository_ok : isRepository repository = true
  pr_ok : 1 ≤ pr ∧ pr ≤ 2147483647
  commitSha_ok : isSha commitSha = true
  image_ok : imageRepository (cm.lower image) = some repository
  deliveryId_ok : isDeliveryId deliveryId = true

structure DestroyRequest where
  repository : Text
  pr : ℤ
  deliveryId : Text
  repository_ok : isRepository repository = true
  pr_ok : 1 ≤ pr ∧ pr ≤ 2147483647
  deliveryId_ok : isDeliveryId deliveryId = true

def textField (fields : List (Text × Json)) (name : String) : Option Text :=
  match fields.lookup name.toList with
  | some (.str t) => some t
  | _ => none

def intField (pd : Pydantic) (fields : List (Text × Json)) (name : String) : Option ℤ :=
  (fields.lookup name.toList).bind pd.laxInt

def onlyFields (fields : List (Text × Json)) (names : List String) : Bool :=
  fields.all fun f => (names.map String.toList).contains f.1

/-- `DeployRequest.model_validate_json(body)`, `none` where it raises. -/
def DeployRequest.modelValidateJson (cm : CaseMapping) (pd : Pydantic) (body : Bytes) :
    Option (DeployRequest cm) := do
  let fields ← pd.parseObject body
  guard (onlyFields fields ["repository", "pr", "commit_sha", "image", "delivery_id"])
  let repository := cm.lower (← textField fields "repository")
  let pr ← intField pd fields "pr"
  let commitSha := cm.lower (← textField fields "commit_sha")
  let image ← textField fields "image"
  let deliveryId ← textField fields "delivery_id"
  if h : isRepository repository = true ∧ (1 ≤ pr ∧ pr ≤ 2147483647) ∧ isSha commitSha = true ∧
      imageRepository (cm.lower image) = some repository ∧ isDeliveryId deliveryId = true then
    some ⟨repository, pr, commitSha, image, deliveryId, h.1, h.2.1, h.2.2.1, h.2.2.2.1, h.2.2.2.2⟩
  else none

/-- `DestroyRequest.model_validate_json(body)`, `none` where it raises. -/
def DestroyRequest.modelValidateJson (cm : CaseMapping) (pd : Pydantic) (body : Bytes) :
    Option DestroyRequest := do
  let fields ← pd.parseObject body
  guard (onlyFields fields ["repository", "pr", "delivery_id"])
  let repository := cm.lower (← textField fields "repository")
  let pr ← intField pd fields "pr"
  let deliveryId ← textField fields "delivery_id"
  if h : isRepository repository = true ∧ (1 ≤ pr ∧ pr ≤ 2147483647) ∧
      isDeliveryId deliveryId = true then
    some ⟨repository, pr, deliveryId, h.1, h.2.1, h.2.2⟩
  else none

theorem textField_mem {fields : List (Text × Json)} {name : String} {t : Text}
    (h : textField fields name = some t) : ∃ j, (name.toList, j) ∈ fields := by
  unfold textField at h
  split at h
  · next t' hl =>
    obtain ⟨l, r, hs, -⟩ := List.lookup_eq_some_iff.mp hl
    refine ⟨.str t', ?_⟩
    rw [hs]
    exact List.mem_append_right _ (List.mem_cons_self ..)
  · cases h

/-- No body is valid as a deploy and as a destroy request: the first must have an
`image`, which the second forbids. -/
theorem not_deploy_and_destroy {cm : CaseMapping} {pd : Pydantic} {body : Bytes}
    {deploy : DeployRequest cm} (h : DeployRequest.modelValidateJson cm pd body = some deploy) :
    DestroyRequest.modelValidateJson cm pd body = none := by
  simp only [DeployRequest.modelValidateJson, Option.bind_eq_bind, Option.bind_eq_some_iff] at h
  obtain ⟨fields, hf, -, -, -, -, -, -, -, -, image, hi, -⟩ := h
  obtain ⟨j, hj⟩ := textField_mem hi
  have hx : onlyFields fields ["repository", "pr", "delivery_id"] = false := by
    rw [onlyFields, List.all_eq_false]
    have hn : (["repository", "pr", "delivery_id"].map String.toList).contains "image".toList = false := by
      decide
    exact ⟨_, hj, by simp only [hn, Bool.false_eq_true, not_false_eq_true]⟩
  simp only [DestroyRequest.modelValidateJson, hf, hx, Option.bind_eq_bind, Option.bind_some]
  rfl

/-! ### Project configuration -/

/-- `(?:[1-9][0-9]{0,3}m|[1-4])`. -/
def isCpu : Text → Bool
  | [] => false
  | [c] => '1' ≤ c && c ≤ '4'
  | c :: cs =>
    '1' ≤ c && c ≤ '9' && cs.getLast? == some 'm' && cs.dropLast.all Char.isDigit && cs.length ≤ 4

/-- `([1-9][0-9]{0,4})(Mi|Gi)` with at most 8192 MiB. -/
def isMemory (t : Text) : Bool :=
  let digits := t.takeWhile Char.isDigit
  let unit := t.dropWhile Char.isDigit
  let mib := (digitsValue 0 false digits).getD 0 * (if unit = "Gi".toList then 1024 else 1)
  digits.head? != some '0' && 1 ≤ digits.length && digits.length ≤ 5 &&
    (unit = "Mi".toList || unit = "Gi".toList) && mib ≤ 8192

structure ResourceValues where
  cpuRequest : Text := "50m".toList
  cpuLimit : Text := "1".toList
  memoryRequest : Text := "128Mi".toList
  memoryLimit : Text := "1Gi".toList
  cpuRequest_ok : isCpu cpuRequest = true := by decide
  cpuLimit_ok : isCpu cpuLimit = true := by decide
  memoryRequest_ok : isMemory memoryRequest = true := by decide
  memoryLimit_ok : isMemory memoryLimit = true := by decide

/-- `validate_environment`; the names of a `dict` are distinct. -/
def isEnvironment (env : List (Text × Text)) : Prop :=
  env.length ≤ 100 ∧ (env.map Prod.fst).Nodup ∧ ∀ e ∈ env, isEnvName e.1 = true ∧ e.2.length ≤ 16384

def hasDotDot : Text → Bool
  | '.' :: '.' :: _ => true
  | _ :: cs => hasDotDot cs
  | [] => false

/-- `/[A-Za-z0-9_./~-]{0,255}` without `..`. -/
def isHealthPath : Text → Bool
  | [] => false
  | c :: cs =>
    c == '/' && cs.length ≤ 255 && !hasDotDot (c :: cs) &&
      cs.all fun d => d.isAlphanum || d == '_' || d == '.' || d == '/' || d == '~' || d == '-'

/-- A validated Vault record: `schema_version` is 1 and `enabled` true. -/
structure ProjectConfig where
  environment : List (Text × Text) := []
  secrets : List (Text × Text) := []
  port : ℤ := 8000
  healthPath : Text := "/".toList
  resources : ResourceValues := {}
  imageNamespace : Option Text := none
  environment_ok : isEnvironment environment := by simp [isEnvironment]
  secrets_ok : isEnvironment secrets := by simp [isEnvironment]
  port_ok : 1024 ≤ port ∧ port ≤ 65535 := by decide
  healthPath_ok : isHealthPath healthPath = true := by decide
  distinct_ok : ∀ e ∈ environment, ∀ s ∈ secrets, e.1 ≠ s.1 := by simp

/-- What reading a decoded JSON value takes from pydantic and Python: the lax
coercions, the values `Literal[1]` admits, the text of a `ValidationError`, and
whether a float is zero. -/
structure DecodedValues where
  laxInt : Json → Option ℤ
  laxBool : Json → Option Bool
  isOne : Json → Bool
  errorText : Json → Text
  isZero : Text → Bool

def Json.text? : Json → Option Text
  | .str t => some t
  | _ => none

/-- A value of type `str | None`. -/
def Json.textOrNone? : Json → Option (Option Text)
  | .null => some none
  | .str t => some (some t)
  | _ => none

/-- A value of type `dict[str, str]`. -/
def Json.texts? : Json → Option (List (Text × Text))
  | .obj fields => fields.mapM fun f => f.2.text?.map fun t => (f.1, t)
  | _ => none

def fieldOr {α : Type} (fields : List (Text × Json)) (name : String) (read : Json → Option α) (default : α) :
    Option α :=
  match fields.lookup name.toList with
  | none => some default
  | some j => read j

instance (env : List (Text × Text)) : Decidable (isEnvironment env) :=
  inferInstanceAs (Decidable (_ ∧ _ ∧ ∀ e ∈ env, isEnvName e.1 = true ∧ e.2.length ≤ 16384))

/-- `ResourceValues.model_validate(value)`, `none` where it raises. -/
def ResourceValues.modelValidate : Json → Option ResourceValues
  | .obj fields => do
    guard (onlyFields fields ["cpu_request", "cpu_limit", "memory_request", "memory_limit"])
    let cpuRequest ← fieldOr fields "cpu_request" Json.text? "50m".toList
    let cpuLimit ← fieldOr fields "cpu_limit" Json.text? "1".toList
    let memoryRequest ← fieldOr fields "memory_request" Json.text? "128Mi".toList
    let memoryLimit ← fieldOr fields "memory_limit" Json.text? "1Gi".toList
    if h : isCpu cpuRequest = true ∧ isCpu cpuLimit = true ∧ isMemory memoryRequest = true ∧
        isMemory memoryLimit = true then
      some ⟨cpuRequest, cpuLimit, memoryRequest, memoryLimit, h.1, h.2.1, h.2.2.1, h.2.2.2⟩
    else none
  | _ => none

/-- `ProjectConfig.model_validate(value)`, `none` where it raises. -/
def ProjectConfig.modelValidate (dv : DecodedValues) : Json → Option ProjectConfig
  | .obj fields => do
    guard (onlyFields fields ["schema_version", "enabled", "environment", "secrets", "port", "health_path",
      "resources", "image_namespace"])
    guard (dv.isOne (← fields.lookup "schema_version".toList))
    let enabled ← dv.laxBool (← fields.lookup "enabled".toList)
    let environment ← fieldOr fields "environment" Json.texts? []
    let secrets ← fieldOr fields "secrets" Json.texts? []
    let port ← fieldOr fields "port" dv.laxInt 8000
    let healthPath ← fieldOr fields "health_path" Json.text? "/".toList
    let resources ← fieldOr fields "resources" ResourceValues.modelValidate {}
    let imageNamespace ← fieldOr fields "image_namespace" Json.textOrNone? none
    if h : enabled = true ∧ isEnvironment environment ∧ isEnvironment secrets ∧ (1024 ≤ port ∧ port ≤ 65535) ∧
        isHealthPath healthPath = true ∧ ∀ e ∈ environment, ∀ s ∈ secrets, e.1 ≠ s.1 then
      some ⟨environment, secrets, port, healthPath, resources, imageNamespace, h.2.1, h.2.2.1, h.2.2.2.1,
        h.2.2.2.2.1, h.2.2.2.2.2⟩
    else none
  | _ => none

/-- What a record with the required keys only stands for. -/
def exampleConfig : ProjectConfig := {}

/-! ### Demo states and the status answer -/

inductive DemoState where
  | pending
  | reconciling
  | ready
  | failed
  | deleting
  deriving DecidableEq, Repr

structure DemoStatus where
  repository : Text
  pr : ℤ
  commitSha : Option Text
  image : Option Text
  hostname : Text
  state : DemoState
  vaultVersion : Option ℤ
  message : Text
  updatedAt : ℤ
  deriving DecidableEq

end DemoController
