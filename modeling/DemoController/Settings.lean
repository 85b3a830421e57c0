import DemoController.JsonRead

/-!
# From the options of the charm to the settings of the controller (`charm.py`, `settings.py`)

The charm hands its configuration on as environment variables, the credentials among them
as a JSON text of their own. It checks that they are an object; that they are texts is
checked by the controller only.
-/

namespace DemoController

open Lib

/-- The variables of a process; the first of a name counts. -/
abbrev Environ := List (Text × Text)

/-- `os.getenv(name, default)`. -/
def Environ.getenv (environ : Environ) (name : String) (default : Text) : Text :=
  (environ.lookup name.toList).getD default

/-! ### The charm -/

/-- Options of `config.yaml`; Juju's integers have 64 bits. -/
structure CharmConfig where
  hostnameSuffix : Text
  imageRegistry : Text
  vaultAddress : Text
  vaultNamespace : Text
  vaultKvMount : Text
  vaultBasePath : Text
  vaultApproleSecret : Text
  hmacCredentialsSecret : Text
  reconcileInterval : ℤ
  requestMaxBytes : ℤ
  signatureMaxAge : ℤ
  rateLimitPerMinute : ℤ
  int_ok : ∀ n ∈ [reconcileInterval, requestMaxBytes, signatureMaxAge, rateLimitPerMinute], -2 ^ 63 ≤ n ∧ n < 2 ^ 63

/-- What a hook works with. `getSecret` is `None` where `get_secret` raises one of the
exceptions the charm handles. -/
structure CharmUnit where
  model : Text
  app : Text
  config : CharmConfig
  getSecret : Text → Option (List (Text × Text))
  environ : Environ

namespace CharmUnit

variable (cm : CaseMapping) (u : CharmUnit)

def secretContent (secretId : Text) : Option (List (Text × Text)) :=
  if secretId = [] then none else u.getSecret secretId

/-- `dict.fromkeys(names)`. -/
def fromKeys (names : List Text) : List Text := (Dict.ofItems (names.map fun n => (n, ()))).map Prod.fst

/-- `if value: environment[name] = value`. -/
def variableIf (name : String) (value : Text) : Environ := if value = [] then [] else [(name.toList, value)]

def noProxy : List Text :=
  let host := u.environ.getenv "KUBERNETES_SERVICE_HOST" []
  ((u.environ.getenv "JUJU_CHARM_NO_PROXY" []).splitOn ',').filter (fun item => !item.isEmpty) ++
    if host = [] then [] else [host]

def proxyEnvironment : Environ :=
  variableIf "HTTP_PROXY" (u.environ.getenv "JUJU_CHARM_HTTP_PROXY" []) ++
    (variableIf "HTTPS_PROXY" (u.environ.getenv "JUJU_CHARM_HTTPS_PROXY" []) ++
      if u.noProxy = [] then [] else [("NO_PROXY".toList, [','].intercalate (fromKeys u.noProxy))])

def registryName (t : Text) : Text := cm.lower (strip (· == '/') (strip isSpace t))

def baseEnvironment (roleId secretId credentials : Text) : Environ :=
  [("DATABASE_PATH".toList, "/data/controller.db".toList),
    ("KUBERNETES_NAMESPACE".toList, u.model),
    ("CONTROLLER_OWNER".toList, u.app),
    ("HOSTNAME_SUFFIX".toList, strip (· == '.') u.config.hostnameSuffix),
    ("IMAGE_REGISTRY".toList, registryName cm u.config.imageRegistry),
    ("UVICORN_HOST".toList, "0.0.0.0".toList),
    ("UVICORN_PORT".toList, "8080".toList),
    ("VAULT_ADDRESS".toList, u.config.vaultAddress),
    ("VAULT_NAMESPACE".toList, u.config.vaultNamespace),
    ("VAULT_KV_MOUNT".toList, u.config.vaultKvMount),
    ("VAULT_BASE_PATH".toList, u.config.vaultBasePath),
    ("VAULT_ROLE_ID".toList, roleId),
    ("VAULT_SECRET_ID".toList, secretId),
    ("HMAC_CREDENTIALS".toList, credentials),
    ("RECONCILE_INTERVAL".toList, decimal u.config.reconcileInterval),
    ("REQUEST_MAX_BYTES".toList, decimal u.config.requestMaxBytes),
    ("SIGNATURE_MAX_AGE".toList, decimal u.config.signatureMaxAge),
    ("RATE_LIMIT_PER_MINUTE".toList, decimal u.config.rateLimitPerMinute)]

/-- The `isinstance(credentials, dict)` and `not credentials` of `_environment`. -/
def credentialFields : Option Json → Option (List (Text × Json))
  | some (.obj fields) => if fields = [] then none else some fields
  | _ => none

/-- `_environment`. -/
def environment : Option Environ := do
  let approle ← u.secretContent u.config.vaultApproleSecret
  let roleId ← approle.lookup "role-id".toList
  let secretId ← approle.lookup "secret-id".toList
  let hmacSecret ← u.secretContent u.config.hmacCredentialsSecret
  let text ← hmacSecret.lookup "credentials".toList
  let credentials ← credentialFields (loads text)
  pure (u.baseEnvironment cm roleId secretId (dumps (.obj credentials)) ++ u.proxyEnvironment)

end CharmUnit

/-! ### The controller -/

/-- All settings; `F` are the floats. -/
structure ControllerSettings (F : Type) extends Settings where
  databasePath : Text
  vaultAddress : Text
  vaultNamespace : Option Text
  vaultKvMount : Text
  vaultBasePath : Text
  vaultRoleId : Text
  vaultSecretId : Text
  reconcileIntervalSeconds : F
  proxyTimeoutSeconds : F

inductive SettingsError where
  /-- the `JSONDecodeError` of `json.loads` -/
  | invalidJson
  /-- a `ValueError` of `int` or `float` -/
  | invalidNumber
  | value (text : Text)

def notStringMap : SettingsError := .value "HMAC_CREDENTIALS must be a JSON string map".toList

def stringFields : List (Text × Json) → Option (List (Text × Text))
  | [] => some []
  | (name, .str t) :: fields => (stringFields fields).map ((name, t) :: ·)
  | _ :: _ => none

/-- The keys that `json.loads` has read; those with a lone surrogate `loads` does not read. -/
def textKeys (credentials : List (Text × Text)) : List (Text × CredentialKey) :=
  credentials.map fun c => (c.1, .text c.2)

def stringMap : Json → Option (List (Text × Text))
  | .obj fields => stringFields fields
  | _ => none

section

variable {F : Type} (cm : CaseMapping) (pyFloat : Text → Option F) (environ : Environ)

/-- The settings with the credentials `from_env` has checked. -/
def settingsWith (credentials : List (Text × Text)) : Except SettingsError (ControllerSettings F) :=
  match pyFloat (environ.getenv "RECONCILE_INTERVAL" "10".toList),
      pyInt (environ.getenv "REQUEST_MAX_BYTES" "65536".toList),
      pyInt (environ.getenv "SIGNATURE_MAX_AGE" "300".toList),
      pyInt (environ.getenv "RATE_LIMIT_PER_MINUTE" "60".toList),
      pyFloat (environ.getenv "PROXY_TIMEOUT" "30".toList) with
  | some interval, some maxBytes, some maxAge, some rate, some timeout => .ok
    { namespace_ := environ.getenv "KUBERNETES_NAMESPACE" "default".toList
      hostnameSuffix := strip (· == '.') (environ.getenv "HOSTNAME_SUFFIX" "demos.canonical.com".toList)
      controllerOwner := environ.getenv "CONTROLLER_OWNER" "demo-controller".toList
      imageRegistry := CharmUnit.registryName cm (environ.getenv "IMAGE_REGISTRY" "ghcr.io".toList)
      hmacCredentials := textKeys credentials
      requestMaxBytes := maxBytes
      signatureMaxAgeSeconds := maxAge
      rateLimitPerMinute := rate
      databasePath := environ.getenv "DATABASE_PATH" "/data/controller.db".toList
      vaultAddress := environ.getenv "VAULT_ADDRESS" "https://vault.ps7.admin.canonical.com".toList
      vaultNamespace :=
        let name := environ.getenv "VAULT_NAMESPACE" []
        if name = [] then none else some name
      vaultKvMount := strip (· == '/') (environ.getenv "VAULT_KV_MOUNT" "secret".toList)
      vaultBasePath := strip (· == '/') (environ.getenv "VAULT_BASE_PATH" "demos".toList)
      vaultRoleId := environ.getenv "VAULT_ROLE_ID" []
      vaultSecretId := environ.getenv "VAULT_SECRET_ID" []
      reconcileIntervalSeconds := interval
      proxyTimeoutSeconds := timeout }
  | _, _, _, _, _ => .error .invalidNumber

/-- `Settings.from_env`. -/
def fromEnv : Except SettingsError (ControllerSettings F) :=
  match loads (environ.getenv "HMAC_CREDENTIALS" ['\x7b', '\x7d']) with
  | none => .error .invalidJson
  | some value =>
    match stringMap value with
    | none => .error notStringMap
    | some credentials => settingsWith cm pyFloat environ credentials

end

/-! ### The variables arrive -/

theorem lookup_of_getElem {l : Environ} (hnames : (l.map Prod.fst).Nodup) {i : ℕ} {name value : Text}
    (h : l[i]? = some (name, value)) : l.lookup name = some value := by
  induction l generalizing i with
  | nil => cases h
  | cons p l ih =>
    rw [List.map_cons, List.nodup_cons] at hnames
    rw [List.lookup_cons]
    cases i with
    | zero =>
      cases Option.some.inj h
      rw [beq_self_eq_true]
    | succ i =>
      have hmem : name ∈ l.map Prod.fst := List.mem_map.mpr ⟨(name, value), List.mem_of_getElem? h, rfl⟩
      have hne : (name == p.1) = false := beq_eq_false_iff_ne.mpr fun he => hnames.1 (he ▸ hmem)
      rw [hne]
      exact ih hnames.2 h

theorem lookup_of_notMem {l : Environ} {name : Text} (h : name ∉ l.map Prod.fst) : l.lookup name = none := by
  induction l with
  | nil => rfl
  | cons p l ih =>
    rw [List.map_cons, List.mem_cons, not_or] at h
    rw [List.lookup_cons, beq_eq_false_iff_ne.mpr h.1]
    exact ih h.2

theorem lookup_append {l l' : Environ} {name : Text} : (l ++ l').lookup name = (l.lookup name).or (l'.lookup name) := by
  induction l with
  | nil => rfl
  | cons p l ih =>
    rw [List.cons_append, List.lookup_cons, List.lookup_cons]
    split
    · rfl
    · exact ih

section

variable {cm : CaseMapping} {u : CharmUnit} {roleId secretId credentials : Text}

theorem baseEnvironment_names : (u.baseEnvironment cm roleId secretId credentials).map Prod.fst =
    ["DATABASE_PATH".toList, "KUBERNETES_NAMESPACE".toList, "CONTROLLER_OWNER".toList, "HOSTNAME_SUFFIX".toList,
      "IMAGE_REGISTRY".toList, "UVICORN_HOST".toList, "UVICORN_PORT".toList, "VAULT_ADDRESS".toList,
      "VAULT_NAMESPACE".toList, "VAULT_KV_MOUNT".toList, "VAULT_BASE_PATH".toList, "VAULT_ROLE_ID".toList,
      "VAULT_SECRET_ID".toList, "HMAC_CREDENTIALS".toList, "RECONCILE_INTERVAL".toList, "REQUEST_MAX_BYTES".toList,
      "SIGNATURE_MAX_AGE".toList, "RATE_LIMIT_PER_MINUTE".toList] := rfl

theorem baseEnvironment_nodup : ((u.baseEnvironment cm roleId secretId credentials).map Prod.fst).Nodup := by
  rw [baseEnvironment_names]
  decide

theorem variableIf_names {name : String} {value n : Text} (h : n ∈ (CharmUnit.variableIf name value).map Prod.fst) :
    n = name.toList := by
  unfold CharmUnit.variableIf at h
  split at h
  · exact absurd h List.not_mem_nil
  · exact List.mem_singleton.mp h

theorem proxyEnvironment_names : ∀ name ∈ u.proxyEnvironment.map Prod.fst,
    name ∈ ["HTTP_PROXY".toList, "HTTPS_PROXY".toList, "NO_PROXY".toList] := by
  intro name h
  rw [CharmUnit.proxyEnvironment, List.map_append, List.map_append, List.mem_append, List.mem_append] at h
  rcases h with h | h | h
  · rw [variableIf_names h]
    exact List.mem_cons_self ..
  · rw [variableIf_names h]
    exact List.mem_cons_of_mem _ (List.mem_cons_self ..)
  · split at h
    · exact absurd h List.not_mem_nil
    · rw [List.mem_singleton.mp h]
      exact List.mem_cons_of_mem _ (List.mem_cons_of_mem _ (List.mem_cons_self ..))

/-- A variable of the charm is what the process reads, whatever else is set. -/
theorem getenv_base (rest : Environ) {i : ℕ} {name : String} {value : Text} (default : Text)
    (h : (u.baseEnvironment cm roleId secretId credentials)[i]? = some (name.toList, value)) :
    Environ.getenv (u.baseEnvironment cm roleId secretId credentials ++ rest) name default = value := by
  rw [Environ.getenv, lookup_append, lookup_of_getElem baseEnvironment_nodup h]
  rfl

theorem getenv_image (image : Environ) (default : Text) :
    Environ.getenv (u.baseEnvironment cm roleId secretId credentials ++ (u.proxyEnvironment ++ image)) "PROXY_TIMEOUT"
      default = image.getenv "PROXY_TIMEOUT" default := by
  have hbase : "PROXY_TIMEOUT".toList ∉ (u.baseEnvironment cm roleId secretId credentials).map Prod.fst := by
    rw [baseEnvironment_names]
    decide
  have hproxy : "PROXY_TIMEOUT".toList ∉ u.proxyEnvironment.map Prod.fst :=
    fun h => absurd (proxyEnvironment_names _ h) (by decide)
  rw [Environ.getenv, lookup_append, lookup_of_notMem hbase, lookup_append, lookup_of_notMem hproxy]
  rfl

end

theorem strip_strip (p : Char → Bool) (t : Text) : strip p (strip p t) = strip p t := by
  have hhead : (strip p t).dropWhile p = strip p t := by
    rw [strip]
    cases hd : t.dropWhile p with
    | nil => rfl
    | cons c d =>
      have hc : ¬ p c = true := by
        have hnot := @List.head_dropWhile_not _ p t (by rw [hd]; exact List.cons_ne_nil c d)
        simp only [hd, List.head_cons] at hnot
        rw [hnot]
        exact Bool.false_ne_true
      obtain ⟨u, hu⟩ := List.rdropWhile_prefix p (l := c :: d)
      cases hr : (c :: d).rdropWhile p with
      | nil => rfl
      | cons x xs =>
        rw [hr, List.cons_append] at hu
        rw [(List.cons.inj hu).1]
        exact List.dropWhile_cons_of_neg hc
  rw [strip, hhead, strip, List.rdropWhile_idempotent]

/-! ### The credentials -/

def textFields (credentials : List (Text × Text)) : List (Text × Json) := credentials.map fun c => (c.1, .str c.2)

theorem stringFields_eq_some {fields : List (Text × Json)} {credentials : List (Text × Text)} :
    stringFields fields = some credentials ↔ fields = textFields credentials := by
  induction fields generalizing credentials with
  | nil =>
    cases credentials with
    | nil => exact iff_of_true rfl rfl
    | cons c cs => exact iff_of_false (fun h => by cases h) fun h => by cases h
  | cons f fields ih =>
    obtain ⟨name, value⟩ := f
    cases value with
    | str t =>
      rw [stringFields, Option.map_eq_some_iff]
      constructor
      · rintro ⟨cs, hcs, rfl⟩
        rw [ih.mp hcs]
        rfl
      · intro h
        cases credentials with
        | nil => cases h
        | cons c cs =>
          obtain ⟨hc, hfields⟩ := List.cons.inj h
          cases hc
          exact ⟨cs, ih.mpr hfields, rfl⟩
    | null | bool b | int n | number t | arr items | obj fields' =>
      refine iff_of_false (fun h => by cases h) fun h => ?_
      cases credentials with
      | nil => cases h
      | cons c cs => cases h

def sortedCredentials (credentials : List (Text × Text)) : List (Text × Text) :=
  credentials.insertionSort fun a b => a.1 ≤ b.1

theorem sorted_textFields (credentials : List (Text × Text)) :
    (Json.obj (textFields credentials)).sorted = .obj (textFields (sortedCredentials credentials)) := by
  have hsame : (textFields credentials).map (Prod.map id Json.sorted) = textFields credentials := by
    rw [textFields, List.map_map]
    refine List.map_congr_left fun c _ => ?_
    rw [Function.comp_apply, Prod.map, Json.sorted]
    rfl
  rw [Json.sorted, sortedFields_eq, hsame, textFields, sortedCredentials,
    ← List.map_insertionSort (fun a b : Text × Text => a.1 ≤ b.1) (fun a b : Text × Json => a.1 ≤ b.1) _ _
      fun a _ b _ => Iff.rfl]
  rfl

theorem text_of_sorted {v : Json} {t : Text} (h : v.sorted = .str t) : v = .str t := by
  cases v with
  | str t' => exact h
  | null | bool b | int n | number t' | arr items | obj fields =>
    rw [Json.sorted] at h
    cases h

/-- Sorting the names makes no credential a text that was none. -/
theorem stringMap_sorted (fields : List (Text × Json)) : stringMap (Json.obj fields).sorted =
    (stringFields fields).map sortedCredentials := by
  cases hstrings : stringFields fields with
  | some credentials =>
    rw [stringFields_eq_some.mp hstrings, sorted_textFields]
    exact stringFields_eq_some.mpr rfl
  | none =>
    rw [Json.sorted, sortedFields_eq, Option.map_none]
    refine Option.eq_none_iff_forall_ne_some.mpr fun credentials h => ?_
    have hfields := stringFields_eq_some.mp h
    have hperm := List.perm_insertionSort (fun a b : Text × Json => a.1 ≤ b.1) (fields.map (Prod.map id Json.sorted))
    have htext : ∀ f ∈ fields, ∃ t, f.2 = .str t := by
      intro f hf
      have hmem := hperm.mem_iff.mpr (List.mem_map_of_mem (f := Prod.map id Json.sorted) hf)
      rw [hfields] at hmem
      obtain ⟨c, -, hc⟩ := List.mem_map.mp hmem
      exact ⟨c.2, text_of_sorted (congrArg Prod.snd hc).symm⟩
    obtain ⟨cs, hcs⟩ : ∃ cs, fields = textFields cs := by
      clear h hstrings hfields hperm
      induction fields with
      | nil => exact ⟨[], rfl⟩
      | cons f fields ih =>
        obtain ⟨⟨t, ht⟩, hrest⟩ := List.forall_mem_cons.mp htext
        obtain ⟨cs, rfl⟩ := ih hrest
        have hf : f = (f.1, .str t) := Prod.ext rfl ht
        exact ⟨(f.1, t) :: cs, congrArg (· :: textFields cs) hf⟩
    rw [stringFields_eq_some.mpr hcs] at hstrings
    cases hstrings

/-! ### The settings -/

/-- What the configuration of the charm means. -/
def CharmUnit.settings {F : Type} (cm : CaseMapping) (u : CharmUnit) (ofInt : ℤ → F) (roleId secretId : Text)
    (credentials : List (Text × Text)) (timeout : F) : ControllerSettings F where
  namespace_ := u.model
  hostnameSuffix := strip (· == '.') u.config.hostnameSuffix
  controllerOwner := u.app
  imageRegistry := registryName cm (registryName cm u.config.imageRegistry)
  hmacCredentials := textKeys credentials
  requestMaxBytes := u.config.requestMaxBytes
  signatureMaxAgeSeconds := u.config.signatureMaxAge
  rateLimitPerMinute := u.config.rateLimitPerMinute
  databasePath := "/data/controller.db".toList
  vaultAddress := u.config.vaultAddress
  vaultNamespace := if u.config.vaultNamespace = [] then none else some u.config.vaultNamespace
  vaultKvMount := strip (· == '/') u.config.vaultKvMount
  vaultBasePath := strip (· == '/') u.config.vaultBasePath
  vaultRoleId := roleId
  vaultSecretId := secretId
  reconcileIntervalSeconds := ofInt u.config.reconcileInterval
  proxyTimeoutSeconds := timeout

/-- What the charm has at hand when it configures the controller. -/
structure CharmUnit.Secrets (u : CharmUnit) (roleId secretId : Text) (fields : List (Text × Json)) : Prop where
  approle : ∃ approle, u.secretContent u.config.vaultApproleSecret = some approle ∧
    approle.lookup "role-id".toList = some roleId ∧ approle.lookup "secret-id".toList = some secretId
  credentials : ∃ hmacSecret text, u.secretContent u.config.hmacCredentialsSecret = some hmacSecret ∧
    hmacSecret.lookup "credentials".toList = some text ∧ loads text = some (.obj fields)
  nonempty : fields ≠ []

theorem secrets_of_environment {cm : CaseMapping} {u : CharmUnit} {environ : Environ}
    (h : u.environment cm = some environ) : ∃ roleId secretId fields, u.Secrets roleId secretId fields ∧
      environ = u.baseEnvironment cm roleId secretId (dumps (.obj fields)) ++ u.proxyEnvironment := by
  simp only [CharmUnit.environment, Option.bind_eq_bind, Option.pure_def, Option.bind_eq_some_iff,
    Option.some.injEq] at h
  obtain ⟨approle, happrole, roleId, hrole, secretId, hsecret, hmacSecret, hhmac, text, htext, fields, hfields, rfl⟩ :=
    h
  unfold CharmUnit.credentialFields at hfields
  split at hfields
  · next hloads =>
    split at hfields
    · cases hfields
    · next hne =>
      cases hfields
      exact ⟨roleId, secretId, fields, ⟨⟨approle, happrole, hrole, hsecret⟩, ⟨hmacSecret, text, hhmac, htext, hloads⟩,
        hne⟩, rfl⟩
  · cases hfields

theorem pyInt_option {n : ℤ} (h : -2 ^ 63 ≤ n ∧ n < 2 ^ 63) : pyInt (decimal n) = some n :=
  pyInt_of_decimal (decimal_short h)

/-- The controller starts with the settings the charm's configuration means, with the
credentials in the order of their names, unless a credential is no text. -/
theorem settings_of_charm {F : Type} {cm : CaseMapping} {u : CharmUnit} {environ : Environ} {pyFloat : Text → Option F}
    {ofInt : ℤ → F} (float : ∀ n, -2 ^ 63 ≤ n ∧ n < 2 ^ 63 → pyFloat (decimal n) = some (ofInt n))
    (h : u.environment cm = some environ) (image : Environ) : ∃ roleId secretId fields,
      u.Secrets roleId secretId fields ∧
      fromEnv cm pyFloat (environ ++ image) =
        match stringFields fields, pyFloat (image.getenv "PROXY_TIMEOUT" "30".toList) with
        | none, _ => .error notStringMap
        | some _, none => .error .invalidNumber
        | some credentials, some timeout =>
          .ok (u.settings cm ofInt roleId secretId (sortedCredentials credentials) timeout) := by
  obtain ⟨roleId, secretId, fields, hsecrets, rfl⟩ := secrets_of_environment h
  refine ⟨roleId, secretId, fields, hsecrets, ?_⟩
  obtain ⟨-, text, -, -, hloads⟩ := hsecrets.credentials
  rw [List.append_assoc, fromEnv, getenv_base _ (i := 13) _ rfl, (loads_readable (readable_of_loads hloads)).2.2]
  dsimp only
  rw [stringMap_sorted]
  cases stringFields fields with
  | none => rfl
  | some credentials =>
    have hvar (i : ℕ) (name : String) {value : Text} (default : Text)
        (hvalue : (u.baseEnvironment cm roleId secretId (dumps (.obj fields)))[i]? = some (name.toList, value)) :=
      getenv_base (u.proxyEnvironment ++ image) default hvalue
    have hint {n : ℤ} (hn : n ∈ [u.config.reconcileInterval, u.config.requestMaxBytes, u.config.signatureMaxAge,
        u.config.rateLimitPerMinute]) := u.config.int_ok n hn
    rw [Option.map_some]
    dsimp only
    rw [settingsWith, hvar 1 "KUBERNETES_NAMESPACE" _ rfl, hvar 3 "HOSTNAME_SUFFIX" _ rfl,
      hvar 2 "CONTROLLER_OWNER" _ rfl, hvar 4 "IMAGE_REGISTRY" _ rfl, hvar 15 "REQUEST_MAX_BYTES" _ rfl,
      hvar 16 "SIGNATURE_MAX_AGE" _ rfl, hvar 17 "RATE_LIMIT_PER_MINUTE" _ rfl, hvar 0 "DATABASE_PATH" _ rfl,
      hvar 7 "VAULT_ADDRESS" _ rfl, hvar 8 "VAULT_NAMESPACE" _ rfl, hvar 9 "VAULT_KV_MOUNT" _ rfl,
      hvar 10 "VAULT_BASE_PATH" _ rfl, hvar 11 "VAULT_ROLE_ID" _ rfl, hvar 12 "VAULT_SECRET_ID" _ rfl,
      hvar 14 "RECONCILE_INTERVAL" _ rfl, getenv_image, float _ (hint (by simp)), pyInt_option (hint (by simp)),
      pyInt_option (hint (by simp)), pyInt_option (hint (by simp))]
    cases pyFloat (image.getenv "PROXY_TIMEOUT" "30".toList) with
    | none => rfl
    | some timeout =>
      dsimp only
      rw [strip_strip]
      rfl

def exampleCredentials : List (Text × Text) :=
  [("canonical/example".toList, "repository-key".toList), ("Canonical/Example".toList, "former-key".toList)]

def exampleUnit : CharmUnit where
  model := "demos".toList
  app := "demos-controller".toList
  config :=
    { hostnameSuffix := ".demos.test".toList
      imageRegistry := " ghcr.io/".toList
      vaultAddress := "https://vault.test".toList
      vaultNamespace := []
      vaultKvMount := "secret/".toList
      vaultBasePath := "demos".toList
      vaultApproleSecret := "secret:approle".toList
      hmacCredentialsSecret := "secret:hmac".toList
      reconcileInterval := 10
      requestMaxBytes := 65536
      signatureMaxAge := 300
      rateLimitPerMinute := 60
      int_ok := by decide }
  getSecret id :=
    if id = "secret:approle".toList then some [("role-id".toList, "role".toList), ("secret-id".toList, "id".toList)]
    else if id = "secret:hmac".toList then
      some [("credentials".toList, jsonText responseChar (.obj (textFields exampleCredentials)))]
    else none
  environ := [("JUJU_CHARM_NO_PROXY".toList, "localhost,,.svc,localhost".toList)]

theorem exampleUnit_environment : (exampleUnit.environment .ascii).isSome = true := by decide +kernel

theorem exampleUnit_credentials {roleId secretId : Text} {fields : List (Text × Json)}
    (h : exampleUnit.Secrets roleId secretId fields) : fields = textFields exampleCredentials := by
  obtain ⟨hmacSecret, text, hsecret, htext, hloads⟩ := h.credentials
  have hcontent : exampleUnit.secretContent exampleUnit.config.hmacCredentialsSecret =
      some [("credentials".toList, jsonText responseChar (.obj (textFields exampleCredentials)))] := by decide
  rw [hcontent] at hsecret
  cases hsecret
  cases htext
  rw [(loads_readable (Json.readable_of_isPlain (by decide))).1] at hloads
  cases hloads
  rfl

theorem settings_of_charm_example : ∃ environ settings, exampleUnit.environment .ascii = some environ ∧
    fromEnv .ascii pyInt (environ ++ []) = .ok settings ∧ settings.hostnameSuffix = "demos.test".toList ∧
    settings.hmacCredentials = textKeys exampleCredentials.reverse := by
  obtain ⟨environ, henviron⟩ := Option.isSome_iff_exists.mp exampleUnit_environment
  obtain ⟨roleId, secretId, fields, hsecrets, hstart⟩ :=
    @settings_of_charm ℤ .ascii exampleUnit environ pyInt id (fun n hn => pyInt_option hn) henviron []
  have htimeout : pyInt (Environ.getenv [] "PROXY_TIMEOUT" "30".toList) = some 30 := by decide
  have hsuffix : strip (· == '.') ".demos.test".toList = "demos.test".toList := by decide
  have hcredentials : sortedCredentials exampleCredentials = exampleCredentials.reverse := by decide
  rw [exampleUnit_credentials hsecrets, stringFields_eq_some.mpr rfl, htimeout] at hstart
  exact ⟨environ, _, henviron, hstart, hsuffix, congrArg textKeys hcredentials⟩

/-! ### Which key a repository has -/

theorem lookup_map_eq {β : Type} {f : Text → Text} {g : Text → β} {l : List (Text × Text)} {k : Text} :
    (l.map fun c => (f c.1, g c.2)).lookup k = (l.find? fun c => decide (f c.1 = k)).map fun c => g c.2 := by
  induction l with
  | nil => rfl
  | cons c l ih =>
    rw [List.map_cons, List.lookup_cons, List.find?_cons]
    by_cases hc : f c.1 = k
    · rw [hc, beq_self_eq_true, decide_eq_true rfl]
      rfl
    · rw [beq_eq_false_iff_ne.mpr (Ne.symm hc), decide_eq_false hc]
      exact ih

theorem pairwise_sortedCredentials (credentials : List (Text × Text)) :
    (sortedCredentials credentials).Pairwise fun a b => a.1 ≤ b.1 := by
  have : Std.Total fun a b : Text × Text => a.1 ≤ b.1 := ⟨fun a b => le_total a.1 b.1⟩
  have : IsTrans (Text × Text) fun a b => a.1 ≤ b.1 := ⟨fun _ _ _ hab hbc => le_trans hab hbc⟩
  exact List.pairwise_insertionSort _ credentials

/-- The last of the sorted credentials that is meant is the one with the greatest name. -/
theorem find_sortedCredentials {credentials : List (Text × Text)} (hnames : (credentials.map Prod.fst).Nodup)
    {q : Text × Text → Bool} {c : Text × Text} : (sortedCredentials credentials).reverse.find? q = some c ↔
      c ∈ credentials ∧ q c = true ∧ ∀ d ∈ credentials, q d = true → d.1 ≤ c.1 := by
  have hperm : (sortedCredentials credentials).Perm credentials := List.perm_insertionSort _ _
  have hmem {d : Text × Text} : d ∈ (sortedCredentials credentials).reverse ↔ d ∈ credentials := by
    rw [List.mem_reverse, hperm.mem_iff]
  have hsorted := List.pairwise_reverse.mpr (pairwise_sortedCredentials credentials)
  have hgreatest {d : Text × Text} (h : (sortedCredentials credentials).reverse.find? q = some d) :
      d ∈ credentials ∧ q d = true ∧ ∀ e ∈ credentials, q e = true → e.1 ≤ d.1 := by
    obtain ⟨hq, before, after, hsplit, hbefore⟩ := List.find?_eq_some_iff_append.mp h
    refine ⟨hmem.mp (List.mem_of_find?_eq_some h), hq, fun e he hqe => ?_⟩
    rw [← hmem, hsplit, List.mem_append, List.mem_cons] at he
    rw [hsplit] at hsorted
    rcases he with he | rfl | he
    · have hnot := hbefore e he
      rw [hqe] at hnot
      cases hnot
    · exact le_refl _
    · exact (List.pairwise_cons.mp (List.pairwise_append.mp hsorted).2.1).1 e he
  constructor
  · exact hgreatest
  · rintro ⟨hc, hq, hall⟩
    cases hfind : (sortedCredentials credentials).reverse.find? q with
    | none => exact absurd hq (List.find?_eq_none.mp hfind c (hmem.mpr hc))
    | some d =>
      obtain ⟨hd, hqd, halld⟩ := hgreatest hfind
      have hname : d.1 = c.1 := le_antisymm (hall d hd hqd) (halld c hc hq)
      rw [List.inj_on_of_nodup_map hnames hd hc hname]

theorem credentials_of_settings {F : Type} {cm : CaseMapping} {pyFloat : Text → Option F} {environ : Environ}
    {settings : ControllerSettings F} (h : fromEnv cm pyFloat environ = .ok settings) :
    ∃ value credentials, loads (environ.getenv "HMAC_CREDENTIALS" ['\x7b', '\x7d']) = some value ∧
      stringMap value = some credentials ∧ settings.hmacCredentials = textKeys credentials := by
  unfold fromEnv at h
  split at h
  · cases h
  · next value hvalue =>
    split at h
    · cases h
    · next credentials hcredentials =>
      unfold settingsWith at h
      split at h
      · cases h
        exact ⟨value, credentials, hvalue, hcredentials, rfl⟩
      · cases h

/-- The key of a repository is the one the charm's secret has for it; of several names that
differ in case the greatest counts, however they are ordered in the secret. -/
theorem credential_of_charm {F : Type} {u : CharmUnit} {environ image : Environ} {pyFloat : Text → Option F}
    {settings : ControllerSettings F} {app : App} (h : u.environment app.cm = some environ)
    (started : fromEnv app.cm pyFloat (environ ++ image) = .ok settings) (runs : app.settings = settings.toSettings) :
    ∃ roleId secretId credentials, u.Secrets roleId secretId (textFields credentials) ∧
      ∀ repository key, app.credential repository = some key ↔ ∃ name t, key = .text t ∧ t ≠ [] ∧
        (name, t) ∈ credentials ∧ app.cm.lower name = repository ∧
        ∀ c ∈ credentials, app.cm.lower c.1 = repository → c.1 ≤ name := by
  obtain ⟨roleId, secretId, fields, hsecrets, rfl⟩ := secrets_of_environment h
  obtain ⟨-, text, -, -, hloads⟩ := hsecrets.credentials
  have hreadable := readable_of_loads hloads
  obtain ⟨value, sorted, hvalue, hmap, hkeys⟩ := credentials_of_settings started
  rw [List.append_assoc, getenv_base _ (i := 13) _ rfl, (loads_readable hreadable).2.2] at hvalue
  rw [← Option.some.inj hvalue, stringMap_sorted] at hmap
  obtain ⟨credentials, hcredentials, hsorted⟩ := Option.map_eq_some_iff.mp hmap
  obtain rfl := stringFields_eq_some.mp hcredentials
  have hnames : (credentials.map Prod.fst).Nodup := by
    have hnodup := ((readable_obj _).mp hreadable).1
    rwa [textFields, List.map_map] at hnodup
  refine ⟨roleId, secretId, credentials, hsecrets, fun repository key => ?_⟩
  have hconfigured : app.settings.hmacCredentials.reverse.map (fun c => (app.cm.lower c.1, c.2)) =
      ((sortedCredentials credentials).reverse.map fun c => (app.cm.lower c.1, CredentialKey.text c.2)) := by
    rw [runs, hkeys, ← hsorted, textKeys, ← List.map_reverse, List.map_map]
    rfl
  rw [App.credential, hconfigured, lookup_map_eq, Option.filter_eq_some_iff, Option.map_eq_some_iff]
  constructor
  · rintro ⟨⟨c, hc, rfl⟩, hkey⟩
    obtain ⟨hmem, hq, hall⟩ := (find_sortedCredentials hnames).mp hc
    refine ⟨c.1, c.2, rfl, ?_, hmem, of_decide_eq_true hq, fun d hd hlower => hall d hd (decide_eq_true hlower)⟩
    intro hnil
    rw [hnil] at hkey
    cases hkey
  · rintro ⟨name, t, rfl, hkey, hmem, hlower, hall⟩
    refine ⟨⟨(name, t), (find_sortedCredentials hnames).mpr ⟨hmem, decide_eq_true hlower, fun d hd hq => ?_⟩, rfl⟩,
      ?_⟩
    · exact hall d hd (of_decide_eq_true hq)
    · cases t with
      | nil => exact absurd rfl hkey
      | cons c cs => rfl

/-- The controller of the example unit. -/
def charmApp (settings : ControllerSettings ℤ) : App := { exampleApp with settings := settings.toSettings }

theorem credential_of_charm_example : ∃ environ settings, exampleUnit.environment .ascii = some environ ∧
    fromEnv .ascii pyInt (environ ++ []) = .ok settings ∧
    (charmApp settings).credential "canonical/example".toList = some (.text "repository-key".toList) := by
  obtain ⟨environ, henviron⟩ := Option.isSome_iff_exists.mp exampleUnit_environment
  have hstarts : ((exampleUnit.environment .ascii).any fun environ =>
      (fromEnv .ascii pyInt (environ ++ [])).toBool) = true := by decide +kernel
  rw [henviron, Option.any_some] at hstarts
  obtain ⟨settings, hstart⟩ : ∃ settings, fromEnv .ascii pyInt (environ ++ []) = .ok settings := by
    cases hstart : fromEnv .ascii pyInt (environ ++ []) with
    | ok settings => exact ⟨settings, rfl⟩
    | error error =>
      rw [hstart] at hstarts
      cases hstarts
  refine ⟨environ, settings, henviron, hstart, ?_⟩
  obtain ⟨roleId, secretId, credentials, hsecrets, hcredential⟩ :=
    @credential_of_charm ℤ exampleUnit environ [] pyInt settings (charmApp settings) henviron hstart rfl
  have hfields := stringFields_eq_some.mpr (exampleUnit_credentials hsecrets)
  rw [stringFields_eq_some.mpr rfl] at hfields
  have hgreatest : ∀ c ∈ exampleCredentials, c.1 ≤ "canonical/example".toList := by decide
  rw [hcredential, Option.some.inj hfields]
  have hlower : CaseMapping.ascii.lower "canonical/example".toList = "canonical/example".toList := by decide
  exact ⟨"canonical/example".toList, _, rfl, by decide, by decide, hlower, fun c hc _ => hgreatest c hc⟩

end DemoController
