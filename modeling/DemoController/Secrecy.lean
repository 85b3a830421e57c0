import DemoController.Lib.EventRun
import DemoController.Redaction
import DemoController.VaultRequests

/-!
# Secret values reach only the Secret object

Two runs of the controller, its Vault client included, meet the same requests,
clock and Kubernetes outcomes, and answers of Vault that differ only in the
values of `secrets`. The client goes through the same operations in both, and
what it returns is the same up to redaction; from there on every step is.
-/

namespace DemoController

open Lib

/-! ### Answers that differ in secret values -/

namespace Json

def mapItem (name : String) (f : Json → Json) : Json → Json
  | .obj fields => .obj (fields.map fun p => if p.1 = name.toList then (p.1, f p.2) else p)
  | j => j

def emptyValues : Json → Json
  | .obj fields => .obj (fields.map fun p => (p.1, .null))
  | j => j

/-- The `data` member of a KV response, the record one writes to Vault. -/
def redactedRecord : Json → Json := mapItem "secrets" emptyValues

def redacted : Json → Json := mapItem "data" (mapItem "data" redactedRecord)

end Json

/-- Whether the record in a response passes the validation of `ProjectConfig`. -/
def passes (dv : DecodedValues) (response : Json) : Bool :=
  match response.item "data" with
  | .error _ => false
  | .ok payload =>
    match payload.item "data" with
    | .error _ => false
    | .ok record => (ProjectConfig.modelValidate dv record).isSome

inductive SameAnswer (dv : DecodedValues) : Sent → Sent → Prop
  | same (o : Sent) : SameAnswer dv o o
  | record {code : ℕ} {text : Text} {j j' : Json} : j.redacted = j'.redacted → passes dv j = passes dv j' →
      SameAnswer dv (.response ⟨code, text, .json j⟩) (.response ⟨code, text, .json j'⟩)

namespace Json

theorem lookup_mapItem (n name : Text) (f : Json → Json) (fields : List (Text × Json)) :
    (fields.map fun p => if p.1 = n then (p.1, f p.2) else p).lookup name =
      (fields.lookup name).map (if name = n then f else id) := by
  induction fields with
  | nil => rfl
  | cons p fields ih =>
    obtain ⟨key, value⟩ := p
    rw [List.map_cons]
    by_cases hk : name = key
    · subst hk
      by_cases hn : name = n <;> simp [hn]
    · have hb : (name == key) = false := beq_false_of_ne hk
      by_cases hn : key = n
      · subst hn
        simp only [if_true, List.lookup_cons, hb, ih]
      · simp only [if_neg hn, List.lookup_cons, hb, ih]

theorem item_mapItem_of_ne {n name : String} (f : Json → Json) (h : name.toList ≠ n.toList) (j : Json) :
    (j.mapItem n f).item name = j.item name := by
  cases j with
  | obj fields =>
    simp only [mapItem, item, lookup_mapItem, if_neg h, Option.map_id_fun, id]
  | _ => rfl

theorem item_mapItem_self (name : String) (f : Json → Json) (j : Json) :
    (j.mapItem name f).item name = (j.item name).map f := by
  cases j with
  | obj fields =>
    simp only [mapItem, item, lookup_mapItem, if_true]
    cases fields.lookup name.toList <;> rfl
  | _ => rfl

theorem item_of_mapItem_eq {n name : String} {f : Json → Json} {j j' : Json} (h : j.mapItem n f = j'.mapItem n f)
    (hn : name.toList ≠ n.toList) : j.item name = j'.item name := by
  rw [← item_mapItem_of_ne f hn j, h, item_mapItem_of_ne f hn j']

theorem item_self_of_mapItem_eq {n : String} {f : Json → Json} {j j' : Json} (h : j.mapItem n f = j'.mapItem n f) :
    (j.item n).map f = (j'.item n).map f := by
  rw [← item_mapItem_self, h, item_mapItem_self]

end Json

/-! ### Validation -/

section

variable {dv : DecodedValues}

theorem mapM_names {fields : List (Text × Json)} {l : List (Text × Text)}
    (h : (fields.mapM fun f => f.2.text?.map fun t => (f.1, t)) = some l) :
    namesOnly l = fields.map fun p => (p.1, []) := by
  induction fields generalizing l with
  | nil =>
    cases h
    rfl
  | cons f fields ih =>
    simp only [List.mapM_cons, Option.bind_eq_bind, Option.bind_eq_some_iff, Option.map_eq_some_iff] at h
    obtain ⟨_, ⟨t, -, rfl⟩, rest, hrest, h⟩ := h
    cases h
    exact congrArg (List.cons (f.1, [])) (ih hrest)

theorem texts_names {j j' : Json} {l l' : List (Text × Text)} (hj : j.emptyValues = j'.emptyValues)
    (h : j.texts? = some l) (h' : j'.texts? = some l') : namesOnly l = namesOnly l' := by
  cases j with
  | obj fields =>
    cases j' with
    | obj fields' =>
      have hnames := congrArg (List.map fun p => (p.1, ([] : Text))) (Json.obj.inj hj)
      rw [List.map_map, List.map_map] at hnames
      rw [mapM_names h, mapM_names h']
      exact hnames
    | _ => cases h'
  | _ => cases h

theorem modelValidate_parts {fields : List (Text × Json)} {c : ProjectConfig}
    (h : ProjectConfig.modelValidate dv (.obj fields) = some c) :
    fieldOr fields "environment" Json.texts? [] = some c.environment ∧
      fieldOr fields "secrets" Json.texts? [] = some c.secrets ∧ fieldOr fields "port" dv.laxInt 8000 = some c.port ∧
      fieldOr fields "health_path" Json.text? "/".toList = some c.healthPath ∧
      fieldOr fields "resources" ResourceValues.modelValidate {} = some c.resources ∧
      fieldOr fields "image_namespace" Json.textOrNone? none = some c.imageNamespace := by
  simp only [ProjectConfig.modelValidate, Option.bind_eq_bind, Option.bind_eq_some_iff] at h
  obtain ⟨_, _, _, _, _, _, _, _, _, _, environment, he, secrets, hs, port, hp, healthPath, hh, resources, hr,
    imageNamespace, hi, h⟩ := h
  split at h
  · cases h
    exact ⟨he, hs, hp, hh, hr, hi⟩
  · cases h

theorem fieldOr_congr {α : Type} {fields fields' : List (Text × Json)} {name : String} (read : Json → Option α)
    (default : α) (h : fields.lookup name.toList = fields'.lookup name.toList) :
    fieldOr fields name read default = fieldOr fields' name read default := by
  rw [fieldOr, fieldOr, h]

theorem modelValidate_redacted {record record' : Json} {c c' : ProjectConfig}
    (h : record.redactedRecord = record'.redactedRecord) (hc : ProjectConfig.modelValidate dv record = some c)
    (hc' : ProjectConfig.modelValidate dv record' = some c') : c.redacted = c'.redacted := by
  cases record with
  | obj fields =>
    cases record' with
    | obj fields' =>
      have hlookup : ∀ name : Text, (fields.lookup name).map (if name = "secrets".toList then Json.emptyValues else id) =
          (fields'.lookup name).map (if name = "secrets".toList then Json.emptyValues else id) := by
        intro name
        rw [← Json.lookup_mapItem, ← Json.lookup_mapItem, Json.obj.inj h]
      have hother : ∀ name : String, name.toList ≠ "secrets".toList →
          fields.lookup name.toList = fields'.lookup name.toList := by
        intro name hn
        simpa only [if_neg hn, Option.map_id_fun, id] using hlookup name.toList
      obtain ⟨he, hs, hp, hh, hr, hi⟩ := modelValidate_parts hc
      obtain ⟨he', hs', hp', hh', hr', hi'⟩ := modelValidate_parts hc'
      rw [fieldOr_congr _ _ (hother "environment" (by decide))] at he
      rw [fieldOr_congr _ _ (hother "port" (by decide))] at hp
      rw [fieldOr_congr _ _ (hother "health_path" (by decide))] at hh
      rw [fieldOr_congr _ _ (hother "resources" (by decide))] at hr
      rw [fieldOr_congr _ _ (hother "image_namespace" (by decide))] at hi
      have hnames : namesOnly c.secrets = namesOnly c'.secrets := by
        have hl := hlookup "secrets".toList
        rw [if_pos rfl] at hl
        rw [fieldOr] at hs hs'
        cases hf : fields.lookup "secrets".toList with
        | none =>
          cases hf' : fields'.lookup "secrets".toList with
          | none =>
            rw [hf] at hs
            rw [hf'] at hs'
            rw [← Option.some_inj.mp hs, ← Option.some_inj.mp hs']
          | some j' =>
            rw [hf, hf'] at hl
            cases hl
        | some j =>
          cases hf' : fields'.lookup "secrets".toList with
          | none =>
            rw [hf, hf'] at hl
            cases hl
          | some j' =>
            rw [hf, hf'] at hl
            rw [hf] at hs
            rw [hf'] at hs'
            exact texts_names (Option.some_inj.mp hl) hs hs'
      obtain ⟨environment, secrets, port, healthPath, resources, imageNamespace⟩ := c
      obtain ⟨environment', secrets', port', healthPath', resources', imageNamespace'⟩ := c'
      cases Option.some_inj.mp (he.symm.trans he')
      cases Option.some_inj.mp (hp.symm.trans hp')
      cases Option.some_inj.mp (hh.symm.trans hh')
      cases Option.some_inj.mp (hr.symm.trans hr')
      cases Option.some_inj.mp (hi.symm.trans hi')
      simp only [ProjectConfig.redacted]
      congr 1
    | _ => cases hc'
  | _ => cases hc

/-! ### What the client makes of such answers -/

/-- The end of the reads past the handlers of `project`, without secret values. -/
def shown : Except VaultException VaultProject → Except VaultException VaultProject
  | .ok p => .ok p.redacted
  | .error e => .error (VaultClient.lookupError e)

theorem map_eq_map_cases {ε α β : Type} {x y : Except ε α} {f : α → β} (h : x.map f = y.map f) :
    (∃ e, x = .error e ∧ y = .error e) ∨ ∃ a b, x = .ok a ∧ y = .ok b ∧ f a = f b := by
  cases x with
  | error e =>
    cases y with
    | error e' =>
      cases h
      exact .inl ⟨e, rfl, rfl⟩
    | ok b => cases h
  | ok a =>
    cases y with
    | error e' => cases h
    | ok b => exact .inr ⟨a, b, rfl, rfl, Except.ok.inj h⟩

theorem readPayload_shown {payload payload' : Json}
    (h : payload.mapItem "data" Json.redactedRecord = payload'.mapItem "data" Json.redactedRecord)
    (hp : ∀ record record', payload.item "data" = .ok record → payload'.item "data" = .ok record' →
      (ProjectConfig.modelValidate dv record).isSome = (ProjectConfig.modelValidate dv record').isSome) :
    shown (readPayload dv payload) = shown (readPayload dv payload') := by
  have hmetadata : payload.item "metadata" = payload'.item "metadata" := Json.item_of_mapItem_eq h (by decide)
  unfold readPayload
  obtain ⟨e, hi, hi'⟩ | ⟨record, record', hi, hi', hrecord⟩ := map_eq_map_cases (Json.item_self_of_mapItem_eq h)
  · rw [hi, hi']
    rfl
  · have hsame := hp record record' hi hi'
    simp only [hi, hi', bind, Except.bind, hmetadata]
    cases hc : ProjectConfig.modelValidate dv record with
    | none =>
      rw [hc, Option.isSome_none, eq_comm, Option.isSome_eq_false_iff, Option.isNone_iff_eq_none] at hsame
      rw [hsame]
      rfl
    | some c =>
      rw [hc, Option.isSome_some, eq_comm, Option.isSome_iff_exists] at hsame
      obtain ⟨c', hc'⟩ := hsame
      have hconfig : c.redacted = c'.redacted := modelValidate_redacted hrecord hc hc'
      rw [hc']
      -- the version is the same, and what surrounds it
      cases payload'.item "metadata" with
      | error e => rfl
      | ok metadata =>
        simp only
        cases metadata.item "version" with
        | error e => rfl
        | ok version =>
          simp only
          cases version.int? with
          | none => rfl
          | some n => exact congrArg (fun c => (.ok ⟨c, n⟩ : Except VaultException VaultProject)) hconfig

theorem readProject_shown {r r' : HttpResponse} (h : SameAnswer dv (.response r) (.response r')) :
    shown (readProject dv r) = shown (readProject dv r') := by
  cases h with
  | same => rfl
  | @record code text j j' hj hp =>
    simp only [readProject]
    split
    · rfl
    · by_cases hs : 200 ≤ code ∧ code ≤ 299
      · rw [raiseForStatus_of hs, raiseForStatus_of hs]
        show shown (j.item "data" >>= readPayload dv) = shown (j'.item "data" >>= readPayload dv)
        obtain ⟨e, hi, hi'⟩ | ⟨payload, payload', hi, hi', hpayload⟩ :=
          map_eq_map_cases (Json.item_self_of_mapItem_eq hj)
        · rw [hi, hi']
        · rw [hi, hi']
          refine readPayload_shown hpayload fun record record' hr hr' => ?_
          simpa only [passes, hi, hi', hr, hr'] using hp
      · rw [raiseForStatus_of_not hs, raiseForStatus_of_not hs]
        rfl

theorem authItem_same {j j' : Json} (h : j.redacted = j'.redacted) : j.item "auth" = j'.item "auth" :=
  Json.item_of_mapItem_eq h (by decide)

end

/-! ### The client's operations in the two runs -/

def SameResult (dv : DecodedValues) : (op : VaultOp) → op.Result → op.Result → Prop
  | .send _, o, o' => SameAnswer dv o o'
  | _, r, r' => r = r'

/-- Two programs go through the same operations to ends related by `R`. -/
def InStep {α : Type} (dv : DecodedValues) (R : Except VaultException α → Except VaultException α → Prop)
    (p q : Coroutine α) : Prop :=
  Program.Lockstep (SameResult dv) R p q

inductive SameReply (dv : DecodedValues) :
    Except VaultException HttpResponse → Except VaultException HttpResponse → Prop
  | ok {r r' : HttpResponse} : SameAnswer dv (.response r) (.response r') → SameReply dv (.ok r) (.ok r')
  | error (e : VaultException) : SameReply dv (.error e) (.error e)

namespace InStep

variable {dv : DecodedValues} {α β : Type} {S : Except VaultException β → Except VaultException β → Prop}

theorem ofExcept {R : Except VaultException α → Except VaultException α → Prop} {r r' : Except VaultException α}
    (h : R r r') : InStep dv R (.ofExcept r) (.ofExcept r') :=
  Program.Lockstep.ended h

theorem perform {R : Except VaultException α → Except VaultException α → Prop} {op : VaultOp}
    {next next' : op.Result → Coroutine α} (h : ∀ r r', SameResult dv op r r' → InStep dv R (next r) (next' r')) :
    InStep dv R (.perform op next) (.perform op next') :=
  Program.Lockstep.perform h

theorem andThen {R : Except VaultException α → Except VaultException α → Prop} {p q : Coroutine α}
    {k l : Except VaultException α → Coroutine β} (h : InStep dv R p q)
    (hk : ∀ r r', R r r' → InStep dv S (k r) (l r')) : InStep dv S (p.andThen k) (q.andThen l) :=
  Program.Lockstep.andThen h hk

theorem bind {p q : Coroutine α} {f g : α → Coroutine β} (h : InStep dv Eq p q) (hf : ∀ a, InStep dv S (f a) (g a))
    (he : ∀ e, S (.error e) (.error e)) : InStep dv S (p >>= f) (q >>= g) := by
  refine andThen h ?_
  rintro r _ rfl
  cases r with
  | ok a => exact hf a
  | error e => exact ofExcept (r := .error e) (he e)

theorem catching {p q : Coroutine α} {handler : VaultException → Coroutine α} (h : InStep dv Eq p q)
    (hh : ∀ e, InStep dv Eq (handler e) (handler e)) : InStep dv Eq (p.catching handler) (q.catching handler) := by
  refine andThen h ?_
  rintro r _ rfl
  cases r with
  | ok a => exact ofExcept (r := .ok a) rfl
  | error e => exact hh e

theorem withLock {R : Except VaultException α → Except VaultException α → Prop} {p q : Coroutine α} (lock : Lock)
    (h : InStep dv R p q) : InStep dv R (Coroutine.withLock lock p) (Coroutine.withLock lock q) := by
  refine .perform fun _ _ _ => ?_
  show InStep dv R (p.ensuring _) (q.ensuring _)
  exact andThen h fun _ _ hr => .perform fun _ _ _ => .ofExcept hr

theorem tokens : InStep dv Eq Coroutine.tokens Coroutine.tokens :=
  .perform fun r _ hr => ofExcept (r := .ok r) (congrArg Except.ok hr)

theorem setTokens (t : TokenState) : InStep dv Eq (Coroutine.setTokens t) (Coroutine.setTokens t) :=
  .perform fun r _ hr => ofExcept (r := .ok r) (congrArg Except.ok hr)

theorem monotonic : InStep dv Eq Coroutine.monotonic Coroutine.monotonic :=
  .perform fun r _ hr => ofExcept (r := .ok r) (congrArg Except.ok hr)

theorem done {R : Except VaultException α → Except VaultException α → Prop} {a b : α} (h : R (.ok a) (.ok b)) :
    InStep dv R (.done a) (.done b) :=
  ofExcept (r := .ok a) h

theorem raise {R : Except VaultException α → Except VaultException α → Prop} {e : VaultException}
    (h : R (.error e) (.error e)) : InStep dv R (.raise e) (.raise e) :=
  ofExcept (r := .error e) h

end InStep

section

variable {client : VaultClient} {dv : DecodedValues}

theorem resetClient_inStep : InStep dv Eq VaultClient.resetClient VaultClient.resetClient := by
  refine .perform fun previous _ hp => ?_
  cases hp
  exact .perform fun _ _ _ => .done rfl

theorem attempts_inStep (request : VaultRequest) (tries : List ℕ) :
    InStep dv (SameReply dv) (client.attempts request tries) (client.attempts request tries) := by
  induction tries with
  | nil => exact .raise (.error _)
  | cons attempt rest ih =>
    refine .perform fun o o' ho => ?_
    cases ho with
    | record hj hp => exact .done (.ok (.record hj hp))
    | same =>
      cases o with
      | response r => exact .done (.ok (.same _))
      | http error => exact .raise (.error _)
      | unsent error => exact .raise (.error _)
      | transport error text =>
        show InStep dv _ (if !client.ownsClient then _ else _) (if !client.ownsClient then _ else _)
        split
        · exact .raise (.error _)
        · refine resetClient_inStep.bind (fun _ => ?_) .error
          split
          · exact .raise (.error _)
          · exact .perform fun _ _ _ => ih

theorem request_inStep (request : VaultRequest) :
    InStep dv (SameReply dv) (client.request request) (client.request request) :=
  .withLock _ (attempts_inStep request _)

theorem setToken_inStep (auth : Json) : InStep dv Eq (VaultClient.setToken dv auth) (VaultClient.setToken dv auth) := by
  refine (InStep.ofExcept rfl).bind (fun read => ?_) fun _ => rfl
  refine InStep.tokens.bind (fun t => (InStep.setTokens _).bind (fun _ => InStep.monotonic.bind (fun now => ?_)
    fun _ => rfl) fun _ => rfl) fun _ => rfl
  cases addLease now read.2.1 with
  | none => exact .raise rfl
  | some expiresAt => exact InStep.tokens.bind (fun t => .setTokens _) fun _ => rfl

theorem authenticate_inStep {r r' : HttpResponse} (h : SameAnswer dv (.response r) (.response r')) :
    InStep dv Eq (VaultClient.authenticate dv r) (VaultClient.authenticate dv r') := by
  have hsame : ∀ x : Except VaultException Json, InStep dv Eq
      ((.ofExcept x : Coroutine Json) >>= VaultClient.setToken dv) (.ofExcept x >>= VaultClient.setToken dv) :=
    fun x => (InStep.ofExcept rfl).bind setToken_inStep fun _ => rfl
  cases h with
  | same =>
    exact (InStep.ofExcept rfl).bind (fun _ => (InStep.ofExcept rfl).bind (fun _ => hsame _) fun _ => rfl) fun _ => rfl
  | @record code text j j' hj hp =>
    refine (InStep.ofExcept rfl).bind (fun _ => ?_) fun _ => rfl
    show InStep dv Eq (.ofExcept (j.item "auth") >>= VaultClient.setToken dv)
      (.ofExcept (j'.item "auth") >>= VaultClient.setToken dv)
    rw [authItem_same hj]
    exact hsame _

theorem replied {α : Type} {S : Except VaultException α → Except VaultException α → Prop}
    {p q : Coroutine HttpResponse} {f : HttpResponse → Coroutine α} (h : InStep dv (SameReply dv) p q)
    (hf : ∀ r r', SameAnswer dv (.response r) (.response r') → InStep dv S (f r) (f r'))
    (he : ∀ e, S (.error e) (.error e)) : InStep dv S (p >>= f) (q >>= f) := by
  refine InStep.andThen h fun r r' hr => ?_
  cases hr with
  | ok hr => exact hf _ _ hr
  | error e => exact .raise (he e)

theorem authRequest_inStep (request : VaultRequest) : InStep dv Eq
    (client.request request >>= VaultClient.authenticate dv) (client.request request >>= VaultClient.authenticate dv) :=
  replied (request_inStep request) (fun _ _ => authenticate_inStep) fun _ => rfl

theorem isValid_inStep : InStep dv Eq VaultClient.isValid VaultClient.isValid := by
  refine InStep.tokens.bind (fun t => ?_) fun _ => rfl
  split
  · exact InStep.monotonic.bind (fun now => .done rfl) fun _ => rfl
  · exact .done rfl

theorem renew_inStep : InStep dv Eq (client.renew dv) (client.renew dv) := by
  refine InStep.tokens.bind (fun t => ?_) fun _ => rfl
  split
  · refine .catching ((authRequest_inStep _).bind (fun _ => .done rfl) fun _ => rfl) fun e => ?_
    split
    · exact .raise rfl
    · split
      · exact InStep.tokens.bind (fun t => (InStep.setTokens _).bind (fun _ => .done rfl) fun _ => rfl) fun _ => rfl
      · exact .raise rfl
  · exact .done rfl

theorem login_inStep : InStep dv Eq (client.login dv) (client.login dv) := by
  unfold VaultClient.login
  split
  · exact .raise rfl
  · refine .catching (InStep.tokens.bind (fun t => authRequest_inStep _) fun _ => rfl) fun e => ?_
    split <;> exact .raise rfl

theorem ensureToken_inStep : InStep dv Eq (client.ensureToken dv) (client.ensureToken dv) := by
  refine .withLock _ (isValid_inStep.bind (fun valid => ?_) fun _ => rfl)
  split
  · exact .done rfl
  · refine renew_inStep.bind (fun renewed => ?_) fun _ => rfl
    split
    · exact .done rfl
    · exact login_inStep

theorem read_inStep (url : Text) : InStep dv (SameReply dv) (client.read url) (client.read url) :=
  InStep.tokens.bind (fun _ => request_inStep _) .error

/-- Before the handlers of `project` the two runs may raise different exceptions, for
which the handlers have the same message. -/
theorem lookup_inStep (url : Text) :
    InStep dv (fun r r' => shown r = shown r') (client.lookup dv url) (client.lookup dv url) := by
  have hend : ∀ r r', SameAnswer dv (.response r) (.response r') → InStep dv (fun r r' => shown r = shown r')
      (.ofExcept (readProject dv r)) (.ofExcept (readProject dv r')) := fun r r' h => .ofExcept (readProject_shown h)
  refine replied (read_inStep url) (fun r r' h => ?_) fun _ => rfl
  have hu : VaultClient.isUnauthorized r = VaultClient.isUnauthorized r' := by cases h <;> rfl
  simp only [hu]
  split
  · refine InStep.tokens.bind (fun t => (InStep.setTokens _).bind (fun _ => ensureToken_inStep.bind (fun _ => ?_)
      fun _ => rfl) fun _ => rfl) fun _ => rfl
    exact replied (read_inStep url) hend fun _ => rfl
  · exact hend r r' h

theorem project_inStep (client : VaultClient) (dv : DecodedValues) (repository : Text) : InStep dv
    (fun r r' => r.map VaultProject.redacted = r'.map VaultProject.redacted) (client.project dv repository)
      (client.project dv repository) := by
  refine ensureToken_inStep.bind (fun _ => ?_) fun _ => rfl
  split
  · exact .raise rfl
  · refine InStep.andThen (lookup_inStep _) fun r r' h => ?_
    cases r with
    | ok p =>
      cases r' with
      | ok p' => exact .done h
      | error e' => cases h
    | error e =>
      cases r' with
      | ok p' => cases h
      | error e' =>
        have he : VaultClient.lookupError e = VaultClient.lookupError e' := Except.error.inj h
        show InStep dv _ (.raise (VaultClient.lookupError e)) (.raise (VaultClient.lookupError e'))
        rw [he]
        exact .raise rfl

end

/-! ### The controller with its Vault client -/

/-- How `reconcile` sees the end of `project`. -/
def vaultOutcome : Except VaultException VaultProject → VaultOutcome
  | .ok p => .project p
  | .error (.vault message category) => .vaultError message category
  | .error e => .raised e.pyError

structure Controller where
  system : System
  tokens : TokenState

/-- `project` is a call of the client by `reconcile`, with the answers it gets. -/
inductive ControllerAction where
  | system (a : Action)
  | project (script : ℕ → Sent) (clock : ℕ → ℤ) (now later : ℤ)

def Loop.asking : Loop → Option DemoRecord
  | .loading record _ => some record
  | _ => none

/-- The object that is passed to `apply`, unless it is a Secret. -/
def Loop.applied : Loop → Option Resource
  | .applying _ _ (.running (.apply (.secret _)) _) _ => none
  | .applying _ _ (.running (.apply r) _) _ => some r
  | _ => none

structure Observed where
  store : Store
  response : Option Response
  health : Health
  lastCompletedAt : Option ℤ
  applied : Option Resource

namespace Controller

variable (app : App) (client : VaultClient) (dv : DecodedValues)

def initial (cluster : Cluster) (clock : ℤ) : Controller := ⟨.initial cluster clock, {}⟩

def response (s : System) : Action → Option Response
  | .request endpoint req now later => some (app.serve s.api endpoint req now later).2.1
  | _ => none

def observed (s t : System) (a : Action) : Observed :=
  ⟨t.api.store, response app s a, t.health, t.lastCompletedAt, t.loop.applied⟩

/-- A step of the system, after which the client holds `tokens`. -/
def systemStep (s : System) (a : Action) (tokens : TokenState) : Option (Controller × List Observed) :=
  (app.step s a).map fun r => (⟨r.1, tokens⟩, [observed app s r.1 a])

/-- A crash loses the token with the process. -/
def step (s : Controller) : ControllerAction → Option (Controller × List Observed)
  | .system (.vault _ _ _) => none
  | .system (.crash tookEffect) => systemStep app s.system (.crash tookEffect) {}
  | .system a => systemStep app s.system a s.tokens
  | .project script clock now later =>
    s.system.loop.asking.bind fun record =>
      ((client.project dv record.repository).run World.step (World.alone s.tokens script clock)).bind fun q =>
        systemStep app s.system (.vault (vaultOutcome q.1) now later) q.2.tokens

end Controller

/-- The two runs differ in the answers of Vault only, and there in secret values. -/
inductive SameAction (dv : DecodedValues) : ControllerAction → ControllerAction → Prop
  | system (a : Action) : SameAction dv (.system a) (.system a)
  | project {script script' : ℕ → Sent} (clock : ℕ → ℤ) (now later : ℤ) :
      (∀ n, SameAnswer dv (script n) (script' n)) →
      SameAction dv (.project script clock now later) (.project script' clock now later)

/-! ### Two runs of the client -/

section

variable {app : App} {client : VaultClient} {dv : DecodedValues}

structure SameWorld (dv : DecodedValues) (w w' : World) : Prop where
  tokens : w.tokens = w'.tokens
  held : w.held = w'.held
  client : w.client = w'.client
  script : ∀ n, SameAnswer dv (w.script n) (w'.script n)
  sends : w.sends = w'.sends
  clock : w.clock = w'.clock
  readings : w.readings = w'.readings

theorem world_same (w w' : World) (op : VaultOp) (h : SameWorld dv w w') :
    Option.Rel (fun x y => SameResult dv op x.1 y.1 ∧ SameWorld dv x.2 y.2) (w.step op) (w'.step op) := by
  obtain ⟨ht, hh, hc, hs, hn, hk, hr⟩ := h
  cases op with
  | acquire lock =>
    simp only [World.step, hh]
    split
    · exact .none
    · have hacquired : Function.update w.held lock true = Function.update w'.held lock true := by rw [hh]
      exact .some ⟨rfl, ht, hacquired, hc, hs, hn, hk, hr⟩
  | release lock => exact .some ⟨rfl, ht, congrArg (Function.update · lock false) hh, hc, hs, hn, hk, hr⟩
  | send request =>
    refine .some ⟨?_, ht, hh, hc, hs, congrArg (· + 1) hn, hk, hr⟩
    rw [hn]
    exact hs w'.sends
  | replaceClient => exact .some ⟨hc, ht, hh, congrArg (· + 1) hc, hs, hn, hk, hr⟩
  | closeClient _ => exact .some ⟨rfl, ht, hh, hc, hs, hn, hk, hr⟩
  | sleep => exact .some ⟨rfl, ht, hh, hc, hs, hn, hk, hr⟩
  | tokens => exact .some ⟨ht, ht, hh, hc, hs, hn, hk, hr⟩
  | setTokens _ => exact .some ⟨rfl, rfl, hh, hc, hs, hn, hk, hr⟩
  | monotonic => exact .some ⟨by rw [hk, hr]; rfl, ht, hh, hc, hs, hn, hk, congrArg (· + 1) hr⟩

theorem vaultOutcome_redacted {r r' : Except VaultException VaultProject}
    (h : r.map VaultProject.redacted = r'.map VaultProject.redacted) :
    (vaultOutcome r).redacted = (vaultOutcome r').redacted := by
  obtain ⟨e, rfl, rfl⟩ | ⟨p, p', rfl, rfl, hp⟩ := map_eq_map_cases h
  · rfl
  · exact congrArg VaultOutcome.project hp

/-! ### Two runs of the controller -/

structure SameState (s s' : Controller) : Prop where
  system : s.system.redacted = s'.system.redacted
  tokens : s.tokens = s'.tokens

theorem applied_redacted (loop : Loop) : loop.redacted.applied = loop.applied := by
  cases loop with
  | applying record p thread todo =>
    cases thread with
    | running call rest =>
      cases call with
      | apply r => cases r <;> rfl
      | _ => rfl
    | _ => rfl
  | _ => rfl

theorem asking_redacted (loop : Loop) : loop.redacted.asking = loop.asking := by
  cases loop <;> rfl

theorem observed_redacted (s t : System) (a : Action) :
    Controller.observed app s.redacted t.redacted a.redacted = Controller.observed app s t a := by
  have hresponse : Controller.response app s.redacted a.redacted = Controller.response app s a := by
    cases a <;> rfl
  have happlied : t.redacted.loop.applied = t.loop.applied := applied_redacted t.loop
  rw [Controller.observed, hresponse, happlied]
  rfl

theorem systemStep_same {s s' : System} {a a' : Action} (hs : s.redacted = s'.redacted)
    (ha : a.redacted = a'.redacted) (tokens : TokenState) :
    Option.Rel (fun x y => SameState x.1 y.1 ∧ x.2 = y.2) (Controller.systemStep app s a tokens)
      (Controller.systemStep app s' a' tokens) := by
  have h := app.step_redacted s a
  rw [hs, ha, app.step_redacted s' a'] at h
  unfold Controller.systemStep
  cases hx : app.step s a with
  | none =>
    cases hy : app.step s' a' with
    | none => exact .none
    | some y =>
      rw [hx, hy] at h
      cases h
  | some x =>
    cases hy : app.step s' a' with
    | none =>
      rw [hx, hy] at h
      cases h
    | some y =>
      rw [hx, hy] at h
      have hxy : x.1.redacted = y.1.redacted := (Option.some_inj.mp h).symm
      refine .some ⟨⟨hxy, rfl⟩, ?_⟩
      have hobserved : Controller.observed app s x.1 a = Controller.observed app s' y.1 a' := by
        rw [← observed_redacted, hs, hxy, ha, observed_redacted]
      exact congrArg (fun o => [o]) hobserved

theorem step_same (app : App) (client : VaultClient) {s s' : Controller} {a a' : ControllerAction}
    (hs : SameState s s') (ha : SameAction dv a a') :
    Option.Rel (fun x y => SameState x.1 y.1 ∧ x.2 = y.2) (s.step app client dv a) (s'.step app client dv a') := by
  obtain ⟨system, tokens⟩ := s
  obtain ⟨system', tokens'⟩ := s'
  obtain ⟨hsystem, rfl⟩ := hs
  cases ha with
  | system a =>
    cases a with
    | vault outcome now later => exact .none
    | crash tookEffect => exact systemStep_same hsystem rfl {}
    | request endpoint req now later => exact systemStep_same hsystem rfl tokens
    | list => exact systemStep_same hsystem rfl tokens
    | begin now later => exact systemStep_same hsystem rfl tokens
    | call outcome => exact systemStep_same hsystem rfl tokens
    | resume now later => exact systemStep_same hsystem rfl tokens
    | endPass now => exact systemStep_same hsystem rfl tokens
  | @project script script' clock now later hscript =>
    have hloading : system.loop.asking = system'.loop.asking := by
      rw [← asking_redacted system.loop, ← asking_redacted system'.loop]
      exact congrArg (fun s => s.loop.asking) hsystem
    simp only [Controller.step, hloading]
    cases system'.loop.asking with
    | none => exact .none
    | some record =>
      have hrun := Program.Lockstep.run (project_inStep client dv record.repository) world_same
        (s := World.alone tokens script clock) (t := World.alone tokens script' clock)
        ⟨rfl, rfl, rfl, hscript, rfl, rfl, rfl⟩
      simp only [Option.bind_some]
      generalize (client.project dv record.repository).run World.step (World.alone tokens script clock) = x at hrun
      generalize (client.project dv record.repository).run World.step (World.alone tokens script' clock) = y at hrun
      cases hrun with
      | none => exact .none
      | @some p q hpq =>
        obtain ⟨hresult, hworld⟩ := hpq
        simp only [Option.bind_some, hworld.tokens]
        refine systemStep_same hsystem ?_ q.2.tokens
        rw [Action.redacted, Action.redacted, vaultOutcome_redacted hresult]

theorem execute_same {s s' : Controller} {actions actions' : List ControllerAction} {h : List Observed}
    (hs : SameState s s') (ha : List.Forall₂ (SameAction dv) actions actions') :
    (execute (Controller.step app client dv) actions s h).map Prod.snd =
      (execute (Controller.step app client dv) actions' s' h).map Prod.snd := by
  induction ha generalizing s s' h with
  | nil => rfl
  | @cons a a' actions actions' ha _ ih =>
    have hstep := step_same app client hs ha
    simp only [execute]
    generalize Controller.step app client dv s a = x at hstep
    generalize Controller.step app client dv s' a' = y at hstep
    cases hstep with
    | none => rfl
    | @some p q hpq =>
      simp only [Option.bind_some, hpq.2]
      exact ih hpq.1

end

/-- Whatever the requests, the clock and the outcomes: rows, answers, observations and
the objects applied beside the Secret do not depend on the secret values in Vault. -/
theorem secrets_reach_only_the_secret (app : App) (client : VaultClient) (dv : DecodedValues) (cluster : Cluster)
    (clock : ℤ) {actions actions' : List ControllerAction} (h : List.Forall₂ (SameAction dv) actions actions') :
    (execute (Controller.step app client dv) actions (Controller.initial cluster clock) []).map Prod.snd =
      (execute (Controller.step app client dv) actions' (Controller.initial cluster clock) []).map Prod.snd :=
  execute_same ⟨rfl, rfl⟩ h

/-- Vault logs the client in and then hands out a record with one secret. -/
def secretScript (secret : String) : ℕ → Sent
  | 0 => loginResponse
  | _ => recordResponse (.ofFields [("schema_version", .int 1), ("enabled", .bool true),
      ("secrets", .ofFields [("PRIVATE", .str secret.toList)])])

/-- A delivery, and a pass over it up to the first object it applies. -/
def secretActions (secret : String) : List ControllerAction :=
  [.system (deployAction "delivery-1" 100), .system .list, .system (.begin 100 100),
    .project (secretScript secret) (fun _ => 0) 100 100, .system (.call .done), .system (.call .done)]

theorem secretActions_same : List.Forall₂ (SameAction exampleValues) (secretActions "one") (secretActions "two") := by
  have hscript : ∀ n, SameAnswer exampleValues (secretScript "one" n) (secretScript "two" n) := by
    intro n
    cases n with
    | zero => exact .same _
    | succ n => exact .record rfl rfl
  exact .cons (.system _) (.cons (.system _) (.cons (.system _) (.cons (.project _ _ _ hscript)
    (.cons (.system _) (.cons (.system _) .nil)))))

theorem secrets_reach_only_the_secret_example :
    ((execute (Controller.step exampleApp exampleVault exampleValues) (secretActions "one")
        (Controller.initial (fun _ _ => none) 0) []).map fun r => r.2.map fun o => o.applied.isSome) =
      some [true, true, false, false, false, false] ∧
    (execute (Controller.step exampleApp exampleVault exampleValues) (secretActions "one")
        (Controller.initial (fun _ _ => none) 0) []).map Prod.snd =
      (execute (Controller.step exampleApp exampleVault exampleValues) (secretActions "two")
        (Controller.initial (fun _ _ => none) 0) []).map Prod.snd :=
  ⟨by decide +kernel, secrets_reach_only_the_secret exampleApp exampleVault exampleValues (fun _ _ => none) 0
    secretActions_same⟩

end DemoController
