import DemoController.Vault
import Mathlib.Logic.Function.Basic

/-!
# What one call of `project` sends

A call runs with no other one beside it: the locks are free, and httpx ends the
sends as a script says. The sends are grouped by logical request, that is by the
tenures of the request lock, so that a replay is told from a new request.
-/

namespace DemoController

open Lib

abbrev Exchange := List (VaultRequest × Sent)

/-- `requests` holds the logical requests made so far, the last one last. -/
structure World where
  tokens : TokenState
  held : Lock → Bool
  client : ℕ
  requests : List Exchange
  script : ℕ → Sent
  sends : ℕ
  clock : ℕ → ℤ
  readings : ℕ

namespace World

def alone (tokens : TokenState) (script : ℕ → Sent) (clock : ℕ → ℤ) : World :=
  ⟨tokens, fun _ => false, 0, [], script, 0, clock, 0⟩

def acquired (w : World) (lock : Lock) : World :=
  { w with
    held := Function.update w.held lock true
    requests := if lock = .request then w.requests ++ [[]] else w.requests }

def sent (w : World) (request : VaultRequest) (o : Sent) : World :=
  { w with
    requests := w.requests.dropLast ++ [w.requests.getLastD [] ++ [(request, o)]]
    sends := w.sends + 1 }

/-- `none` where the coroutine waits for a lock nobody will release. -/
def step (w : World) : (op : VaultOp) → Option (op.Result × World)
  | .acquire lock =>
    if w.held lock then none else some ((), w.acquired lock)
  | .release lock => some ((), { w with held := Function.update w.held lock false })
  | .send request => some (w.script w.sends, w.sent request (w.script w.sends))
  | .replaceClient => some (w.client, { w with client := w.client + 1 })
  | .closeClient _ => some ((), w)
  | .sleep => some ((), w)
  | .tokens => some (w.tokens, w)
  | .setTokens tokens => some ((), { w with tokens := tokens })
  | .monotonic => some (w.clock w.readings, { w with readings := w.readings + 1 })

/-- A stretch of a call: the logical requests it makes, with the locks as they were. -/
structure Exchanged (requests : List Exchange) (w w' : World) : Prop where
  requests_eq : w'.requests = w.requests ++ requests
  held_eq : w'.held = w.held

theorem Exchanged.refl (w : World) : Exchanged [] w w := ⟨(List.append_nil _).symm, rfl⟩

theorem Exchanged.trans {gs hs : List Exchange} {w u v : World} (first : Exchanged gs w u)
    (second : Exchanged hs u v) : Exchanged (gs ++ hs) w v where
  requests_eq := by rw [second.requests_eq, first.requests_eq, List.append_assoc]
  held_eq := second.held_eq.trans first.held_eq

end World

/-! ### One logical request -/

/-- What `_request` makes of the last outcome. -/
def answer : Sent → Except VaultException HttpResponse
  | .response r => .ok r
  | .transport error text => .error (.transport error text)
  | .http error => .error (.http error)
  | .unsent error => .error (.data error)

/-- The sends of one logical request and the outcome of the last. -/
inductive Tries (client : VaultClient) (request : VaultRequest) : Exchange → Sent → Prop
  | once {o : Sent} : Tries client request [(request, o)] o
  | twice {error : TransportError} {text : Text} {o : Sent} : client.ownsClient = true →
      error.isPreSend = true → Tries client request [(request, .transport error text), (request, o)] o

section

variable (client : VaultClient) {w : World}

theorem withLock_run {α : Type} {lock : Lock} {body : Coroutine α} {r : Except VaultException α} {u : World}
    (hw : w.held lock = false) (hb : body.run World.step (w.acquired lock) = some (r, u)) :
    (Coroutine.withLock lock body).run World.step w =
      some (r, { u with held := Function.update u.held lock false }) := by
  have ha : World.step w (.acquire lock) = some ((), w.acquired lock) := by simp [World.step, hw]
  rw [Coroutine.withLock, Program.bind_eq, Coroutine.acquire, Program.call_andThen,
    Program.run_perform World.step ha, Program.onValue_ok, Program.run_ensuring, hb]
  rfl

theorem send_run (request : VaultRequest) (k : Except VaultException Sent → Coroutine HttpResponse) :
    ((Coroutine.send request).andThen k).run World.step w =
      (k (.ok (w.script w.sends))).run World.step (w.sent request (w.script w.sends)) := rfl

theorem resetClient_run (k : Except VaultException Unit → Coroutine HttpResponse) :
    (VaultClient.resetClient.andThen k).run World.step w =
      (k (.ok ())).run World.step { w with client := w.client + 1 } := rfl

theorem sleep_run (k : Except VaultException Unit → Coroutine HttpResponse) :
    (Coroutine.sleep.andThen k).run World.step w = (k (.ok ())).run World.step w := rfl

theorem secondAttempt_run (request : VaultRequest) :
    ∃ n, (client.attempts request [1]).run World.step w =
      some (answer (w.script w.sends), { w.sent request (w.script w.sends) with client := n }) := by
  simp only [VaultClient.attempts, Program.bind_eq, send_run]
  cases w.script w.sends with
  | response r => exact ⟨w.client, rfl⟩
  | http error => exact ⟨w.client, rfl⟩
  | unsent error => exact ⟨w.client, rfl⟩
  | transport error text =>
    cases ho : client.ownsClient with
    | false => exact ⟨w.client, rfl⟩
    | true => exact ⟨w.client + 1, rfl⟩

theorem attempts_run (request : VaultRequest) :
    ∃ g o w', (client.attempts request [0, 1]).run World.step w = some (answer o, w') ∧
      Tries client request g o ∧ w'.tokens = w.tokens ∧ w'.held = w.held ∧
      w'.requests = w.requests.dropLast ++ [w.requests.getLastD [] ++ g] := by
  rw [VaultClient.attempts, Program.bind_eq, send_run]
  cases w.script w.sends with
  | response r => exact ⟨[(request, .response r)], .response r, _, rfl, .once, rfl, rfl, rfl⟩
  | http error => exact ⟨[(request, .http error)], .http error, _, rfl, .once, rfl, rfl, rfl⟩
  | unsent error => exact ⟨[(request, .unsent error)], .unsent error, _, rfl, .once, rfl, rfl, rfl⟩
  | transport error text =>
    simp only [Program.onValue_ok, Program.bind_eq]
    cases ho : client.ownsClient with
    | false => exact ⟨[(request, .transport error text)], .transport error text, _, rfl, .once, rfl, rfl, rfl⟩
    | true =>
      cases hp : error.isPreSend with
      | false =>
        refine ⟨[(request, .transport error text)], .transport error text, _, rfl, ?_⟩
        exact ⟨.once, rfl, rfl, rfl⟩
      | true =>
        simp only [ne_eq, not_true_eq_false, decide_false, Bool.not_true, Bool.or_self, Bool.false_eq_true,
          if_false, resetClient_run, Program.onValue_ok, sleep_run]
        -- the client is new, and the second attempt decides
        obtain ⟨n, hn⟩ := secondAttempt_run client
          (w := { w.sent request (.transport error text) with client := w.client + 1 }) request
        refine ⟨[(request, .transport error text), (request, w.script (w.sends + 1))], _, _, hn, ?_⟩
        refine ⟨.twice ho hp, rfl, rfl, ?_⟩
        simp [World.sent]

theorem request_run (request : VaultRequest) (hw : w.held .request = false) :
    ∃ g o w', (client.request request).run World.step w = some (answer o, w') ∧ Tries client request g o ∧
      w.Exchanged [g] w' ∧ w'.tokens = w.tokens := by
  obtain ⟨g, o, u, hu, htries, ht, hh, hr⟩ := attempts_run client (w := w.acquired .request) request
  refine ⟨g, o, _, withLock_run hw hu, htries, ⟨?_, ?_⟩, ht⟩
  · simp [hr, World.acquired]
  · rw [hh, World.acquired, Function.update_idem, ← hw, Function.update_eq_self]

/-! ### Acquiring a token -/

/-- How `_set_token` ends. -/
def tokenOutcome (auth : Json) : Except VaultException Unit := do
  let (_, lease, _) ← readAuth auth
  if lease.natAbs < floatBound then pure () else throw leaseOverflow

/-- How a renewal or a login goes on after its response. -/
def responseOutcome (r : HttpResponse) : Except VaultException Unit := do
  r.raiseForStatus
  let body ← r.json
  let auth ← body.item "auth"
  tokenOutcome auth

/-- How a renewal or a login ends, before the handlers. -/
def authOutcome (o : Sent) : Except VaultException Unit := do
  let r ← answer o
  responseOutcome r

theorem setToken_run (dv : DecodedValues) (auth : Json) :
    ∃ w', (VaultClient.setToken dv auth).run World.step w = some (tokenOutcome auth, w') ∧
      w.Exchanged [] w' := by
  simp only [VaultClient.setToken, tokenOutcome, Program.bind_eq, Program.ofExcept_andThen]
  cases readAuth auth with
  | error e => exact ⟨w, rfl, .refl w⟩
  | ok read =>
    obtain ⟨token, lease, renewable⟩ := read
    by_cases hl : lease.natAbs < floatBound
    · refine ⟨{ w with
        tokens := ⟨some token, w.clock w.readings + lease * 1000000000, renewable.isTruthy dv⟩
        readings := w.readings + 1 }, ?_, (List.append_nil _).symm, rfl⟩
      simp only [bind, Except.bind, Program.onValue_ok, if_pos hl, addLease_of_lt _ hl]
      rfl
    · refine ⟨{ w with
        tokens := { w.tokens with token := some token }
        readings := w.readings + 1 }, ?_, (List.append_nil _).symm, rfl⟩
      simp only [bind, Except.bind, Program.onValue_ok, if_neg hl, addLease_of_not_lt _ hl]
      rfl

theorem authenticate_run (dv : DecodedValues) (r : HttpResponse) :
    ∃ w', (VaultClient.authenticate dv r).run World.step w = some (responseOutcome r, w') ∧
      w.Exchanged [] w' := by
  simp only [VaultClient.authenticate, responseOutcome, Program.bind_eq, Program.ofExcept_andThen]
  cases r.raiseForStatus with
  | error e => exact ⟨w, rfl, .refl w⟩
  | ok _ =>
    simp only [Program.onValue_ok, bind, Except.bind]
    cases r.json with
    | error e => exact ⟨w, rfl, .refl w⟩
    | ok body =>
      simp only [Program.onValue_ok]
      cases body.item "auth" with
      | error e => exact ⟨w, rfl, .refl w⟩
      | ok auth => exact setToken_run dv auth

theorem authRequest_run (dv : DecodedValues) (request : VaultRequest) (hw : w.held .request = false) :
    ∃ g o w', (client.request request >>= VaultClient.authenticate dv).run World.step w =
      some (authOutcome o, w') ∧ Tries client request g o ∧ w.Exchanged [g] w' := by
  obtain ⟨g, o, u, hu, htries, hx, -⟩ := request_run client request hw
  have hrun := Program.run_bind_of (VaultClient.authenticate dv) hu
  have hend : ∃ v, (Program.onValue (VaultClient.authenticate dv) (answer o)).run World.step u =
      some (authOutcome o, v) ∧ u.Exchanged [] v := by
    unfold authOutcome
    cases answer o with
    | error e => exact ⟨u, rfl, .refl u⟩
    | ok r => exact authenticate_run dv r
  obtain ⟨v, hv, hy⟩ := hend
  exact ⟨g, o, v, hrun.trans hv, htries, by simpa using hx.trans hy⟩

/-! ### The renewal, the login and `_ensure_token` -/

inductive Renewed (client : VaultClient) (t : TokenState) : List Exchange → Except VaultException Bool → Prop
  | skipped : (t.present && t.renewable) = false → Renewed client t [] (.ok false)
  | renewed {g : Exchange} {o : Sent} : t.present = true → Tries client (client.renewalRequest t) g o →
      authOutcome o = .ok () → Renewed client t [g] (.ok true)
  | rejected {g : Exchange} {o : Sent} {e : VaultException} : t.present = true →
      Tries client (client.renewalRequest t) g o → authOutcome o = .error e → e.isTransport = false →
      e.isCaught = true → Renewed client t [g] (.ok false)
  | failed {g : Exchange} {o : Sent} {e : VaultException} : t.present = true →
      Tries client (client.renewalRequest t) g o → authOutcome o = .error e → e.isTransport = true →
      Renewed client t [g] (.error (authenticationError e))
  | escaped {g : Exchange} {o : Sent} {e : VaultException} : t.present = true →
      Tries client (client.renewalRequest t) g o → authOutcome o = .error e → e.isCaught = false →
      Renewed client t [g] (.error e)

inductive LoggedIn (client : VaultClient) : List Exchange → Except VaultException Unit → Prop
  | missing : LoggedIn client [] (.error missingCredentials)
  | loggedIn {t : TokenState} {g : Exchange} {o : Sent} : Tries client (client.loginRequest t) g o →
      authOutcome o = .ok () → LoggedIn client [g] (.ok ())
  | failed {t : TokenState} {g : Exchange} {o : Sent} {e : VaultException} :
      Tries client (client.loginRequest t) g o → authOutcome o = .error e → e.isCaught = true →
      LoggedIn client [g] (.error (authenticationError e))
  | escaped {t : TokenState} {g : Exchange} {o : Sent} {e : VaultException} :
      Tries client (client.loginRequest t) g o → authOutcome o = .error e → e.isCaught = false →
      LoggedIn client [g] (.error e)

inductive Ensured (client : VaultClient) (t : TokenState) : List Exchange → Except VaultException Unit → Prop
  | valid : t.present = true → Ensured client t [] (.ok ())
  | renewed {gs : List Exchange} : Renewed client t gs (.ok true) → Ensured client t gs (.ok ())
  | failed {gs : List Exchange} {e : VaultException} : Renewed client t gs (.error e) →
      Ensured client t gs (.error e)
  | login {gs hs : List Exchange} {r : Except VaultException Unit} : Renewed client t gs (.ok false) →
      LoggedIn client hs r → Ensured client t (gs ++ hs) r

theorem isValid_eq (w : World) : ∃ u,
    VaultClient.isValid.run World.step w = some (.ok (w.tokens.present &&
      decide (w.clock w.readings < w.tokens.expiresAt - 30 * 1000000000)), u) ∧
    w.Exchanged [] u ∧ u.tokens = w.tokens := by
  have hrun : VaultClient.isValid.run World.step w = ((if w.tokens.present then do
      let now ← Coroutine.monotonic
      pure (decide (now < w.tokens.expiresAt - 30 * 1000000000))
    else pure false : Coroutine Bool)).run World.step w := rfl
  rw [hrun]
  cases w.tokens.present with
  | false => exact ⟨w, rfl, .refl w, rfl⟩
  | true => exact ⟨{ w with readings := w.readings + 1 }, rfl, ⟨(List.append_nil _).symm, rfl⟩, rfl⟩

theorem isValid_run : ∃ b w', VaultClient.isValid.run World.step w = some (.ok b, w') ∧ w.Exchanged [] w' ∧
    w'.tokens = w.tokens ∧ (b = true → w.tokens.present = true) := by
  obtain ⟨u, hrun, hx, ht⟩ := isValid_eq w
  exact ⟨_, u, hrun, hx, ht, fun hb => (Bool.and_eq_true_iff.mp hb).1⟩

theorem tryRenewal_run (dv : DecodedValues) (t : TokenState) (hw : w.held .request = false)
    (ht : t.present = true) :
    ∃ gs r w', (client.tryRenewal dv t).run World.step w = some (r, w') ∧ Renewed client t gs r ∧
      w.Exchanged gs w' := by
  obtain ⟨g, o, u, hu, htries, hx⟩ := authRequest_run client dv (client.renewalRequest t) hw
  have hrun := Program.run_bind_of (fun _ => (pure true : Coroutine Bool)) hu
  cases ho : authOutcome o with
  | ok _ =>
    rw [ho] at hrun
    exact ⟨[g], .ok true, u, Program.run_catching_of _ hrun, .renewed ht htries ho, hx⟩
  | error e =>
    rw [ho] at hrun
    have hcatch : (client.tryRenewal dv t).run World.step w = _ := Program.run_catching_of _ hrun
    simp only [Program.onError_error] at hcatch
    cases htr : e.isTransport with
    | true =>
      rw [htr] at hcatch
      exact ⟨[g], .error (authenticationError e), u, hcatch, .failed ht htries ho htr, hx⟩
    | false =>
      cases hc : e.isCaught with
      | true =>
        rw [htr, hc] at hcatch
        exact ⟨[g], .ok false, _, hcatch, .rejected ht htries ho htr hc, ⟨hx.requests_eq, hx.held_eq⟩⟩
      | false =>
        rw [htr, hc] at hcatch
        exact ⟨[g], .error e, u, hcatch, .escaped ht htries ho hc, hx⟩

theorem renew_eq (client : VaultClient) (dv : DecodedValues) (w : World) : (client.renew dv).run World.step w =
    (if w.tokens.present && w.tokens.renewable then client.tryRenewal dv w.tokens else pure false).run World.step w :=
  rfl

theorem renew_run (dv : DecodedValues) (hw : w.held .request = false) :
    ∃ gs r w', (client.renew dv).run World.step w = some (r, w') ∧ Renewed client w.tokens gs r ∧
      w.Exchanged gs w' := by
  rw [renew_eq]
  cases hp : w.tokens.present && w.tokens.renewable with
  | false => exact ⟨[], .ok false, w, rfl, .skipped hp, .refl w⟩
  | true => exact tryRenewal_run client dv w.tokens hw (Bool.and_eq_true_iff.mp hp).1

def loginError (e : VaultException) : VaultException := if e.isCaught then authenticationError e else e

theorem login_sends (dv : DecodedValues) (hconfigured : (client.roleId.isEmpty || client.secretId.isEmpty) = false)
    (hw : w.held .request = false) :
    ∃ g o w', (client.login dv).run World.step w = some ((authOutcome o).mapError loginError, w') ∧
      Tries client (client.loginRequest w.tokens) g o ∧ w.Exchanged [g] w' := by
  obtain ⟨g, o, u, hu, htries, hx⟩ := authRequest_run client dv (client.loginRequest w.tokens) hw
  have hbody : (Coroutine.tokens >>= fun t => client.request (client.loginRequest t) >>=
      VaultClient.authenticate dv).run World.step w = some (authOutcome o, u) := hu
  have hrun := Program.run_catching_of (fun error =>
    if error.isCaught then throw (authenticationError error) else throw error) hbody
  refine ⟨g, o, u, ?_, htries, hx⟩
  unfold VaultClient.login
  rw [if_neg (by rw [hconfigured]; exact Bool.false_ne_true)]
  refine hrun.trans ?_
  cases authOutcome o with
  | ok _ => rfl
  | error e =>
    rw [Program.onError_error, Except.mapError, loginError]
    cases e.isCaught with
    | true => rfl
    | false => rfl

theorem login_run (dv : DecodedValues) (hw : w.held .request = false) :
    ∃ gs r w', (client.login dv).run World.step w = some (r, w') ∧ LoggedIn client gs r ∧ w.Exchanged gs w' := by
  cases hconfigured : client.roleId.isEmpty || client.secretId.isEmpty with
  | true =>
    refine ⟨[], .error missingCredentials, w, ?_, .missing, .refl w⟩
    unfold VaultClient.login
    rw [if_pos hconfigured]
    rfl
  | false =>
    obtain ⟨g, o, u, hrun, htries, hx⟩ := login_sends client dv hconfigured hw
    refine ⟨[g], _, u, hrun, ?_, hx⟩
    cases ho : authOutcome o with
    | ok _ => exact .loggedIn htries ho
    | error e =>
      rw [Except.mapError, loginError]
      cases hc : e.isCaught with
      | true => exact .failed htries ho hc
      | false => exact .escaped htries ho hc

theorem tokenSteps_run (dv : DecodedValues) (hw : w.held .request = false) :
    ∃ gs r w', (client.tokenSteps dv).run World.step w = some (r, w') ∧ Ensured client w.tokens gs r ∧
      w.Exchanged gs w' := by
  obtain ⟨b, u, hu, hxu, htu, hb⟩ := isValid_run (w := w)
  have hvalid : (client.tokenSteps dv).run World.step w = _ := Program.run_bind_of _ hu
  cases b with
  | true => exact ⟨[], .ok (), u, hvalid, .valid (hb rfl), hxu⟩
  | false =>
    obtain ⟨gs, r, v, hv, hr, hxv⟩ := renew_run client (w := u) dv (by rw [hxu.held_eq, hw])
    rw [htu] at hr
    have hrenew := hvalid.trans (Program.run_bind_of _ hv)
    have hx : w.Exchanged gs v := by simpa using hxu.trans hxv
    cases r with
    | error e => exact ⟨gs, .error e, v, hrenew, .failed hr, hx⟩
    | ok done =>
      cases done with
      | true => exact ⟨gs, .ok (), v, hrenew, .renewed hr, hx⟩
      | false =>
        obtain ⟨hs, r, v', hv', hl, hxl⟩ := login_run client (w := v) dv (by rw [hx.held_eq, hw])
        exact ⟨gs ++ hs, r, v', hrenew.trans hv', .login hr hl, hx.trans hxl⟩

theorem ensureToken_run (dv : DecodedValues) (hw : w.held = fun _ => false) :
    ∃ gs r w', (client.ensureToken dv).run World.step w = some (r, w') ∧ Ensured client w.tokens gs r ∧
      w.Exchanged gs w' := by
  have hfree : (w.acquired .token).held .request = false := by simp [World.acquired, hw]
  obtain ⟨gs, r, v, hv, he, hx⟩ := tokenSteps_run client dv hfree
  refine ⟨gs, r, _, withLock_run (by rw [hw]) hv, he, ?_, ?_⟩
  · simpa [World.acquired] using hx.requests_eq
  · rw [hx.held_eq, World.acquired, Function.update_idem, hw]
    exact Function.update_eq_self _ _

/-! ### `project` -/

/-- The reads under a token that a call has made sure of, and what they come to. -/
inductive Looked (client : VaultClient) (dv : DecodedValues) :
    List Exchange → Except VaultException VaultProject → Prop
  | read {t : TokenState} {url : Text} {g : Exchange} {o : Sent} : Tries client (client.readRequest t url) g o →
      (∀ r, o = .response r → VaultClient.isUnauthorized r = false) →
      Looked client dv [g] (answer o >>= readProject dv)
  | unauthenticated {t t' : TokenState} {url : Text} {g : Exchange} {r : HttpResponse} {gs : List Exchange}
      {e : VaultException} : Tries client (client.readRequest t url) g (.response r) →
      VaultClient.isUnauthorized r = true → t'.present = false → Ensured client t' gs (.error e) →
      Looked client dv (g :: gs) (.error e)
  | again {t t' t'' : TokenState} {url : Text} {g h : Exchange} {r : HttpResponse} {gs : List Exchange}
      {o : Sent} : Tries client (client.readRequest t url) g (.response r) →
      VaultClient.isUnauthorized r = true → t'.present = false → Ensured client t' gs (.ok ()) →
      Tries client (client.readRequest t'' url) h o →
      Looked client dv (g :: (gs ++ [h])) (answer o >>= readProject dv)

inductive Projected (client : VaultClient) (dv : DecodedValues) (repository : Text) (t : TokenState) :
    List Exchange → Except VaultException VaultProject → Prop
  | unauthenticated {gs : List Exchange} {e : VaultException} : Ensured client t gs (.error e) →
      Projected client dv repository t gs (.error e)
  | notSplit {gs : List Exchange} {e : VaultException} : Ensured client t gs (.ok ()) →
      cut '/' repository = none → Projected client dv repository t gs (.error e)
  | looked {gs hs : List Exchange} {p : VaultProject} : Ensured client t gs (.ok ()) →
      Looked client dv hs (.ok p) → Projected client dv repository t (gs ++ hs) (.ok p)
  | failed {gs hs : List Exchange} {e : VaultException} : Ensured client t gs (.ok ()) →
      Looked client dv hs (.error e) →
      Projected client dv repository t (gs ++ hs) (.error (VaultClient.lookupError e))

theorem read_run (url : Text) (hw : w.held = fun _ => false) :
    ∃ g o w', (client.read url).run World.step w = some (answer o, w') ∧
      Tries client (client.readRequest w.tokens url) g o ∧ w.Exchanged [g] w' := by
  obtain ⟨g, o, u, hu, htries, hx, -⟩ :=
    request_run client (client.readRequest w.tokens url) (congrFun hw .request)
  exact ⟨g, o, u, hu, htries, hx⟩

theorem lookup_run (dv : DecodedValues) (url : Text) (hw : w.held = fun _ => false) :
    ∃ gs r w', (client.lookup dv url).run World.step w = some (r, w') ∧ Looked client dv gs r ∧
      w.Exchanged gs w' := by
  obtain ⟨g, o, u, hu, htries, hx⟩ := read_run client url hw
  have hread : (client.lookup dv url).run World.step w = _ := Program.run_bind_of _ hu
  cases o with
  | transport error text => exact ⟨[g], _, u, hread, .read htries nofun, hx⟩
  | http error => exact ⟨[g], _, u, hread, .read htries nofun, hx⟩
  | unsent error => exact ⟨[g], _, u, hread, .read htries nofun, hx⟩
  | response r =>
    cases hr : VaultClient.isUnauthorized r with
    | false =>
      simp only [answer, Program.onValue_ok, hr, Bool.false_eq_true, if_false] at hread
      refine ⟨[g], _, u, hread.trans (Program.run_ofExcept ..), .read htries ?_, hx⟩
      rintro r' ⟨⟩
      exact hr
    | true =>
      simp only [answer, Program.onValue_ok, hr, if_true] at hread
      -- the token is dropped before the second `_ensure_token`
      let dropped : World := { u with tokens := { u.tokens with token := none, expiresAt := 0 } }
      have hdrop : (client.lookup dv url).run World.step w = (client.ensureToken dv >>= fun _ =>
        client.read url >>= fun r => .ofExcept (readProject dv r)).run World.step dropped := hread
      obtain ⟨gs, e, v, hv, he, hy⟩ := ensureToken_run client (w := dropped) dv (hx.held_eq.trans hw)
      have hz : w.Exchanged ([g] ++ gs) v := hx.trans ⟨hy.requests_eq, hy.held_eq⟩
      have hensure := hdrop.trans (Program.run_bind_of _ hv)
      cases e with
      | error e => exact ⟨g :: gs, .error e, v, hensure, .unauthenticated htries hr rfl he, hz⟩
      | ok _ =>
        obtain ⟨g', o', v', hv', htries', hx'⟩ := read_run client (w := v) url (hz.held_eq.trans hw)
        refine ⟨g :: (gs ++ [g']), _, v', ?_, .again htries hr rfl he htries', hz.trans hx'⟩
        rw [hensure, Program.onValue_ok, Program.run_bind_of _ hv']
        cases answer o' with
        | error e => rfl
        | ok r => exact Program.run_ofExcept ..

theorem project_run (dv : DecodedValues) (repository : Text) (hw : w.held = fun _ => false) :
    ∃ gs r w', (client.project dv repository).run World.step w = some (r, w') ∧
      Projected client dv repository w.tokens gs r ∧ w.Exchanged gs w' := by
  obtain ⟨gs, e, u, hu, he, hx⟩ := ensureToken_run client dv hw
  have hensure : (client.project dv repository).run World.step w = _ := Program.run_bind_of _ hu
  cases e with
  | error e => exact ⟨gs, .error e, u, hensure, .unauthenticated he, hx⟩
  | ok _ =>
    rw [Program.onValue_ok] at hensure
    cases hc : cut '/' repository with
    | none =>
      rw [hc] at hensure
      exact ⟨gs, _, u, hensure, .notSplit he hc, hx⟩
    | some names =>
      rw [hc] at hensure
      obtain ⟨hs, r, v, hv, hl, hy⟩ := lookup_run client dv
        (client.projectUrl names.1 names.2) (hx.held_eq.trans hw)
      have hcatch := hensure.trans (Program.run_catching_of _ hv)
      cases r with
      | ok p => exact ⟨gs ++ hs, .ok p, v, hcatch, .looked he hl, hx.trans hy⟩
      | error e => exact ⟨gs ++ hs, _, v, hcatch, .failed he hl, hx.trans hy⟩

end

/-! ### Nothing is replayed ambiguously -/

namespace Sent

def isAmbiguous : Sent → Bool
  | .transport error _ => !error.isPreSend
  | _ => false

/-- A response, an ambiguous failure or any other end that is not a pre-send error. -/
def isDecisive : Sent → Bool
  | .transport error _ => !error.isPreSend
  | _ => true

end Sent

namespace VaultClient

variable (client : VaultClient)

def isRenewal (r : VaultRequest) : Bool := r.method = .post && r.url = client.renewalUrl

def isLogin (r : VaultRequest) : Bool := r.method = .post && r.url = client.loginUrl

def isRead (r : VaultRequest) : Bool := r.method = .get

end VaultClient

/-- The sends of a kind that were answered by a response or an ambiguous failure. -/
def decided (kind : VaultRequest → Bool) (gs : List Exchange) : ℕ :=
  gs.flatten.countP fun s => kind s.1 && s.2.isDecisive

/-- No send comes after an ambiguous one. -/
def AmbiguousLast (gs : List Exchange) : Prop := gs.flatten.Pairwise fun s _ => s.2.isAmbiguous = false

def IsReading (g : Exchange) : Prop := ∃ s ∈ g, VaultClient.isRead s.1 = true

/-- The last answer is 401 or 403. -/
def IsRejected (g : Exchange) : Prop :=
  ∃ request r, g.getLast? = some (request, .response r) ∧ VaultClient.isUnauthorized r = true

/-- A read comes after another one only if that was rejected. -/
def SecondRead (gs : List Exchange) : Prop := gs.Pairwise fun g h => IsReading g → IsReading h → IsRejected g

structure NeverReplayed (client : VaultClient) (gs : List Exchange) : Prop where
  ambiguous_last : AmbiguousLast gs
  tries : ∀ g ∈ gs, ∃ request o, Tries client request g o
  renewals : decided client.isRenewal gs ≤ 1
  logins : decided client.isLogin gs ≤ 2
  reads : decided VaultClient.isRead gs ≤ 2
  second_read : SecondRead gs

theorem decided_append (kind : VaultRequest → Bool) (gs hs : List Exchange) :
    decided kind (gs ++ hs) = decided kind gs + decided kind hs := by
  rw [decided, List.flatten_append, List.countP_append]
  rfl

theorem decided_cons (kind : VaultRequest → Bool) (g : Exchange) (gs : List Exchange) :
    decided kind (g :: gs) = decided kind [g] + decided kind gs :=
  decided_append kind [g] gs

theorem renewalUrl_ne_loginUrl (client : VaultClient) : client.renewalUrl ≠ client.loginUrl := by
  intro h
  exact absurd (List.append_cancel_left h) (by decide)

section

variable {client : VaultClient} {request : VaultRequest} {g : Exchange} {o : Sent}

theorem Tries.decided_eq (h : Tries client request g o) (kind : VaultRequest → Bool) :
    decided kind [g] = if kind request && o.isDecisive then 1 else 0 := by
  cases h with
  | once => simp [decided, List.countP_cons]
  | @twice error text o _ hp =>
    have hd : (Sent.transport error text).isDecisive = false := by simp [Sent.isDecisive, hp]
    simp [decided, List.countP_cons, hd]

theorem Tries.decided_le (h : Tries client request g o) (kind : VaultRequest → Bool) :
    decided kind [g] ≤ 1 := by
  rw [h.decided_eq]
  split <;> omega

theorem Tries.decided_of_false (h : Tries client request g o) {kind : VaultRequest → Bool}
    (hk : kind request = false) : decided kind [g] = 0 := by
  rw [h.decided_eq, hk]
  rfl

theorem Tries.ambiguousLast (h : Tries client request g o) : AmbiguousLast [g] := by
  cases h with
  | once => simp [AmbiguousLast]
  | twice _ hp => simp [AmbiguousLast, Sent.isAmbiguous, hp]

theorem Tries.calm (h : Tries client request g o) (ho : o.isAmbiguous = false) :
    ∀ s ∈ g, s.2.isAmbiguous = false := by
  cases h with
  | once => simpa using ho
  | twice _ hp => simpa [Sent.isAmbiguous, hp] using ho

theorem Tries.isRead_iff (h : Tries client request g o) : IsReading g ↔ VaultClient.isRead request = true := by
  cases h <;> simp [IsReading]

theorem Tries.getLast (h : Tries client request g o) : g.getLast? = some (request, o) := by
  cases h <;> rfl

end

section

variable {client : VaultClient}

/-- Logical requests of a stretch of the call; after a calm one the call may go on. -/
structure Stretch (client : VaultClient) (gs : List Exchange) (calm : Prop) : Prop where
  ambiguous_last : AmbiguousLast gs
  tries : ∀ g ∈ gs, ∃ request o, Tries client request g o
  quiet : calm → ∀ s ∈ gs.flatten, s.2.isAmbiguous = false

namespace Stretch

theorem nil (calm : Prop) : Stretch client [] calm := ⟨.nil, nofun, nofun⟩

theorem single {request : VaultRequest} {g : Exchange} {o : Sent} {calm : Prop} (h : Tries client request g o)
    (ho : calm → o.isAmbiguous = false) : Stretch client [g] calm where
  ambiguous_last := h.ambiguousLast
  tries := fun _ hg => ⟨request, o, List.mem_singleton.mp hg ▸ h⟩
  quiet := fun hc => by simpa using h.calm (ho hc)

theorem of_response {request : VaultRequest} {g : Exchange} {r : HttpResponse}
    (h : Tries client request g (.response r)) : Stretch client [g] True :=
  single h fun _ => rfl

theorem imp {gs : List Exchange} {calm calm' : Prop} (h : Stretch client gs calm) (hc : calm' → calm) :
    Stretch client gs calm' :=
  ⟨h.ambiguous_last, h.tries, fun hc' => h.quiet (hc hc')⟩

theorem append {gs hs : List Exchange} {calm calm' : Prop} (first : Stretch client gs calm) (hc : calm)
    (second : Stretch client hs calm') : Stretch client (gs ++ hs) calm' where
  ambiguous_last := by
    rw [AmbiguousLast, List.flatten_append, List.pairwise_append]
    exact ⟨first.ambiguous_last, second.ambiguous_last, fun s hs _ _ => first.quiet hc s hs⟩
  tries := List.forall_mem_append.mpr ⟨first.tries, second.tries⟩
  quiet := fun hc' => by
    rw [List.flatten_append, List.forall_mem_append]
    exact ⟨first.quiet hc, second.quiet hc'⟩

end Stretch

theorem isAmbiguous_of_authOutcome {o : Sent} (h : ∀ e, authOutcome o = .error e → e.isTransport = false) :
    o.isAmbiguous = false := by
  cases o with
  | transport error text => exact absurd (h _ rfl) (by simp [VaultException.isTransport])
  | _ => rfl

theorem Renewed.stretch {t : TokenState} {gs : List Exchange} {r : Except VaultException Bool}
    (h : Renewed client t gs r) : Stretch client gs (∃ b, r = .ok b) := by
  cases h with
  | skipped => exact .nil _
  | renewed _ htries ho =>
    refine .single htries fun _ => isAmbiguous_of_authOutcome ?_
    intro e he
    cases ho.symm.trans he
  | rejected _ htries ho htr =>
    refine .single htries fun _ => isAmbiguous_of_authOutcome ?_
    intro e he
    cases ho.symm.trans he
    exact htr
  | failed _ htries =>
    refine .single htries ?_
    rintro ⟨b, ⟨⟩⟩
  | escaped _ htries =>
    refine .single htries ?_
    rintro ⟨b, ⟨⟩⟩

theorem LoggedIn.stretch {gs : List Exchange} {r : Except VaultException Unit} (h : LoggedIn client gs r) :
    Stretch client gs (r = .ok ()) := by
  cases h with
  | missing => exact .nil _
  | loggedIn htries ho =>
    refine .single htries fun _ => isAmbiguous_of_authOutcome ?_
    intro e he
    cases ho.symm.trans he
  | failed htries => exact .single htries nofun
  | escaped htries => exact .single htries nofun

theorem Ensured.stretch {t : TokenState} {gs : List Exchange} {r : Except VaultException Unit}
    (h : Ensured client t gs r) : Stretch client gs (r = .ok ()) := by
  cases h with
  | valid => exact .nil _
  | renewed hr => exact hr.stretch.imp fun _ => ⟨true, rfl⟩
  | failed hr => exact hr.stretch.imp nofun
  | login hr hl => exact hr.stretch.append ⟨false, rfl⟩ hl.stretch

theorem Looked.stretch {dv : DecodedValues} {gs : List Exchange} {r : Except VaultException VaultProject}
    (h : Looked client dv gs r) : Stretch client gs False := by
  cases h with
  | read htries => exact .single htries nofun
  | unauthenticated htries _ _ he =>
    exact (Stretch.of_response htries).append trivial (he.stretch.imp nofun)
  | again htries _ _ he htries' =>
    have hlast : Stretch client _ False := .single htries' nofun
    exact (Stretch.of_response htries).append trivial (he.stretch.append rfl hlast)

theorem Projected.stretch {dv : DecodedValues} {repository : Text} {t : TokenState} {gs : List Exchange}
    {r : Except VaultException VaultProject} (h : Projected client dv repository t gs r) :
    Stretch client gs False := by
  cases h with
  | unauthenticated he => exact he.stretch.imp nofun
  | notSplit he => exact he.stretch.imp nofun
  | looked he hl => exact he.stretch.append rfl hl.stretch
  | failed he hl => exact he.stretch.append rfl hl.stretch

/-! ### How many requests of each kind -/

structure AuthBounds (client : VaultClient) (gs : List Exchange) (renewals logins : ℕ) : Prop where
  renewals_le : decided client.isRenewal gs ≤ renewals
  logins_le : decided client.isLogin gs ≤ logins
  reads_eq : decided VaultClient.isRead gs = 0
  not_reading : ∀ g ∈ gs, ¬ IsReading g

theorem AuthBounds.append {gs hs : List Exchange} {n m k l : ℕ} (first : AuthBounds client gs n m)
    (second : AuthBounds client hs k l) : AuthBounds client (gs ++ hs) (n + k) (m + l) where
  renewals_le := by
    rw [decided_append]
    exact Nat.add_le_add first.renewals_le second.renewals_le
  logins_le := by
    rw [decided_append]
    exact Nat.add_le_add first.logins_le second.logins_le
  reads_eq := by rw [decided_append, first.reads_eq, second.reads_eq]
  not_reading := List.forall_mem_append.mpr ⟨first.not_reading, second.not_reading⟩

theorem AuthBounds.mono {gs : List Exchange} {n m k : ℕ} (h : AuthBounds client gs n m) (hm : m ≤ k) :
    AuthBounds client gs n k :=
  { h with logins_le := h.logins_le.trans hm }

theorem AuthBounds.nil (n m : ℕ) : AuthBounds client [] n m := ⟨Nat.zero_le _, Nat.zero_le _, rfl, nofun⟩

theorem authBounds_renewal {t : TokenState} {g : Exchange} {o : Sent}
    (h : Tries client (client.renewalRequest t) g o) : AuthBounds client [g] 1 0 where
  renewals_le := h.decided_le _
  logins_le := by
    rw [h.decided_of_false]
    simp [VaultClient.isLogin, VaultClient.renewalRequest, renewalUrl_ne_loginUrl]
  reads_eq := h.decided_of_false rfl
  not_reading := by
    rw [List.forall_mem_singleton, h.isRead_iff]
    exact Bool.false_ne_true

theorem authBounds_login {t : TokenState} {g : Exchange} {o : Sent}
    (h : Tries client (client.loginRequest t) g o) : AuthBounds client [g] 0 1 where
  renewals_le := by
    rw [h.decided_of_false]
    simp [VaultClient.isRenewal, VaultClient.loginRequest, (renewalUrl_ne_loginUrl client).symm]
  logins_le := h.decided_le _
  reads_eq := h.decided_of_false rfl
  not_reading := by
    rw [List.forall_mem_singleton, h.isRead_iff]
    exact Bool.false_ne_true

theorem Renewed.authBounds {t : TokenState} {gs : List Exchange} {r : Except VaultException Bool}
    (h : Renewed client t gs r) : AuthBounds client gs (if t.present then 1 else 0) 0 := by
  cases h with
  | skipped => exact .nil _ _
  | renewed hp htries => simpa [hp] using authBounds_renewal htries
  | rejected hp htries => simpa [hp] using authBounds_renewal htries
  | failed hp htries => simpa [hp] using authBounds_renewal htries
  | escaped hp htries => simpa [hp] using authBounds_renewal htries

theorem LoggedIn.authBounds {gs : List Exchange} {r : Except VaultException Unit} (h : LoggedIn client gs r) :
    AuthBounds client gs 0 1 := by
  cases h with
  | missing => exact .nil _ _
  | loggedIn htries => exact authBounds_login htries
  | failed htries => exact authBounds_login htries
  | escaped htries => exact authBounds_login htries

theorem Ensured.authBounds {t : TokenState} {gs : List Exchange} {r : Except VaultException Unit}
    (h : Ensured client t gs r) : AuthBounds client gs (if t.present then 1 else 0) 1 := by
  cases h with
  | valid => exact .nil _ _
  | renewed hr => exact hr.authBounds.mono (Nat.zero_le 1)
  | failed hr => exact hr.authBounds.mono (Nat.zero_le 1)
  | login hr hl => simpa using hr.authBounds.append hl.authBounds

theorem SecondRead.of_not_reading {gs hs : List Exchange} (hn : ∀ g ∈ gs, ¬ IsReading g) (h : SecondRead hs) :
    SecondRead (gs ++ hs) := by
  rw [SecondRead, List.pairwise_append]
  refine ⟨List.pairwise_of_forall_mem_list ?_, h, ?_⟩
  · intro g hg _ _ hr
    exact absurd hr (hn g hg)
  · intro g hg _ _ hr
    exact absurd hr (hn g hg)

structure ReadBounds (client : VaultClient) (gs : List Exchange) : Prop where
  renewals_eq : decided client.isRenewal gs = 0
  logins_le : decided client.isLogin gs ≤ 1
  reads_le : decided VaultClient.isRead gs ≤ 2
  second_read : SecondRead gs

theorem Looked.readBounds {dv : DecodedValues} {gs : List Exchange} {r : Except VaultException VaultProject}
    (h : Looked client dv gs r) : ReadBounds client gs := by
  cases h with
  | read htries =>
    exact ⟨htries.decided_of_false rfl, (htries.decided_of_false rfl).le.trans (Nat.zero_le 1),
      (htries.decided_le _).trans (by decide), List.pairwise_singleton ..⟩
  | @unauthenticated t t' url g r gs e htries hu ht he =>
    have hb := he.authBounds
    rw [ht] at hb
    refine ⟨?_, ?_, ?_, ?_⟩
    · rw [decided_cons, htries.decided_of_false rfl, Nat.le_zero.mp hb.renewals_le]
    · rw [decided_cons, htries.decided_of_false rfl, Nat.zero_add]
      exact hb.logins_le
    · rw [decided_cons, hb.reads_eq]
      exact (htries.decided_le _).trans (by decide)
    · refine List.pairwise_cons.mpr ⟨fun h hh _ hr => absurd hr (hb.not_reading h hh), ?_⟩
      have hgs := SecondRead.of_not_reading hb.not_reading .nil
      rwa [List.append_nil] at hgs
  | @again t t' t'' url g h r gs o htries hu ht he htries' =>
    have hb := he.authBounds
    rw [ht] at hb
    refine ⟨?_, ?_, ?_, ?_⟩
    · rw [decided_cons, decided_append, htries.decided_of_false rfl, htries'.decided_of_false rfl,
        Nat.le_zero.mp hb.renewals_le]
    · rw [decided_cons, decided_append, htries.decided_of_false rfl, htries'.decided_of_false rfl, Nat.zero_add]
      exact hb.logins_le
    · rw [decided_cons, decided_append, hb.reads_eq, Nat.zero_add]
      exact Nat.add_le_add (htries.decided_le _) (htries'.decided_le _)
    · -- the first read was answered 401 or 403
      have hrej : IsRejected g := ⟨_, r, htries.getLast, hu⟩
      exact List.pairwise_cons.mpr ⟨fun _ _ _ _ => hrej,
        SecondRead.of_not_reading hb.not_reading (List.pairwise_singleton ..)⟩

theorem Projected.neverReplayed {dv : DecodedValues} {repository : Text} {t : TokenState} {gs : List Exchange}
    {r : Except VaultException VaultProject} (h : Projected client dv repository t gs r) :
    NeverReplayed client gs := by
  have hs := h.stretch
  have of_ensured : ∀ {gs e}, Ensured client t gs e → ∀ {hs}, ReadBounds client hs →
      decided client.isRenewal (gs ++ hs) ≤ 1 ∧ decided client.isLogin (gs ++ hs) ≤ 2 ∧
        decided VaultClient.isRead (gs ++ hs) ≤ 2 ∧ SecondRead (gs ++ hs) := by
    intro gs e he hs hl
    have hb := he.authBounds
    have hp : decided client.isRenewal gs ≤ 1 := hb.renewals_le.trans (by split <;> omega)
    have hlogin := hb.logins_le
    have hlogin' := hl.logins_le
    simp only [decided_append, hl.renewals_eq, hb.reads_eq]
    exact ⟨hp, by omega, by simpa using hl.reads_le, .of_not_reading hb.not_reading hl.second_read⟩
  have hnil : ReadBounds client [] := ⟨rfl, Nat.zero_le 1, Nat.zero_le 2, .nil⟩
  have hbounds : decided client.isRenewal gs ≤ 1 ∧ decided client.isLogin gs ≤ 2 ∧
      decided VaultClient.isRead gs ≤ 2 ∧ SecondRead gs := by
    cases h with
    | unauthenticated he => simpa using of_ensured he hnil
    | notSplit he => simpa using of_ensured he hnil
    | looked he hl => exact of_ensured he hl.readBounds
    | failed he hl => exact of_ensured he hl.readBounds
  exact ⟨hs.ambiguous_last, hs.tries, hbounds.1, hbounds.2.1, hbounds.2.2.1, hbounds.2.2.2⟩

/-- The call ends, and whatever httpx makes of its requests none is replayed after a
failure that may have reached Vault. -/
theorem requests_never_replayed (client : VaultClient) (dv : DecodedValues) (tokens : TokenState)
    (script : ℕ → Sent) (clock : ℕ → ℤ) (repository : Text) :
    ∃ result w, (client.project dv repository).run World.step (World.alone tokens script clock) =
      some (result, w) ∧ NeverReplayed client w.requests := by
  obtain ⟨gs, r, w, hrun, hp, hx⟩ := project_run client dv repository
    (w := World.alone tokens script clock) rfl
  refine ⟨r, w, hrun, ?_⟩
  rw [hx.requests_eq]
  exact hp.neverReplayed

/-- A pool timeout of the login is retried once, in the same logical request. -/
example : ((ownedVault.project exampleValues "canonical/example".toList).run World.step
    (World.alone {} (fun n => match n with
      | 0 => .transport .poolTimeout []
      | 1 => loginResponse
      | _ => recordResponse (.ofFields [("schema_version", .int 1), ("enabled", .bool true)])) fun _ => 0)).map
      (fun p => (p.1.toOption.map VaultProject.version, p.2.requests.map List.length)) =
    some (some (.int 3), [2, 1]) := by
  decide +kernel

/-! ### Which exceptions leave `project` -/

def IsVaultEnd : Except VaultException VaultProject → Prop
  | .ok _ => True
  | .error (.vault _ _) => True
  | _ => False

/-- Whether the `auth` member of a response makes `_set_token` raise something else
than a `VaultError`: it is not an object, or its lease is no float. -/
def authBreaks (auth : Json) : Bool :=
  match auth with
  | .obj _ =>
    match readAuth auth with
    | .ok (_, lease, _) => !decide (lease.natAbs < floatBound)
    | .error _ => false
  | _ => true

def isTooDeep : Body → Bool
  | .tooDeep _ => true
  | _ => false

/-- A send whose answer no handler of the client is ready for. -/
def breaks (s : VaultRequest × Sent) : Bool :=
  match s.2 with
  | .response r =>
    decide (200 ≤ r.statusCode ∧ r.statusCode ≤ 299) && (isTooDeep r.body ||
      match s.1.method, r.body with
      | .post, .json (.obj fields) => ((fields.lookup "auth".toList).map authBreaks).getD false
      | _, _ => false)
  | _ => false

end

def escapes {α : Type} : Except VaultException α → Bool
  | .error (.other _) => true
  | _ => false

theorem readAuth_obj {fields : List (Text × Json)} {e : VaultException} (h : readAuth (.obj fields) = .error e) :
    e = invalidAuthentication := by
  simp only [readAuth, Json.get, bind, Except.bind] at h
  split at h
  · cases h
  · cases h
    rfl

theorem escapes_tokenOutcome (auth : Json) : escapes (tokenOutcome auth) = authBreaks auth := by
  cases auth with
  | obj fields =>
    simp only [tokenOutcome, authBreaks]
    cases hr : readAuth (.obj fields) with
    | ok read =>
      by_cases hl : read.2.1.natAbs < floatBound <;> simp [bind, Except.bind, hl, escapes, leaseOverflow] <;> rfl
    | error e =>
      rw [readAuth_obj hr]
      rfl
  | _ => rfl

theorem raiseForStatus_of {r : HttpResponse} (h : 200 ≤ r.statusCode ∧ r.statusCode ≤ 299) :
    r.raiseForStatus = .ok () :=
  if_pos h

theorem raiseForStatus_of_not {r : HttpResponse} (h : ¬ (200 ≤ r.statusCode ∧ r.statusCode ≤ 299)) :
    r.raiseForStatus = .error (.status r.statusCode r.statusText) :=
  if_neg h

theorem escapes_authOutcome {request : VaultRequest} (hm : request.method = .post) (o : Sent) :
    escapes (authOutcome o) = breaks (request, o) := by
  cases o with
  | response r =>
    have ho : authOutcome (.response r) = responseOutcome r := rfl
    rw [ho, responseOutcome]
    by_cases hs : 200 ≤ r.statusCode ∧ r.statusCode ≤ 299
    · rw [raiseForStatus_of hs]
      simp only [breaks, hm, hs, and_self, decide_true, Bool.true_and, HttpResponse.json, bind, Except.bind]
      cases r.body with
      | json value =>
        cases value with
        | obj fields =>
          simp only [Json.item, isTooDeep, Bool.false_or]
          cases fields.lookup "auth".toList with
          | none => rfl
          | some auth => exact escapes_tokenOutcome auth
        | _ => rfl
      | invalid error => rfl
      | tooDeep text => rfl
    · rw [raiseForStatus_of_not hs]
      simp [breaks, hs, escapes, bind, Except.bind]
  | _ => rfl

theorem escapes_bind {α β : Type} {x : Except VaultException α} {f : α → Except VaultException β}
    (hx : escapes x = false) (hf : ∀ a, escapes (f a) = false) : escapes (x >>= f) = false := by
  cases x with
  | ok a => exact hf a
  | error e => cases e <;> first | rfl | cases hx

theorem escapes_item (name : String) (j : Json) : escapes (j.item name) = false := by
  unfold Json.item
  split
  · split <;> rfl
  · rfl
  · rfl
  · rfl

theorem escapes_readPayload (dv : DecodedValues) (payload : Json) : escapes (readPayload dv payload) = false := by
  refine escapes_bind (escapes_item "data" payload) fun record => ?_
  cases ProjectConfig.modelValidate dv record with
  | none => rfl
  | some config =>
    refine escapes_bind (escapes_item "metadata" payload) fun metadata => ?_
    refine escapes_bind (escapes_item "version" metadata) fun version => ?_
    cases version.int? <;> rfl

theorem escapes_readProject {request : VaultRequest} (dv : DecodedValues) (hm : request.method = .get) (o : Sent) :
    escapes (answer o >>= readProject dv) = breaks (request, o) := by
  cases o with
  | response r =>
    have ho : (answer (.response r) >>= readProject dv) = readProject dv r := rfl
    rw [ho, readProject]
    by_cases hs : 200 ≤ r.statusCode ∧ r.statusCode ≤ 299
    · have h404 : r.statusCode ≠ 404 := by omega
      rw [raiseForStatus_of hs, if_neg h404]
      simp only [breaks, hm, hs, and_self, decide_true, Bool.true_and, HttpResponse.json]
      cases r.body with
      | json value =>
        show escapes (value.item "data" >>= readPayload dv) = false
        exact escapes_bind (escapes_item "data" value) (escapes_readPayload dv)
      | invalid error => rfl
      | tooDeep text => rfl
    · rw [raiseForStatus_of_not hs]
      have hb : breaks (request, .response r) = false := by simp [breaks, hs]
      rw [hb]
      split <;> rfl
  | _ => rfl

/-! The end of each stretch of a call against the answers it was given. -/

/-- An exception leaves the stretch past its handlers, and not as a `VaultError`
exactly when an answer breaks them. -/
structure EndsAs {α : Type} (gs : List Exchange) (r : Except VaultException α) : Prop where
  breaks_eq : gs.flatten.any breaks = escapes r
  handled : ∀ e, r = .error e → e.isCaught = false

section

variable {client : VaultClient}

theorem Tries.any_breaks {request : VaultRequest} {g : Exchange} {o : Sent} (h : Tries client request g o) :
    g.any breaks = breaks (request, o) := by
  cases h with
  | once => simp
  | twice => simp [breaks]

theorem Tries.any_authBreaks {request : VaultRequest} {g : Exchange} {o : Sent} (h : Tries client request g o)
    (hm : request.method = .post) : [g].flatten.any breaks = escapes (authOutcome o) := by
  rw [List.flatten_singleton, h.any_breaks, escapes_authOutcome hm]

theorem escapes_of_isCaught {α : Type} {e : VaultException} (h : e.isCaught = true) :
    escapes (.error e : Except VaultException α) = false := by
  cases e <;> first | rfl | cases h

theorem Tries.any_readBreaks {t : TokenState} {url : Text} {g : Exchange} {o : Sent} (dv : DecodedValues)
    (h : Tries client (client.readRequest t url) g o) :
    g.any breaks = escapes (answer o >>= readProject dv) := by
  rw [h.any_breaks]
  exact (escapes_readProject dv rfl o).symm

theorem EndsAs.error {α β : Type} {gs : List Exchange} {e : VaultException}
    (h : EndsAs gs (.error e : Except VaultException α)) : EndsAs gs (.error e : Except VaultException β) where
  breaks_eq := h.breaks_eq.trans (by cases e <;> rfl)
  handled := by
    rintro e' ⟨⟩
    exact h.handled e rfl

theorem Renewed.endsAs {t : TokenState} {gs : List Exchange} {r : Except VaultException Bool}
    (h : Renewed client t gs r) : EndsAs gs r := by
  cases h with
  | skipped => exact ⟨rfl, nofun⟩
  | renewed _ htries ho => exact ⟨by rw [htries.any_authBreaks rfl, ho]; rfl, nofun⟩
  | rejected _ htries ho _ hc =>
    exact ⟨by rw [htries.any_authBreaks rfl, ho, escapes_of_isCaught hc]; rfl, nofun⟩
  | @failed g o e _ htries ho htr =>
    have hc : e.isCaught = true := by cases e <;> first | rfl | cases htr
    refine ⟨by rw [htries.any_authBreaks rfl, ho, escapes_of_isCaught hc]; rfl, ?_⟩
    rintro e' ⟨⟩
    rfl
  | escaped _ htries ho hc =>
    refine EndsAs.error (α := Unit) ⟨by rw [htries.any_authBreaks rfl, ho], ?_⟩
    rintro e' ⟨⟩
    exact hc

theorem LoggedIn.endsAs {gs : List Exchange} {r : Except VaultException Unit} (h : LoggedIn client gs r) :
    EndsAs gs r := by
  cases h with
  | missing =>
    refine ⟨rfl, ?_⟩
    rintro e' ⟨⟩
    rfl
  | loggedIn htries ho => exact ⟨by rw [htries.any_authBreaks rfl, ho], nofun⟩
  | failed htries ho hc =>
    refine ⟨by rw [htries.any_authBreaks rfl, ho, escapes_of_isCaught hc]; rfl, ?_⟩
    rintro e' ⟨⟩
    rfl
  | escaped htries ho hc =>
    refine ⟨by rw [htries.any_authBreaks rfl, ho], ?_⟩
    rintro e' ⟨⟩
    exact hc

theorem EndsAs.append {α β : Type} {gs hs : List Exchange} {a : α} {r : Except VaultException β}
    (first : EndsAs gs (.ok a : Except VaultException α)) (second : EndsAs hs r) : EndsAs (gs ++ hs) r where
  breaks_eq := by
    rw [List.flatten_append, List.any_append, first.breaks_eq, second.breaks_eq]
    exact Bool.false_or _
  handled := second.handled

theorem Ensured.endsAs {t : TokenState} {gs : List Exchange} {r : Except VaultException Unit}
    (h : Ensured client t gs r) : EndsAs gs r := by
  cases h with
  | valid => exact ⟨rfl, nofun⟩
  | renewed hr => exact ⟨hr.endsAs.breaks_eq, nofun⟩
  | failed hr => exact hr.endsAs.error
  | login hr hl => exact hr.endsAs.append hl.endsAs

theorem Looked.breaks_eq {dv : DecodedValues} {gs : List Exchange} {r : Except VaultException VaultProject}
    (h : Looked client dv gs r) : gs.flatten.any breaks = escapes r := by
  have hfirst : ∀ {t : TokenState} {url : Text} {g : Exchange} {r : HttpResponse},
      Tries client (client.readRequest t url) g (.response r) → VaultClient.isUnauthorized r = true →
      g.any breaks = false := by
    intro t url g r htries hu
    have hs : ¬ (200 ≤ r.statusCode ∧ r.statusCode ≤ 299) := by
      simp only [VaultClient.isUnauthorized, Bool.or_eq_true, decide_eq_true_eq] at hu
      omega
    rw [htries.any_breaks]
    simp [breaks, hs]
  cases h with
  | read htries => rw [List.flatten_singleton, htries.any_readBreaks dv]
  | unauthenticated htries hu _ he =>
    rw [List.flatten_cons, List.any_append, hfirst htries hu, Bool.false_or]
    exact he.endsAs.error.breaks_eq
  | again htries hu _ he htries' =>
    rw [List.flatten_cons, List.any_append, hfirst htries hu, List.flatten_append, List.any_append,
      he.endsAs.breaks_eq, List.flatten_singleton, htries'.any_readBreaks dv]
    rfl

theorem Projected.endsAs {dv : DecodedValues} {repository : Text} {t : TokenState} {gs : List Exchange}
    {r : Except VaultException VaultProject} (hr : isRepository repository = true)
    (h : Projected client dv repository t gs r) : EndsAs gs r := by
  cases h with
  | unauthenticated he => exact he.endsAs.error
  | notSplit _ hc =>
    rw [isRepository, hc] at hr
    cases hr
  | looked he hl => exact he.endsAs.append ⟨hl.breaks_eq, nofun⟩
  | @failed gs hs e he hl =>
    refine he.endsAs.append ⟨hl.breaks_eq.trans ?_, ?_⟩
    · cases e <;> rfl
    · rintro e' ⟨⟩
      cases e <;> rfl

theorem isVaultEnd_iff {r : Except VaultException VaultProject} (h : ∀ e, r = .error e → e.isCaught = false) :
    IsVaultEnd r ↔ escapes r = false := by
  cases r with
  | ok p => exact ⟨fun _ => rfl, fun _ => trivial⟩
  | error e =>
    have hc := h e rfl
    cases e with
    | vault message category => exact ⟨fun _ => rfl, fun _ => trivial⟩
    | other error => exact ⟨nofun, nofun⟩
    | _ => cases hc

/-- `project` ends with a project or a `VaultError` as long as no answer is one that
breaks the handlers, and only then. -/
theorem ends_with_vaultError_iff (client : VaultClient) (dv : DecodedValues) (tokens : TokenState)
    (script : ℕ → Sent) (clock : ℕ → ℤ) (repository : Text) (hr : isRepository repository = true) :
    ∃ result w, (client.project dv repository).run World.step (World.alone tokens script clock) =
      some (result, w) ∧ (IsVaultEnd result ↔ ∀ s ∈ w.requests.flatten, breaks s = false) := by
  obtain ⟨gs, r, w, hrun, hp, hx⟩ := project_run client dv repository
    (w := World.alone tokens script clock) rfl
  refine ⟨r, w, hrun, ?_⟩
  have he := hp.endsAs hr
  have hw : w.requests = gs := hx.requests_eq
  rw [isVaultEnd_iff he.handled, ← he.breaks_eq, hw, List.any_eq_false]
  simp only [Bool.not_eq_true]

end

def nullAuth : ℕ → Sent := fun _ => okResponse (.ofFields [("auth", .null)])

theorem ends_with_vaultError_example : isRepository "canonical/example".toList = true ∧
    ∃ result w, (exampleVault.project exampleValues "canonical/example".toList).run World.step
      (World.alone {} nullAuth fun _ => 0) = some (result, w) ∧
      (IsVaultEnd result ↔ ∀ s ∈ w.requests.flatten, breaks s = false) :=
  ⟨by decide, ends_with_vaultError_iff exampleVault exampleValues {} nullAuth (fun _ => 0)
    "canonical/example".toList (by decide)⟩

/-- A login answered with a null `auth` member ends in an `AttributeError`. -/
theorem project_raises_attributeError :
    ¬ ∀ (client : VaultClient) (dv : DecodedValues) (tokens : TokenState) (script : ℕ → Sent) (clock : ℕ → ℤ)
      (repository : Text), isRepository repository = true →
      ∃ result w, (client.project dv repository).run World.step (World.alone tokens script clock) =
        some (result, w) ∧ IsVaultEnd result := by
  intro h
  obtain ⟨result, w, hrun, hend⟩ := h exampleVault exampleValues {} nullAuth (fun _ => 0)
    "canonical/example".toList (by decide)
  have hraised : result = .error (.other
      ⟨"AttributeError".toList, "'NoneType' object has no attribute 'get'".toList⟩) :=
    (congrArg Prod.fst (Option.some_inj.mp hrun)).symm
  rw [hraised] at hend
  exact hend

end DemoController
