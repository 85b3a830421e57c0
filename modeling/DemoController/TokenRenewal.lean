import DemoController.VaultRequests

/-!
# After a renewal that fails

`_ensure_token` goes on to a login when the renewal ends in one of the exceptions its
handler names. An `auth` member, whatever it holds, takes the answer to `_set_token`,
and what that raises is named nowhere: the old token stays and the next call renews it
again.
-/

namespace DemoController

open Lib

def Sent.isTransport : Sent → Bool
  | .transport _ _ => true
  | _ => false

/-- An answer that is accepted as a success and then indexed or parsed without a
handler: its body is an object with an `auth` member, or nested too deeply. -/
def bearsAuth : Sent → Bool
  | .response r => decide (200 ≤ r.statusCode ∧ r.statusCode ≤ 299) && (isTooDeep r.body ||
      match r.body with
      | .json (.obj fields) => (fields.lookup "auth".toList).isSome
      | _ => false)
  | _ => false

/-- The handler of the renewal that drops the token takes the exception. -/
def fallsThrough : Except VaultException Unit → Bool
  | .error e => !e.isTransport && e.isCaught
  | .ok _ => false

/-- How the `try` of the renewal ends when it does not fall through. -/
def renewalEnd : Except VaultException Unit → Except VaultException Bool
  | .ok _ => .ok true
  | .error e => .error (if e.isTransport then authenticationError e else e)

/-- The client holds a token it may renew, and no longer takes it for valid. -/
structure Expired (w : World) : Prop where
  present : w.tokens.present = true
  renewable : w.tokens.renewable = true
  expired : w.tokens.expiresAt - 30 * 1000000000 ≤ w.clock w.readings

structure Credentialed (client : VaultClient) : Prop where
  roleId : client.roleId ≠ []
  secretId : client.secretId ≠ []

/-- After the logical request `g` the call has dropped the token and is its login, made from `u`. -/
structure LogsInAfter (client : VaultClient) (dv : DecodedValues) (w : World) (g : Exchange) (u : World) : Prop where
  token_eq : u.tokens.token = none
  requests_eq : u.requests = w.requests ++ [g]
  free : u.held .request = false
  run_eq : (client.ensureToken dv).run World.step w =
    ((client.login dv).ensuring (.release .token)).run World.step u

/-! ### What falls through -/

theorem fallsThrough_tokenOutcome (auth : Json) : fallsThrough (tokenOutcome auth) = false := by
  unfold tokenOutcome
  cases hread : readAuth auth with
  | ok read =>
    obtain ⟨token, lease, renewable⟩ := read
    by_cases hl : lease.natAbs < floatBound
    · simp only [bind, Except.bind, if_pos hl]
      rfl
    · simp only [bind, Except.bind, if_neg hl]
      rfl
  | error e =>
    cases auth with
    | obj fields =>
      rw [readAuth_obj hread]
      rfl
    | _ =>
      cases hread
      rfl

theorem fallsThrough_authOutcome (o : Sent) : fallsThrough (authOutcome o) = (!o.isTransport && !bearsAuth o) := by
  cases o with
  | response r =>
    have ho : authOutcome (.response r) = responseOutcome r := rfl
    rw [ho, responseOutcome]
    by_cases hs : 200 ≤ r.statusCode ∧ r.statusCode ≤ 299
    · rw [raiseForStatus_of hs]
      simp only [bearsAuth, Sent.isTransport, hs, and_self, decide_true, Bool.true_and, HttpResponse.json, bind,
        Except.bind]
      cases r.body with
      | json value =>
        cases value with
        | obj fields =>
          simp only [Json.item, isTooDeep, Bool.false_or]
          cases fields.lookup "auth".toList with
          | none => rfl
          | some auth => exact fallsThrough_tokenOutcome auth
        | _ => rfl
      | invalid error => rfl
      | tooDeep text => rfl
    · rw [raiseForStatus_of_not hs]
      simp [bearsAuth, hs, fallsThrough, Sent.isTransport, bind, Except.bind, VaultException.isTransport,
        VaultException.isCaught]
  | _ => rfl

/-! ### One call -/

section

variable {client : VaultClient} {w : World}

theorem tryRenewal_cases (client : VaultClient) (dv : DecodedValues) (t : TokenState) (hw : w.held .request = false) :
    ∃ g o u, Tries client (client.renewalRequest t) g o ∧ w.Exchanged [g] u ∧
      (client.tryRenewal dv t).run World.step w =
        if fallsThrough (authOutcome o) then some (.ok false, { u with tokens := { u.tokens with token := none } })
        else some (renewalEnd (authOutcome o), u) := by
  obtain ⟨g, o, u, hu, htries, hx⟩ := authRequest_run client dv (client.renewalRequest t) hw
  have hrun := Program.run_bind_of (fun _ => (pure true : Coroutine Bool)) hu
  refine ⟨g, o, u, htries, hx, ?_⟩
  cases ho : authOutcome o with
  | ok _ =>
    rw [ho] at hrun
    exact Program.run_catching_of _ hrun
  | error e =>
    rw [ho] at hrun
    have hcatch : (client.tryRenewal dv t).run World.step w = _ := Program.run_catching_of _ hrun
    rw [hcatch, Program.onError_error, fallsThrough, renewalEnd]
    cases htr : e.isTransport with
    | true => rfl
    | false =>
      cases hc : e.isCaught with
      | true => rfl
      | false => rfl

theorem login_credentialed (client : VaultClient) (dv : DecodedValues) (hcred : Credentialed client)
    (hw : w.held .request = false) :
    ∃ t g o r u, (client.login dv).run World.step w = some (r, u) ∧ Tries client (client.loginRequest t) g o ∧
      w.Exchanged [g] u ∧ (authOutcome o = .ok () → r = .ok ()) := by
  have hconfigured : (client.roleId.isEmpty || client.secretId.isEmpty) = false := by
    rw [Bool.or_eq_false_iff, List.isEmpty_eq_false_iff, List.isEmpty_eq_false_iff]
    exact ⟨hcred.roleId, hcred.secretId⟩
  obtain ⟨g, o, u, hrun, htries, hx⟩ := login_sends client dv hconfigured hw
  refine ⟨w.tokens, g, o, _, u, hrun, htries, hx, fun hok => ?_⟩
  rw [hok]
  rfl

/-- With a token that is no longer valid and may be renewed, the call is its renewal,
and after one that falls through its login. -/
theorem tokenSteps_renewing (client : VaultClient) (dv : DecodedValues) (hw : w.held .request = false) (he : Expired w) :
    ∃ g o u, Tries client (client.renewalRequest w.tokens) g o ∧ w.Exchanged [g] u ∧
      (client.tokenSteps dv).run World.step w =
        if fallsThrough (authOutcome o) then
          (client.login dv).run World.step { u with tokens := { u.tokens with token := none } }
        else some ((renewalEnd (authOutcome o)).map fun _ => (), u) := by
  obtain ⟨v, hvalid, hxv, htv⟩ := isValid_eq w
  rw [decide_eq_false (not_lt.mpr he.expired), Bool.and_false] at hvalid
  have hsteps : (client.tokenSteps dv).run World.step w = _ := Program.run_bind_of _ hvalid
  obtain ⟨g, o, u, htries, hx, hrenewal⟩ := tryRenewal_cases client dv (w := v) v.tokens (by rw [hxv.held_eq, hw])
  have hrenew := renew_eq client dv v
  rw [htv, he.present, he.renewable, ← htv] at hrenew
  rw [htv] at htries
  refine ⟨g, o, u, htries, by simpa using hxv.trans hx, ?_⟩
  cases hf : fallsThrough (authOutcome o) with
  | true =>
    rw [hf, if_pos rfl] at hrenewal
    exact hsteps.trans (Program.run_bind_of _ (hrenew.trans hrenewal))
  | false =>
    rw [hf, if_neg Bool.false_ne_true] at hrenewal
    refine (hsteps.trans (Program.run_bind_of _ (hrenew.trans hrenewal))).trans ?_
    cases authOutcome o with
    | ok _ => rfl
    | error e => rfl

theorem ensureToken_eq (client : VaultClient) (dv : DecodedValues) (hw : w.held = fun _ => false) :
    (client.ensureToken dv).run World.step w =
      ((client.tokenSteps dv).run World.step (w.acquired .token)).bind fun q =>
        some (q.1, { q.2 with held := Function.update q.2.held .token false }) := by
  have ha : World.step w (.acquire .token) = some ((), w.acquired .token) := by simp [World.step, hw]
  rw [VaultClient.ensureToken, Coroutine.withLock, Program.bind_eq, Coroutine.acquire, Program.call_andThen,
    Program.run_perform World.step ha, Program.onValue_ok, Program.run_ensuring]
  rfl

theorem ensuring_login_eq (client : VaultClient) (dv : DecodedValues) (u : World) :
    ((client.login dv).ensuring (.release .token)).run World.step u =
      ((client.login dv).run World.step u).bind fun q =>
        some (q.1, { q.2 with held := Function.update q.2.held .token false }) := by
  rw [Program.run_ensuring]
  rfl

theorem LogsInAfter.two_requests {dv : DecodedValues} {g : Exchange} {u : World} (hcred : Credentialed client)
    (h : LogsInAfter client dv w g u) : ∃ g' r v, (client.ensureToken dv).run World.step w = some (r, v) ∧
      v.requests = w.requests ++ [g, g'] := by
  obtain ⟨t, g', o, r, v, hv, -, hx, -⟩ := login_credentialed client dv hcred h.free
  refine ⟨g', r, { v with held := Function.update v.held .token false }, ?_, ?_⟩
  · rw [h.run_eq, ensuring_login_eq, hv, Option.bind_some]
  · dsimp only
    rw [hx.requests_eq, h.requests_eq, List.append_assoc]
    rfl

/-- The first request of the call is the renewal; the login follows exactly when its
answer is no transport error and has no `auth` member for `_set_token` to refuse. -/
theorem renewing_call (client : VaultClient) (dv : DecodedValues) (hcred : Credentialed client)
    (hw : w.held = fun _ => false) (he : Expired w) :
    ∃ g o gs r v, Tries client (client.renewalRequest w.tokens) g o ∧
      (client.ensureToken dv).run World.step w = some (r, v) ∧ v.requests = w.requests ++ g :: gs ∧
      ((∃ u, LogsInAfter client dv w g u) ↔ o.isTransport = false ∧ bearsAuth o = false) := by
  have hfree : (w.acquired .token).held .request = false := by simp [World.acquired, hw]
  have hstart : (w.acquired .token).requests = w.requests := rfl
  obtain ⟨g, o, u, htries, hx, hsteps⟩ := tokenSteps_renewing client dv hfree
    (w := w.acquired .token) ⟨he.present, he.renewable, he.expired⟩
  have hcall := ensureToken_eq client dv hw
  have hrequests : u.requests = w.requests ++ [g] := by rw [hx.requests_eq, hstart]
  have hu : u.held .request = false := by rw [hx.held_eq, hfree]
  have hfalls := fallsThrough_authOutcome o
  cases hf : fallsThrough (authOutcome o) with
  | true =>
    rw [hf, if_pos rfl] at hsteps
    have hlogs : LogsInAfter client dv w g { u with tokens := { u.tokens with token := none } } :=
      ⟨rfl, hrequests, hu, by rw [hcall, hsteps, ensuring_login_eq]⟩
    obtain ⟨g', r, v, hrun, hv⟩ := hlogs.two_requests hcred
    refine ⟨g, o, [g'], r, v, htries, hrun, hv, fun _ => ?_, fun _ => ⟨_, hlogs⟩⟩
    rw [hf] at hfalls
    simpa using hfalls.symm
  | false =>
    rw [hf, if_neg Bool.false_ne_true] at hsteps
    rw [hsteps, Option.bind_some] at hcall
    refine ⟨g, o, [], _, _, htries, hcall, hrequests, ?_, ?_⟩
    · intro hlogs
      obtain ⟨u', hlogs⟩ := hlogs
      obtain ⟨g', r, v, hrun, hv⟩ := hlogs.two_requests hcred
      rw [hcall] at hrun
      obtain ⟨-, rfl⟩ := Prod.mk.inj (Option.some.inj hrun)
      have hlen := congrArg List.length (hrequests.symm.trans hv)
      simp only [List.length_append, List.length_cons, List.length_nil] at hlen
      omega
    · intro hend
      rw [hf, hend.1, hend.2] at hfalls
      cases hfalls

/-! ### Calls one after the other -/

def grants (o : Sent) : Bool := (authOutcome o).isOk

/-- A renewal gets a token or falls through, and a login gets one. -/
def granted (client : VaultClient) (s : VaultRequest × Sent) : Bool :=
  if client.isRenewal s.1 then grants s.2 || (!s.2.isTransport && !bearsAuth s.2)
  else if client.isLogin s.1 then grants s.2
  else true

def allGranted (client : VaultClient) (gs : List Exchange) : Bool := gs.all fun g => g.getLast?.all (granted client)

/-- The last request is a read, and the call ends as the answer to it says. -/
def EndsWithRead (dv : DecodedValues) (gs : List Exchange) (r : Except VaultException VaultProject) : Prop :=
  ∃ request o, gs.getLast?.bind List.getLast? = some (request, o) ∧ VaultClient.isRead request = true ∧
    r = (answer o >>= readProject dv).mapError VaultClient.lookupError

/-- Calls of `project` one after the other, with the logical requests and the end of each. -/
inductive Calls (client : VaultClient) (dv : DecodedValues) :
    World → List (List Exchange × Except VaultException VaultProject) → World → Prop
  | nil (w : World) : Calls client dv w [] w
  | cons {w u v : World} {repository : Text} {gs : List Exchange} {r : Except VaultException VaultProject}
      {rest : List (List Exchange × Except VaultException VaultProject)} : isRepository repository = true →
      (client.project dv repository).run World.step w = some (r, u) → u.requests = w.requests ++ gs →
      Calls client dv u rest v → Calls client dv w ((gs, r) :: rest) v

theorem grants_iff {o : Sent} : grants o = true ↔ authOutcome o = .ok () := by
  unfold grants
  cases authOutcome o with
  | ok _ => exact ⟨fun _ => rfl, fun _ => rfl⟩
  | error e => exact ⟨nofun, nofun⟩

theorem allGranted_append {gs hs : List Exchange} :
    allGranted client (gs ++ hs) = true ↔ allGranted client gs = true ∧ allGranted client hs = true := by
  rw [allGranted, List.all_append, Bool.and_eq_true]
  rfl

theorem granted_of_tries {request : VaultRequest} {g : Exchange} {o : Sent} (h : allGranted client [g] = true)
    (htries : Tries client request g o) : granted client (request, o) = true := by
  have hlast := List.all_eq_true.mp h g (List.mem_singleton_self g)
  rw [htries.getLast] at hlast
  exact hlast

theorem granted_renewal {t : TokenState} {o : Sent} (h : granted client (client.renewalRequest t, o) = true) :
    authOutcome o = .ok () ∨ (o.isTransport = false ∧ bearsAuth o = false) := by
  have hrenewal : client.isRenewal (client.renewalRequest t) = true := by
    simp [VaultClient.isRenewal, VaultClient.renewalRequest]
  rw [granted, if_pos hrenewal, Bool.or_eq_true, grants_iff] at h
  simpa using h

theorem granted_login {t : TokenState} {o : Sent} (h : granted client (client.loginRequest t, o) = true) :
    authOutcome o = .ok () := by
  have hrenewal : ¬ client.isRenewal (client.loginRequest t) = true := by
    simp [VaultClient.isRenewal, VaultClient.loginRequest, (renewalUrl_ne_loginUrl client).symm]
  have hlogin : client.isLogin (client.loginRequest t) = true := by
    simp [VaultClient.isLogin, VaultClient.loginRequest]
  rw [granted, if_neg hrenewal, if_pos hlogin, grants_iff] at h
  exact h

theorem login_granted (dv : DecodedValues) (hcred : Credentialed client) (hw : w.held .request = false) :
    ∃ gs r u, (client.login dv).run World.step w = some (r, u) ∧ w.Exchanged gs u ∧
      (allGranted client gs = true → r = .ok ()) := by
  obtain ⟨t, g, o, r, u, hrun, htries, hx, hok⟩ := login_credentialed client dv hcred hw
  exact ⟨[g], r, u, hrun, hx, fun hgranted => hok (granted_login (granted_of_tries hgranted htries))⟩

theorem tokenSteps_granted (dv : DecodedValues) (hcred : Credentialed client) (hw : w.held .request = false) :
    ∃ gs r u, (client.tokenSteps dv).run World.step w = some (r, u) ∧ w.Exchanged gs u ∧
      (allGranted client gs = true → r = .ok ()) := by
  by_cases he : Expired w
  · obtain ⟨g, o, u, htries, hx, hsteps⟩ := tokenSteps_renewing client dv hw he
    have hfalls := fallsThrough_authOutcome o
    cases hf : fallsThrough (authOutcome o) with
    | true =>
      rw [hf, if_pos rfl] at hsteps
      obtain ⟨hs, r, v, hrun, hy, hok⟩ := login_granted
        (w := { u with tokens := { u.tokens with token := none } }) dv hcred (by rw [← hw, ← hx.held_eq])
      refine ⟨[g] ++ hs, r, v, hsteps.trans hrun, hx.trans ⟨hy.requests_eq, hy.held_eq⟩, ?_⟩
      exact fun hgranted => hok (allGranted_append.mp hgranted).2
    | false =>
      rw [hf, if_neg Bool.false_ne_true] at hsteps
      refine ⟨[g], _, u, hsteps, hx, fun hgranted => ?_⟩
      rcases granted_renewal (granted_of_tries hgranted htries) with hok | ⟨htransport, hbears⟩
      · rw [hok]
        rfl
      · rw [hf, htransport, hbears] at hfalls
        cases hfalls
  · obtain ⟨v, hvalid, hxv, htv⟩ := isValid_eq w
    have hsteps : (client.tokenSteps dv).run World.step w = _ := Program.run_bind_of _ hvalid
    cases hb : w.tokens.present && decide (w.clock w.readings < w.tokens.expiresAt - 30 * 1000000000) with
    | true =>
      rw [hb] at hsteps
      exact ⟨[], .ok (), v, hsteps, hxv, fun _ => rfl⟩
    | false =>
      rw [hb] at hsteps
      -- a token that is not valid is not renewed, or it would be expired
      have hskip : (w.tokens.present && w.tokens.renewable) = false := by
        by_contra hrenewable
        obtain ⟨hp, hr⟩ := Bool.and_eq_true_iff.mp (eq_true_of_ne_false hrenewable)
        rw [hp, Bool.true_and] at hb
        exact he ⟨hp, hr, not_lt.mp (of_decide_eq_false hb)⟩
      have hrenew := renew_eq client dv v
      rw [htv, hskip] at hrenew
      obtain ⟨hs, r, u, hrun, hy, hok⟩ := login_granted (w := v) dv hcred (by rw [hxv.held_eq, hw])
      have hlogin := hsteps.trans (Program.run_bind_of (r := .ok false) (t := v) _ hrenew)
      exact ⟨hs, r, u, hlogin.trans hrun, by simpa using hxv.trans hy, hok⟩

theorem ensureToken_granted (dv : DecodedValues) (hcred : Credentialed client) (hw : w.held = fun _ => false) :
    ∃ gs r u, (client.ensureToken dv).run World.step w = some (r, u) ∧ w.Exchanged gs u ∧
      (allGranted client gs = true → r = .ok ()) := by
  have hfree : (w.acquired .token).held .request = false := by simp [World.acquired, hw]
  obtain ⟨gs, r, v, hv, hx, hok⟩ := tokenSteps_granted dv hcred hfree
  refine ⟨gs, r, _, withLock_run (by rw [hw]) hv, ⟨?_, ?_⟩, hok⟩
  · simpa [World.acquired] using hx.requests_eq
  · rw [hx.held_eq, World.acquired, Function.update_idem, hw]
    exact Function.update_eq_self _ _

theorem lookup_granted (dv : DecodedValues) (url : Text) (hcred : Credentialed client)
    (hw : w.held = fun _ => false) :
    ∃ gs r u, (client.lookup dv url).run World.step w = some (r, u) ∧ w.Exchanged gs u ∧ gs ≠ [] ∧
      (allGranted client gs = true → ∃ request o, gs.getLast?.bind List.getLast? = some (request, o) ∧
        VaultClient.isRead request = true ∧ r = answer o >>= readProject dv) := by
  obtain ⟨g, o, u, hu, htries, hx⟩ := read_run client url hw
  have hread : (client.lookup dv url).run World.step w = _ := Program.run_bind_of _ hu
  have hlast {r : Except VaultException VaultProject} (hr : r = answer o >>= readProject dv) :
      ∃ request o, [g].getLast?.bind List.getLast? = some (request, o) ∧ VaultClient.isRead request = true ∧
        r = answer o >>= readProject dv :=
    ⟨_, o, htries.getLast, rfl, hr⟩
  cases o with
  | transport error text => exact ⟨[g], _, u, hread, hx, by simp, fun _ => hlast rfl⟩
  | http error => exact ⟨[g], _, u, hread, hx, by simp, fun _ => hlast rfl⟩
  | unsent error => exact ⟨[g], _, u, hread, hx, by simp, fun _ => hlast rfl⟩
  | response answered =>
    cases hr : VaultClient.isUnauthorized answered with
    | false =>
      simp only [answer, Program.onValue_ok, hr, Bool.false_eq_true, if_false] at hread
      exact ⟨[g], _, u, hread.trans (Program.run_ofExcept ..), hx, by simp, fun _ => hlast rfl⟩
    | true =>
      simp only [answer, Program.onValue_ok, hr, if_true] at hread
      let dropped : World := { u with tokens := { u.tokens with token := none, expiresAt := 0 } }
      have hdrop : (client.lookup dv url).run World.step w = (client.ensureToken dv >>= fun _ =>
        client.read url >>= fun r => .ofExcept (readProject dv r)).run World.step dropped := hread
      obtain ⟨gs, e, v, hv, hy, hok⟩ := ensureToken_granted (w := dropped) dv hcred
        (hx.held_eq.trans hw)
      have hz : w.Exchanged ([g] ++ gs) v := hx.trans ⟨hy.requests_eq, hy.held_eq⟩
      have hensure := hdrop.trans (Program.run_bind_of _ hv)
      cases e with
      | error e =>
        refine ⟨[g] ++ gs, .error e, v, hensure, hz, by simp, fun hgranted => ?_⟩
        cases hok (allGranted_append.mp hgranted).2
      | ok _ =>
        obtain ⟨g', o', v', hv', htries', hx'⟩ := read_run client (w := v) url (hz.held_eq.trans hw)
        refine ⟨[g] ++ gs ++ [g'], answer o' >>= readProject dv, v', ?_, hz.trans hx', by simp, fun _ => ?_⟩
        · rw [hensure, Program.onValue_ok, Program.run_bind_of _ hv']
          cases answer o' with
          | error e => rfl
          | ok r => exact Program.run_ofExcept ..
        · refine ⟨client.readRequest v.tokens url, o', ?_, rfl, rfl⟩
          rw [List.getLast?_concat]
          exact htries'.getLast

theorem project_granted (dv : DecodedValues) {repository : Text} (hr : isRepository repository = true)
    (hcred : Credentialed client) (hw : w.held = fun _ => false) :
    ∃ gs r u, (client.project dv repository).run World.step w = some (r, u) ∧ w.Exchanged gs u ∧
      (allGranted client gs = true → EndsWithRead dv gs r) := by
  obtain ⟨gs, e, u, hu, hx, hok⟩ := ensureToken_granted dv hcred hw
  have hensure : (client.project dv repository).run World.step w = _ := Program.run_bind_of _ hu
  cases e with
  | error e =>
    refine ⟨gs, .error e, u, hensure, hx, fun hgranted => ?_⟩
    cases hok hgranted
  | ok _ =>
    rw [Program.onValue_ok] at hensure
    obtain ⟨names, hc⟩ : ∃ names, cut '/' repository = some names := by
      rw [isRepository] at hr
      cases hc : cut '/' repository with
      | none =>
        rw [hc] at hr
        cases hr
      | some names => exact ⟨names, rfl⟩
    rw [hc] at hensure
    obtain ⟨hs, r, v, hv, hy, hne, hlast⟩ := lookup_granted (w := u) dv
      (client.projectUrl names.1 names.2) hcred (hx.held_eq.trans hw)
    have hcatch := hensure.trans (Program.run_catching_of _ hv)
    refine ⟨gs ++ hs, r.mapError VaultClient.lookupError, v, ?_, hx.trans hy, fun hgranted => ?_⟩
    · rw [hcatch]
      cases r with
      | ok p => rfl
      | error e => rfl
    · obtain ⟨request, o, hsend, hread, hend⟩ := hlast (allGranted_append.mp hgranted).2
      refine ⟨request, o, ?_, hread, by rw [hend]⟩
      rw [List.getLast?_append_of_ne_nil _ hne]
      exact hsend

theorem calls_granted {dv : DecodedValues} {calls : List (List Exchange × Except VaultException VaultProject)}
    {v : World} (hcred : Credentialed client) (hw : w.held = fun _ => false) (h : Calls client dv w calls v)
    (hgranted : ∀ call ∈ calls, allGranted client call.1 = true) : ∀ call ∈ calls, EndsWithRead dv call.1 call.2 := by
  induction h with
  | nil w => exact nofun
  | @cons w u v repository gs r rest hr hrun hgs hrest ih =>
    obtain ⟨hs, r', u', hrun', hx, hend⟩ := project_granted dv hr hcred hw
    obtain ⟨rfl, rfl⟩ := Prod.mk.inj (Option.some.inj (hrun.symm.trans hrun'))
    obtain rfl := List.append_cancel_left (hgs.symm.trans hx.requests_eq)
    intro call hcall
    rcases List.mem_cons.mp hcall with rfl | hcall
    · exact hend (hgranted _ (List.mem_cons_self ..))
    · exact ih (hx.held_eq.trans hw) (fun call hcall => hgranted call (List.mem_cons_of_mem _ hcall)) call hcall

/-! ### Renewals and logins -/

/-- From any state with an expired renewable token the call renews, and logs in exactly
when the answer is no transport error and not one that bears an `auth` member; and in
any run of calls whose renewals all do so, or get a token, no call fails for want of a
token as long as logins are accepted. -/
theorem renewal_falls_through_iff (client : VaultClient) (dv : DecodedValues) (hcred : Credentialed client) :
    (∀ w : World, (w.held = fun _ => false) → Expired w →
      ∃ g o gs r v, Tries client (client.renewalRequest w.tokens) g o ∧
        (client.ensureToken dv).run World.step w = some (r, v) ∧ v.requests = w.requests ++ g :: gs ∧
        (o.isTransport = false → ((∃ u, LogsInAfter client dv w g u) ↔ bearsAuth o = false)) ∧
        (o.isTransport = true → ¬ ∃ u, LogsInAfter client dv w g u)) ∧
    ∀ (w v : World) (calls : List (List Exchange × Except VaultException VaultProject)),
      (w.held = fun _ => false) → Calls client dv w calls v → (∀ call ∈ calls, allGranted client call.1 = true) →
      ∀ call ∈ calls, EndsWithRead dv call.1 call.2 := by
  constructor
  · intro w hw he
    obtain ⟨g, o, gs, r, v, htries, hrun, hv, hlogs⟩ := renewing_call client dv hcred hw he
    refine ⟨g, o, gs, r, v, htries, hrun, hv, ?_, ?_⟩
    · intro ho
      rw [hlogs, ho]
      exact and_iff_right rfl
    · intro ho hin
      rw [hlogs, ho] at hin
      cases hin.1
  · intro w v calls hw hcalls hgranted
    exact calls_granted hcred hw hcalls hgranted

theorem exampleVault_credentialed : Credentialed exampleVault := ⟨by decide, by decide⟩

def expiredTokens : TokenState := ⟨some "old".toList, 0, true⟩

def refusedRenewal : ℕ → Sent
  | 0 => .response ⟨403, [], .json .null⟩
  | 1 => loginResponse
  | _ => recordResponse (.ofFields [("schema_version", .int 1), ("enabled", .bool true)])

def refusedWorld : World := World.alone expiredTokens refusedRenewal fun _ => 0

theorem refusedWorld_expired : Expired refusedWorld := ⟨rfl, rfl, by decide⟩

theorem renewal_falls_through_example :
    (∃ g u, LogsInAfter exampleVault exampleValues refusedWorld g u) ∧
    ∃ v calls, Calls exampleVault exampleValues refusedWorld calls v ∧ calls.length = 1 ∧
      ∀ call ∈ calls, EndsWithRead exampleValues call.1 call.2 := by
  obtain ⟨hcall, hruns⟩ := renewal_falls_through_iff exampleVault exampleValues exampleVault_credentialed
  constructor
  · obtain ⟨g, o, gs, r, v, htries, hrun, hv, hlogs, -⟩ := hcall refusedWorld rfl refusedWorld_expired
    have hanswer : ((exampleVault.ensureToken exampleValues).run World.step refusedWorld).map (fun p =>
        (p.2.requests.head?.bind List.getLast?).map fun s => (s.2.isTransport, bearsAuth s.2)) =
        some (some (false, false)) := by decide +kernel
    have hfirst : v.requests.head? = some g := by rw [hv]; rfl
    rw [hrun, Option.map_some, hfirst, Option.bind_some, htries.getLast, Option.map_some] at hanswer
    obtain ⟨htransport, hbears⟩ := Prod.mk.inj (Option.some.inj (Option.some.inj hanswer))
    exact ⟨g, (hlogs htransport).mpr hbears⟩
  · obtain ⟨gs, r, u, hrun, -, hx⟩ := project_run exampleVault exampleValues "canonical/example".toList
      (w := refusedWorld) rfl
    have hgranted : ((exampleVault.project exampleValues "canonical/example".toList).run World.step
        refusedWorld).map (fun p => allGranted exampleVault p.2.requests) = some true := by decide +kernel
    rw [hrun, Option.map_some, hx.requests_eq] at hgranted
    have hcalls := Calls.cons (by decide) hrun hx.requests_eq (.nil u)
    refine ⟨u, [(gs, r)], hcalls, rfl, hruns _ _ _ rfl hcalls ?_⟩
    intro call hcall
    obtain rfl := List.mem_singleton.mp hcall
    exact Option.some.inj hgranted

/-- Every renewal is answered with an `auth` member that holds no token. -/
def emptyAuth : ℕ → Sent := fun _ => okResponse (.ofFields [("auth", .ofFields [])])

/-- Such a renewal ends the call with the old token in place. -/
theorem empty_auth_blocks_login : ¬ ∀ (client : VaultClient) (dv : DecodedValues) (w : World), Credentialed client →
    (w.held = fun _ => false) → Expired w →
    ∀ g o gs r v, Tries client (client.renewalRequest w.tokens) g o →
      (client.ensureToken dv).run World.step w = some (r, v) → v.requests = w.requests ++ g :: gs →
      o.isTransport = false → grants o = false → ∃ u, LogsInAfter client dv w g u := by
  intro all
  have hlogs := all exampleVault exampleValues (World.alone expiredTokens emptyAuth fun _ => 0)
    exampleVault_credentialed rfl ⟨rfl, rfl, by decide⟩ _ _ [] _ _ .once rfl rfl rfl rfl
  obtain ⟨u, hlogs⟩ := hlogs
  obtain ⟨g', r, v, hrun, hv⟩ := hlogs.two_requests exampleVault_credentialed
  have hasked : ((exampleVault.ensureToken exampleValues).run World.step
      (World.alone expiredTokens emptyAuth fun _ => 0)).map (fun p => p.2.requests.length) = some 1 := by
    decide +kernel
  rw [hrun, Option.map_some, hv] at hasked
  cases hasked

end

end DemoController
