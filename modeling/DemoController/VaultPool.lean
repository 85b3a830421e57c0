import DemoController.Lib.EventRun
import DemoController.Vault
import Mathlib.Logic.Function.Basic

/-!
# Replacing the HTTP client under concurrent calls

Any number of `project` calls run on one `VaultClient`. A call runs until it
waits: for a lock, for the end of a request, for the end of closing a client, or
for a while. Then any other call may go on. A call that could take a free lock
at once may wait here too, so that the runs include those of the event loop.
-/

namespace DemoController

open Lib

inductive ClientStatus where
  | opened
  | closing
  | closed
  deriving DecidableEq

/-- What the calls share: `clients` holds the HTTP clients in the order they were
created, `current` the position of `self.client`. -/
structure Shared where
  tokens : TokenState
  holder : Lock → Option ℕ
  clients : List ClientStatus
  current : ℕ
  readings : ℕ

/-- Where a call waits. A request in flight keeps the client it was sent on. -/
inductive Caller where
  | waiting (lock : Lock) (rest : Coroutine VaultProject)
  | sending (request : VaultRequest) (client : ℕ) (next : Sent → Coroutine VaultProject)
  | closing (client : ℕ) (rest : Coroutine VaultProject)
  | sleeping (rest : Coroutine VaultProject)
  | finished (result : Except VaultException VaultProject)

structure PoolState where
  shared : Shared
  callers : ℕ → Option Caller

/-- The state after `__init__`, with whatever token an earlier time has left. -/
def PoolState.initial (tokens : TokenState) : PoolState :=
  ⟨⟨tokens, fun _ => none, [.opened], 0, 0⟩, fun _ => none⟩

inductive PoolAction where
  | call (caller : ℕ) (repository : Text)
  | acquired (caller : ℕ)
  | answered (caller : ℕ) (outcome : Sent)
  | closed (caller : ℕ)
  | woken (caller : ℕ)

/-- A call up to the place where it waits next. -/
def advance (clock : ℕ → ℤ) : Coroutine VaultProject → Shared → Shared × Caller
  | .done project, s => (s, .finished (.ok project))
  | .raise e, s => (s, .finished (.error e))
  | .perform (.acquire lock) next, s => (s, .waiting lock (next ()))
  | .perform (.release lock) next, s =>
    advance clock (next ()) { s with holder := Function.update s.holder lock none }
  | .perform (.send request) next, s => (s, .sending request s.current next)
  | .perform .replaceClient next, s =>
    advance clock (next s.current) { s with clients := s.clients ++ [.opened], current := s.clients.length }
  | .perform (.closeClient client) next, s =>
    ({ s with clients := s.clients.set client .closing }, .closing client (next ()))
  | .perform .sleep next, s => (s, .sleeping (next ()))
  | .perform .tokens next, s => advance clock (next s.tokens) s
  | .perform (.setTokens tokens) next, s => advance clock (next ()) { s with tokens := tokens }
  | .perform .monotonic next, s =>
    advance clock (next (clock s.readings)) { s with readings := s.readings + 1 }

def Sent.transportErrors : Sent → List TransportError
  | .transport error _ => [error]
  | _ => []

namespace PoolState

variable (client : VaultClient) (dv : DecodedValues) (clock : ℕ → ℤ)

def resume (s : PoolState) (caller : ℕ) (program : Coroutine VaultProject) (shared : Shared) : PoolState :=
  let r := advance clock program shared
  ⟨r.1, Function.update s.callers caller (some r.2)⟩

/-- One step of the event loop; the events are the transport errors met. -/
def step (s : PoolState) : PoolAction → Option (PoolState × List TransportError)
  | .call caller repository =>
    match s.callers caller with
    | none => some (s.resume clock caller (client.project dv repository) s.shared, [])
    | some _ => none
  | .acquired caller =>
    match s.callers caller with
    | some (.waiting lock rest) =>
      if s.shared.holder lock = none then
        some (s.resume clock caller rest
          { s.shared with holder := Function.update s.shared.holder lock (some caller) }, [])
      else none
    | _ => none
  | .answered caller outcome =>
    match s.callers caller with
    | some (.sending _ _ next) => some (s.resume clock caller (next outcome) s.shared, outcome.transportErrors)
    | _ => none
  | .closed caller =>
    match s.callers caller with
    | some (.closing client rest) =>
      some (s.resume clock caller rest { s.shared with clients := s.shared.clients.set client .closed }, [])
    | _ => none
  | .woken caller =>
    match s.callers caller with
    | some (.sleeping rest) => some (s.resume clock caller rest s.shared, [])
    | _ => none

end PoolState

/-! ### What the coroutines do with the request lock and the client -/

/-- Where a call is: `failed` after a transport error of an owned client, `replaced`
before the previous client is closed. Both are left before the call waits again. -/
inductive Phase where
  | outside
  | inside
  | failed
  | replaced (previous : ℕ)
  deriving DecidableEq

def Phase.allows : Phase → VaultOp → Prop
  | .outside, .acquire _ => True
  | .outside, .release lock => lock = .token
  | .outside, .tokens => True
  | .outside, .setTokens _ => True
  | .outside, .monotonic => True
  | .inside, .release lock => lock = .request
  | .inside, .send _ => True
  | .inside, .sleep => True
  | .failed, .replaceClient => True
  | .replaced previous, .closeClient client => client = previous
  | _, _ => False

theorem Phase.allows_unique {x y : Phase} {op : VaultOp} (hx : x.allows op) (hy : y.allows op)
    (hop : ∀ lock, op ≠ .release lock) : x = y := by
  cases op with
  | release lock => exact absurd rfl (hop lock)
  | closeClient client =>
    cases x with
    | replaced previous =>
      cases y with
      | replaced previous' => rw [← show client = previous from hx, ← show client = previous' from hy]
      | _ => cases hy
    | _ => cases hx
  | _ => cases x <;> cases y <;> first | rfl | exact False.elim hx | exact False.elim hy

def Phase.next (owned : Bool) (x : Phase) : (op : VaultOp) → op.Result → Phase
  | .acquire .request, _ => .inside
  | .release .request, _ => .outside
  | .send _, .transport _ _ => if owned then .failed else .inside
  | .replaceClient, previous => .replaced previous
  | .closeClient _, _ => .inside
  | _, _ => x

def poolProtocol (owned : Bool) : Program.Protocol VaultOp VaultOp.Result Phase := ⟨Phase.allows, Phase.next owned⟩

/-- From a phase on the program keeps to the protocol and ends in another one. -/
def KeepsPool {α : Type} (owned : Bool) (x y : Phase) (p : Coroutine α) : Prop :=
  Program.Follows (poolProtocol owned) (fun z _ => z = y) x p

namespace KeepsPool

variable {owned : Bool} {α β : Type} {x y z : Phase}

theorem ofExcept (r : Except VaultException α) : KeepsPool owned x x (.ofExcept r : Coroutine α) :=
  Program.Follows.ofExcept rfl

theorem andThen {p : Coroutine α} {k : Except VaultException α → Coroutine β} (h : KeepsPool owned x y p)
    (hk : ∀ r, KeepsPool owned y z (k r)) : KeepsPool owned x z (p.andThen k) :=
  Program.Follows.andThen h fun _ r hy => hy ▸ hk r

theorem bind {p : Coroutine α} {f : α → Coroutine β} (h : KeepsPool owned x y p)
    (hf : ∀ a, KeepsPool owned y y (f a)) :
    KeepsPool owned x y (p >>= f) :=
  h.andThen fun r => by
    cases r with
    | ok a => exact hf a
    | error e => exact rfl

theorem catching {p : Coroutine α} {handler : VaultException → Coroutine α} (h : KeepsPool owned x y p)
    (hh : ∀ e, KeepsPool owned y y (handler e)) : KeepsPool owned x y (p.catching handler) :=
  h.andThen fun r => by
    cases r with
    | ok a => exact rfl
    | error e => exact hh e

theorem withRequestLock {body : Coroutine α} (h : KeepsPool owned .inside .inside body) :
    KeepsPool owned .outside .outside (Coroutine.withLock .request body) :=
  ⟨trivial, fun _ => h.andThen fun r => ⟨rfl, fun _ => ofExcept r⟩⟩

theorem withTokenLock {body : Coroutine α} (h : KeepsPool owned .outside .outside body) :
    KeepsPool owned .outside .outside (Coroutine.withLock .token body) :=
  ⟨trivial, fun _ => h.andThen fun r => ⟨rfl, fun _ => ofExcept r⟩⟩

end KeepsPool

section

variable {client : VaultClient} {dv : DecodedValues}

/-- The loop of `_request` replaces the client after every transport error, and after
nothing else, and closes the one it has replaced. -/
theorem attempts_keeps (request : VaultRequest) (tries : List ℕ) :
    KeepsPool client.ownsClient .inside .inside (client.attempts request tries) := by
  induction tries with
  | nil => exact rfl
  | cons attempt rest ih =>
    refine ⟨trivial, fun o => ?_⟩
    cases o with
    | response r => exact rfl
    | http error => exact rfl
    | unsent error => exact rfl
    | transport error text =>
      show KeepsPool _ (if client.ownsClient then .failed else .inside) _ _
      cases ho : client.ownsClient with
      | false => exact rfl
      | true =>
        -- the previous client is the one that is closed
        refine ⟨trivial, fun previous => ⟨rfl, fun _ => ?_⟩⟩
        show KeepsPool true .inside .inside (if attempt ≠ 0 || !error.isPreSend then
          throw (.transport error text) else do
            Coroutine.sleep
            client.attempts request rest)
        rw [ho] at ih
        split
        · exact rfl
        · exact ⟨trivial, fun _ => ih⟩

theorem request_keeps (request : VaultRequest) :
    KeepsPool client.ownsClient .outside .outside (client.request request) :=
  .withRequestLock (attempts_keeps request _)

theorem tokens_keeps {owned : Bool} : KeepsPool owned .outside .outside Coroutine.tokens := ⟨trivial, fun _ => rfl⟩

theorem setTokens_keeps {owned : Bool} (t : TokenState) : KeepsPool owned .outside .outside (Coroutine.setTokens t) :=
  ⟨trivial, fun _ => rfl⟩

theorem monotonic_keeps {owned : Bool} : KeepsPool owned .outside .outside Coroutine.monotonic :=
  ⟨trivial, fun _ => rfl⟩

theorem setToken_keeps (auth : Json) :
    KeepsPool client.ownsClient .outside .outside (VaultClient.setToken dv auth) := by
  refine (KeepsPool.ofExcept _).bind fun read => ?_
  refine tokens_keeps.bind fun t => (setTokens_keeps _).bind fun _ => monotonic_keeps.bind fun now => ?_
  cases addLease now read.2.1 with
  | none => exact rfl
  | some expiresAt => exact tokens_keeps.bind fun t => setTokens_keeps _

theorem authenticate_keeps (r : HttpResponse) :
    KeepsPool client.ownsClient .outside .outside (VaultClient.authenticate dv r) :=
  (KeepsPool.ofExcept _).bind fun _ => (KeepsPool.ofExcept _).bind fun _ => (KeepsPool.ofExcept _).bind setToken_keeps

theorem isValid_keeps : KeepsPool client.ownsClient .outside .outside VaultClient.isValid := by
  refine tokens_keeps.bind fun t => ?_
  split
  · exact monotonic_keeps.bind fun now => rfl
  · exact rfl

theorem renew_keeps : KeepsPool client.ownsClient .outside .outside (client.renew dv) := by
  refine tokens_keeps.bind fun t => ?_
  split
  · refine .catching (.bind ((request_keeps _).bind authenticate_keeps) fun _ => rfl) fun e => ?_
    split
    · exact rfl
    · split
      · exact tokens_keeps.bind fun t => (setTokens_keeps _).bind fun _ => rfl
      · exact rfl
  · exact rfl

theorem login_keeps : KeepsPool client.ownsClient .outside .outside (client.login dv) := by
  unfold VaultClient.login
  split
  · exact rfl
  · refine .catching (tokens_keeps.bind fun t => (request_keeps _).bind authenticate_keeps) fun e => ?_
    split <;> exact rfl

theorem ensureToken_keeps : KeepsPool client.ownsClient .outside .outside (client.ensureToken dv) := by
  refine .withTokenLock (isValid_keeps.bind fun valid => ?_)
  split
  · exact rfl
  · refine renew_keeps.bind fun renewed => ?_
    split
    · exact rfl
    · exact login_keeps

theorem read_keeps (url : Text) : KeepsPool client.ownsClient .outside .outside (client.read url) :=
  tokens_keeps.bind fun _ => request_keeps _

theorem project_keeps (repository : Text) :
    KeepsPool client.ownsClient .outside .outside (client.project dv repository) := by
  refine ensureToken_keeps.bind fun _ => ?_
  split
  · exact rfl
  · refine .catching ((read_keeps _).bind fun r => ?_) fun e => rfl
    split
    · refine tokens_keeps.bind fun t => (setTokens_keeps _).bind fun _ => ensureToken_keeps.bind fun _ => ?_
      exact (read_keeps _).bind fun _ => .ofExcept _
    · exact .ofExcept _

end

/-! ### The invariant -/

/-- `n + 1` clients, of which the last one is current and open and the first `k` are
not open any more. -/
structure Pool (s : Shared) (n k : ℕ) : Prop where
  length_eq : s.clients.length = n + 1
  current_eq : s.current = n
  opened : s.clients[n]? = some .opened
  left : ∀ c < k, s.clients[c]? ≠ some .opened

def replacements (owned : Bool) (errors : ℕ) : ℕ := if owned then errors else 0

/-- The pool as the phase of the call that goes on has left it. -/
def PoolAt (owned : Bool) (errors : ℕ) (s : Shared) : Phase → Prop
  | .failed => owned = true ∧ ∃ m, errors = m + 1 ∧ Pool s m m
  | .replaced previous => owned = true ∧ errors = previous + 1 ∧ Pool s (previous + 1) previous
  | _ => Pool s (replacements owned errors) (replacements owned errors)

def CallerAt (owned : Bool) (s : Shared) (i : ℕ) : Caller → Prop
  | .waiting lock rest =>
    s.holder .request ≠ some i ∧ KeepsPool owned (Phase.next owned .outside (.acquire lock) ()) .outside rest
  | .sending request client next =>
    s.holder .request = some i ∧ client = s.current ∧
      ∀ o, KeepsPool owned (Phase.next owned .inside (.send request) o) .outside (next o)
  | .closing client rest =>
    s.holder .request = some i ∧ client < s.current ∧ KeepsPool owned .inside .outside rest
  | .sleeping rest => s.holder .request = some i ∧ KeepsPool owned .inside .outside rest
  | .finished _ => s.holder .request ≠ some i

/-- What the other calls do not notice of a call that goes on: none of them gets or
loses the request lock, and the client of one that holds it stays. -/
def Unnoticed (i : ℕ) (s t : Shared) : Prop :=
  ∀ j, j ≠ i → (t.holder .request = some j ↔ s.holder .request = some j) ∧
    (s.holder .request = some j → t.current = s.current)

structure PoolInv (owned : Bool) (s : PoolState) (h : List TransportError) : Prop where
  pool : PoolAt owned h.length s.shared .outside
  callers : ∀ i c, s.callers i = some c → CallerAt owned s.shared i c
  absent : ∀ i, s.callers i = none → s.shared.holder .request ≠ some i

theorem Pool.replaced {s : Shared} {m : ℕ} (h : Pool s m m) :
    Pool { s with clients := s.clients ++ [.opened], current := s.clients.length } (s.current + 1) s.current where
  length_eq := by simp [h.length_eq, h.current_eq]
  current_eq := by simp [h.length_eq, h.current_eq]
  opened := by
    rw [h.current_eq, ← h.length_eq]
    exact List.getElem?_concat_length
  left := fun c hc => by
    rw [h.current_eq] at hc
    rw [List.getElem?_append_left (h.length_eq ▸ Nat.lt_succ_of_lt hc)]
    exact h.left c hc

theorem Pool.closed {s : Shared} {m : ℕ} (h : Pool s (m + 1) m) :
    Pool { s with clients := s.clients.set m .closing } (m + 1) (m + 1) where
  length_eq := by rw [List.length_set, h.length_eq]
  current_eq := h.current_eq
  opened := by rw [List.getElem?_set_ne (Nat.ne_of_lt (Nat.lt_succ_self m)), h.opened]
  left := fun c hc => by
    rcases Nat.lt_succ_iff_lt_or_eq.mp hc with hc | rfl
    · rw [List.getElem?_set_ne (Nat.ne_of_gt hc)]
      exact h.left c hc
    · rw [List.getElem?_set_self (by rw [h.length_eq]; omega)]
      nofun

theorem Unnoticed.refl (i : ℕ) (s : Shared) : Unnoticed i s s := fun _ _ => ⟨Iff.rfl, fun _ => rfl⟩

theorem Unnoticed.trans {i : ℕ} {s t u : Shared} (first : Unnoticed i s t) (second : Unnoticed i t u) :
    Unnoticed i s u := fun j hj =>
  ⟨(second j hj).1.trans (first j hj).1, fun hs =>
    ((second j hj).2 ((first j hj).1.mpr hs)).trans ((first j hj).2 hs)⟩

theorem Unnoticed.of_holder {i : ℕ} {s t : Shared} (hs : s.holder .request = some i)
    (ht : t.holder .request = some i ∨ t.holder .request = none) : Unnoticed i s t := by
  intro j hj
  have hsj : s.holder .request ≠ some j := by
    rw [hs]
    exact fun e => hj (Option.some_inj.mp e).symm
  refine ⟨⟨fun h => ?_, fun h => absurd h hsj⟩, fun h => absurd h hsj⟩
  rcases ht with ht | ht
  · rw [ht] at h
    exact absurd (Option.some_inj.mp h).symm hj
  · rw [ht] at h
    cases h

theorem CallerAt.unnoticed {owned : Bool} {s t : Shared} {i j : ℕ} {c : Caller} (h : CallerAt owned s j c)
    (hj : j ≠ i) (hst : Unnoticed i s t) : CallerAt owned t j c := by
  obtain ⟨hholder, hcurrent⟩ := hst j hj
  cases c with
  | waiting lock rest => exact ⟨fun ht => h.1 (hholder.mp ht), h.2⟩
  | sending request client next => exact ⟨hholder.mpr h.1, h.2.1.trans (hcurrent h.1).symm, h.2.2⟩
  | closing client rest => exact ⟨hholder.mpr h.1, h.2.1.trans_eq (hcurrent h.1).symm, h.2.2⟩
  | sleeping rest => exact ⟨hholder.mpr h.1, h.2⟩
  | finished result => exact fun ht => h (hholder.mp ht)

/-- A call that goes on as it keeps to the protocol leaves the pool sound where it
waits next. -/
theorem advance_spec {owned : Bool} (clock : ℕ → ℤ) {errors i : ℕ} {p : Coroutine VaultProject} {x : Phase}
    {s : Shared} (hk : KeepsPool owned x .outside p) (hp : PoolAt owned errors s x)
    (hi : s.holder .request = some i ↔ x ≠ .outside) :
    PoolAt owned errors (advance clock p s).1 .outside ∧
      CallerAt owned (advance clock p s).1 i (advance clock p s).2 ∧ Unnoticed i s (advance clock p s).1 := by
  induction p generalizing x s with
  | done project =>
    have hx : x = .outside := hk
    subst hx
    exact ⟨hp, fun h => hi.mp h rfl, .refl i s⟩
  | raise e =>
    have hx : x = .outside := hk
    subst hx
    exact ⟨hp, fun h => hi.mp h rfl, .refl i s⟩
  | perform op next ih =>
    obtain ⟨ha, hn⟩ := hk
    cases op with
    | acquire lock =>
      obtain rfl : x = .outside := Phase.allows_unique ha trivial nofun
      exact ⟨hp, ⟨fun h => hi.mp h rfl, hn ()⟩, .refl i s⟩
    | tokens =>
      obtain rfl : x = .outside := Phase.allows_unique ha trivial nofun
      exact ih _ (hn _) hp hi
    | setTokens t =>
      obtain rfl : x = .outside := Phase.allows_unique ha trivial nofun
      exact ih () (hn ()) (s := { s with tokens := t }) ⟨hp.1, hp.2, hp.3, hp.4⟩ hi
    | monotonic =>
      obtain rfl : x = .outside := Phase.allows_unique ha trivial nofun
      exact ih _ (hn _) (s := { s with readings := s.readings + 1 }) ⟨hp.1, hp.2, hp.3, hp.4⟩ hi
    | send request =>
      obtain rfl : x = .inside := Phase.allows_unique ha trivial nofun
      exact ⟨hp, ⟨hi.mpr nofun, rfl, hn⟩, .refl i s⟩
    | sleep =>
      obtain rfl : x = .inside := Phase.allows_unique ha trivial nofun
      exact ⟨hp, ⟨hi.mpr nofun, hn ()⟩, .refl i s⟩
    | release lock =>
      cases x with
      | outside =>
        obtain rfl : lock = .token := ha
        exact ih () (hn ()) (s := { s with holder := Function.update s.holder .token none })
          ⟨hp.1, hp.2, hp.3, hp.4⟩ hi
      | inside =>
        obtain rfl : lock = .request := ha
        have hs := hi.mpr nofun
        have hfree : (Function.update s.holder .request none) .request = none := Function.update_self ..
        have hnot : Function.update s.holder .request none .request ≠ some i := by
          rw [hfree]
          nofun
        obtain ⟨hpool, hcaller, hrest⟩ := ih () (hn ())
          (s := { s with holder := Function.update s.holder .request none }) ⟨hp.1, hp.2, hp.3, hp.4⟩
          ⟨fun h => absurd h hnot, fun h => absurd rfl h⟩
        exact ⟨hpool, hcaller, (Unnoticed.of_holder hs (.inr hfree)).trans hrest⟩
      | failed => cases ha
      | replaced previous => cases ha
    | replaceClient =>
      obtain rfl : x = .failed := Phase.allows_unique ha trivial nofun
      obtain ⟨ho, m, rfl, hpool⟩ := hp
      have hs := hi.mpr nofun
      have hnext := hn s.current
      obtain ⟨hpool', hcaller, hrest⟩ := ih s.current hnext
        (s := { s with clients := s.clients ++ [.opened], current := s.clients.length })
        ⟨ho, congrArg (· + 1) hpool.current_eq.symm, hpool.replaced⟩ ⟨fun _ => nofun, fun _ => hs⟩
      have hself : Unnoticed i s { s with clients := s.clients ++ [.opened], current := s.clients.length } :=
        .of_holder hs (.inl hs)
      exact ⟨hpool', hcaller, hself.trans hrest⟩
    | closeClient client =>
      obtain rfl : x = .replaced client := Phase.allows_unique ha rfl nofun
      obtain ⟨ho, rfl, hpool⟩ := hp
      have hs := hi.mpr nofun
      refine ⟨?_, ⟨hs, ?_, hn ()⟩, .of_holder hs (.inl hs)⟩
      · subst ho
        exact hpool.closed
      · exact hpool.current_eq ▸ Nat.lt_succ_self client

/-! ### Every run -/

theorem resume_self (s : PoolState) (clock : ℕ → ℤ) (i : ℕ) (p : Coroutine VaultProject) (shared : Shared) :
    (s.resume clock i p shared).callers i = some (advance clock p shared).2 :=
  Function.update_self ..

theorem resume_of_ne (s : PoolState) (clock : ℕ → ℤ) {i j : ℕ} (p : Coroutine VaultProject) (shared : Shared)
    (h : j ≠ i) : (s.resume clock i p shared).callers j = s.callers j :=
  Function.update_of_ne h ..

theorem PoolInv.resume {owned : Bool} {s : PoolState} {h k : List TransportError} (inv : PoolInv owned s h)
    (clock : ℕ → ℤ) {i : ℕ} {p : Coroutine VaultProject} {x : Phase} {shared : Shared}
    (hs : Unnoticed i s.shared shared) (hk : KeepsPool owned x .outside p) (hp : PoolAt owned k.length shared x)
    (hi : shared.holder .request = some i ↔ x ≠ .outside) : PoolInv owned (s.resume clock i p shared) k := by
  obtain ⟨hpool, hcaller, hrest⟩ := advance_spec clock hk hp hi
  have hu := hs.trans hrest
  refine ⟨hpool, ?_, ?_⟩
  · intro j c hc
    by_cases hj : j = i
    · subst hj
      rw [resume_self] at hc
      cases hc
      exact hcaller
    · rw [resume_of_ne s clock p shared hj] at hc
      exact (inv.callers j c hc).unnoticed hj hu
  · intro j hc hholder
    by_cases hj : j = i
    · subst hj
      rw [resume_self] at hc
      cases hc
    · rw [resume_of_ne s clock p shared hj] at hc
      exact inv.absent j hc ((hu j hj).1.mp hholder)

theorem Unnoticed.acquired {s : Shared} {lock : Lock} (hfree : s.holder lock = none) (i : ℕ) :
    Unnoticed i s { s with holder := Function.update s.holder lock (some i) } := by
  intro j hj
  refine ⟨?_, fun _ => rfl⟩
  cases lock with
  | token => exact Iff.rfl
  | request =>
    have hnew : Function.update s.holder .request (some i) .request = some i := Function.update_self ..
    rw [hfree]
    exact ⟨fun h => absurd (Option.some_inj.mp (hnew.symm.trans h)).symm hj, nofun⟩

theorem Pool.set_closed {s : Shared} {n c : ℕ} (h : Pool s n n) (hc : c < n) :
    Pool { s with clients := s.clients.set c .closed } n n where
  length_eq := by rw [List.length_set, h.length_eq]
  current_eq := h.current_eq
  opened := by rw [List.getElem?_set_ne (Nat.ne_of_lt hc), h.opened]
  left := fun d hd => by
    by_cases he : c = d
    · subst he
      rw [List.getElem?_set_self (by rw [h.length_eq]; omega)]
      nofun
    · rw [List.getElem?_set_ne he]
      exact h.left d hd

theorem next_send_ne (owned : Bool) (request : VaultRequest) (o : Sent) :
    Phase.next owned .inside (.send request) o ≠ .outside := by
  cases o with
  | transport error text => cases owned <;> nofun
  | _ => nofun

theorem poolAt_answered {owned : Bool} {s : Shared} {h : List TransportError} (request : VaultRequest) (o : Sent)
    (hp : PoolAt owned h.length s .outside) :
    PoolAt owned (o.transportErrors ++ h).length s (Phase.next owned .inside (.send request) o) := by
  cases o with
  | transport error text =>
    cases owned with
    | false => exact hp
    | true => exact ⟨rfl, h.length, rfl, hp⟩
  | _ => exact hp

theorem poolInv_step {client : VaultClient} {dv : DecodedValues} {clock : ℕ → ℤ} {s t : PoolState}
    {h es : List TransportError} {a : PoolAction} (inv : PoolInv client.ownsClient s h)
    (hs : s.step client dv clock a = some (t, es)) : PoolInv client.ownsClient t (es ++ h) := by
  cases a with
  | call i repository =>
    simp only [PoolState.step] at hs
    split at hs
    · next hn =>
      cases hs
      exact inv.resume clock (.refl i _) (project_keeps repository) inv.pool
        ⟨fun hh => absurd hh (inv.absent i hn), fun hh => absurd rfl hh⟩
    · cases hs
  | acquired i =>
    simp only [PoolState.step] at hs
    split at hs
    · next lock rest hc =>
      split at hs
      · next hfree =>
        cases hs
        obtain ⟨hholder, hrest⟩ := inv.callers i _ hc
        refine inv.resume clock (.acquired hfree i) hrest ?_ ?_
        · cases lock <;> exact ⟨inv.pool.1, inv.pool.2, inv.pool.3, inv.pool.4⟩
        · cases lock with
          | token => exact ⟨fun hh => absurd hh hholder, fun hh => absurd rfl hh⟩
          | request =>
            have hnew : Function.update s.shared.holder .request (some i) .request = some i :=
              Function.update_self ..
            exact ⟨fun _ => nofun, fun _ => hnew⟩
      · cases hs
    · cases hs
  | answered i o =>
    simp only [PoolState.step] at hs
    split at hs
    · next request c next hc =>
      cases hs
      obtain ⟨hholder, -, hnext⟩ := inv.callers i _ hc
      exact inv.resume clock (.refl i _) (hnext o) (poolAt_answered request o inv.pool)
        ⟨fun _ => next_send_ne _ request o, fun _ => hholder⟩
    · cases hs
  | closed i =>
    simp only [PoolState.step] at hs
    split at hs
    · next c rest hc =>
      cases hs
      obtain ⟨hholder, hcurrent, hrest⟩ := inv.callers i _ hc
      rw [inv.pool.current_eq] at hcurrent
      exact inv.resume clock (.of_holder hholder (.inl hholder)) hrest (inv.pool.set_closed hcurrent)
        ⟨fun _ => nofun, fun _ => hholder⟩
    · cases hs
  | woken i =>
    simp only [PoolState.step] at hs
    split at hs
    · next rest hc =>
      cases hs
      obtain ⟨hholder, hrest⟩ := inv.callers i _ hc
      exact inv.resume clock (.refl i _) hrest inv.pool ⟨fun _ => nofun, fun _ => hholder⟩
    · cases hs

theorem poolInv_initial (owned : Bool) (tokens : TokenState) : PoolInv owned (.initial tokens) [] where
  pool := by cases owned <;> exact ⟨rfl, rfl, rfl, nofun⟩
  callers := nofun
  absent := nofun

/-- The clients of a `VaultClient` and the requests in flight: `h` holds the transport
errors met. -/
structure PoolSafe (client : VaultClient) (s : PoolState) (h : List TransportError) : Prop where
  created : client.ownsClient = true → s.shared.clients.length = h.length + 1
  current_last : s.shared.current + 1 = s.shared.clients.length
  current_open : s.shared.clients[s.shared.current]? = some .opened
  others_left : ∀ c, c ≠ s.shared.current → s.shared.clients[c]? ≠ some .opened
  in_flight : ∀ caller request c next, s.callers caller = some (.sending request c next) → c = s.shared.current
  injected : client.ownsClient = false → s.shared.clients = [.opened]

/-- In every state of every run with any number of calls: one client for each transport
error and the first one, all but the last left, and each request in flight on the last. -/
theorem pool_replaced_safely (client : VaultClient) (dv : DecodedValues) (clock : ℕ → ℤ) (tokens : TokenState)
    {s : PoolState} {h : List TransportError}
    (run : Run (PoolState.step client dv clock) anyStep (PoolState.initial tokens) [] s h) :
    PoolSafe client s h := by
  have inv : PoolInv client.ownsClient s h := run.invariant (poolInv_initial client.ownsClient tokens)
    fun hi _ hs => poolInv_step hi hs
  obtain ⟨hl, hc, ho, hleft⟩ := inv.pool
  refine ⟨fun howned => ?_, by rw [hc, hl], by rw [hc, ho], ?_, ?_, fun hinjected => ?_⟩
  · rw [hl, howned]
    rfl
  · intro c hne
    rw [hc] at hne
    rcases Nat.lt_or_gt_of_ne hne with hlt | hgt
    · exact hleft c hlt
    · rw [List.getElem?_eq_none (by omega)]
      nofun
  · intro caller request c next hcaller
    exact (inv.callers caller _ hcaller).2.1
  · rw [hinjected] at hl ho
    obtain ⟨status, hs⟩ := List.length_eq_one_iff.mp hl
    rw [hs] at ho ⊢
    exact congrArg (fun x => [x]) (Option.some_inj.mp ho)

/-- Two calls, of which the first meets a pool timeout and goes on with the new client. -/
def timeoutActions : List PoolAction :=
  [.call 0 "canonical/example".toList, .call 1 "canonical/example".toList, .acquired 0, .acquired 0,
    .answered 0 (.transport .poolTimeout []), .closed 0, .woken 0]

theorem pool_replaced_safely_example : ∃ s, Run (PoolState.step ownedVault exampleValues fun _ => 0) anyStep
      (PoolState.initial {}) [] s [.poolTimeout] ∧ PoolSafe ownedVault s [.poolTimeout] ∧
    s.shared.clients = [.closed, .opened] := by
  have hrun : ∃ s, execute (PoolState.step ownedVault exampleValues fun _ => 0) timeoutActions
      (PoolState.initial {}) [] = some (s, [.poolTimeout]) ∧ s.shared.clients = [.closed, .opened] := ⟨_, rfl, rfl⟩
  obtain ⟨s, hs, hclients⟩ := hrun
  have run := Run.of_execute timeoutActions (fun _ _ _ _ => trivial) .start hs
  exact ⟨s, run, pool_replaced_safely ownedVault exampleValues (fun _ => 0) {} run, hclients⟩

end DemoController
