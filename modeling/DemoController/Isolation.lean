import DemoController.Api

/-!
# Tenant isolation of the API

The tenants of the controller share the nonce table, whose purge is global, the
limiter and the demos table. What a tenant sees of them is a view; a request of
another repository leaves the view as it is, and a request of the tenant itself
depends on nothing else. This takes requests that come to the shared tables in the
order in which they read the clock: a purge then only removes nonces the tenant's
own next request would remove. A request that waits for its body while another
purges the nonces reads a table that its own reading of the clock does not explain.
-/

namespace DemoController

open Lib

/-- A run of the API: requests, and what the reconciler writes between them. A request
reads the clock (`now`) before it waits for its body; it is the rest of it, at `later`,
that is the step. -/
inductive ApiStep where
  | request (endpoint : Endpoint) (req : HttpRequest) (now later : ℤ)
  | updateState (repository : Text) (pr : ℤ) (state : DemoState) (message : Text)
      (vaultVersion port : Option ℤ) (now : ℤ)
  | deleteRecord (repository : Text) (pr : ℤ)

variable (app : App)

/-- A request with another repository header is removed. -/
def App.keeps (R : Text) : ApiStep → Bool
  | .request _ req _ _ => decide (app.repositoryOf req = R)
  | _ => true

def ownKey (R : Text) (k : Key) : Bool := decide (k.1 = R)

def demosOf (R : Text) (s : ApiState) : Table DemoRecord.key := s.store.demos.restrict (ownKey R)

/-- The nonce of a repository, when it is not too old at `c`. -/
def nonceOf (R : Text) (c : ℤ) (s : ApiState) (nonce : Text) : Option NonceRow :=
  (s.store.nonces.get (R, nonce)).filter fun r => decide (c - app.settings.signatureMaxAgeSeconds * 2 ≤ r.seenAt)

/-- Two states look the same to a repository, from the time `c` on. -/
structure SameView (R : Text) (c : ℤ) (s t : ApiState) : Prop where
  requests : s.requests R = t.requests R
  demos : demosOf R s = demosOf R t
  nonces : ∀ nonce, nonceOf app R c s nonce = nonceOf app R c t nonce

variable {app}

theorem SameView.later {R : Text} {c d : ℤ} {s t : ApiState} (h : SameView app R c s t) (hcd : c ≤ d) :
    SameView app R d s t := by
  refine ⟨h.requests, h.demos, fun nonce => ?_⟩
  have hn := congrArg (Option.filter fun r : NonceRow =>
    decide (d - app.settings.signatureMaxAgeSeconds * 2 ≤ r.seenAt)) (h.nonces nonce)
  simp only [nonceOf, Option.filter_filter] at hn ⊢
  have hd : (fun r : NonceRow => decide (c - app.settings.signatureMaxAgeSeconds * 2 ≤ r.seenAt) &&
      decide (d - app.settings.signatureMaxAgeSeconds * 2 ≤ r.seenAt)) =
      fun r => decide (d - app.settings.signatureMaxAgeSeconds * 2 ≤ r.seenAt) := by
    funext r
    rw [← Bool.decide_and, decide_eq_decide]
    omega
  rw [hd] at hn
  exact hn

theorem SameView.symm {R : Text} {c : ℤ} {s t : ApiState} (h : SameView app R c s t) : SameView app R c t s :=
  ⟨h.requests.symm, h.demos.symm, fun nonce => (h.nonces nonce).symm⟩

theorem SameView.trans {R : Text} {c : ℤ} {s t u : ApiState} (h : SameView app R c s t)
    (h' : SameView app R c t u) : SameView app R c s u :=
  ⟨h.requests.trans h'.requests, h.demos.trans h'.demos, fun nonce => (h.nonces nonce).trans (h'.nonces nonce)⟩

/-! ### The nonce table -/

theorem SameView.updateState {R : Text} {c : ℤ} {s t : ApiState} (h : SameView app R c s t)
    (repository : Text) (pr : ℤ) (state : DemoState) (m : Text) (v p : Option ℤ) (now : ℤ) :
    SameView app R c { s with store := s.store.updateState repository pr state m v p now }
      { t with store := t.store.updateState repository pr state m v p now } := by
  refine ⟨h.requests, ?_, h.nonces⟩
  simp only [demosOf, Store.updateState, Table.restrict_update]
  rw [show s.store.demos.restrict (ownKey R) = _ from h.demos]
  rfl

theorem SameView.deleteRecord {R : Text} {c : ℤ} {s t : ApiState} (h : SameView app R c s t)
    (repository : Text) (pr : ℤ) :
    SameView app R c { s with store := s.store.deleteRecord repository pr }
      { t with store := t.store.deleteRecord repository pr } := by
  refine ⟨h.requests, ?_, h.nonces⟩
  simp only [demosOf, Store.deleteRecord, Table.restrict_erase]
  rw [show s.store.demos.restrict (ownKey R) = _ from h.demos]
  rfl

end DemoController
