import DemoController.NonceBinding
import DemoController.Lib.SlidingWindow
import Mathlib.Algebra.Order.Group.Int

/-!
# The rate limit is a sliding window

`_check_rate` prunes the queue of the calling repository only. Over a run of calls
that come to the limiter in the order in which they read the clock, that queue is
the window of the calls it let through; a call that waited for its body longer
finds times in the queue that are newer than its own. A call that fails a check
before the limiter leaves no trace.
-/

namespace DemoController

open Lib Lib.SlidingWindow

variable {app : App}

def refusal : Except Response Text → Option ℕ
  | .ok _ => none
  | .error (.rejected code _) => some code
  | .error (.unhandled _) => none
  | .error (.answered _ _) => none

/-- The call passed the credential, freshness and signature checks and then the limiter. -/
def App.letThrough (app : App) (repository : Text) (c : AuthCall) : Bool :=
  match app.verify c.req c.now with
  | .ok r => r = repository && refusal c.outcome != some 429
  | .error _ => false

/-- The times at which calls for the repository were let through, newest first. -/
def App.lets (app : App) (repository : Text) (history : List AuthCall) : List ℤ :=
  (history.filter (app.letThrough repository)).map fun c => c.now

/-! ### One call -/

theorem recent_eq_prune (requests : Text → List ℤ) (repository : Text) (now : ℤ) :
    App.recent requests repository now = prune 60 now (requests repository) := rfl

theorem checkRate_requests (requests : Text → List ℤ) (repository r : Text) (now : ℤ) :
    (app.checkRate requests repository now).1 r =
      if r = repository then
        if app.settings.rateLimitPerMinute ≤ (prune 60 now (requests r)).length then prune 60 now (requests r)
        else prune 60 now (requests r) ++ [now]
      else requests r := by
  unfold App.checkRate
  dsimp only
  by_cases hr : r = repository
  · subst hr
    rw [recent_eq_prune, if_pos rfl]
    split
    · exact if_pos rfl
    · exact if_pos rfl
  · rw [if_neg hr]
    split
    · exact if_neg hr
    · exact if_neg hr

theorem checkUse_requests (s : ApiState) (repository : Text) (req : HttpRequest) (now : ℤ) :
    (app.checkUse s repository req now).1.requests = (app.checkRate s.requests repository now).1 := by
  unfold App.checkUse
  dsimp only
  split
  · rfl
  · split
    · rfl
    · split
      · rfl
      · rfl

theorem checkUse_limited (app : App) (s : ApiState) (repository : Text) (req : HttpRequest) (now : ℤ) :
    refusal (app.checkUse s repository req now).2 = some 429 ↔
      app.settings.rateLimitPerMinute ≤ (prune 60 now (s.requests repository)).length := by
  unfold App.checkUse App.checkRate
  dsimp only
  rw [recent_eq_prune]
  by_cases hfull : app.settings.rateLimitPerMinute ≤ (prune 60 now (s.requests repository)).length
  · simp only [Bool.not_false, if_true, refusal, hfull]
  · simp only [Bool.not_true, Bool.false_eq_true, if_false, hfull, iff_false]
    split
    · simp only [refusal]
      decide
    · split
      · simp only [refusal]
        decide
      · simp only [refusal]
        decide

theorem state_of_unauthorized {s : ApiState} {req : HttpRequest} {now : ℤ}
    (h : refusal (app.authenticate s req now).2 = some 401) : (app.authenticate s req now).1 = s := by
  unfold App.authenticate at h ⊢
  cases hv : app.verify req now with
  | error r => rfl
  | ok repository =>
    simp only [hv] at h
    unfold App.checkUse at h
    dsimp only at h
    repeat' split at h
    all_goals
      simp only [refusal, reduceCtorEq] at h
    all_goals
      absurd h
      decide

/-! ### Every run -/

/-- A call that the limiter is asked about read the clock no earlier than the calls for
the repository it was asked about before. -/
def InOrder (app : App) (repository : Text) (history : List AuthCall) (a : Arrival) : Prop :=
  app.verify a.req a.now = .ok repository →
    ∀ c ∈ history, app.verify c.req c.now = .ok repository → c.now ≤ a.now

/-- `n` is no earlier than any reading of a call for the repository. -/
def Follows (app : App) (repository : Text) (history : List AuthCall) (n : ℤ) : Prop :=
  ∀ c ∈ history, app.verify c.req c.now = .ok repository → c.now ≤ n

/-- The queue of the repository against the calls let through so far, and each call
against the calls before it. -/
structure Limits (app : App) (repository : Text) (s : AuthState) (history : List AuthCall) : Prop where
  tracks : ∀ n, Follows app repository history n →
    Tracks 60 n (app.lets repository history) (s.1.requests repository)
  spaced : Spaced 60 app.settings.rateLimitPerMinute.toNat (app.lets repository history)
  sorted : (app.lets repository history).Pairwise (· ≥ ·)
  exact : ∀ c earlier, c :: earlier <:+ history → app.verify c.req c.now = .ok repository →
    (refusal c.outcome = some 429 ↔
      ((window 60 c.now (app.lets repository earlier)).length : ℤ) = app.settings.rateLimitPerMinute)

theorem lets_cons (r : Text) (c : AuthCall) (history : List AuthCall) :
    app.lets r (c :: history) = if app.letThrough r c then c.now :: app.lets r history else app.lets r history := by
  rw [App.lets, List.filter_cons]
  split
  · rfl
  · rfl

theorem letThrough_of_verify {c : AuthCall} {repository : Text} (h : app.verify c.req c.now = .ok repository)
    (r : Text) :
    app.letThrough r c = true ↔ r = repository ∧ refusal c.outcome ≠ some 429 := by
  simp only [App.letThrough, h, Bool.and_eq_true, decide_eq_true_eq, bne_iff_ne, ne_eq]
  exact and_congr_left fun _ => eq_comm

theorem Limits.window_le {r : Text} {s : AuthState} {history : List AuthCall} (h : Limits app r s history)
    (hlimit : 0 ≤ app.settings.rateLimitPerMinute) (n : ℤ) :
    ((window 60 n (app.lets r history)).length : ℤ) ≤ app.settings.rateLimitPerMinute := by
  have hle := window_le_limit h.sorted h.spaced n
  omega

/-- A call the limiter is not asked about for the repository. -/
theorem Limits.other {r : Text} {s t : AuthState} {history : List AuthCall} {c : AuthCall}
    (h : Limits app r s history) (hv : app.verify c.req c.now ≠ .ok r) (hq : t.1.requests r = s.1.requests r) :
    Limits app r t (c :: history) := by
  have hlets : app.lets r (c :: history) = app.lets r history := by
    rw [lets_cons, if_neg]
    intro hl
    unfold App.letThrough at hl
    split at hl
    · next repository hverified =>
      rw [Bool.and_eq_true, decide_eq_true_eq] at hl
      exact hv (hl.1 ▸ hverified)
    · cases hl
  refine ⟨fun n hn => ?_, ?_, ?_, ?_⟩
  · rw [hlets, hq]
    exact h.tracks n fun d hd => hn d (List.mem_cons_of_mem _ hd)
  · rw [hlets]
    exact h.spaced
  · rw [hlets]
    exact h.sorted
  · intro d earlier hsuffix hd
    rcases List.suffix_cons_iff.mp hsuffix with heq | hin
    · obtain ⟨rfl, rfl⟩ := List.cons.inj heq
      exact absurd hd hv
    · exact h.exact d earlier hin hd

/-- A call that comes to the limiter: only the queue of its repository is touched. -/
theorem Limits.verified {r : Text} {s : AuthState} {history : List AuthCall} {a : Arrival}
    (h : Limits app r s history) (hlimit : 0 ≤ app.settings.rateLimitPerMinute)
    (horder : Follows app r history a.now) (hv : app.verify a.req a.now = .ok r) :
    Limits app r ((app.checkUse s.1 r a.req a.now).1, a.arrived)
      (⟨a, (app.checkUse s.1 r a.req a.now).2⟩ :: history) := by
  have hnow := h.tracks a.now horder
  have hlimited := checkUse_limited app s.1 r a.req a.now
  have hqueue := hnow.prune_length
  have hwindow := h.window_le hlimit a.now
  have hthrough := letThrough_of_verify (c := ⟨a, (app.checkUse s.1 r a.req a.now).2⟩) hv r
  by_cases hfull : app.settings.rateLimitPerMinute ≤ (prune 60 a.now (s.1.requests r)).length
  · have hlets : app.lets r (⟨a, (app.checkUse s.1 r a.req a.now).2⟩ :: history) = app.lets r history := by
      rw [lets_cons, if_neg fun hl => (hthrough.mp hl).2 (hlimited.mpr hfull)]
    refine ⟨fun n hn => ?_, ?_, ?_, ?_⟩
    · dsimp only
      rw [hlets, checkUse_requests, checkRate_requests, if_pos rfl, if_pos hfull]
      exact hnow.pruned.later (hn _ (List.mem_cons_self ..) hv)
    · rw [hlets]
      exact h.spaced
    · rw [hlets]
      exact h.sorted
    · intro c earlier hsuffix hc
      rcases List.suffix_cons_iff.mp hsuffix with heq | hin
      · obtain ⟨rfl, rfl⟩ := List.cons.inj heq
        refine iff_of_true (hlimited.mpr hfull) (le_antisymm hwindow ?_)
        rw [← hqueue]
        exact hfull
      · exact h.exact c earlier hin hc
  · have hfree : refusal (app.checkUse s.1 r a.req a.now).2 ≠ some 429 := fun he => hfull (hlimited.mp he)
    have hlets : app.lets r (⟨a, (app.checkUse s.1 r a.req a.now).2⟩ :: history) = a.now :: app.lets r history := by
      rw [lets_cons, if_pos (hthrough.mpr ⟨rfl, hfree⟩)]
    refine ⟨fun n hn => ?_, ?_, ?_, ?_⟩
    · dsimp only
      rw [hlets, checkUse_requests, checkRate_requests, if_pos rfl, if_neg hfull]
      exact hnow.pruned.push.later (hn _ (List.mem_cons_self ..) hv)
    · rw [hlets]
      refine ⟨?_, h.spaced⟩
      omega
    · rw [hlets]
      exact hnow.push.sorted
    · intro c earlier hsuffix hc
      rcases List.suffix_cons_iff.mp hsuffix with heq | hin
      · obtain ⟨rfl, rfl⟩ := List.cons.inj heq
        refine iff_of_false hfree fun heq => hfull ?_
        rw [hqueue]
        exact heq.ge
      · exact h.exact c earlier hin hc

theorem Limits.step {r : Text} {s t : AuthState} {history es : List AuthCall} {a : Arrival}
    (h : Limits app r s history) (hlimit : 0 ≤ app.settings.rateLimitPerMinute) (horder : InOrder app r history a)
    (hs : app.authStep s a = some (t, es)) : Limits app r t (es ++ history) := by
  obtain ⟨-, -, rfl, rfl⟩ := authStep_eq_some hs
  unfold App.authenticate
  cases hv : app.verify a.req a.now with
  | error response => exact h.other (by rw [hv]; exact fun he => by cases he) rfl
  | ok repository =>
    by_cases hr : repository = r
    · subst hr
      exact h.verified hlimit (horder hv) hv
    · refine h.other (by rw [hv]; exact fun he => hr (Except.ok.inj he)) ?_
      exact (congrFun (checkUse_requests ..) r).trans
        ((checkRate_requests ..).trans (if_neg (Ne.symm hr)))

/-- In every run from an empty limiter in which the calls for a repository come to it in
the order of their readings of the clock, such a call is refused with 429 exactly
when the window before it is full, and no window holds more than the limit. In every
run a call refused with 401 changes nothing. -/
theorem rate_limit_is_sliding_window (hlimit : 0 ≤ app.settings.rateLimitPerMinute) {store : Store} {start : ℤ}
    {repository : Text} {s : AuthState} {history : List AuthCall}
    (run : Run app.authStep (fun _ => InOrder app repository) (⟨store, fun _ => []⟩, start) [] s history) :
    (∀ c earlier, c :: earlier <:+ history → app.verify c.req c.now = .ok repository →
      (refusal c.outcome = some 429 ↔
        ((window 60 c.now (app.lets repository earlier)).length : ℤ) = app.settings.rateLimitPerMinute)) ∧
    (∀ t, ((window 60 t (app.lets repository history)).length : ℤ) ≤ app.settings.rateLimitPerMinute) ∧
    ∀ s a t c, app.authStep s a = some (t, [c]) → refusal c.outcome = some 401 → t.1 = s.1 := by
  have hl : Limits app repository s history := by
    refine run.invariant (I := Limits app repository)
      ⟨fun n _ => Tracks.start 60 n, trivial, List.Pairwise.nil, ?_⟩ fun h horder hs => h.step hlimit horder hs
    intro c earlier hsuffix
    exact absurd (List.suffix_nil.mp hsuffix) (List.cons_ne_nil _ _)
  refine ⟨hl.exact, fun t => hl.window_le hlimit t, ?_⟩
  intro s a t c hs hc
  obtain ⟨-, -, rfl, he⟩ := authStep_eq_some hs
  obtain ⟨rfl, -⟩ := List.cons.inj he
  exact state_of_unauthorized hc

def limitedApp : App := { exampleApp with settings := { exampleApp.settings with rateLimitPerMinute := 1 } }

def earlyCall : Arrival := signedAt 1000 "one body"
def secondCall : Arrival := signedAt 1030 "one body"

/-- A body that was not signed, and arrives late. -/
def forgedCall : Arrival := { secondCall with req := { secondCall.req with body := [] }, now := 990, arrived := 1010 }

def runLimited (calls : List Arrival) : Option (AuthState × List AuthCall) :=
  execute limitedApp.authStep calls (⟨Store.empty, fun _ => []⟩, 0) []

def inOrderTest (history : List AuthCall) (a : Arrival) : Bool :=
  match limitedApp.verify a.req a.now with
  | .error _ => true
  | .ok _ => history.all fun c => decide (c.now ≤ a.now)

theorem inOrder_of_test {repository : Text} {history : List AuthCall} {a : Arrival}
    (ht : inOrderTest history a = true) : InOrder limitedApp repository history a := by
  intro hv c hc _
  rw [inOrderTest, hv] at ht
  exact of_decide_eq_true (List.all_eq_true.mp ht c hc)

theorem rate_limit_example : ∃ s x y z,
    Run limitedApp.authStep (fun _ => InOrder limitedApp "canonical/example".toList)
      (⟨Store.empty, fun _ => []⟩, 0) [] s [⟨secondCall, y⟩, ⟨forgedCall, z⟩, ⟨earlyCall, x⟩] ∧
    refusal y = some 429 ∧ ((window 60 1030
      (limitedApp.lets "canonical/example".toList [⟨forgedCall, z⟩, ⟨earlyCall, x⟩])).length : ℤ) = 1 := by
  have hb : (executeIf limitedApp.authStep (fun _ => inOrderTest) [earlyCall, forgedCall, secondCall]
      (⟨Store.empty, fun _ => []⟩, 0) []).any
        (fun q => (q.2.map fun c => refusal c.outcome) = [some 429, some 401, none]) = true := by
    decide +kernel
  simp only [Option.any_eq_true, decide_eq_true_eq] at hb
  obtain ⟨⟨s, h⟩, hr, hrefusals⟩ := hb
  obtain ⟨s', y, z, x, hr'⟩ : ∃ s y z x, runLimited [earlyCall, forgedCall, secondCall] =
      some (s, [⟨secondCall, y⟩, ⟨forgedCall, z⟩, ⟨earlyCall, x⟩]) :=
    ⟨_, _, _, _, rfl⟩
  obtain ⟨rfl, rfl⟩ := Prod.mk.inj (Option.some.inj ((execute_of_executeIf hr).symm.trans hr'))
  have run : Run limitedApp.authStep (fun _ => InOrder limitedApp "canonical/example".toList)
      (⟨Store.empty, fun _ => []⟩, 0) [] s [⟨secondCall, y⟩, ⟨forgedCall, z⟩, ⟨earlyCall, x⟩] :=
    Run.of_executeIf _ (fun _ _ _ _ ht => inOrder_of_test ht) .start hr
  have hv : limitedApp.verify secondCall.req 1030 = .ok "canonical/example".toList := by decide +kernel
  have hlimited : refusal y = some 429 := List.head_eq_of_cons_eq hrefusals
  exact ⟨s, x, y, z, run, hlimited,
    ((rate_limit_is_sliding_window (by decide) run).1 _ _ (List.suffix_refl _) hv).mp hlimited⟩

def newerCall : Arrival := signedAt 1601 "one body"

/-- The call reads the clock before `newerCall` does, and its body arrives after it. -/
def waitingCall : Arrival := { signedAt 1600 "one body" with arrived := 1602 }

/-- A call that waits for its body is refused because of a call that read the clock later. -/
theorem waiting_call_limited : ¬ ∀ (s : AuthState) (c : AuthCall) (earlier : List AuthCall),
    Run limitedApp.authStep anyStep (⟨Store.empty, fun _ => []⟩, 0) [] s (c :: earlier) →
    limitedApp.verify c.req c.now = .ok "canonical/example".toList →
    (refusal c.outcome = some 429 ↔
      ((window 60 c.now (limitedApp.lets "canonical/example".toList earlier)).length : ℤ) =
        limitedApp.settings.rateLimitPerMinute) := by
  intro all
  obtain ⟨s, y, x, hr⟩ : ∃ s y x, runLimited [newerCall, waitingCall] =
      some (s, [⟨waitingCall, y⟩, ⟨newerCall, x⟩]) :=
    ⟨_, _, _, rfl⟩
  have hb : (runLimited [newerCall, waitingCall]).any (fun q =>
      (q.2.map fun c => refusal c.outcome) = [some 429, none]) = true := by
    decide +kernel
  rw [hr, Option.any_some, decide_eq_true_eq] at hb
  have run : Run limitedApp.authStep anyStep (⟨Store.empty, fun _ => []⟩, 0) []
      s [⟨waitingCall, y⟩, ⟨newerCall, x⟩] :=
    Run.of_execute _ (fun _ _ _ _ => trivial) .start hr
  have hv : limitedApp.verify waitingCall.req 1600 = .ok "canonical/example".toList := by decide +kernel
  have hfull : ((window 60 1600 (limitedApp.lets "canonical/example".toList [⟨newerCall, x⟩])).length : ℤ) = 1 :=
    (all s _ _ run hv).mp (List.head_eq_of_cons_eq hb)
  have hlate : window 60 (1600 : ℤ) [1601] = [] := by decide
  rw [lets_cons] at hfull
  split at hfull
  · have hone : ((window 60 (1600 : ℤ) [1601]).length : ℤ) = 1 := hfull
    rw [hlate] at hone
    cases hone
  · cases hfull

end DemoController
