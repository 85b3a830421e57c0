import DemoController.JsonText
import DemoController.UnitStatus

/-!
# `/statusz` on its way to the charm (`api.py`, `charm.py`)

The charm runs a program in the workload container that prints at most 16384 bytes of the
response, and `json.loads` reads the report back from what was printed.
-/

namespace DemoController

open Lib

variable {app : App}

/-! ### The response and the probe -/

/-- `JSONResponse.render`. -/
def JsonResponse.body (r : JsonResponse) : Bytes := encode (jsonText responseChar r.content)

/-- The texts of exceptions: of the `ExecError` for a program that ends with a traceback,
and of a `JSONDecodeError`. -/
structure ProbeErrors where
  exec : Bytes → Text
  decode : Text → PyError

/-- What the printed text is to `json.loads`; the program ends with an exception when the
bytes it has read are no UTF-8. -/
def probe (errors : ProbeErrors) (body : Bytes) : Except CharmException Body :=
  match decode (body.take 16384) with
  | none => .error (.pebbleError (errors.exec body))
  | some text =>
    match loads (text ++ ['\n']) with
    | none => .ok (.invalid (errors.decode text))
    | some value => .ok (.json value)

/-! ### The length of a report -/

mutual

/-- At most as many bytes are written for a value. -/
def Json.weight : Json → ℕ
  | .null => 4
  | .bool _ => 5
  | .int n => 4 * (decimal n).length
  | .number text => 4 * text.length
  | .str t => 8 * t.length + 2
  | .arr items => Json.itemsWeight items + 2
  | .obj fields => Json.fieldsWeight fields + 2

def Json.itemsWeight : List Json → ℕ
  | [] => 0
  | item :: items => item.weight + 1 + Json.itemsWeight items

def Json.fieldsWeight : List (Text × Json) → ℕ
  | [] => 0
  | (name, value) :: fields => 8 * name.length + 4 + value.weight + Json.fieldsWeight fields

end

theorem encode_le_four (t : Text) : (encode t).length ≤ 4 * t.length := by
  induction t with
  | nil => exact le_rfl
  | cons c t ih =>
    have hc : (String.utf8EncodeChar c).length ≤ 4 := by
      rw [String.length_utf8EncodeChar]
      exact Char.utf8Size_le_four c
    rw [encode_cons, List.length_append, List.length_cons]
    omega

theorem encode_of_ascii {t : Text} (h : ∀ c ∈ t, c.toNat < 128) : (encode t).length = t.length := by
  induction t with
  | nil => rfl
  | cons c t ih =>
    have hc := encodeChar_of_ascii (h c (List.mem_cons_self ..))
    have ht := ih fun d hd => h d (List.mem_cons_of_mem _ hd)
    rw [encode_cons, List.length_append, ht, hc]
    simp only [List.length_cons, List.length_nil]
    omega

theorem responseChar_le (c : Char) : (encode (responseChar c)).length ≤ 8 := by
  have short {t : Text} (h : t.length ≤ 2) : (encode t).length ≤ 8 := by
    have := encode_le_four t
    omega
  unfold responseChar
  split
  · exact short (Nat.le_refl 2)
  iterate 5
    split
    · exact short (Nat.le_refl 2)
  split
  · have hascii : ∀ d ∈ ['\\', 'u'] ++ hex4 c.toNat, d.toNat < 128 := by
      have hdigit : ∀ n < 16, n.digitChar.toNat < 128 := by decide
      intro d hd
      rcases List.mem_append.mp hd with hd | hd
      · rcases List.mem_cons.mp hd with rfl | hd
        · exact (by decide : '\\'.toNat < 128)
        · rw [List.mem_singleton.mp hd]
          exact (by decide : 'u'.toNat < 128)
      · obtain ⟨n, hn, rfl⟩ := List.mem_map.mp hd
        refine hdigit n ?_
        simp only [List.mem_cons, List.not_mem_nil, or_false] at hn
        omega
    rw [encode_of_ascii hascii]
    exact show 6 ≤ 8 by omega
  · exact short (Nat.le_succ 1)

theorem quoted_le (t : Text) : (encode (quoteWith responseChar t)).length ≤ 8 * t.length + 2 := by
  have hchars : (encode (t.flatMap responseChar)).length ≤ 8 * t.length := by
    induction t with
    | nil => exact le_rfl
    | cons c t ih =>
      have hc := responseChar_le c
      rw [List.flatMap_cons, encode_append, List.length_append, List.length_cons]
      omega
  have hquote : (encode ['"']).length = 1 := rfl
  rw [quoteWith, encode_append, encode_append, List.length_append, List.length_append]
  omega

theorem intercalate_le (ws : List Text) :
    (encode (List.intercalate [','] ws)).length ≤ (ws.map fun w => (encode w).length + 1).sum := by
  induction ws with
  | nil => exact le_rfl
  | cons u ws ih =>
    cases ws with
    | nil =>
      rw [List.intercalate_singleton, List.map_singleton, List.sum_singleton]
      exact Nat.le_succ _
    | cons x ws =>
      have hcomma : (encode [',']).length = 1 := rfl
      rw [List.intercalate_cons_cons, encode_append, encode_append, List.length_append, List.length_append,
        List.map_cons, List.sum_cons]
      omega

theorem bracketed_le {ws : List Text} {opens closes : Char} (ho : (encode [opens]).length = 1)
    (hc : (encode [closes]).length = 1) {n : ℕ} (h : (ws.map fun w => (encode w).length + 1).sum ≤ n) :
    (encode ([opens] ++ List.intercalate [','] ws ++ [closes])).length ≤ n + 2 := by
  have hws := intercalate_le ws
  rw [encode_append, encode_append, List.length_append, List.length_append]
  omega

theorem items_le {items : List Json} (h : ∀ v ∈ items, (encode (jsonText responseChar v)).length ≤ v.weight) :
    ((items.map (jsonText responseChar)).map fun w => (encode w).length + 1).sum ≤ Json.itemsWeight items := by
  induction items with
  | nil => exact le_rfl
  | cons v items ih =>
    have hv := h v (List.mem_cons_self ..)
    have hrest := ih fun w hw => h w (List.mem_cons_of_mem _ hw)
    rw [List.map_cons, List.map_cons, List.sum_cons, Json.itemsWeight]
    omega

theorem members_le {fields : List (Text × Json)}
    (h : ∀ f ∈ fields, (encode (jsonText responseChar f.2)).length ≤ f.2.weight) :
    ((fields.map (memberText responseChar)).map fun w => (encode w).length + 1).sum ≤ Json.fieldsWeight fields := by
  induction fields with
  | nil => exact le_rfl
  | cons f fields ih =>
    obtain ⟨name, v⟩ := f
    have hname := quoted_le name
    have hcolon : (encode [':']).length = 1 := rfl
    have hv := h (name, v) (List.mem_cons_self ..)
    have hrest := ih fun w hw => h w (List.mem_cons_of_mem _ hw)
    have hmember : (encode (memberText responseChar (name, v))).length =
        (encode (quoteWith responseChar name)).length + 1 + (encode (jsonText responseChar v)).length := by
      rw [memberText, encode_append, encode_append, List.length_append, List.length_append, hcolon]
    rw [List.map_cons, List.map_cons, List.sum_cons, Json.fieldsWeight, hmember]
    dsimp only at hv
    omega

theorem jsonText_le (v : Json) : (encode (jsonText responseChar v)).length ≤ v.weight := by
  induction v using Json.deep with
  | null => exact le_rfl
  | bool b => cases b <;> decide
  | int n => exact encode_le_four _
  | number text => exact encode_le_four _
  | str t => exact quoted_le t
  | arr items ih =>
    rw [jsonText, jsonTexts_eq, Json.weight]
    exact bracketed_le rfl rfl (items_le ih)
  | obj fields ih =>
    rw [jsonText, jsonMembers_eq, Json.weight]
    exact bracketed_le rfl rfl (members_le ih)

/-! ### Reports that arrive -/

/-- The numbers of an observation have 64 bits, its texts at most as many characters. -/
structure Observation.Short (o : Observation) : Prop where
  status : o.status.length ≤ 16
  checkedAt : ∀ n ∈ o.checkedAt, -2 ^ 63 ≤ n ∧ n < 2 ^ 63
  error : ∀ t ∈ o.error, t.length ≤ 512

structure System.Short (s : System) : Prop where
  vault : s.health.vault.Short
  kubernetes : s.health.kubernetes.Short
  lastCompletedAt : ∀ n ∈ s.lastCompletedAt, -2 ^ 63 ≤ n ∧ n < 2 ^ 63
  rows : s.demos.rows.length < 2 ^ 63

theorem decimal_length_le {n : ℤ} (h : -2 ^ 63 ≤ n ∧ n < 2 ^ 63) : (decimal n).length ≤ 20 := by
  have hdigits {k : ℕ} (hk : k ≤ 2 ^ 63) : (Nat.toDigits 10 k).length ≤ 19 :=
    (Nat.length_toDigits_le_iff (by decide) (by decide)).mpr (by omega)
  cases n with
  | ofNat k =>
    rw [Int.ofNat_eq_natCast] at h ⊢
    have hk := hdigits (k := k) (by omega)
    rw [decimal_ofNat]
    omega
  | negSucc k =>
    have hk := hdigits (k := k + 1) (by omega)
    rw [decimal_negSucc, List.length_cons, decimal_ofNat]
    omega

theorem weight_int {n : ℤ} (h : -2 ^ 63 ≤ n ∧ n < 2 ^ 63) : (Json.int n).weight ≤ 80 :=
  Nat.mul_le_mul_left 4 (decimal_length_le h)

theorem weight_optionalInt {n : Option ℤ} (h : ∀ k ∈ n, -2 ^ 63 ≤ k ∧ k < 2 ^ 63) : (optionalInt n).weight ≤ 80 := by
  cases n with
  | none => exact show 4 ≤ 80 by omega
  | some k => exact weight_int (h k rfl)

theorem weight_optionalStr {t : Option Text} (h : ∀ u ∈ t, u.length ≤ 512) : (optionalStr t).weight ≤ 4098 := by
  cases t with
  | none => exact show 4 ≤ 4098 by omega
  | some u =>
    have hu := h u rfl
    have hw : (optionalStr (some u)).weight = 8 * u.length + 2 := rfl
    omega

theorem weight_observation {o : Observation} (h : o.Short) : o.content.weight ≤ 4600 := by
  have hstatus := h.status
  have hchecked := weight_optionalInt h.checkedAt
  have herror := weight_optionalStr h.error
  have hnames : "status".length = 6 ∧ "checked_at".length = 10 ∧ "error".length = 5 := by decide
  simp only [Observation.content, Json.weight, Json.fieldsWeight, String.length_toList]
  omega

theorem counts_lt {s : System} (h : s.Short) (readable : Bool) (state : DemoState) :
    -2 ^ 63 ≤ (s.counts readable state : ℤ) ∧ (s.counts readable state : ℤ) < 2 ^ 63 := by
  have hrows := h.rows
  have hcount : s.counts readable state ≤ s.demos.rows.length := by
    rw [System.counts]
    refine List.count_le_length.trans ?_
    split
    · rw [List.length_map, Store.listReconcilable_eq]
    · exact Nat.zero_le _
  omega

theorem weight_report {s : System} (h : s.Short) (task : Task) (readable : Bool) :
    (controllerStatus s task readable).content.weight ≤ 16384 := by
  have hvault := weight_observation h.vault
  have hkubernetes := weight_observation h.kubernetes
  have hlast := weight_optionalInt h.lastCompletedAt
  have hcount (state : DemoState) := weight_int (counts_lt h readable state)
  have h1 := hcount .pending
  have h2 := hcount .reconciling
  have h3 := hcount .ready
  have h4 := hcount .failed
  have h5 := hcount .deleting
  have text {b : Bool} {x y : String} (hx : x.toList.length ≤ 8) (hy : y.toList.length ≤ 8) :
      (Json.str (if b then x.toList else y.toList)).weight ≤ 66 := by
    cases b with
    | true => exact show 8 * x.toList.length + 2 ≤ 66 by omega
    | false => exact show 8 * y.toList.length + 2 ≤ 66 by omega
  have hstatus := text (b := s.degraded task readable) (x := "degraded") (y := "ok") (by decide) (by decide)
  have hdatabase := text (b := readable) (x := "ok") (y := "error") (by decide) (by decide)
  have hstate := text (b := task == .running) (x := "running") (y := "stopped") (by decide) (by decide)
  have hnames : "status".length = 6 ∧ "database".length = 8 ∧ "reconciliation".length = 14 ∧ "state".length = 5 ∧
      "last_completed_at".length = 17 ∧ "dependencies".length = 12 ∧ "vault".length = 5 ∧ "kubernetes".length = 10 ∧
      "demos".length = 5 ∧ "pending".length = 7 ∧ "reconciling".length = 11 ∧ "ready".length = 5 ∧
      "failed".length = 6 ∧ "deleting".length = 8 := by decide
  simp only [controllerStatus, Json.weight, Json.fieldsWeight, String.length_toList]
    at h1 h2 h3 h4 h5 hstatus hdatabase hstate ⊢
  omega

theorem isPlain_int {n : ℤ} (h : -2 ^ 63 ≤ n ∧ n < 2 ^ 63) : (Json.int n).isPlain = true :=
  decide_eq_true (decimal_short h)

theorem isPlain_optionalInt {n : Option ℤ} (h : ∀ k ∈ n, -2 ^ 63 ≤ k ∧ k < 2 ^ 63) :
    (optionalInt n).isPlain = true := by
  cases n with
  | none => rfl
  | some k => exact isPlain_int (h k rfl)

theorem isPlain_fields {fields : List (Text × Json)} (names : List Text) (hnames : fields.map Prod.fst = names)
    (hnodup : names.Nodup) (h : ∀ f ∈ fields, f.2.isPlain = true) : (Json.obj fields).isPlain = true :=
  (isPlain_obj fields).mpr ⟨hnames ▸ hnodup, h⟩

theorem isPlain_observation {o : Observation} (h : o.Short) : o.content.isPlain = true := by
  have hchecked := isPlain_optionalInt h.checkedAt
  have herror : (optionalStr o.error).isPlain = true := by
    cases o.error <;> rfl
  refine isPlain_fields ["status".toList, "checked_at".toList, "error".toList] rfl (by decide) ?_
  simp only [List.forall_mem_cons, List.not_mem_nil, false_implies, implies_true, and_true]
  exact ⟨rfl, hchecked, herror⟩

theorem isPlain_report {s : System} (h : s.Short) (task : Task) (readable : Bool) :
    (controllerStatus s task readable).content.isPlain = true := by
  have hlast := isPlain_optionalInt h.lastCompletedAt
  have hcount (state : DemoState) := isPlain_int (counts_lt h readable state)
  refine isPlain_fields ["status".toList, "database".toList, "reconciliation".toList, "dependencies".toList,
    "demos".toList] rfl (by decide) ?_
  simp only [List.forall_mem_cons, List.not_mem_nil, false_implies, implies_true, and_true]
  refine ⟨rfl, rfl, isPlain_fields ["state".toList, "last_completed_at".toList] rfl (by decide) ?_,
    isPlain_fields ["vault".toList, "kubernetes".toList] rfl (by decide) ?_,
    isPlain_fields ["pending".toList, "reconciling".toList, "ready".toList, "failed".toList, "deleting".toList] rfl
      (by decide) ?_⟩ <;>
    simp only [List.forall_mem_cons, List.not_mem_nil, false_implies, implies_true, and_true]
  · exact ⟨rfl, hlast⟩
  · exact ⟨isPlain_observation h.vault, isPlain_observation h.kubernetes⟩
  · exact ⟨hcount _, hcount _, hcount _, hcount _, hcount _⟩

/-- A line of text, as `print` writes it. -/
theorem loads_line {escape : Char → Text} (h : Escapes escape) {v : Json} (hv : v.Readable) :
    loads (jsonText escape v ++ ['\n']) = some v := by
  have hends : endsNumber ['\n'] := endsNumber_cons [] (by decide)
  have hread := reads_value h v hv ((jsonText escape v ++ ['\n']).length + 1)
    (by rw [List.length_append]; omega) ['\n'] hends
  rw [loads, skipSpace_opens (opens_jsonText escape hv), hread, Option.bind_some]
  exact if_pos rfl

/-- The charm's probe hands `json.loads` the whole report. -/
theorem probe_report (errors : ProbeErrors) {s : System} (h : s.Short) (task : Task) (readable : Bool) :
    probe errors (controllerStatus s task readable).body = .ok (.json (controllerStatus s task readable).content) := by
  have hlength : (controllerStatus s task readable).body.length ≤ 16384 :=
    (jsonText_le _).trans (weight_report h task readable)
  have hread := loads_line escapes_responseChar (Json.readable_of_isPlain (isPlain_report h task readable))
  have hdecode : decode (controllerStatus s task readable).body =
      some (jsonText responseChar (controllerStatus s task readable).content) := decode_eq_some_iff.mpr rfl
  simp only [probe, List.take_of_length_le hlength, hdecode, hread]

/-! ### Reports of a running controller -/

def Loop.raised? : Loop → Option PyError
  | .deleting _ (.raised error) _ => some error
  | .applying _ _ (.raised error) _ => some error
  | _ => none

/-- The clock is read with 64 bits, and what `_observe` keeps of an exception, the name of its
type or the category of a `VaultError`, has at most 512 characters. -/
def Action.Short : Action → Prop
  | .vault outcome now _ => (-2 ^ 63 ≤ now ∧ now < 2 ^ 63) ∧
      ∀ message category, outcome = .vaultError message category → category.length ≤ 512
  | .call outcome => ∀ error tookEffect, outcome = .failed error tookEffect → error.type.length ≤ 512
  | .resume now _ => -2 ^ 63 ≤ now ∧ now < 2 ^ 63
  | .endPass now => -2 ^ 63 ≤ now ∧ now < 2 ^ 63
  | _ => True

structure ShortHealth (s : System) : Prop where
  vault : s.health.vault.Short
  kubernetes : s.health.kubernetes.Short
  lastCompletedAt : ∀ n ∈ s.lastCompletedAt, -2 ^ 63 ≤ n ∧ n < 2 ^ 63
  raised : ∀ error ∈ s.loop.raised?, error.type.length ≤ 512

theorem forall_mem_none {α : Type} {P : α → Prop} : ∀ a ∈ (none : Option α), P a := by
  rintro a ⟨⟩

theorem short_unknown : ({} : Observation).Short := ⟨by decide, forall_mem_none, forall_mem_none⟩

theorem short_observation {error : Option Text} {now : ℤ} (hn : -2 ^ 63 ≤ now ∧ now < 2 ^ 63)
    (he : ∀ t ∈ error, t.length ≤ 512) : (observation error now).Short := by
  refine ⟨?_, ?_, he⟩
  · unfold observation
    dsimp only
    split <;> decide
  · rintro n ⟨⟩
    exact hn

theorem raised_ofCalls (record : DemoRecord) (p : VaultProject) (calls : List Call) (todo : List DemoRecord) :
    (Loop.deleting record (.ofCalls calls) todo).raised? = none ∧
      (Loop.applying record p (.ofCalls calls) todo).raised? = none := by
  cases calls <;> exact ⟨rfl, rfl⟩

theorem ShortHealth.afterVault (app : App) {s : System} (h : ShortHealth s) (record : DemoRecord)
    (todo : List DemoRecord) (outcome : VaultOutcome) {now : ℤ} (hn : -2 ^ 63 ≤ now ∧ now < 2 ^ 63)
    (hc : ∀ message category, outcome = .vaultError message category → category.length ≤ 512) (later : ℤ) :
    ShortHealth (app.afterVault s record todo outcome now later).1 := by
  have hok : (observation none now).Short := short_observation hn forall_mem_none
  cases outcome with
  | project p =>
    simp only [App.afterVault]
    split
    · refine ⟨hok, h.kubernetes, h.lastCompletedAt, ?_⟩
      rw [(raised_ofCalls record p _ todo).2]
      exact forall_mem_none
    · exact ⟨hok, h.kubernetes, h.lastCompletedAt, forall_mem_none⟩
  | vaultError message category =>
    refine ⟨short_observation hn ?_, h.kubernetes, h.lastCompletedAt, forall_mem_none⟩
    rintro t ⟨⟩
    exact hc message category rfl
  | raised error => exact ⟨h.vault, h.kubernetes, h.lastCompletedAt, forall_mem_none⟩

theorem ShortHealth.afterDelete (app : App) {s : System} (h : ShortHealth s) (record : DemoRecord)
    (todo : List DemoRecord) (error : Option PyError) {now : ℤ} (hn : -2 ^ 63 ≤ now ∧ now < 2 ^ 63)
    (he : ∀ e ∈ error, e.type.length ≤ 512) (later : ℤ) :
    ShortHealth (app.afterDelete s record todo error now later).1 := by
  have hobserved : (observation (error.map PyError.type) now).Short := by
    refine short_observation hn fun t ht => ?_
    obtain ⟨e, hin, rfl⟩ := Option.map_eq_some_iff.mp ht
    exact he e hin
  cases error with
  | none => exact ⟨h.vault, hobserved, h.lastCompletedAt, forall_mem_none⟩
  | some e => exact ⟨h.vault, hobserved, h.lastCompletedAt, forall_mem_none⟩

theorem ShortHealth.afterApply (app : App) {s : System} (h : ShortHealth s) (record : DemoRecord) (p : VaultProject)
    (todo : List DemoRecord) (result : Except PyError Bool) {now : ℤ} (hn : -2 ^ 63 ≤ now ∧ now < 2 ^ 63)
    (he : ∀ e, result = .error e → e.type.length ≤ 512) (later : ℤ) :
    ShortHealth (app.afterApply s record p todo result now later).1 := by
  cases result with
  | error e =>
    refine ⟨h.vault, short_observation hn ?_, h.lastCompletedAt, forall_mem_none⟩
    rintro t ⟨⟩
    exact he e rfl
  | ok ready =>
    have hok : (observation none now).Short := short_observation hn forall_mem_none
    simp only [App.afterApply]
    split <;> exact ⟨h.vault, hok, h.lastCompletedAt, forall_mem_none⟩

theorem raised_call {c c' : Cluster} {call : Call} {rest : List Call} {outcome : Outcome} {error : PyError}
    (ho : ∀ error tookEffect, outcome = .failed error tookEffect → error.type.length ≤ 512)
    (hs : Thread.step c call rest outcome = some (c', .raised error)) : error.type.length ≤ 512 := by
  by_cases hf : ∃ error tookEffect, outcome = .failed error tookEffect
  · obtain ⟨e, tookEffect, rfl⟩ := hf
    cases hs
    exact ho _ _ rfl
  · rcases Thread.step_answered hs fun error tookEffect he => hf ⟨error, tookEffect, he⟩ with
      ⟨-, he, -⟩ | ⟨_, _, -, -, -, he⟩
    · cases rest <;> cases he
    · cases he

theorem ShortHealth.step {s t : System} {es : List (Event app.cm)} {a : Action} (h : ShortHealth s)
    (ha : a.Short) (hs : app.step s a = some (t, es)) : ShortHealth t := by
  have hraised := h.raised
  cases a with
  | request =>
    cases hs
    exact ⟨h.vault, h.kubernetes, h.lastCompletedAt, hraised⟩
  | crash =>
    cases hs
    exact ⟨short_unknown, short_unknown, forall_mem_none, forall_mem_none⟩
  | list =>
    simp only [App.step] at hs
    split at hs
    · cases hs
      exact ⟨h.vault, h.kubernetes, h.lastCompletedAt, forall_mem_none⟩
    · cases hs
  | begin now later =>
    simp only [App.step] at hs
    split at hs
    · next record todo hl =>
      unfold App.begin at hs
      split at hs
      · cases hs
        refine ⟨h.vault, h.kubernetes, h.lastCompletedAt, ?_⟩
        rw [System.update, (raised_ofCalls record ⟨exampleConfig, .int 0⟩ _ todo).1]
        exact forall_mem_none
      · cases hs
        exact ⟨h.vault, h.kubernetes, h.lastCompletedAt, forall_mem_none⟩
    · cases hs
  | vault outcome now later =>
    simp only [App.step] at hs
    split at hs
    · next record todo hl =>
      have hafter := h.afterVault app record todo outcome ha.1 ha.2 later
      rw [Option.some_inj.mp hs] at hafter
      exact hafter
    · cases hs
  | call outcome =>
    simp only [App.step] at hs
    split at hs
    · next record call rest todo hl =>
      obtain ⟨⟨cluster, thread⟩, hstep, he⟩ := Option.map_eq_some_iff.mp hs
      cases he
      refine ⟨h.vault, h.kubernetes, h.lastCompletedAt, ?_⟩
      intro error he
      cases thread with
      | running | returned => cases he
      | raised e =>
        cases he
        exact raised_call ha hstep
    · next record p call rest todo hl =>
      obtain ⟨⟨cluster, thread⟩, hstep, he⟩ := Option.map_eq_some_iff.mp hs
      cases he
      refine ⟨h.vault, h.kubernetes, h.lastCompletedAt, ?_⟩
      intro error he
      cases thread with
      | running | returned => cases he
      | raised e =>
        cases he
        exact raised_call ha hstep
    · cases hs
  | resume now later =>
    simp only [App.step] at hs
    split at hs
    · next record ready todo hl =>
      cases hs
      exact h.afterDelete app record todo none ha forall_mem_none later
    · next record error todo hl =>
      cases hs
      refine h.afterDelete app record todo (some error) ha ?_ later
      rintro e ⟨⟩
      exact hraised error (by rw [hl]; rfl)
    · next record p ready todo hl =>
      have hafter := h.afterApply app record p todo (.ok ready) ha (fun e he => by cases he) later
      rw [Option.some_inj.mp hs] at hafter
      exact hafter
    · next record p error todo hl =>
      cases hs
      refine h.afterApply app record p todo (.error error) ha ?_ later
      rintro e ⟨⟩
      exact hraised error (by rw [hl]; rfl)
    · cases hs
  | endPass now =>
    simp only [App.step] at hs
    split at hs
    · cases hs
      refine ⟨h.vault, h.kubernetes, ?_, forall_mem_none⟩
      rintro n ⟨⟩
      exact ha
    · cases hs

theorem short_of_run {cluster : Cluster} {clock : ℤ} {s : System} {h : List (Event app.cm)}
    (run : Run app.step (fun _ _ a => a.Short) (System.initial cluster clock) [] s h)
    (rows : s.demos.rows.length < 2 ^ 63) : s.Short := by
  have hshort : ShortHealth s := by
    refine run.invariant (I := fun s _ => ShortHealth s)
      ⟨short_unknown, short_unknown, forall_mem_none, forall_mem_none⟩ ?_
    intro s h a t es hs ha hstep
    exact hs.step ha hstep
  exact ⟨hshort.vault, hshort.kubernetes, hshort.lastCompletedAt, rows⟩

/-- In every state of a run, through the bytes of the response, the probe that reads 16384 of
them and the JSON text, the charm sets the status that the conditions of the controller call
for; the unit is active exactly when `/statusz` answers 200. -/
theorem status_through_probe {cluster : Cluster} {clock : ℤ} {s : System} {h : List (Event app.cm)}
    (run : Run app.step (fun _ _ a => a.Short) (System.initial cluster clock) [] s h)
    (rows : s.demos.rows.length < 2 ^ 63) (errors : ProbeErrors) (task : Task) (readable : Bool) :
    let response := controllerStatus s task readable
    setWorkloadStatus (probe errors response.body) = .ok (unitStatusOf readable (task == .running)
        s.health.vault.isError s.health.kubernetes.isError (s.degraded task readable)) ∧
      (setWorkloadStatus (probe errors response.body) = .ok .active ↔ response.statusCode = 200) ∧
      (response.statusCode = 200 ↔ task = .running ∧ readable = true ∧ (∀ row ∈ s.demos.rows, row.state ≠ .failed) ∧
        s.health.vault.isError = false ∧ s.health.kubernetes.isError = false) := by
  intro response
  have hprobe : probe errors response.body = .ok (.json response.content) :=
    probe_report errors (short_of_run run rows) task readable
  rw [hprobe]
  exact ⟨setWorkloadStatus_report s task readable, active_iff_ok s task readable,
    (statusCode_eq_iff s task readable).trans degraded_eq_false_iff⟩

def outageActions : List Action :=
  [deployAction "delivery-1" 100, .list, .begin 110 110,
    .vault (.vaultError "Vault is unavailable".toList "unavailable".toList) 110 110]

theorem status_through_probe_example : ∃ s h, runActions outageActions = some (s, h) ∧
    setWorkloadStatus (probe ⟨fun _ => [], fun _ => ⟨[], []⟩⟩ (controllerStatus s .running true).body) =
      .ok (.waiting "Vault reconciliation degraded; see controller logs".toList) := by
  have hb : (runActions outageActions).any (fun q =>
      q.1.health.vault.isError && q.1.demos.rows.length == 1) = true := by
    decide +kernel
  simp only [Option.any_eq_true, Bool.and_eq_true, beq_iff_eq] at hb
  obtain ⟨⟨s, h⟩, hr, herror, hrows⟩ := hb
  dsimp only at herror hrows
  have hshort : ∀ a ∈ outageActions, a.Short := by
    simp only [outageActions, deployAction, List.forall_mem_cons, List.not_mem_nil, false_implies, implies_true,
      and_true]
    refine ⟨trivial, trivial, trivial, by decide, ?_⟩
    rintro message category ⟨⟩
    decide
  have run : Run exampleApp.step (fun _ _ a => a.Short) (System.initial (fun _ _ => none) 0) [] s h :=
    Run.of_execute outageActions (fun _ _ a ha => hshort a ha) .start hr
  have hread := (status_through_probe run (by omega) ⟨fun _ => [], fun _ => ⟨[], []⟩⟩ .running true).1
  rw [herror] at hread
  exact ⟨s, h, hr, hread⟩

end DemoController
