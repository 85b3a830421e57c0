import DemoController.Kubernetes
import DemoController.Images

/-!
# Resource requests and limits

The four resource values of a project are validated one at a time. Read as quantities,
each stays within the bounds of its own pattern; that a request is at most its limit,
and a limit in millicores at most four cores, depends on how the two are written.
-/

namespace DemoController

open Lib

/-! ### Quantities -/

/-- A Kubernetes quantity as it is written: a number of units. -/
structure Quantity where
  number : ℕ
  unit : ℕ

/-- The amount in the smallest unit, a millicore or a MiB. -/
def Quantity.exact (q : Quantity) : ℕ := q.number * q.unit

/-- `int(t)` for a text of digits. -/
def digitsNumber (t : Text) : ℕ := (digitsValue 0 false t).getD 0

def cpuQuantity (t : Text) : Quantity :=
  if t.getLast? = some 'm' then ⟨digitsNumber t.dropLast, 1⟩ else ⟨digitsNumber t, 1000⟩

def memoryQuantity (t : Text) : Quantity :=
  ⟨digitsNumber (t.takeWhile Char.isDigit), if t.dropWhile Char.isDigit = "Gi".toList then 1024 else 1⟩

def Quantity.Bounded (request limit : Quantity) (cap : ℕ) : Prop :=
  request.exact ≤ limit.exact ∧ limit.exact ≤ cap

/-- What the policy promises of a project's values: 4 cores and 8 GiB at most, and no
request above its limit. -/
structure ResourceValues.WithinPolicy (v : ResourceValues) : Prop where
  cpu : (cpuQuantity v.cpuRequest).Bounded (cpuQuantity v.cpuLimit) 4000
  memory : (memoryQuantity v.memoryRequest).Bounded (memoryQuantity v.memoryLimit) 8192

def quantityOf (resource value : Text) : Quantity :=
  if resource = "cpu".toList then cpuQuantity value else memoryQuantity value

/-- The API server admits the container: no request exceeds the limit of its resource. -/
def Container.Admitted (c : Container) : Prop :=
  ∀ resource request limit, (resource, request) ∈ c.requests → (resource, limit) ∈ c.limits →
    (quantityOf resource request).exact ≤ (quantityOf resource limit).exact

/-! ### What the validators promise of one value -/

theorem ofDigitChars_lt {ds : Text} (hds : ∀ c ∈ ds, c.isDigit = true) (acc : ℕ) :
    Nat.ofDigitChars 10 ds acc < (acc + 1) * 10 ^ ds.length := by
  induction ds generalizing acc with
  | nil => simp
  | cons c ds ih =>
    have hrest := ih (fun d hd => hds d (List.mem_cons_of_mem _ hd)) (10 * acc + (c.toNat - '0'.toNat))
    have hdigit : c.toNat - '0'.toNat ≤ 9 := by
      have h9 : c.toNat ≤ 57 := UInt32.le_iff_toNat_le.mp (isDigit_iff.mp (hds c (List.mem_cons_self ..))).2
      have h0 : '0'.toNat = 48 := rfl
      omega
    rw [Nat.ofDigitChars_cons]
    refine hrest.trans_le ?_
    calc (10 * acc + (c.toNat - '0'.toNat) + 1) * 10 ^ ds.length
        ≤ ((acc + 1) * 10) * 10 ^ ds.length := Nat.mul_le_mul_right _ (by omega)
      _ = (acc + 1) * 10 ^ (c :: ds).length := by rw [List.length_cons, Nat.pow_succ, Nat.mul_assoc, Nat.mul_comm 10]

theorem digitsNumber_lt {ds : Text} (hds : ∀ c ∈ ds, c.isDigit = true) :
    digitsNumber ds < 10 ^ ds.length := by
  cases ds with
  | nil => decide
  | cons c ds =>
    have hc := hds c (List.mem_cons_self ..)
    have hopen : digitsValue 0 false (c :: ds) = digitsValue 0 true (c :: ds) := by
      rw [digitsValue, digitsValue, if_pos hc, if_pos hc]
    rw [digitsNumber, hopen, digitsValue_digits hds]
    simpa using ofDigitChars_lt hds 0

theorem cpuQuantity_millicores {t : Text} (hm : t.getLast? = some 'm') (hdigits : ∀ c ∈ t.dropLast, c.isDigit = true)
    (hlength : t.length ≤ 5) : (cpuQuantity t).unit = 1 ∧ (cpuQuantity t).number ≤ 9999 := by
  have hlt := digitsNumber_lt hdigits
  have hshort : t.dropLast.length ≤ 4 := by
    rw [List.length_dropLast]
    omega
  have hpow : 10 ^ t.dropLast.length ≤ 10 ^ 4 := Nat.pow_le_pow_right (by decide) hshort
  rw [cpuQuantity, if_pos hm]
  refine ⟨rfl, ?_⟩
  show digitsNumber t.dropLast ≤ 9999
  omega

theorem cpuQuantity_cores {c : Char} (h : '1' ≤ c ∧ c ≤ '4') :
    [c].getLast? ≠ some 'm' ∧ (cpuQuantity [c]).unit = 1000 ∧ (cpuQuantity [c]).number ≤ 4 := by
  have h1 : 49 ≤ c.toNat := UInt32.le_iff_toNat_le.mp h.1
  have h4 : c.toNat ≤ 52 := UInt32.le_iff_toNat_le.mp h.2
  have hm : [c].getLast? ≠ some 'm' := by
    intro hm
    have hc : c = 'm' := by simpa using hm
    have hn : 'm'.toNat = 109 := rfl
    rw [hc, hn] at h4
    omega
  have hdigit : c.isDigit = true := isDigit_iff.mpr ⟨Char.le_trans (by decide) h.1, Char.le_trans h.2 (by decide)⟩
  refine ⟨hm, by rw [cpuQuantity, if_neg hm], ?_⟩
  rw [cpuQuantity, if_neg hm, digitsNumber, digitsValue, if_pos hdigit]
  have h0 : '0'.toNat = 48 := rfl
  show 10 * 0 + (c.toNat - '0'.toNat) ≤ 4
  omega

/-- A CPU value is a number of at most four digits with `m`, or one of 1 to 4. -/
theorem cpuQuantity_cases {t : Text} (h : isCpu t = true) :
    (t.getLast? = some 'm' ∧ (cpuQuantity t).unit = 1 ∧ (cpuQuantity t).number ≤ 9999) ∨
      (t.getLast? ≠ some 'm' ∧ (cpuQuantity t).unit = 1000 ∧ (cpuQuantity t).number ≤ 4) := by
  match t, h with
  | [c], h =>
    simp only [isCpu, Bool.and_eq_true, decide_eq_true_eq] at h
    exact .inr (cpuQuantity_cores h)
  | c :: d :: ds, h =>
    simp only [isCpu, Bool.and_eq_true, decide_eq_true_eq, beq_iff_eq] at h
    obtain ⟨⟨⟨⟨h1, h9⟩, hlast⟩, hall⟩, hlen⟩ := h
    have hm : (c :: d :: ds).getLast? = some 'm' := by
      rw [List.getLast?_cons_cons]
      exact hlast
    have hdigits : ∀ e ∈ (c :: d :: ds).dropLast, e.isDigit = true := by
      intro e he
      rw [List.dropLast_cons_cons] at he
      rcases List.mem_cons.mp he with rfl | he
      · exact isDigit_iff.mpr ⟨Char.le_trans (by decide) h1, h9⟩
      · exact List.all_eq_true.mp hall e he
    have hlength : (c :: d :: ds).length ≤ 5 := by
      simp only [List.length_cons] at hlen ⊢
      omega
    exact .inl ⟨hm, cpuQuantity_millicores hm hdigits hlength⟩

theorem memoryQuantity_le {t : Text} (h : isMemory t = true) : (memoryQuantity t).exact ≤ 8192 := by
  simp only [isMemory, Bool.and_eq_true, decide_eq_true_eq] at h
  exact h.2

/-! ### Pairs of values -/

/-- The request fits as written: numbers compare in one unit, and across the two units
with the number in the larger one taken `ratio` times. -/
def Quantity.FitsWithin (ratio : ℕ) (request limit : Quantity) : Prop :=
  if request.unit = limit.unit then request.number ≤ limit.number
  else if request.unit < limit.unit then request.number ≤ ratio * limit.number
  else ratio * request.number ≤ limit.number

theorem Quantity.exact_le_iff (ratio : ℕ) (hratio : 1 < ratio) {q r : Quantity}
    (hq : q.unit = 1 ∨ q.unit = ratio) (hr : r.unit = 1 ∨ r.unit = ratio) :
    q.exact ≤ r.exact ↔ q.FitsWithin ratio r := by
  unfold Quantity.exact Quantity.FitsWithin
  rcases hq with hq | hq
  · rcases hr with hr | hr
    · rw [hq, hr, if_pos rfl, Nat.mul_one, Nat.mul_one]
    · rw [hq, hr, if_neg (by omega), if_pos hratio, Nat.mul_one, Nat.mul_comm]
  · rcases hr with hr | hr
    · rw [hq, hr, if_neg (by omega), if_neg (by omega), Nat.mul_one, Nat.mul_comm]
    · rw [hq, hr, if_pos rfl]
      exact Nat.mul_le_mul_right_iff (by omega)

/-- Every limit in millicores is at most `4000m`, and both requests fit as written. -/
structure ResourceValues.FitAsWritten (v : ResourceValues) : Prop where
  millicores : v.cpuLimit.getLast? = some 'm' → (cpuQuantity v.cpuLimit).number ≤ 4000
  cpu : (cpuQuantity v.cpuRequest).FitsWithin 1000 (cpuQuantity v.cpuLimit)
  memory : (memoryQuantity v.memoryRequest).FitsWithin 1024 (memoryQuantity v.memoryLimit)

theorem cpu_unit {t : Text} (h : isCpu t = true) : (cpuQuantity t).unit = 1 ∨ (cpuQuantity t).unit = 1000 := by
  rcases cpuQuantity_cases h with ⟨-, hu, -⟩ | ⟨-, hu, -⟩
  · exact .inl hu
  · exact .inr hu

theorem memory_unit (t : Text) : (memoryQuantity t).unit = 1 ∨ (memoryQuantity t).unit = 1024 := by
  rw [memoryQuantity]
  split
  · exact .inr rfl
  · exact .inl rfl

theorem cpu_cap_iff {t : Text} (h : isCpu t = true) :
    (cpuQuantity t).exact ≤ 4000 ↔ (t.getLast? = some 'm' → (cpuQuantity t).number ≤ 4000) := by
  unfold Quantity.exact
  rcases cpuQuantity_cases h with ⟨hm, hu, -⟩ | ⟨hm, hu, hn⟩
  · rw [hu, Nat.mul_one]
    exact ⟨fun hle _ => hle, fun himp => himp hm⟩
  · rw [hu]
    constructor
    · intro _ hm'
      exact absurd hm' hm
    · intro _
      omega

theorem withinPolicy_iff (v : ResourceValues) : v.WithinPolicy ↔ v.FitAsWritten := by
  have hcpu := Quantity.exact_le_iff 1000 (by decide) (cpu_unit v.cpuRequest_ok) (cpu_unit v.cpuLimit_ok)
  have hmemory := Quantity.exact_le_iff 1024 (by decide) (memory_unit v.memoryRequest)
    (memory_unit v.memoryLimit)
  constructor
  · rintro ⟨⟨hfit, hcap⟩, hmem, -⟩
    exact ⟨(cpu_cap_iff v.cpuLimit_ok).mp hcap, hcpu.mp hfit, hmemory.mp hmem⟩
  · rintro ⟨hcap, hfit, hmem⟩
    exact ⟨⟨hcpu.mpr hfit, (cpu_cap_iff v.cpuLimit_ok).mpr hcap⟩, hmemory.mpr hmem, memoryQuantity_le v.memoryLimit_ok⟩

/-! ### The rendered container -/

theorem rendered_requests (cm : CaseMapping) (record : DemoRecord) (project : ProjectConfig) (version : PyInt)
    (ns owner : Text) : ∀ c ∈ (renderResources cm record project version ns owner).deployment.containers,
      c.requests = [("cpu".toList, project.resources.cpuRequest), ("memory".toList, project.resources.memoryRequest)] ∧
        c.limits = [("cpu".toList, project.resources.cpuLimit), ("memory".toList, project.resources.memoryLimit)] := by
  intro c hc
  rw [List.mem_singleton.mp hc]
  exact ⟨rfl, rfl⟩

theorem ResourceValues.WithinPolicy.admitted {v : ResourceValues} (h : v.WithinPolicy) {c : Container}
    (hrequests : c.requests = [("cpu".toList, v.cpuRequest), ("memory".toList, v.memoryRequest)])
    (hlimits : c.limits = [("cpu".toList, v.cpuLimit), ("memory".toList, v.memoryLimit)]) : c.Admitted := by
  intro resource request limit hr hl
  rw [hrequests] at hr
  rw [hlimits] at hl
  have hne : "memory".toList ≠ "cpu".toList := by decide
  simp only [List.mem_cons, Prod.mk.injEq, List.not_mem_nil, or_false] at hr hl
  rcases hr with ⟨rfl, rfl⟩ | ⟨rfl, rfl⟩
  · rcases hl with ⟨-, rfl⟩ | ⟨he, -⟩
    · rw [quantityOf, quantityOf, if_pos rfl, if_pos rfl]
      exact h.cpu.1
    · exact absurd he.symm hne
  · rcases hl with ⟨he, -⟩ | ⟨-, rfl⟩
    · exact absurd he hne
    · rw [quantityOf, quantityOf, if_neg hne, if_neg hne]
      exact h.memory.1

/-- Accepted values are within policy, and the container rendered from them is admitted,
exactly when they fit as they are written. -/
theorem resources_schedulable_iff (v : ResourceValues) :
    (v.WithinPolicy ∧ ∀ cm record project version ns owner, project.resources = v →
      ∀ c ∈ (renderResources cm record project version ns owner).deployment.containers, c.Admitted) ↔
      v.FitAsWritten := by
  rw [← withinPolicy_iff]
  constructor
  · exact fun h => h.1
  · intro h
    refine ⟨h, ?_⟩
    intro cm record project version ns owner hv c hc
    obtain ⟨hrequests, hlimits⟩ := rendered_requests cm record project version ns owner c hc
    rw [hv] at hrequests hlimits
    exact h.admitted hrequests hlimits

/-- `cpu_limit` of `9999m` passes validation with all other values at their defaults. -/
theorem cpu_limit_above_policy : ¬ ∀ (j : Json) (v : ResourceValues),
    ResourceValues.modelValidate j = some v → v.WithinPolicy := by
  intro all
  have hvalid : ∃ v, ResourceValues.modelValidate (.obj [("cpu_limit".toList, .str "9999m".toList)]) = some v ∧
      v.cpuLimit = "9999m".toList := ⟨_, rfl, rfl⟩
  obtain ⟨v, hv, hlimit⟩ := hvalid
  have hcap := (all _ v hv).cpu.2
  rw [hlimit] at hcap
  exact absurd hcap (by decide)

end DemoController
