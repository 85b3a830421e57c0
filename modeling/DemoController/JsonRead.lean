import DemoController.JsonText

/-!
# What `json.loads` accepts

A value that `json.loads` gives is one that can be written again: the names in its objects
are distinct, its integers are short enough for `int`, and its floats are literals. So a
program that reads a text without floats and writes the value passes it on unchanged.
-/

namespace DemoController

open Lib

/-! ### Integers -/

theorem digitsValue_lt {t : Text} {acc n m : ℕ} {open_ : Bool} (h : digitsValue acc open_ t = some n)
    (hacc : acc < 10 ^ m) : n < 10 ^ (m + (t.filter Char.isDigit).length) := by
  induction t generalizing acc m open_ with
  | nil =>
    rw [digitsValue] at h
    split at h
    · cases h
      exact hacc
    · cases h
  | cons c t ih =>
    rw [digitsValue] at h
    split at h
    · next hc =>
      have hdigit : c.toNat - '0'.toNat < 10 := by
        simp only [Char.isDigit, Bool.and_eq_true, decide_eq_true_eq, UInt32.le_iff_toNat_le, ge_iff_le] at hc
        have hnat : c.toNat = c.val.toNat := rfl
        have hzero : '0'.toNat = 48 := rfl
        have hnine : '9'.val.toNat = 57 := rfl
        omega
      have hnext : 10 * acc + (c.toNat - '0'.toNat) < 10 ^ (m + 1) := by
        rw [pow_succ]
        omega
      have hlt := ih h hnext
      rwa [List.filter_cons_of_pos hc, List.length_cons, Nat.add_comm _ 1, ← Nat.add_assoc]
    · next hc =>
      rw [List.filter_cons_of_neg hc]
      split at h
      · exact ih h hacc
      · cases h

theorem pyInt_short {t : Text} {n : ℤ} (h : pyInt t = some n) : (decimal n.natAbs).length ≤ 4300 := by
  unfold pyInt at h
  extract_lets s body at h
  split at h
  · cases h
  · next hcount =>
    obtain ⟨z, hz, hn⟩ := Option.map_eq_some_iff.mp h
    obtain ⟨k, hk, rfl⟩ : ∃ k : ℕ, digitsValue 0 false body = some k ∧ (k : ℤ) = z := by
      obtain ⟨k, hk, he⟩ := Option.bind_eq_some_iff.mp hz
      exact ⟨k, hk, Option.some.inj he⟩
    have hnat : n.natAbs = k := by
      rw [← hn]
      split
      · rw [Int.natAbs_neg, Int.natAbs_natCast]
      · exact Int.natAbs_natCast k
    have hlt := @digitsValue_lt body 0 k 0 false hk Nat.one_pos
    generalize hlimit : 4300 = limit at hcount ⊢
    rw [hnat, decimal_ofNat, Nat.length_toDigits_le_iff (by decide) (by omega)]
    exact hlt.trans_le (Nat.pow_le_pow_right (by decide) (by omega))

/-! ### Floats -/

def startsDigit (t : Text) : Prop := (t.head?.any Char.isDigit) = true

theorem takeWhile_isDigit (t : Text) : ∀ c ∈ t.takeWhile Char.isDigit, c.isDigit = true :=
  fun _ hc => List.mem_takeWhile_imp hc

theorem natPart_again {t w u : Text} (h : natPart t = some (w, u)) : startsDigit w ∧ natPart.Reads endsDigits w w := by
  cases t with
  | nil => cases h
  | cons c t =>
    rw [natPart] at h
    split at h
    · next hc =>
      cases h
      refine ⟨by rw [hc]; rfl, fun rest _ => ?_⟩
      rw [List.singleton_append, natPart, if_pos hc]
    · next hc =>
      split at h
      · next hdigit =>
        cases h
        refine ⟨hdigit, fun rest hrest => ?_⟩
        obtain ⟨htake, hdrop⟩ := takeWhile_segment (takeWhile_isDigit t) hrest
        rw [List.cons_append, natPart, if_neg hc, if_pos hdigit, htake, hdrop]
      · cases h

theorem intPart_again {t w u : Text} (h : intPart t = some (w, u)) :
    (startsDigit w ∨ ∃ v, w = '-' :: v ∧ startsDigit v) ∧ intPart.Reads endsDigits w w := by
  cases t with
  | nil => cases h
  | cons c t =>
    rw [intPart] at h
    split at h
    · next hc =>
      obtain ⟨⟨v, u'⟩, hv, he⟩ := Option.map_eq_some_iff.mp h
      cases he
      obtain ⟨hstarts, hreads⟩ := natPart_again hv
      refine ⟨.inr ⟨v, by rw [hc], hstarts⟩, fun rest hrest => ?_⟩
      rw [List.cons_append, intPart, if_pos hc, hreads rest hrest]
      rfl
    · obtain ⟨hstarts, hreads⟩ := natPart_again h
      refine ⟨.inl hstarts, fun rest hrest => ?_⟩
      have hread := hreads rest hrest
      cases w with
      | nil => cases hstarts
      | cons d w =>
        have hminus : d ≠ '-' := by
          rintro rfl
          cases hstarts
        rw [List.cons_append, intPart, if_neg hminus]
        exact hread

/-- `(\.[0-9]+)?`, behind which no digit and no point comes. -/
theorem fraction_again (t : Text) {rest : Text} (hrest : endsDigits rest) (hpoint : ∀ c ∈ rest.head?, c ≠ '.') :
    fraction ((fraction t).1 ++ rest) = ((fraction t).1, rest) ∧ ∀ c ∈ (fraction t).1.head?, c = '.' := by
  have hnone : fraction rest = ([], rest) := by
    cases rest with
    | nil => rfl
    | cons c rest => exact if_neg fun hc => hpoint c rfl hc.1
  cases t with
  | nil => exact ⟨hnone, fun c hc => by cases hc⟩
  | cons c t =>
    rw [fraction]
    split
    · next hc =>
      refine ⟨?_, fun d hd => (Option.some.inj hd).symm.trans hc.1⟩
      obtain ⟨htake, hdrop⟩ := takeWhile_segment (takeWhile_isDigit t) hrest
      have hhead : ((t.takeWhile Char.isDigit ++ rest).head?.any Char.isDigit) = true := by
        cases t with
        | nil => exact absurd hc.2 (by decide)
        | cons d t =>
          have hd : d.isDigit = true := hc.2
          rw [List.takeWhile_cons_of_pos hd]
          exact hd
      rw [List.cons_append, fraction, if_pos ⟨hc.1, hhead⟩, htake, hdrop]
    · exact ⟨hnone, fun c hc => by cases hc⟩

/-- `([eE][-+]?[0-9]+)?`. -/
theorem exponent_again (t : Text) {rest : Text} (hrest : endsNumber rest) :
    exponent ((exponent t).1 ++ rest) = ((exponent t).1, rest) ∧
      ∀ c ∈ (exponent t).1.head?, c = 'e' ∨ c = 'E' := by
  cases t with
  | nil => exact ⟨exponent_of_ends hrest, fun c hc => by cases hc⟩
  | cons c t =>
    rw [exponent]
    generalize hsign : t.takeWhile (fun d => d == '-' || d == '+') = sign
    generalize t.dropWhile (fun d => d == '-' || d == '+') = digits
    have hsigns : ∀ d ∈ sign, (d == '-' || d == '+') = true := by
      intro d hd
      rw [← hsign] at hd
      exact @List.mem_takeWhile_imp _ (fun d => d == '-' || d == '+') _ _ hd
    split
    · next hc =>
      refine ⟨?_, fun d hd => Option.some.inj hd ▸ hc.1⟩
      obtain ⟨htake, hdrop⟩ := takeWhile_segment (takeWhile_isDigit digits) (endsDigits_of_number hrest)
      have hhead : ((digits.takeWhile Char.isDigit ++ rest).head?.any Char.isDigit) = true := by
        cases digits with
        | nil => exact absurd hc.2.2 (by decide)
        | cons d digits =>
          have hd : d.isDigit = true := hc.2.2
          rw [List.takeWhile_cons_of_pos hd]
          exact hd
      have hunsigned : ∀ d ∈ (digits.takeWhile Char.isDigit ++ rest).head?, (d == '-' || d == '+') = false := by
        intro d hd
        rw [hd] at hhead
        have hdigit : d.isDigit = true := hhead
        rw [Bool.or_eq_false_iff, beq_eq_false_iff_ne, beq_eq_false_iff_ne]
        constructor
        all_goals
          rintro rfl
          cases hdigit
      obtain ⟨htake', hdrop'⟩ := takeWhile_segment hsigns hunsigned
      rw [List.cons_append, List.cons_append, List.append_assoc, exponent, htake', hdrop', if_pos ⟨hc.1, hc.2.1, hhead⟩,
        htake, hdrop]
      rfl
    · exact ⟨exponent_of_ends hrest, fun c hc => by cases hc⟩

theorem endsDigits_of_head {t rest : Text} {P : Char → Prop} (h : ∀ c ∈ t.head?, P c)
    (hP : ∀ c, P c → c.isDigit = false) (hrest : endsDigits rest) : endsDigits (t ++ rest) := by
  cases t with
  | nil => exact hrest
  | cons c t => exact fun d hd => Option.some.inj hd ▸ hP c (h c rfl)

theorem readNumber_readable {t rest : Text} {v : Json} (h : readNumber t = some (v, rest)) : v.Readable := by
  obtain ⟨⟨w, u⟩, hw, h⟩ := Option.bind_eq_some_iff.mp h
  dsimp only at h
  split at h
  · obtain ⟨n, hn, he⟩ := Option.map_eq_some_iff.mp h
    cases he
    rw [Json.Readable]
    exact pyInt_short hn
  · next hfloat =>
    cases h
    obtain ⟨hstarts, hint⟩ := intPart_again hw
    generalize hf : (fraction u).1 = f at hfloat ⊢
    generalize he : (exponent (fraction u).2).1 = e at hfloat ⊢
    rw [Json.Readable]
    constructor
    · intro rest hrest
      obtain ⟨hexponent, hehead⟩ := exponent_again (fraction u).2 hrest
      rw [he] at hexponent hehead
      have hletter : ∀ c : Char, c = 'e' ∨ c = 'E' → c.isDigit = false := by
        rintro c (rfl | rfl)
        · decide
        · decide
      have hdigits : endsDigits (e ++ rest) := endsDigits_of_head hehead hletter (endsDigits_of_number hrest)
      have hpoint : ∀ c ∈ (e ++ rest).head?, c ≠ '.' := by
        cases e with
        | nil => exact fun c hc => (hrest c hc).2.1
        | cons c e =>
          intro d hd
          obtain rfl := Option.some.inj hd
          rcases hehead c rfl with rfl | rfl
          · decide
          · decide
      obtain ⟨hfraction, hfhead⟩ := fraction_again u hdigits hpoint
      rw [hf] at hfraction hfhead
      have hstart : endsDigits (f ++ (e ++ rest)) :=
        endsDigits_of_head hfhead (fun c hc => by rw [hc]; decide) hdigits
      have hwhole : w ++ f ++ e ++ rest = w ++ (f ++ (e ++ rest)) := by
        rw [List.append_assoc, List.append_assoc]
      have hconstants :
          (jsonConstants.find? fun constant => constant.1.isPrefixOf (w ++ (f ++ (e ++ rest)))) = none := by
        refine constants_of_digit ?_
        rcases hstarts with hw | ⟨v, rfl, hv⟩
        · cases w with
          | nil => cases hw
          | cons c w => exact .inl hw
        · cases v with
          | nil => cases hv
          | cons c v => exact .inr ⟨_, rfl, hv⟩
      rw [hwhole, readAtom, hconstants]
      dsimp only
      rw [readNumber, hint _ hstart, Option.bind_some]
      dsimp only
      rw [hfraction]
      dsimp only
      rw [hexponent]
      exact if_neg hfloat
    · rcases hstarts with hw | ⟨v, rfl, hv⟩
      · cases w with
        | nil => cases hw
        | cons c w => exact ⟨c, _, rfl, .inl hw⟩
      · exact ⟨'-', _, rfl, .inr (.inl rfl)⟩

theorem constants_readable : ∀ constant ∈ jsonConstants, constant.2.Readable := by
  intro constant h
  simp only [jsonConstants, List.mem_cons, List.not_mem_nil, or_false] at h
  rcases h with rfl | rfl | rfl | rfl | rfl | rfl
  · rw [Json.Readable]
    trivial
  · rw [Json.Readable]
    trivial
  · rw [Json.Readable]
    trivial
  · rw [Json.Readable]
    exact ⟨fun rest _ => rfl, 'N', _, rfl, by decide⟩
  · rw [Json.Readable]
    exact ⟨fun rest _ => rfl, 'I', _, rfl, by decide⟩
  · rw [Json.Readable]
    exact ⟨fun rest _ => rfl, '-', _, rfl, by decide⟩

theorem yields_atom : readAtom.Yields Json.Readable := by
  intro t v rest h
  rw [readAtom] at h
  split at h
  · next constant hconstant =>
    cases h
    exact constants_readable constant (List.mem_of_find?_eq_some hconstant)
  · exact readNumber_readable h

/-! ### Values -/

theorem yields_items {α : Type} {P : α → Prop} {item : Reader Char α} (h : item.Yields P) (close : Char) :
    (readItems close item).Yields fun vs => ∀ v ∈ vs, P v := by
  intro t vs rest hvs
  rw [readItems] at hvs
  split at hvs
  · cases hvs
  · split at hvs
    · cases hvs
      exact fun v hv => absurd hv List.not_mem_nil
    · exact Reader.yields_separated h _ _ _ _ hvs

theorem yields_member {P : Json → Prop} {value : Reader Char Json} (h : value.Yields P) :
    (readMember value).Yields fun f => P f.2 := by
  intro t f rest hf
  cases t with
  | nil => cases hf
  | cons c t =>
    rw [readMember] at hf
    split at hf
    · obtain ⟨⟨name, u⟩, -, hf⟩ := Option.bind_eq_some_iff.mp hf
      dsimp only at hf
      split at hf
      · cases hf
      · split at hf
        · obtain ⟨⟨v, u'⟩, hv, he⟩ := Option.map_eq_some_iff.mp hf
          cases he
          exact h _ _ _ hv
        · cases hf
    · cases hf

theorem yields_value (fuel : ℕ) : (readValue fuel).Yields Json.Readable := by
  induction fuel with
  | zero =>
    intro t v rest h
    cases h
  | succ fuel ih =>
    intro t v rest h
    cases t with
    | nil => cases h
    | cons c t =>
      rw [readValue] at h
      split at h
      · obtain ⟨p, -, he⟩ := Option.map_eq_some_iff.mp h
        cases he
        rw [Json.Readable]
        trivial
      · split at h
        · refine ((yields_items (yields_member ih) '\x7d').map fun ms hms => ?_) _ _ _ h
          rw [readable_obj]
          exact ⟨Dict.nodup_ofItems ms, fun f hf => hms f (Dict.mem_of_ofItems hf)⟩
        · split at h
          · exact ((yields_items ih ']').map fun items hitems => (readable_arr items).mpr hitems) _ _ _ h
          · exact yields_atom _ _ _ h

theorem readable_of_loads {t : Text} {v : Json} (h : loads t = some v) : v.Readable := by
  obtain ⟨⟨w, rest⟩, hw, h⟩ := Option.bind_eq_some_iff.mp h
  dsimp only at h
  split at h
  · cases h
    exact yields_value _ _ _ _ hw
  · cases h

mutual

def Json.hasFloat : Json → Bool
  | .number _ => true
  | .arr items => Json.anyFloat items
  | .obj fields => Json.membersFloat fields
  | _ => false

def Json.anyFloat : List Json → Bool
  | [] => false
  | item :: items => item.hasFloat || Json.anyFloat items

def Json.membersFloat : List (Text × Json) → Bool
  | [] => false
  | (_, value) :: fields => value.hasFloat || Json.membersFloat fields

end

theorem hasFloat_arr (items : List Json) : (Json.arr items).hasFloat = false ↔ ∀ v ∈ items, v.hasFloat = false := by
  rw [Json.hasFloat]
  induction items with
  | nil => exact iff_of_true rfl fun v hv => absurd hv List.not_mem_nil
  | cons item items ih => rw [Json.anyFloat, Bool.or_eq_false_iff, ih, List.forall_mem_cons]

theorem hasFloat_obj (fields : List (Text × Json)) :
    (Json.obj fields).hasFloat = false ↔ ∀ f ∈ fields, f.2.hasFloat = false := by
  rw [Json.hasFloat]
  induction fields with
  | nil => exact iff_of_true rfl fun f hf => absurd hf List.not_mem_nil
  | cons f fields ih => rw [Json.membersFloat, Bool.or_eq_false_iff, ih, List.forall_mem_cons]

theorem Json.Readable.isPlain {v : Json} (h : v.Readable) (hf : v.hasFloat = false) : v.isPlain = true := by
  induction v using Json.deep with
  | null | bool b | str t => rw [Json.isPlain]
  | int n =>
    rw [Json.Readable] at h
    rwa [Json.isPlain, decide_eq_true_eq]
  | number text =>
    rw [Json.hasFloat] at hf
    cases hf
  | arr items ih =>
    rw [readable_arr] at h
    rw [hasFloat_arr] at hf
    exact (isPlain_arr items).mpr fun v hv => ih v hv (h v hv) (hf v hv)
  | obj fields ih =>
    rw [readable_obj] at h
    rw [hasFloat_obj] at hf
    exact (isPlain_obj fields).mpr ⟨h.1, fun f hm => ih f hm (h.2 f hm) (hf f hm)⟩

/-- A value without floats that is read from any text is plain, and the value of what is
written for it. -/
theorem loads_again {t : Text} {v : Json} (h : loads t = some v) (hf : v.hasFloat = false) : v.isPlain = true ∧
    loads (jsonText responseChar v) = some v ∧ loads (jsonText jsonChar v) = some v ∧
    loads (dumps v) = some v.sorted :=
  ⟨(readable_of_loads h).isPlain hf, loads_readable (readable_of_loads h)⟩

/-- A name given twice, an escape that stands for a pair of surrogates, spaces, and a number
in another way than it is written. -/
def looseText : Text :=
  " [\x7b\"a\": 1, \"b\" :-0, \"a\": \"\\ud83d\\ude00\"\x7d , null ,12] ".toList

theorem loads_again_example : ∃ v, loads looseText = some v ∧ loads (dumps v) = some v.sorted ∧
    jsonText responseChar v = ['[', '\x7b'] ++ "\"a\":\"".toList ++ [Char.ofNat 0x1f600] ++ "\",\"b\":0".toList ++
      ['\x7d'] ++ ",null,12]".toList := by
  have hb : (loads looseText).any (fun v => !v.hasFloat && jsonText responseChar v == ['[', '\x7b'] ++
      "\"a\":\"".toList ++ [Char.ofNat 0x1f600] ++ "\",\"b\":0".toList ++ ['\x7d'] ++ ",null,12]".toList) = true := by
    decide +kernel
  simp only [Option.any_eq_true, Bool.and_eq_true, Bool.not_eq_true'] at hb
  obtain ⟨v, hv, hfloat, htext⟩ := hb
  exact ⟨v, hv, (loads_again hv hfloat).2.2.2, eq_of_beq htext⟩

end DemoController
