import DemoController.Lib.Dict
import DemoController.Lib.Reader
import DemoController.WorkflowClient

/-!
# JSON texts (`json.loads`, `json.dumps`, `JSONResponse`)

Charm, controller and workflow client hand each other JSON. `json.loads` is a reader of the
grammar with Python's `dict` for an object; what one program writes is read back by the
other as the value that was written.
-/

namespace DemoController

open Lib

/-! ### `json.loads` -/

def isJsonSpace (c : Char) : Bool := c == ' ' || c == '\t' || c == '\n' || c == '\r'

def skipSpace (t : Text) : Text := t.dropWhile isJsonSpace

/-- `_decode_uXXXX`. -/
def readHex4 : Reader Char ℕ
  | a :: b :: c :: d :: t =>
    match hexValue? a.toNat, hexValue? b.toNat, hexValue? c.toNat, hexValue? d.toNat with
    | some a, some b, some c, some d => some (4096 * a + 256 * b + 16 * c + d, t)
    | _, _, _, _ => none
  | _ => none

/-- `BACKSLASH`. -/
def backslashed? (c : Char) : Option Char :=
  if c = '"' ∨ c = '\\' ∨ c = '/' then some c
  else if c = 'b' then some (Char.ofNat 0x08)
  else if c = 'f' then some (Char.ofNat 0x0c)
  else if c = 'n' then some '\n'
  else if c = 'r' then some '\r'
  else if c = 't' then some '\t'
  else none

/-- The second half of a surrogate pair behind `high`. -/
def readLow (high : ℕ) : Reader Char Char
  | c :: d :: t =>
    if c = '\\' ∧ d = 'u' then
      (readHex4 t).bind fun p =>
        if 0xdc00 ≤ p.1 ∧ p.1 ≤ 0xdfff then
          some (Char.ofNat (0x10000 + (high - 0xd800) * 0x400 + (p.1 - 0xdc00)), p.2)
        else none
    else none
  | _ => none

/-- One character of a string. A surrogate outside a pair is no character. -/
def readJsonChar : Reader Char Char
  | [] => none
  | c :: t =>
    if c = '\\' then
      match t with
      | [] => none
      | d :: t =>
        if d = 'u' then
          (readHex4 t).bind fun p =>
            if 0xd800 ≤ p.1 ∧ p.1 ≤ 0xdbff then readLow p.1 p.2
            else if 0xdc00 ≤ p.1 ∧ p.1 ≤ 0xdfff then none
            else some (Char.ofNat p.1, p.2)
        else (backslashed? d).map fun e => (e, t)
    else if c.toNat < 0x20 then none
    else some (c, t)

/-- `scanstring`, behind the quotation mark. -/
def readJsonString : Reader Char Text := fun t => Reader.upTo '"' readJsonChar (t.length + 1) t

/-- `0|[1-9][0-9]*`. -/
def natPart : Reader Char Text
  | [] => none
  | c :: t =>
    if c = '0' then some ([c], t)
    else if c.isDigit then some (c :: t.takeWhile Char.isDigit, t.dropWhile Char.isDigit)
    else none

/-- `-?(?:0|[1-9][0-9]*)`. -/
def intPart : Reader Char Text
  | [] => none
  | c :: t => if c = '-' then (natPart t).map fun p => (c :: p.1, p.2) else natPart (c :: t)

/-- `(\.[0-9]+)?`. -/
def fraction : Text → Text × Text
  | [] => ([], [])
  | c :: t =>
    if c = '.' ∧ t.head?.any Char.isDigit then (c :: t.takeWhile Char.isDigit, t.dropWhile Char.isDigit)
    else ([], c :: t)

/-- `([eE][-+]?[0-9]+)?`. -/
def exponent : Text → Text × Text
  | [] => ([], [])
  | c :: t =>
    let sign := t.takeWhile fun d => d == '-' || d == '+'
    let digits := t.dropWhile fun d => d == '-' || d == '+'
    if (c = 'e' ∨ c = 'E') ∧ sign.length ≤ 1 ∧ digits.head?.any Char.isDigit then
      (c :: sign ++ digits.takeWhile Char.isDigit, digits.dropWhile Char.isDigit)
    else ([], c :: t)

/-- `_match_number`; a number with a fraction or an exponent is a float. -/
def readNumber : Reader Char Json := fun t =>
  (intPart t).bind fun p =>
    let f := fraction p.2
    let e := exponent f.2
    if f.1 = [] ∧ e.1 = [] then (pyInt p.1).map fun n => (.int n, p.2)
    else some (.number (p.1 ++ f.1 ++ e.1), e.2)

def jsonConstants : List (Text × Json) :=
  [("null".toList, .null), ("true".toList, .bool true), ("false".toList, .bool false),
    ("NaN".toList, .number "NaN".toList), ("Infinity".toList, .number "Infinity".toList),
    ("-Infinity".toList, .number "-Infinity".toList)]

/-- The constants, and numbers for the rest. -/
def readAtom : Reader Char Json := fun t =>
  match jsonConstants.find? fun constant => constant.1.isPrefixOf t with
  | some constant => some (constant.2, t.drop constant.1.length)
  | none => readNumber t

/-- `"name": value`. -/
def readMember (value : Reader Char Json) : Reader Char (Text × Json)
  | [] => none
  | c :: t =>
    if c = '"' then
      (readJsonString t).bind fun p =>
        match skipSpace p.2 with
        | [] => none
        | d :: t => if d = ':' then (value (skipSpace t)).map fun q => ((p.1, q.1), q.2) else none
    else none

/-- Items up to `close`, or none at all. -/
def readItems {α : Type} (close : Char) (item : Reader Char α) : Reader Char (List α) := fun t =>
  match skipSpace t with
  | [] => none
  | c :: t =>
    if c = close then some ([], t) else Reader.separated skipSpace ',' close item (t.length + 1) (c :: t)

/-- `scan_once`; `fuel` bounds the depth. -/
def readValue : ℕ → Reader Char Json
  | 0, _ => none
  | _ + 1, [] => none
  | fuel + 1, c :: t =>
    if c = '"' then (readJsonString.map Json.str) t
    else if c = '\x7b' then ((readItems '\x7d' (readMember (readValue fuel))).map fun ms => .obj (Dict.ofItems ms)) t
    else if c = '[' then ((readItems ']' (readValue fuel)).map .arr) t
    else readAtom (c :: t)

/-- `json.loads(t)`, `none` where it raises, and where the value has a lone surrogate: no `Text` has one. -/
def loads (t : Text) : Option Json :=
  (readValue (t.length + 1) (skipSpace t)).bind fun p => if skipSpace p.2 = [] then some p.1 else none

/-! ### Writing -/

/-- The character of a `JSONResponse` (`ensure_ascii=False`). -/
def responseChar (c : Char) : Text :=
  if c = '"' ∨ c = '\\' then ['\\', c]
  else if c = '\n' then ['\\', 'n']
  else if c = '\r' then ['\\', 'r']
  else if c = '\t' then ['\\', 't']
  else if c.toNat = 0x0c then ['\\', 'f']
  else if c.toNat = 0x08 then ['\\', 'b']
  else if c.toNat < 0x20 then ['\\', 'u'] ++ hex4 c.toNat
  else [c]

def quoteWith (escape : Char → Text) (t : Text) : Text := ['"'] ++ t.flatMap escape ++ ['"']

mutual

/-- `json.dumps(value, separators=(",", ":"))`, each character written as `escape` says. The
text of a float is that of its literal, not its `repr`: what is proved of written texts is
about values without floats. -/
def jsonText (escape : Char → Text) : Json → Text
  | .null => "null".toList
  | .bool b => if b then "true".toList else "false".toList
  | .int n => decimal n
  | .number text => text
  | .str t => quoteWith escape t
  | .arr items => ['['] ++ List.intercalate [','] (jsonTexts escape items) ++ [']']
  | .obj fields => ['\x7b'] ++ List.intercalate [','] (jsonMembers escape fields) ++ ['\x7d']

def jsonTexts (escape : Char → Text) : List Json → List Text
  | [] => []
  | item :: items => jsonText escape item :: jsonTexts escape items

def jsonMembers (escape : Char → Text) : List (Text × Json) → List Text
  | [] => []
  | (name, value) :: fields =>
    (quoteWith escape name ++ [':'] ++ jsonText escape value) :: jsonMembers escape fields

end

/-! ### Strings -/

theorem hexValue_digitChar : ∀ n < 16, hexValue? n.digitChar.toNat = some n := by decide

theorem reads_hex4 {n : ℕ} (h : n < 65536) : readHex4.Reads Reader.anything (hex4 n) n := by
  intro rest _
  have h0 := hexValue_digitChar (n / 4096 % 16) (by omega)
  have h1 := hexValue_digitChar (n / 256 % 16) (by omega)
  have h2 := hexValue_digitChar (n / 16 % 16) (by omega)
  have h3 := hexValue_digitChar (n % 16) (by omega)
  have htext : hex4 n ++ rest = (n / 4096 % 16).digitChar :: (n / 256 % 16).digitChar :: (n / 16 % 16).digitChar ::
      (n % 16).digitChar :: rest := rfl
  have hsum : 4096 * (n / 4096 % 16) + 256 * (n / 256 % 16) + 16 * (n / 16 % 16) + n % 16 = n := by omega
  rw [htext, readHex4, h0, h1, h2, h3]
  dsimp only
  rw [hsum]

theorem toNat_lt (c : Char) : c.toNat < 0xd800 ∨ (0xdfff < c.toNat ∧ c.toNat < 0x110000) := c.valid

/-- `\\uXXXX` for a character of the first plane. -/
theorem reads_escaped {c : Char} (h : c.toNat < 0x10000) :
    readJsonChar.Reads Reader.anything (['\\', 'u'] ++ hex4 c.toNat) c := by
  intro rest _
  have hvalid := toNat_lt c
  have htext : ['\\', 'u'] ++ hex4 c.toNat ++ rest = '\\' :: 'u' :: (hex4 c.toNat ++ rest) := rfl
  rw [htext, readJsonChar, if_pos rfl, if_pos rfl, reads_hex4 h rest trivial, Option.bind_some]
  dsimp only
  rw [if_neg (by omega), if_neg (by omega), Char.ofNat_toNat]

/-- A surrogate pair for a character of another plane. -/
theorem reads_surrogates {c : Char} (h : 0x10000 ≤ c.toNat) : readJsonChar.Reads Reader.anything
    (['\\', 'u'] ++ hex4 (0xd800 + (c.toNat - 0x10000) / 0x400 % 0x400) ++ ['\\', 'u'] ++
      hex4 (0xdc00 + (c.toNat - 0x10000) % 0x400)) c := by
  intro rest _
  have hvalid := toNat_lt c
  generalize hhigh : 0xd800 + (c.toNat - 0x10000) / 0x400 % 0x400 = high
  generalize hlow : 0xdc00 + (c.toNat - 0x10000) % 0x400 = low
  have htext : ['\\', 'u'] ++ hex4 high ++ ['\\', 'u'] ++ hex4 low ++ rest =
      '\\' :: 'u' :: (hex4 high ++ ('\\' :: 'u' :: (hex4 low ++ rest))) := by
    simp only [List.append_assoc, List.cons_append, List.nil_append]
  have hcode : 0x10000 + (high - 0xd800) * 0x400 + (low - 0xdc00) = c.toNat := by omega
  rw [htext, readJsonChar, if_pos rfl, if_pos rfl, reads_hex4 (by omega) _ trivial, Option.bind_some]
  dsimp only
  rw [if_pos (by omega), readLow, if_pos ⟨rfl, rfl⟩, reads_hex4 (by omega) rest trivial, Option.bind_some]
  dsimp only
  rw [if_pos (by omega), hcode, Char.ofNat_toNat]

/-- `\\` and a letter. -/
theorem reads_backslashed {c d : Char} (hd : d ≠ 'u') (h : backslashed? d = some c) :
    readJsonChar.Reads Reader.anything ['\\', d] c := by
  intro rest _
  have htext : ['\\', d] ++ rest = '\\' :: d :: rest := rfl
  rw [htext, readJsonChar, if_pos rfl, if_neg hd, h]
  rfl

theorem reads_verbatim {c : Char} (hc : c ≠ '\\') (h : 0x20 ≤ c.toNat) :
    readJsonChar.Reads Reader.anything [c] c := by
  intro rest _
  have htext : [c] ++ rest = c :: rest := rfl
  rw [htext, readJsonChar.eq_def]
  dsimp only
  rw [if_neg hc, if_neg (by omega)]

/-- A way of writing characters that `scanstring` reads. -/
structure Escapes (escape : Char → Text) : Prop where
  reads : ∀ c, readJsonChar.Reads Reader.anything (escape c) c
  head : ∀ c, ∃ d t, escape c = d :: t ∧ d ≠ '"'

/-- The escapes both writers have, and what they do with the other characters. -/
theorem escapes_of {escape other : Char → Text} (h : ∀ c, escape c =
    if c = '"' ∨ c = '\\' then ['\\', c]
    else if c = '\n' then ['\\', 'n']
    else if c = '\r' then ['\\', 'r']
    else if c = '\t' then ['\\', 't']
    else if c.toNat = 0x0c then ['\\', 'f']
    else if c.toNat = 0x08 then ['\\', 'b']
    else other c)
    (reads : ∀ c, c ≠ '"' → c ≠ '\\' → readJsonChar.Reads Reader.anything (other c) c)
    (head : ∀ c, c ≠ '"' → ∃ d t, other c = d :: t ∧ d ≠ '"') : Escapes escape := by
  have hcode {c : Char} {n : ℕ} (hc : c.toNat = n) : some (Char.ofNat n) = some c := by
    rw [← hc, Char.ofNat_toNat]
  refine ⟨fun c => ?_, fun c => ?_⟩
  · rw [h c]
    by_cases hquote : c = '"' ∨ c = '\\'
    · rw [if_pos hquote]
      refine reads_backslashed ?_ (if_pos (hquote.elim .inl fun hc => .inr (.inl hc)))
      rintro rfl
      rcases hquote with hc | hc
      · exact absurd hc (by decide)
      · exact absurd hc (by decide)
    · rw [if_neg hquote]
      obtain ⟨hc, hc'⟩ := not_or.mp hquote
      split
      · next hn => exact reads_backslashed (by decide) (hn ▸ rfl)
      · split
        · next hr => exact reads_backslashed (by decide) (hr ▸ rfl)
        · split
          · next ht => exact reads_backslashed (by decide) (ht ▸ rfl)
          · split
            · next hf => exact reads_backslashed (by decide) (hcode hf)
            · split
              · next hb => exact reads_backslashed (by decide) (hcode hb)
              · exact reads c hc hc'
  · have hslash : '\\' ≠ '"' := by decide
    rw [h c]
    split
    · exact ⟨_, _, rfl, hslash⟩
    · next hquote =>
      split_ifs
      all_goals first
        | exact ⟨_, _, rfl, hslash⟩
        | exact head c (not_or.mp hquote).1

theorem escapes_jsonChar : Escapes jsonChar := by
  refine escapes_of (fun c => rfl) ?_ ?_
  · intro c hc hc'
    split
    · next h => exact reads_verbatim hc' h.1
    · split
      · next h => exact reads_escaped h
      · next h => exact reads_surrogates (not_lt.mp h)
  · intro c hc
    split_ifs
    · exact ⟨_, _, rfl, hc⟩
    · exact ⟨_, _, rfl, by decide⟩
    · exact ⟨_, _, rfl, by decide⟩

theorem escapes_responseChar : Escapes responseChar := by
  refine escapes_of (fun c => rfl) ?_ ?_
  · intro c hc hc'
    split
    · next h => exact reads_escaped (by omega)
    · next h => exact reads_verbatim hc' (not_lt.mp h)
  · intro c hc
    split_ifs
    · exact ⟨_, _, rfl, by decide⟩
    · exact ⟨_, _, rfl, hc⟩

/-- `scanstring` reads a quoted text back. -/
theorem reads_quoted {escape : Char → Text} (h : Escapes escape) (t : Text) :
    readJsonString.Reads Reader.anything (t.flatMap escape ++ ['"']) t := by
  intro rest _
  have hlength : t.length ≤ (t.flatMap escape).length := by
    induction t with
    | nil => exact Nat.le_refl 0
    | cons c t ih =>
      obtain ⟨d, u, hd, -⟩ := h.head c
      rw [List.flatMap_cons, hd, List.length_append, List.length_cons, List.length_cons]
      omega
  have hread := @Reader.reads_upTo Char Char _ '"' readJsonChar (t.map fun c => (escape c, c))
    (fun p hp => by
      obtain ⟨c, -, rfl⟩ := List.mem_map.mp hp
      exact h.reads c)
    (fun p hp => by
      obtain ⟨c, -, rfl⟩ := List.mem_map.mp hp
      exact h.head c)
    ((t.flatMap escape ++ ['"'] ++ rest).length + 1)
    (by
      rw [List.length_map, List.length_append, List.length_append]
      omega) rest trivial
  rw [List.map_map, List.map_map] at hread
  have hvalues : t.map (Prod.snd ∘ fun c => (escape c, c)) = t := List.map_id t
  rw [hvalues] at hread
  exact hread

/-! ### Numbers -/

/-- The text does not go on with a digit. -/
def endsDigits (t : Text) : Prop := ∀ c ∈ t.head?, c.isDigit = false

/-- The text does not continue a number. -/
def endsNumber (t : Text) : Prop := ∀ c ∈ t.head?, c.isDigit = false ∧ c ≠ '.' ∧ c ≠ 'e' ∧ c ≠ 'E'

theorem endsDigits_of_number {t : Text} (h : endsNumber t) : endsDigits t := fun c hc => (h c hc).1

theorem endsNumber_cons {c : Char} (t : Text) (h : c.isDigit = false ∧ c ≠ '.' ∧ c ≠ 'e' ∧ c ≠ 'E') :
    endsNumber (c :: t) := by
  intro d hd
  rw [← Option.some.inj hd]
  exact h

theorem toDigits_head {k : ℕ} (h : 0 < k) : ∃ c ds, Nat.toDigits 10 k = c :: ds ∧ c ≠ '0' := by
  induction k using Nat.strongRecOn with
  | _ k ih =>
    by_cases hk : k < 10
    · refine ⟨k.digitChar, [], Nat.toDigits_of_lt_base hk, ?_⟩
      have hdigit : ∀ d < 10, 0 < d → d.digitChar ≠ '0' := by decide
      exact hdigit k hk h
    · obtain ⟨c, ds, hds, hc⟩ := ih (k / 10) (by omega) (by omega)
      rw [Nat.toDigits_of_base_le (by omega) (by omega), hds]
      exact ⟨c, ds ++ [(k % 10).digitChar], rfl, hc⟩

theorem takeWhile_segment {p : Char → Bool} {w rest : Text} (hw : ∀ c ∈ w, p c = true)
    (hrest : ∀ c ∈ rest.head?, p c = false) : (w ++ rest).takeWhile p = w ∧ (w ++ rest).dropWhile p = rest := by
  have htail : rest.takeWhile p = [] ∧ rest.dropWhile p = rest := by
    cases rest with
    | nil => exact ⟨rfl, rfl⟩
    | cons c t =>
      have hc := hrest c rfl
      exact ⟨List.takeWhile_cons_of_neg (by simp [hc]), List.dropWhile_cons_of_neg (by simp [hc])⟩
  rw [List.takeWhile_append_of_pos hw, List.dropWhile_append_of_pos hw, htail.1, htail.2, List.append_nil]
  exact ⟨rfl, rfl⟩

theorem reads_natPart (k : ℕ) : natPart.Reads endsNumber (decimal k) (decimal k) := by
  intro rest hrest
  have hdigits := decimal_digits (Int.natCast_nonneg k)
  rcases Nat.eq_zero_or_pos k with rfl | hk
  · rfl
  · obtain ⟨c, ds, hds, hc⟩ := toDigits_head hk
    rw [decimal_ofNat, hds] at hdigits ⊢
    obtain ⟨htake, hdrop⟩ := takeWhile_segment (fun d hd => hdigits d (List.mem_cons_of_mem _ hd))
      (endsDigits_of_number hrest)
    rw [List.cons_append, natPart, if_neg hc, if_pos (hdigits c (List.mem_cons_self ..)), htake, hdrop]

theorem reads_intPart (n : ℤ) : intPart.Reads endsNumber (decimal n) (decimal n) := by
  intro rest hrest
  cases n with
  | ofNat k =>
    have hread := reads_natPart k rest hrest
    change intPart (decimal (k : ℤ) ++ rest) = some (decimal (k : ℤ), rest)
    cases hd : decimal (k : ℤ) with
    | nil => exact absurd hd (decimal_ne_nil (Int.natCast_nonneg k))
    | cons c ds =>
      have hc := decimal_digits (Int.natCast_nonneg k) c (by rw [hd]; exact List.mem_cons_self ..)
      have hminus : c ≠ '-' := fun h => absurd (h ▸ hc) (by decide)
      rw [hd] at hread
      rw [List.cons_append, intPart, if_neg hminus]
      exact hread
  | negSucc k =>
    rw [decimal_negSucc, List.cons_append, intPart, if_pos rfl, reads_natPart (k + 1) rest hrest]
    rfl

theorem pyInt_of_decimal {n : ℤ} (h : (decimal n.natAbs).length ≤ 4300) : pyInt (decimal n) = some n := by
  cases n with
  | ofNat k => exact pyInt_decimal (Int.natCast_nonneg k) h
  | negSucc k =>
    have hpos : 0 ≤ ((k + 1 : ℕ) : ℤ) := Int.natCast_nonneg _
    have hdigits := decimal_digits hpos
    have hlength : (decimal ((k + 1 : ℕ) : ℤ)).length ≤ 4300 := h
    have hstrip : strip isIntSpace ('-' :: decimal ((k + 1 : ℕ) : ℤ)) = '-' :: decimal ((k + 1 : ℕ) : ℤ) := by
      refine strip_of_forall fun c hc => ?_
      rcases List.mem_cons.mp hc with rfl | hc
      · decide
      · exact not_isIntSpace_of_digit (hdigits c hc)
    have hvalue : digitsValue 0 false (decimal ((k + 1 : ℕ) : ℤ)) = some (k + 1) := by
      cases hd : decimal ((k + 1 : ℕ) : ℤ) with
      | nil => exact absurd hd (decimal_ne_nil hpos)
      | cons c ds =>
        rw [hd] at hdigits
        have hc := hdigits c (List.mem_cons_self ..)
        have hopen : digitsValue 0 false (c :: ds) = digitsValue 0 true (c :: ds) := by
          rw [digitsValue, digitsValue, if_pos hc, if_pos hc]
        rw [hopen, digitsValue_digits hdigits, ← hd, decimal_ofNat, Nat.ofDigitChars_ten_toDigits]
    have hcount : ¬4300 < ((decimal ((k + 1 : ℕ) : ℤ)).filter Char.isDigit).length :=
      Nat.not_lt.mpr ((List.length_filter_le _ _).trans hlength)
    rw [decimal_negSucc]
    unfold pyInt
    simp only [hstrip]
    rw [if_neg hcount, hvalue, Option.map_eq_some_iff]
    exact ⟨((k + 1 : ℕ) : ℤ), rfl, if_pos rfl⟩

theorem decimal_short {n : ℤ} (h : -2 ^ 63 ≤ n ∧ n < 2 ^ 63) : (decimal n.natAbs).length ≤ 4300 := by
  rw [decimal_ofNat]
  have hlength : (Nat.toDigits 10 n.natAbs).length ≤ 19 :=
    (Nat.length_toDigits_le_iff (by decide) (by decide)).mpr (by omega)
  omega

theorem fraction_of_ends {t : Text} (h : endsNumber t) : fraction t = ([], t) := by
  cases t with
  | nil => rfl
  | cons c t => exact if_neg fun hc => (h c rfl).2.1 hc.1

theorem exponent_of_ends {t : Text} (h : endsNumber t) : exponent t = ([], t) := by
  cases t with
  | nil => rfl
  | cons c t => exact if_neg fun hc => hc.1.elim (h c rfl).2.2.1 (h c rfl).2.2.2

theorem constants_heads : ∀ w ∈ jsonConstants.map Prod.fst,
    ∃ x y t, w = x :: y :: t ∧ x.isDigit = false ∧ (x = '-' → y.isDigit = false) := by
  have hconstants : jsonConstants.map Prod.fst = [['n', 'u', 'l', 'l'], ['t', 'r', 'u', 'e'],
      ['f', 'a', 'l', 's', 'e'], ['N', 'a', 'N'], ['I', 'n', 'f', 'i', 'n', 'i', 't', 'y'],
      ['-', 'I', 'n', 'f', 'i', 'n', 'i', 't', 'y']] := by decide
  rw [hconstants]
  intro w hw
  simp only [List.mem_cons, List.not_mem_nil, or_false] at hw
  rcases hw with rfl | rfl | rfl | rfl | rfl | rfl
  all_goals exact ⟨_, _, _, rfl, by decide, by decide⟩

/-- No constant begins like a number. -/
theorem constants_of_digit {t : Text} (h : (t.head?.any Char.isDigit) = true ∨
    ∃ u, t = '-' :: u ∧ (u.head?.any Char.isDigit) = true) :
    (jsonConstants.find? fun constant => constant.1.isPrefixOf t) = none := by
  rw [List.find?_eq_none]
  intro constant hmem hprefix
  obtain ⟨x, y, w, hxy, hx, hy⟩ := constants_heads _ (List.mem_map_of_mem hmem)
  obtain ⟨u, hu⟩ := List.isPrefixOf_iff_prefix.mp hprefix
  rw [hxy, List.cons_append, List.cons_append] at hu
  subst hu
  rcases h with h | ⟨v, hv, h⟩
  · exact absurd (h.symm.trans hx) (by decide)
  · obtain ⟨rfl, rfl⟩ := List.cons.inj hv
    exact absurd (h.symm.trans (hy rfl)) (by decide)

theorem head_decimal (k : ℕ) (rest : Text) : ((decimal (k : ℤ) ++ rest).head?.any Char.isDigit) = true := by
  cases hd : decimal (k : ℤ) with
  | nil => exact absurd hd (decimal_ne_nil (Int.natCast_nonneg k))
  | cons c ds => exact decimal_digits (Int.natCast_nonneg k) c (by rw [hd]; exact List.mem_cons_self ..)

theorem constants_of_decimal (n : ℤ) (rest : Text) :
    (jsonConstants.find? fun constant => constant.1.isPrefixOf (decimal n ++ rest)) = none := by
  refine constants_of_digit ?_
  cases n with
  | ofNat k => exact .inl (head_decimal k rest)
  | negSucc k =>
    rw [decimal_negSucc]
    exact .inr ⟨_, rfl, head_decimal (k + 1) rest⟩

theorem reads_int {n : ℤ} (h : (decimal n.natAbs).length ≤ 4300) :
    readAtom.Reads endsNumber (decimal n) (.int n) := by
  intro rest hrest
  rw [readAtom, constants_of_decimal]
  dsimp only
  rw [readNumber, reads_intPart n rest hrest, Option.bind_some]
  dsimp only
  rw [fraction_of_ends hrest, exponent_of_ends hrest, if_pos ⟨rfl, rfl⟩, pyInt_of_decimal h]
  rfl

/-! ### Values -/

/-- Induction into the items of an array and the values of an object. -/
@[elab_as_elim]
theorem Json.deep {motive : Json → Prop} (null : motive .null) (bool : ∀ b, motive (.bool b))
    (int : ∀ n, motive (.int n)) (number : ∀ text, motive (.number text)) (str : ∀ t, motive (.str t))
    (arr : ∀ items, (∀ v ∈ items, motive v) → motive (.arr items))
    (obj : ∀ fields, (∀ f ∈ fields, motive f.2) → motive (.obj fields)) (v : Json) : motive v :=
  match v with
  | .null => null
  | .bool b => bool b
  | .int n => int n
  | .number text => number text
  | .str t => str t
  | .arr items => arr items fun v _ => Json.deep null bool int number str arr obj v
  | .obj fields => obj fields fun f _ => Json.deep null bool int number str arr obj f.2
termination_by v
decreasing_by
  · have := List.sizeOf_lt_of_mem ‹_›
    simp only [Json.arr.sizeOf_spec]
    omega
  · have hf := List.sizeOf_lt_of_mem ‹f ∈ fields›
    obtain ⟨name, value⟩ := f
    simp only [Json.obj.sizeOf_spec, Prod.mk.sizeOf_spec] at hf ⊢
    omega

theorem jsonTexts_eq (escape : Char → Text) (items : List Json) :
    jsonTexts escape items = items.map (jsonText escape) := by
  induction items with
  | nil => rw [jsonTexts, List.map_nil]
  | cons item items ih => rw [jsonTexts, ih, List.map_cons]

def memberText (escape : Char → Text) (f : Text × Json) : Text :=
  quoteWith escape f.1 ++ [':'] ++ jsonText escape f.2

theorem jsonMembers_eq (escape : Char → Text) (fields : List (Text × Json)) :
    jsonMembers escape fields = fields.map (memberText escape) := by
  induction fields with
  | nil => rw [jsonMembers, List.map_nil]
  | cons f fields ih => rw [jsonMembers, ih, List.map_cons, memberText]

mutual

/-- What `json.dumps` writes and `json.loads` gives back as it is: no float, no integer of
more than 4300 digits, and the names of an object distinct as in a `dict`. -/
def Json.isPlain : Json → Bool
  | .null => true
  | .bool _ => true
  | .int n => (decimal n.natAbs).length ≤ 4300
  | .number _ => false
  | .str _ => true
  | .arr items => Json.allPlain items
  | .obj fields => (fields.map Prod.fst).Nodup && Json.membersPlain fields

def Json.allPlain : List Json → Bool
  | [] => true
  | item :: items => item.isPlain && Json.allPlain items

def Json.membersPlain : List (Text × Json) → Bool
  | [] => true
  | (_, value) :: fields => value.isPlain && Json.membersPlain fields

end

theorem isPlain_arr (items : List Json) : (Json.arr items).isPlain = true ↔ ∀ v ∈ items, v.isPlain = true := by
  rw [Json.isPlain]
  induction items with
  | nil => exact iff_of_true rfl fun v hv => absurd hv List.not_mem_nil
  | cons item items ih => rw [Json.allPlain, Bool.and_eq_true, ih, List.forall_mem_cons]

theorem isPlain_obj (fields : List (Text × Json)) : (Json.obj fields).isPlain = true ↔
    (fields.map Prod.fst).Nodup ∧ ∀ f ∈ fields, f.2.isPlain = true := by
  rw [Json.isPlain, Bool.and_eq_true, decide_eq_true_eq]
  refine and_congr_right fun hnames => ?_
  clear hnames
  induction fields with
  | nil => exact iff_of_true rfl fun f hf => absurd hf List.not_mem_nil
  | cons f fields ih => rw [Json.membersPlain, Bool.and_eq_true, ih, List.forall_mem_cons]

/-- The literal of a float. -/
structure FloatText (text : Text) : Prop where
  reads : readAtom.Reads endsNumber text (.number text)
  head : ∃ c u, text = c :: u ∧ (c.isDigit = true ∨ c = '-' ∨ c = 'N' ∨ c = 'I')

mutual

/-- What `json.loads` reads back from its text, floats included. -/
def Json.Readable : Json → Prop
  | .null => True
  | .bool _ => True
  | .int n => (decimal n.natAbs).length ≤ 4300
  | .number text => FloatText text
  | .str _ => True
  | .arr items => Json.AllReadable items
  | .obj fields => (fields.map Prod.fst).Nodup ∧ Json.MembersReadable fields

def Json.AllReadable : List Json → Prop
  | [] => True
  | item :: items => item.Readable ∧ Json.AllReadable items

def Json.MembersReadable : List (Text × Json) → Prop
  | [] => True
  | (_, value) :: fields => value.Readable ∧ Json.MembersReadable fields

end

theorem readable_arr (items : List Json) : (Json.arr items).Readable ↔ ∀ v ∈ items, v.Readable := by
  rw [Json.Readable]
  induction items with
  | nil => exact iff_of_true (by rw [Json.AllReadable]; trivial) fun v hv => absurd hv List.not_mem_nil
  | cons item items ih => rw [Json.AllReadable, ih, List.forall_mem_cons]

theorem readable_obj (fields : List (Text × Json)) : (Json.obj fields).Readable ↔
    (fields.map Prod.fst).Nodup ∧ ∀ f ∈ fields, f.2.Readable := by
  rw [Json.Readable]
  refine and_congr_right fun hnames => ?_
  clear hnames
  induction fields with
  | nil => exact iff_of_true (by rw [Json.MembersReadable]; trivial) fun f hf => absurd hf List.not_mem_nil
  | cons f fields ih => rw [Json.MembersReadable, ih, List.forall_mem_cons]

theorem Json.readable_of_isPlain {v : Json} (h : v.isPlain = true) : v.Readable := by
  induction v using Json.deep with
  | null => rw [Json.Readable]; trivial
  | bool b => rw [Json.Readable]; trivial
  | int n =>
    rw [Json.isPlain, decide_eq_true_eq] at h
    rwa [Json.Readable]
  | number text => rw [Json.isPlain] at h; cases h
  | str t => rw [Json.Readable]; trivial
  | arr items ih =>
    rw [isPlain_arr] at h
    exact (readable_arr items).mpr fun v hv => ih v hv (h v hv)
  | obj fields ih =>
    rw [isPlain_obj] at h
    exact (readable_obj fields).mpr ⟨h.1, fun f hf => ih f hf (h.2 f hf)⟩

/-- A value's text begins with no space and with no closing bracket. -/
def opensValue (t : Text) : Prop := ∃ c u, t = c :: u ∧ isJsonSpace c = false ∧ c ≠ ']' ∧ c ≠ '\x7d'

theorem opensValue_digit {c : Char} (u : Text) (hc : c.isDigit = true) : opensValue (c :: u) := by
  have hother {d : Char} (hd : d.isDigit = false) : c ≠ d := by
    rintro rfl
    rw [hc] at hd
    cases hd
  refine ⟨c, u, rfl, ?_, hother (by decide), hother (by decide)⟩
  rw [isJsonSpace, beq_eq_false_iff_ne.mpr (hother (by decide)), beq_eq_false_iff_ne.mpr (hother (by decide)),
    beq_eq_false_iff_ne.mpr (hother (by decide)), beq_eq_false_iff_ne.mpr (hother (by decide))]
  rfl

theorem opens_jsonText (escape : Char → Text) {v : Json} (h : v.Readable) : opensValue (jsonText escape v) := by
  cases v with
  | null => exact ⟨'n', _, by rw [jsonText]; rfl, by decide, by decide, by decide⟩
  | bool b =>
    cases b with
    | false => exact ⟨'f', _, by rw [jsonText]; rfl, by decide, by decide, by decide⟩
    | true => exact ⟨'t', _, by rw [jsonText]; rfl, by decide, by decide, by decide⟩
  | int n =>
    rw [jsonText]
    cases n with
    | ofNat k =>
      change opensValue (decimal (k : ℤ))
      cases hd : decimal (k : ℤ) with
      | nil => exact absurd hd (decimal_ne_nil (Int.natCast_nonneg k))
      | cons c ds =>
        exact opensValue_digit ds (decimal_digits (Int.natCast_nonneg k) c (by rw [hd]; exact List.mem_cons_self ..))
    | negSucc k =>
      rw [decimal_negSucc]
      exact ⟨'-', _, rfl, by decide, by decide, by decide⟩
  | number text =>
    rw [Json.Readable] at h
    obtain ⟨c, u, rfl, hc⟩ := h.head
    rw [jsonText]
    rcases hc with hc | rfl | rfl | rfl
    · exact opensValue_digit u hc
    all_goals exact ⟨_, u, rfl, by decide, by decide, by decide⟩
  | str t => exact ⟨'"', _, by rw [jsonText]; rfl, by decide, by decide, by decide⟩
  | arr items => exact ⟨'[', _, by rw [jsonText]; rfl, by decide, by decide, by decide⟩
  | obj fields => exact ⟨'\x7b', _, by rw [jsonText]; rfl, by decide, by decide, by decide⟩

theorem skipSpace_opens {w : Text} (h : opensValue w) (t : Text) : skipSpace (w ++ t) = w ++ t := by
  obtain ⟨c, u, rfl, hc, -, -⟩ := h
  exact List.dropWhile_cons_of_neg (by simp [hc])

theorem length_le_intercalate (sep : Char) {ws : List Text} {w : Text} (h : w ∈ ws) :
    w.length ≤ (List.intercalate [sep] ws).length := by
  induction ws with
  | nil => exact absurd h List.not_mem_nil
  | cons u ws ih =>
    cases ws with
    | nil =>
      rw [List.mem_singleton.mp h, List.intercalate_singleton]
    | cons x ws =>
      rw [List.intercalate_cons_cons, List.length_append, List.length_append]
      rcases List.mem_cons.mp h with rfl | hw
      · omega
      · have := ih hw
        omega

theorem count_le_intercalate (sep : Char) (ws : List Text) : ws.length ≤ (List.intercalate [sep] ws).length + 1 := by
  induction ws with
  | nil => exact Nat.zero_le _
  | cons u ws ih =>
    cases ws with
    | nil => exact Nat.le_add_left 1 _
    | cons x ws =>
      rw [List.intercalate_cons_cons, List.length_append, List.length_append, List.length_cons, List.length_singleton]
      omega

theorem reads_items {α : Type} {close : Char} (hclose : close = ']' ∨ close = '\x7d') {item : Reader Char α}
    {write : α → Text} {xs : List α} (hitem : ∀ x ∈ xs, item.Reads endsNumber (write x) x)
    (hopens : ∀ x ∈ xs, opensValue (write x)) :
    (readItems close item).Reads Reader.anything (List.intercalate [','] (xs.map write) ++ [close]) xs := by
  intro rest _
  have hspace : isJsonSpace close = false := by
    rcases hclose with rfl | rfl
    · decide
    · decide
  have hskip (t : Text) : skipSpace (close :: t) = close :: t := List.dropWhile_cons_of_neg (by simp [hspace])
  have hends (t : Text) : endsNumber (close :: t) := by
    rcases hclose with rfl | rfl
    · exact endsNumber_cons t (by decide)
    · exact endsNumber_cons t (by decide)
  have hcomma : ',' ≠ close := by
    rcases hclose with rfl | rfl
    · decide
    · decide
  cases xs with
  | nil =>
    have htext : List.intercalate [','] (([] : List α).map write) ++ [close] ++ rest = close :: rest := rfl
    rw [htext, readItems, hskip]
    exact if_pos rfl
  | cons x xs =>
    generalize hwhole : List.intercalate [','] ((x :: xs).map write) ++ [close] ++ rest = whole
    obtain ⟨c, u, hx, hc, hbracket, hbrace⟩ := hopens x (List.mem_cons_self ..)
    obtain ⟨tail, htail⟩ : ∃ tail, whole = write x ++ tail := by
      rw [← hwhole]
      cases xs with
      | nil => exact ⟨_, by rw [List.map_singleton, List.intercalate_singleton, List.append_assoc]⟩
      | cons y xs => exact ⟨_, by rw [List.map_cons, List.map_cons, List.intercalate_cons_cons, List.append_assoc,
          List.append_assoc, List.append_assoc]⟩
    have hne : c ≠ close := by
      rcases hclose with rfl | rfl
      · exact hbracket
      · exact hbrace
    have hcount := count_le_intercalate ',' ((x :: xs).map write)
    have hread := @Reader.reads_separated Char α endsNumber _ skipSpace ',' close hcomma item
      ((x :: xs).map fun y => (write y, y)) (List.cons_ne_nil _ _)
      (fun p hp => by
        obtain ⟨y, hy, rfl⟩ := List.mem_map.mp hp
        exact hitem y hy)
      (fun p hp => by
        obtain ⟨y, hy, rfl⟩ := List.mem_map.mp hp
        exact skipSpace_opens (hopens y hy))
      (fun t => ⟨hskip t, hends t⟩)
      (fun t => ⟨List.dropWhile_cons_of_neg (by decide), endsNumber_cons t (by decide)⟩) whole.length
      (by
        rw [← hwhole, List.length_append, List.length_append]
        simp only [List.length_map, List.length_singleton] at hcount ⊢
        omega) rest trivial
    have htexts : ((x :: xs).map fun y => (write y, y)).map Prod.fst = (x :: xs).map write := List.map_map ..
    have hvalues : ((x :: xs).map fun y => (write y, y)).map Prod.snd = x :: xs := by
      rw [List.map_map]
      exact List.map_id _
    rw [htexts, hvalues, hwhole] at hread
    rw [readItems, htail, skipSpace_opens (hopens x (List.mem_cons_self ..)), ← htail]
    rw [hx, List.cons_append] at htail
    rw [htail] at hread ⊢
    dsimp only
    rw [if_neg hne]
    exact hread

theorem reads_member {escape : Char → Text} (h : Escapes escape) {value : Reader Char Json} {f : Text × Json}
    (hopens : opensValue (jsonText escape f.2)) (hvalue : value.Reads endsNumber (jsonText escape f.2) f.2) :
    (readMember value).Reads endsNumber (memberText escape f) f := by
  intro rest hrest
  have htext : memberText escape f ++ rest =
      '"' :: (f.1.flatMap escape ++ ['"'] ++ (':' :: (jsonText escape f.2 ++ rest))) := by
    simp only [memberText, quoteWith, List.append_assoc, List.cons_append, List.nil_append]
  have hcolon (t : Text) : skipSpace (':' :: t) = ':' :: t := List.dropWhile_cons_of_neg (by decide)
  rw [htext, readMember, if_pos rfl, reads_quoted h f.1 _ trivial, Option.bind_some]
  dsimp only
  rw [hcolon]
  dsimp only
  rw [if_pos rfl, skipSpace_opens hopens, hvalue rest hrest]
  rfl

theorem memberText_opens (escape : Char → Text) (f : Text × Json) : opensValue (memberText escape f) :=
  ⟨'"', _, rfl, by decide, by decide, by decide⟩

/-- A constant is read where it stands. -/
theorem reads_constant : readAtom.Reads Reader.anything "null".toList .null ∧
    readAtom.Reads Reader.anything "true".toList (.bool true) ∧
    readAtom.Reads Reader.anything "false".toList (.bool false) := by
  refine ⟨fun rest _ => ?_, fun rest _ => ?_, fun rest _ => ?_⟩
  · rfl
  · rfl
  · rfl

theorem reads_atom {w : Text} {v : Json} {follow : Text → Prop} (n : ℕ) (hread : readAtom.Reads follow w v)
    (hw : ∃ c u, w = c :: u ∧ c ≠ '"' ∧ c ≠ '\x7b' ∧ c ≠ '[') : (readValue (n + 1)).Reads follow w v := by
  intro rest hrest
  obtain ⟨c, u, rfl, hquote, hbrace, hbracket⟩ := hw
  rw [List.cons_append, readValue, if_neg hquote, if_neg hbrace, if_neg hbracket]
  exact hread rest hrest

theorem decimal_opens (n : ℤ) : ∃ c u, decimal n = c :: u ∧ c ≠ '"' ∧ c ≠ '\x7b' ∧ c ≠ '[' := by
  cases n with
  | ofNat k =>
    change ∃ c u, decimal (k : ℤ) = c :: u ∧ _
    cases hd : decimal (k : ℤ) with
    | nil => exact absurd hd (decimal_ne_nil (Int.natCast_nonneg k))
    | cons c ds =>
      have hc := decimal_digits (Int.natCast_nonneg k) c (by rw [hd]; exact List.mem_cons_self ..)
      have hother {d : Char} (hd : d.isDigit = false) : c ≠ d := by
        rintro rfl
        rw [hc] at hd
        cases hd
      exact ⟨c, ds, rfl, hother (by decide), hother (by decide), hother (by decide)⟩
  | negSucc k =>
    rw [decimal_negSucc]
    exact ⟨'-', _, rfl, by decide, by decide, by decide⟩

theorem reads_value {escape : Char → Text} (h : Escapes escape) (v : Json) (hv : v.Readable) (fuel : ℕ)
    (hfuel : (jsonText escape v).length < fuel) : (readValue fuel).Reads endsNumber (jsonText escape v) v := by
  obtain ⟨n, rfl⟩ : ∃ n, fuel = n + 1 := ⟨fuel - 1, by omega⟩
  replace hfuel := Nat.lt_succ_iff.mp hfuel
  induction v using Json.deep generalizing n with
  | null =>
    rw [jsonText]
    exact reads_atom n (reads_constant.1.mono fun _ _ => trivial) ⟨'n', _, rfl, by decide, by decide, by decide⟩
  | bool b =>
    rw [jsonText]
    cases b with
    | false =>
      exact reads_atom n (reads_constant.2.2.mono fun _ _ => trivial) ⟨'f', _, rfl, by decide, by decide, by decide⟩
    | true =>
      exact reads_atom n (reads_constant.2.1.mono fun _ _ => trivial) ⟨'t', _, rfl, by decide, by decide, by decide⟩
  | int k =>
    rw [Json.Readable] at hv
    rw [jsonText]
    exact reads_atom n (reads_int hv) (decimal_opens k)
  | number text =>
    rw [Json.Readable] at hv
    rw [jsonText]
    obtain ⟨c, u, hcu, hc⟩ := hv.head
    refine reads_atom n hv.reads ⟨c, u, hcu, ?_⟩
    rcases hc with hc | rfl | rfl | rfl
    · refine ⟨?_, ?_, ?_⟩
      all_goals
        rintro rfl
        exact absurd hc (by decide)
    all_goals exact ⟨by decide, by decide, by decide⟩
  | str t =>
    intro rest _
    have htext : jsonText escape (.str t) ++ rest = '"' :: (t.flatMap escape ++ ['"'] ++ rest) := by
      simp only [jsonText, quoteWith, List.append_assoc, List.cons_append, List.nil_append]
    rw [htext, readValue, if_pos rfl]
    exact (reads_quoted h t).map Json.str rest trivial
  | arr items ih =>
    intro rest _
    have hplain := (readable_arr items).mp hv
    rw [jsonText, jsonTexts_eq] at hfuel ⊢
    have hread := @reads_items Json ']' (.inl rfl) (readValue n) (jsonText escape) items
      (fun v hmem => by
        have hitem := length_le_intercalate ',' (List.mem_map_of_mem (f := jsonText escape) hmem)
        simp only [List.length_append, List.length_singleton] at hfuel
        obtain ⟨k, rfl⟩ : ∃ k, n = k + 1 := ⟨n - 1, by omega⟩
        exact ih v hmem (hplain v hmem) k (by omega))
      (fun v hmem => opens_jsonText escape (hplain v hmem)) rest trivial
    rw [List.append_assoc, List.append_assoc, List.singleton_append, readValue, if_neg (by decide), if_neg (by decide),
      if_pos rfl, Reader.map, ← List.append_assoc, hread]
    rfl
  | obj fields ih =>
    intro rest _
    obtain ⟨hnames, hplain⟩ := (readable_obj fields).mp hv
    rw [jsonText, jsonMembers_eq] at hfuel ⊢
    have hread := @reads_items (Text × Json) '\x7d' (.inr rfl) (readMember (readValue n)) (memberText escape) fields
      (fun f hmem => by
        have hitem := length_le_intercalate ',' (List.mem_map_of_mem (f := memberText escape) hmem)
        simp only [memberText, List.length_append, List.length_singleton] at hitem hfuel
        obtain ⟨k, rfl⟩ : ∃ k, n = k + 1 := ⟨n - 1, by omega⟩
        exact reads_member h (opens_jsonText escape (hplain f hmem)) (ih f hmem (hplain f hmem) k (by omega)))
      (fun f _ => memberText_opens escape f) rest trivial
    rw [List.append_assoc, List.append_assoc, List.singleton_append, readValue, if_neg (by decide), if_pos rfl,
      Reader.map, ← List.append_assoc, hread, Option.map_some, Dict.ofItems_of_nodup hnames]

/-- What either writer writes is read back as the value that was written. -/
theorem loads_jsonText {escape : Char → Text} (h : Escapes escape) {v : Json} (hv : v.Readable) :
    loads (jsonText escape v) = some v := by
  have hread := reads_value h v hv _ (Nat.lt_succ_self _) [] fun c hc => by cases hc
  have hskip := skipSpace_opens (opens_jsonText escape hv) []
  rw [List.append_nil] at hread hskip
  rw [loads, hskip, hread, Option.bind_some]
  exact if_pos rfl

/-! ### `sort_keys` -/

mutual

/-- The value with the names of its objects in order. -/
def Json.sorted : Json → Json
  | .null => .null
  | .bool b => .bool b
  | .int n => .int n
  | .number text => .number text
  | .str t => .str t
  | .arr items => .arr (Json.sortedItems items)
  | .obj fields => .obj ((Json.sortedFields fields).insertionSort fun a b => a.1 ≤ b.1)

def Json.sortedItems : List Json → List Json
  | [] => []
  | item :: items => item.sorted :: Json.sortedItems items

def Json.sortedFields : List (Text × Json) → List (Text × Json)
  | [] => []
  | (name, value) :: fields => (name, value.sorted) :: Json.sortedFields fields

end

theorem sortedItems_eq (items : List Json) : Json.sortedItems items = items.map Json.sorted := by
  induction items with
  | nil => rw [Json.sortedItems, List.map_nil]
  | cons item items ih => rw [Json.sortedItems, ih, List.map_cons]

theorem sortedFields_eq (fields : List (Text × Json)) :
    Json.sortedFields fields = fields.map (Prod.map id Json.sorted) := by
  induction fields with
  | nil => rw [Json.sortedFields, List.map_nil]
  | cons f fields ih => rw [Json.sortedFields, ih, List.map_cons, Prod.map, id]

theorem dumpsItems_eq (items : List Json) : dumpsItems items = items.map dumps := by
  induction items with
  | nil => rw [dumpsItems, List.map_nil]
  | cons item items ih => rw [dumpsItems, ih, List.map_cons]

theorem dumpsFields_eq (fields : List (Text × Json)) : dumpsFields fields = fields.map (Prod.map id dumps) := by
  induction fields with
  | nil => rw [dumpsFields, List.map_nil]
  | cons f fields ih => rw [dumpsFields, ih, List.map_cons, Prod.map, id]

theorem dumps_eq (v : Json) : dumps v = jsonText jsonChar v.sorted := by
  induction v using Json.deep with
  | null => rw [dumps, Json.sorted, jsonText]
  | bool b => rw [dumps, Json.sorted, jsonText]
  | int n => rw [dumps, Json.sorted, jsonText]
  | number text => rw [dumps, Json.sorted, jsonText]
  | str t => rw [dumps, Json.sorted, jsonText, quoteWith, jsonString]
  | arr items ih =>
    rw [dumps, Json.sorted, jsonText, dumpsItems_eq, sortedItems_eq, jsonTexts_eq, List.map_map,
      List.map_congr_left ih]
    rfl
  | obj fields ih =>
    have hfields : fields.map (Prod.map id dumps) =
        (fields.map (Prod.map id Json.sorted)).map (Prod.map id (jsonText jsonChar)) := by
      rw [List.map_map]
      refine List.map_congr_left fun f hf => ?_
      rw [Function.comp_apply, Prod.map, Prod.map, Prod.map, ih f hf]
      rfl
    rw [dumps, Json.sorted, jsonText, dumpsFields_eq, sortedFields_eq, jsonMembers_eq, hfields,
      ← List.map_insertionSort (fun a b : Text × Json => a.1 ≤ b.1) (fun a b : Text × Text => a.1 ≤ b.1)
      (Prod.map id (jsonText jsonChar)) _ fun a _ b _ => Iff.rfl, List.map_map]
    rfl

theorem readable_sorted {v : Json} (h : v.Readable) : v.sorted.Readable := by
  induction v using Json.deep with
  | null => rwa [Json.sorted]
  | bool b => rwa [Json.sorted]
  | int n => rwa [Json.sorted]
  | number text => rwa [Json.sorted]
  | str t => rwa [Json.sorted]
  | arr items ih =>
    rw [readable_arr] at h
    rw [Json.sorted, readable_arr, sortedItems_eq]
    intro w hw
    obtain ⟨v, hv, rfl⟩ := List.mem_map.mp hw
    exact ih v hv (h v hv)
  | obj fields ih =>
    obtain ⟨hnames, hfields⟩ := (readable_obj fields).mp h
    have hperm := List.perm_insertionSort (fun a b : Text × Json => a.1 ≤ b.1) (fields.map (Prod.map id Json.sorted))
    rw [Json.sorted, readable_obj, sortedFields_eq]
    constructor
    · rw [(hperm.map Prod.fst).nodup_iff, List.map_map]
      exact hnames
    · intro g hg
      obtain ⟨f, hf, rfl⟩ := List.mem_map.mp (hperm.mem_iff.mp hg)
      exact ih f hf (hfields f hf)

theorem pairwise_sorted (fields : List (Text × Json)) :
    (fields.insertionSort fun a b => a.1 ≤ b.1).Pairwise fun a b => a.1 ≤ b.1 := by
  have : Std.Total fun a b : Text × Json => a.1 ≤ b.1 := ⟨fun a b => le_total a.1 b.1⟩
  have : IsTrans (Text × Json) fun a b => a.1 ≤ b.1 := ⟨fun _ _ _ hab hbc => le_trans hab hbc⟩
  exact List.pairwise_insertionSort _ fields

/-- Two objects have the same fields in order exactly when the one's are the other's in
another order. -/
theorem sorted_obj_iff {fields others : List (Text × Json)} (hnames : (fields.map Prod.fst).Nodup) :
    (Json.obj fields).sorted = (Json.obj others).sorted ↔
      (fields.map (Prod.map id Json.sorted)).Perm (others.map (Prod.map id Json.sorted)) := by
  have hle (xs : List (Text × Json)) := List.perm_insertionSort (fun a b : Text × Json => a.1 ≤ b.1) xs
  rw [Json.sorted, Json.sorted, Json.obj.injEq, sortedFields_eq, sortedFields_eq]
  generalize hxs : fields.map (Prod.map id Json.sorted) = xs
  generalize others.map (Prod.map id Json.sorted) = ys
  replace hnames : (xs.map Prod.fst).Nodup := by
    rw [← hxs, List.map_map]
    exact hnames
  constructor
  · intro h
    exact (hle xs).symm.trans (h ▸ hle ys)
  · intro h
    have hinj := List.inj_on_of_nodup_map hnames
    refine List.Perm.eq_of_pairwise (fun a b ha hb hab hba => ?_) (pairwise_sorted xs) (pairwise_sorted ys)
      (((hle xs).trans h).trans (hle ys).symm)
    exact hinj ((hle xs).mem_iff.mp ha) (h.mem_iff.mpr ((hle ys).mem_iff.mp hb)) (le_antisymm hab hba)

theorem loads_readable {v : Json} (hv : v.Readable) : loads (jsonText responseChar v) = some v ∧
    loads (jsonText jsonChar v) = some v ∧ loads (dumps v) = some v.sorted := by
  refine ⟨loads_jsonText escapes_responseChar hv, loads_jsonText escapes_jsonChar hv, ?_⟩
  rw [dumps_eq]
  exact loads_jsonText escapes_jsonChar (readable_sorted hv)

/-- Each of the writers is read back: the controller's responses and the charm's relation
data as they were, the bodies and the credentials with the names in order. -/
theorem loads_written {v : Json} (hv : v.isPlain = true) : loads (jsonText responseChar v) = some v ∧
    loads (jsonText jsonChar v) = some v ∧ loads (dumps v) = some v.sorted :=
  loads_readable (Json.readable_of_isPlain hv)

def exampleBody : List (Text × Json) :=
  [("reason".toList, .str ['l', '\n', '"', Char.ofNat 0x1f600]), ("pr".toList, .arr [.int (-12), .null, .bool true]),
    ("nested".toList, .obj [("b".toList, .int 2), ("a".toList, .str [])])]

theorem loads_written_example : loads (jsonText responseChar (.obj exampleBody)) = some (.obj exampleBody) ∧
    loads (jsonText jsonChar (.obj exampleBody)) = some (.obj exampleBody) ∧
    loads (dumps (.obj exampleBody)) = some (Json.obj exampleBody).sorted := loads_written (by decide)

theorem dumps_inj {v w : Json} (hv : v.Readable) (hw : w.Readable) :
    dumps v = dumps w ↔ v.sorted = w.sorted := by
  constructor
  · intro h
    have hread := loads_jsonText escapes_jsonChar (readable_sorted hv)
    rw [← dumps_eq, h, dumps_eq, loads_jsonText escapes_jsonChar (readable_sorted hw)] at hread
    exact (Option.some.inj hread).symm
  · intro h
    rw [dumps_eq, dumps_eq, h]

/-- Two bodies are the same bytes exactly when they have the same fields in some order,
down to the objects inside them. -/
theorem compactJson_eq_iff {fields others : List (Text × Json)} (h : (Json.obj fields).isPlain = true)
    (hothers : (Json.obj others).isPlain = true) : compactJson fields = compactJson others ↔
      (fields.map (Prod.map id Json.sorted)).Perm (others.map (Prod.map id Json.sorted)) := by
  rw [compactJson, compactJson, encode_injective.eq_iff,
    dumps_inj (Json.readable_of_isPlain h) (Json.readable_of_isPlain hothers),
    sorted_obj_iff ((isPlain_obj fields).mp h).1]

theorem compactJson_eq_iff_example : compactJson exampleBody = compactJson exampleBody.reverse :=
  (compactJson_eq_iff (by decide) (by decide)).mpr (by
    rw [List.map_reverse]
    exact (List.reverse_perm _).symm)

end DemoController
