import DemoController.Lib.Utf8

/-!
# Percent-encoding

Escapes are read from the left: `%` and two hexadecimal digits are one byte, and
any other `%` stands for itself. `quote` encodes the characters that are not
legal and leaves the escapes that are there alone, so decoding does not see it.
-/

namespace Lib

def hexValue? (n : ℕ) : Option ℕ :=
  if 48 ≤ n ∧ n ≤ 57 then some (n - 48)
  else if 65 ≤ n ∧ n ≤ 70 then some (n - 55)
  else if 97 ≤ n ∧ n ≤ 102 then some (n - 87)
  else none

/-- The byte of the escape in front, of bytes or of a text. -/
def escaped? {α : Type} (code : α → ℕ) : List α → Option UInt8
  | p :: x :: y :: _ =>
    if code p = 0x25 then
      (hexValue? (code x)).bind fun u => (hexValue? (code y)).map fun v => UInt8.ofNat (16 * u + v)
    else none
  | _ => none

/-- `skip` bytes belong to the escape that was read last. -/
def unquoteFrom : ℕ → Bytes → Bytes
  | _, [] => []
  | skip + 1, _ :: bs => unquoteFrom skip bs
  | 0, b :: bs =>
    match escaped? UInt8.toNat (b :: bs) with
    | some v => v :: unquoteFrom 2 bs
    | none => b :: unquoteFrom 0 bs

/-- `urllib.parse.unquote_to_bytes`. -/
def percentDecode (bs : Bytes) : Bytes := unquoteFrom 0 bs

def upperHexDigit (n : ℕ) : Char := "0123456789ABCDEF".toList.getD n '0'

def percentByte (b : UInt8) : Text := ['%', upperHexDigit (b.toNat / 16), upperHexDigit (b.toNat % 16)]

def quoteChar (legal : Char → Bool) (c : Char) : Text :=
  if legal c then [c] else (String.utf8EncodeChar c).flatMap percentByte

/-- `copy` characters belong to the escape that was met last. -/
def quoteFrom (legal : Char → Bool) : ℕ → Text → Text
  | _, [] => []
  | copy + 1, c :: t => c :: quoteFrom legal copy t
  | 0, c :: t =>
    match escaped? Char.toNat (c :: t) with
    | some _ => c :: quoteFrom legal 2 t
    | none => quoteChar legal c ++ quoteFrom legal 0 t

def quote (legal : Char → Bool) (t : Text) : Text := quoteFrom legal 0 t

example : percentDecode (encode "/a%2Fb%zz%25".toList) = encode "/a/b%zz%".toList := by decide +kernel

/-! ### Splitting and mapping -/

section

variable {α β : Type} [BEq α] [LawfulBEq α] {f : List α → List β} {s : α} {s' : β}

end

/-! ### One escape at a time -/

theorem unquoteFrom_eq (skip : ℕ) (bs : Bytes) : unquoteFrom skip bs = percentDecode (bs.drop skip) := by
  induction skip generalizing bs with
  | zero => rfl
  | succ skip ih =>
    cases bs with
    | nil => rfl
    | cons b bs => exact ih bs

theorem percentDecode_of_escape {b v : UInt8} {bs : Bytes} (h : escaped? UInt8.toNat (b :: bs) = some v) :
    percentDecode (b :: bs) = v :: percentDecode (bs.drop 2) := by
  rw [percentDecode, unquoteFrom, h, ← unquoteFrom_eq]

theorem percentDecode_of_plain {b : UInt8} {bs : Bytes} (h : escaped? UInt8.toNat (b :: bs) = none) :
    percentDecode (b :: bs) = b :: percentDecode bs := by
  rw [percentDecode, unquoteFrom, h, ← percentDecode]

section

variable {α : Type} {code : α → ℕ}

theorem escaped_eq_some {l : List α} {v : UInt8} (h : escaped? code l = some v) :
    ∃ p x y rest hi lo, l = p :: x :: y :: rest ∧ code p = 0x25 ∧ hexValue? (code x) = some hi ∧
      hexValue? (code y) = some lo ∧ v = UInt8.ofNat (16 * hi + lo) := by
  match l, h with
  | p :: x :: y :: rest, h =>
    rw [escaped?] at h
    split at h
    · next hp =>
      obtain ⟨hi, hhi, hrest⟩ := Option.bind_eq_some_iff.mp h
      obtain ⟨lo, hlo, rfl⟩ := Option.map_eq_some_iff.mp hrest
      exact ⟨p, x, y, rest, hi, lo, rfl, hp, hhi, hlo, rfl⟩
    · cases h

theorem escaped_of_second {p x : α} {l : List α} (h : hexValue? (code x) = none) :
    escaped? code (p :: x :: l) = none := by
  match l with
  | [] => rfl
  | y :: rest =>
    rw [escaped?, h, Option.bind_none]
    split
    · rfl
    · rfl

theorem escaped_of_third {p x y : α} {l : List α} (h : hexValue? (code y) = none) :
    escaped? code (p :: x :: y :: l) = none := by
  rw [escaped?, h]
  split
  · cases hexValue? (code x) <;> rfl
  · rfl

theorem escaped_of_ne {p : α} {l : List α} (h : code p ≠ 0x25) : escaped? code (p :: l) = none := by
  match l with
  | [] => rfl
  | [x] => rfl
  | x :: y :: rest => exact if_neg h

end

/-! ### Texts and their bytes -/

theorem hexValue_of_high {n : ℕ} (h : 128 ≤ n) : hexValue? n = none := by
  unfold hexValue?
  rw [if_neg (by omega), if_neg (by omega), if_neg (by omega)]

theorem ascii_of_hexValue {n v : ℕ} (h : hexValue? n = some v) : n < 128 := by
  by_contra hhigh
  rw [hexValue_of_high (not_lt.mp hhigh)] at h
  cases h

theorem encodeChar_of_high {c : Char} (h : 128 ≤ c.toNat) : ∀ b ∈ String.utf8EncodeChar c, 128 ≤ b.toNat := by
  have hv : ¬ c.val.toNat ≤ 127 := not_le.mpr h
  have hmax : c.val.toNat < 1114112 := by
    rcases c.valid with hc | hc
    · exact lt_trans hc (by decide)
    · exact hc.2
  intro b hb
  unfold String.utf8EncodeChar at hb
  dsimp only at hb
  rw [if_neg hv] at hb
  repeat' split at hb
  all_goals
    simp only [List.mem_cons, List.not_mem_nil, or_false] at hb
  · rcases hb with rfl | rfl <;> simp only [UInt8.toNat_ofNat'] <;> omega
  · rcases hb with rfl | rfl | rfl <;> simp only [UInt8.toNat_ofNat'] <;> omega
  · rcases hb with rfl | rfl | rfl | rfl <;> simp only [UInt8.toNat_ofNat'] <;> omega

theorem toNat_ofNat_ascii {c : Char} (h : c.toNat < 128) : (UInt8.ofNat c.toNat).toNat = c.toNat := by
  rw [UInt8.toNat_ofNat']
  exact Nat.mod_eq_of_lt (by omega)

theorem encode_front (c : Char) (t : Text) :
    (c.toNat < 128 ∧ encode (c :: t) = UInt8.ofNat c.toNat :: encode t) ∨
    (128 ≤ c.toNat ∧ ∃ b bs, encode (c :: t) = b :: bs ∧ 128 ≤ b.toNat) := by
  rw [encode_cons]
  rcases lt_or_ge c.toNat 128 with hc | hc
  · rw [encodeChar_of_ascii hc]
    exact .inl ⟨hc, rfl⟩
  · refine .inr ⟨hc, ?_⟩
    have hall := encodeChar_of_high hc
    cases hb : String.utf8EncodeChar c with
    | nil => exact absurd hb (encodeChar_ne_nil c)
    | cons b bs => exact ⟨b, bs ++ encode t, rfl, hall b (hb ▸ List.mem_cons_self ..)⟩

theorem escaped_encode (t : Text) : escaped? UInt8.toNat (encode t) = escaped? Char.toNat t := by
  match t with
  | [] => rfl
  | c :: r =>
    rcases encode_front c r with ⟨hc, hbytes⟩ | ⟨hc, b, bs, hbytes, hb⟩
    · rw [hbytes]
      by_cases hp : c.toNat = 0x25
      · match r with
        | [] => rfl
        | x :: r =>
          rcases encode_front x r with ⟨hx, hbytes⟩ | ⟨hx, b, bs, hbytes, hb⟩
          · rw [hbytes]
            match r with
            | [] => rfl
            | y :: r =>
              rcases encode_front y r with ⟨hy, hbytes⟩ | ⟨hy, b, bs, hbytes, hb⟩
              · rw [hbytes, escaped?, escaped?, toNat_ofNat_ascii hc, toNat_ofNat_ascii hx, toNat_ofNat_ascii hy]
              · rw [hbytes, escaped_of_third (hexValue_of_high hb), escaped_of_third (hexValue_of_high hy)]
          · rw [hbytes, escaped_of_second (hexValue_of_high hb), escaped_of_second (hexValue_of_high hx)]
      · rw [escaped_of_ne hp, escaped_of_ne (by rw [toNat_ofNat_ascii hc]; exact hp)]
    · rw [hbytes, escaped_of_ne (by omega), escaped_of_ne (by omega)]

theorem percentDecode_append_high {bs : Bytes} (h : ∀ b ∈ bs, 128 ≤ b.toNat) (rest : Bytes) :
    percentDecode (bs ++ rest) = bs ++ percentDecode rest := by
  induction bs with
  | nil => rfl
  | cons b bs ih =>
    have hb := h b (List.mem_cons_self ..)
    rw [List.cons_append, percentDecode_of_plain (escaped_of_ne (by omega)),
      ih fun d hd => h d (List.mem_cons_of_mem _ hd), List.cons_append]

theorem percentDecode_encode_plain {c : Char} {t : Text} (h : escaped? Char.toNat (c :: t) = none) :
    percentDecode (encode (c :: t)) = String.utf8EncodeChar c ++ percentDecode (encode t) := by
  rcases lt_or_ge c.toNat 128 with hc | hc
  · rw [encode_cons, encodeChar_of_ascii hc, List.singleton_append, List.singleton_append]
    refine percentDecode_of_plain ?_
    rw [← h, ← escaped_encode, encode_cons, encodeChar_of_ascii hc, List.singleton_append]
  · exact percentDecode_append_high (encodeChar_of_high hc) _

theorem percentDecode_encode_escape {c : Char} {v : UInt8} {t : Text} (h : escaped? Char.toNat (c :: t) = some v) :
    percentDecode (encode (c :: t)) = v :: percentDecode (encode (t.drop 2)) := by
  have hbytes := escaped_encode (c :: t)
  rw [h] at hbytes
  obtain ⟨p, x, y, rest, hi, lo, heq, hp, hx, hy, -⟩ := escaped_eq_some h
  obtain ⟨rfl, rfl⟩ := List.cons.inj heq
  have hfront : encode (c :: x :: y :: rest) =
      UInt8.ofNat c.toNat :: UInt8.ofNat x.toNat :: UInt8.ofNat y.toNat :: encode rest := by
    rw [encode_cons, encode_cons, encode_cons, encodeChar_of_ascii (by omega), encodeChar_of_ascii (ascii_of_hexValue hx),
      encodeChar_of_ascii (ascii_of_hexValue hy)]
    rfl
  rw [hfront] at hbytes ⊢
  rw [percentDecode_of_escape hbytes]
  rfl

/-! ### Quoting -/

theorem percentDecode_length_le (bs : Bytes) : (percentDecode bs).length ≤ bs.length := by
  induction hn : bs.length using Nat.strongRecOn generalizing bs with
  | _ n ih =>
    cases bs with
    | nil => exact Nat.zero_le _
    | cons b bs =>
      rw [List.length_cons] at hn
      cases h : escaped? UInt8.toNat (b :: bs) with
      | some v =>
        have hrest := ih (bs.drop 2).length (by rw [List.length_drop]; omega) (bs.drop 2) rfl
        rw [List.length_drop] at hrest
        rw [percentDecode_of_escape h, List.length_cons]
        omega
      | none =>
        have hrest := ih bs.length (by omega) bs rfl
        rw [percentDecode_of_plain h, List.length_cons]
        omega

theorem Pieces.of_cons {bs : Bytes} {c : Char} {t : Text} (h : Pieces bs (c :: t)) (hc : c ≠ '\uFFFD') :
    ∃ rest, bs = String.utf8EncodeChar c ++ rest ∧ Pieces rest t := by
  cases h with
  | char h => exact ⟨_, rfl, h⟩
  | malformed => exact absurd rfl hc

/-- Only the first byte of a character can be the first byte of U+FFFD. -/
theorem encodeChar_of_mem {c : Char} (h : (0xef : UInt8) ∈ String.utf8EncodeChar c) :
    ∃ bs, String.utf8EncodeChar c = 0xef :: bs := by
  have hmax : c.val.toNat < 1114112 := by
    rcases c.valid with hc | hc
    · exact lt_trans hc (by decide)
    · exact hc.2
  have hef : (0xef : UInt8).toNat = 239 := rfl
  unfold String.utf8EncodeChar at h ⊢
  dsimp only at h ⊢
  repeat' split at h
  all_goals
    simp only [List.mem_cons, List.not_mem_nil, or_false, ← UInt8.toNat_inj, hef, UInt8.toNat_ofNat'] at h
  · omega
  · omega
  · next h1 h2 h3 =>
    rw [if_neg h1, if_neg h2, if_pos h3]
    refine ⟨_, congrArg (· :: _) (UInt8.toNat_inj.mp ?_)⟩
    rw [hef, UInt8.toNat_ofNat']
    omega
  · omega

theorem Pieces.of_escape {bs : Bytes} {c : Char} {t : Text} {v : UInt8} (h : Pieces bs (c :: t)) {p : Text}
    (hp : p <+: t) (he : escaped? Char.toNat (c :: p) = some v) :
    ∃ x y rest, bs = 0x25 :: x :: y :: rest ∧ x.toNat < 128 ∧ y.toNat < 128 ∧ Pieces rest (t.drop 2) := by
  obtain ⟨q, d, e, p', hi, lo, heq, hq, hhi, hlo, -⟩ := escaped_eq_some he
  obtain ⟨rfl, rfl⟩ := List.cons.inj heq
  obtain ⟨more, rfl⟩ := hp
  have plain {d : Char} (hd : d.toNat < 128) : d ≠ '\uFFFD' := by
    rintro rfl
    exact absurd hd (by decide)
  have hd' := ascii_of_hexValue hhi
  have he' := ascii_of_hexValue hlo
  obtain ⟨r₁, rfl, h₁⟩ := h.of_cons (plain (by omega))
  obtain ⟨r₂, rfl, h₂⟩ := h₁.of_cons (plain hd')
  obtain ⟨r₃, rfl, h₃⟩ := h₂.of_cons (plain he')
  have hpercent : UInt8.ofNat c.toNat = 0x25 := by rw [hq]; rfl
  refine ⟨UInt8.ofNat d.toNat, UInt8.ofNat e.toNat, r₃, ?_, ?_, ?_, h₃⟩
  · rw [encodeChar_of_ascii (by omega), encodeChar_of_ascii hd', encodeChar_of_ascii he', hpercent]
    rfl
  · rw [toNat_ofNat_ascii hd']
    exact hd'
  · rw [toNat_ofNat_ascii he']
    exact he'

/-- Once the second decoding has fallen behind it does not catch up: the bytes `w` it
still has to give hold no first byte of U+FFFD. -/
theorem percentDecode_ne_behind {p t : Text} {w bs : Bytes} (h : Pieces bs t) (hp : p <+: t) (hw : w ≠ [])
    (hef : (0xef : UInt8) ∉ w) : percentDecode (encode p) ≠ w ++ bs := by
  induction hn : p.length using Nat.strongRecOn generalizing p t w bs with
  | _ n ih =>
    intro heq
    obtain ⟨w₀, w, rfl⟩ := List.exists_cons_of_ne_nil hw
    cases p with
    | nil => cases heq
    | cons c p =>
      rw [List.length_cons] at hn
      cases t with
      | nil => exact absurd (List.prefix_nil.mp hp) (List.cons_ne_nil _ _)
      | cons d t =>
        obtain ⟨rfl, htail⟩ := List.cons_prefix_cons.mp hp
        cases he : escaped? Char.toNat (c :: p) with
        | some v =>
          obtain ⟨x, y, rest, rfl, hx, hy, hrest⟩ := h.of_escape htail he
          rw [percentDecode_encode_escape he, List.cons_append] at heq
          have howed := (List.cons.inj heq).2
          refine ih (p.drop 2).length (by rw [List.length_drop]; omega) (w := w ++ [0x25, x, y]) hrest
            (htail.drop 2) (by simp) ?_ rfl ?_
          · intro hmem
            rcases List.mem_append.mp hmem with hmem | hmem
            · exact hef (List.mem_cons_of_mem _ hmem)
            · simp only [List.mem_cons, List.not_mem_nil, or_false] at hmem
              rcases hmem with hmem | rfl | rfl
              · cases hmem
              · exact absurd hx (by decide)
              · exact absurd hy (by decide)
          · rw [howed, List.append_assoc]
            rfl
        | none =>
          rw [percentDecode_encode_plain he] at heq
          cases h with
          | malformed hnone hbad h =>
            have hhead := congrArg List.head? heq
            have hw₀ : some (0xef : UInt8) = some w₀ := hhead
            exact hef (Option.some.inj hw₀ ▸ List.mem_cons_self ..)
          | @char c bs t h =>
            rw [← List.append_assoc] at heq
            rcases List.append_eq_append_iff.mp heq with ⟨w', hsplit, hrest⟩ | ⟨more, hsplit, -⟩
            · -- the character moves from the end of what is owed to its front
              have hlen := congrArg List.length hsplit
              simp only [List.length_append, List.length_cons] at hlen
              refine ih p.length (by omega) h htail (w := w') ?_ ?_ rfl hrest
              · rintro rfl
                simp only [List.length_nil] at hlen
                omega
              · intro hmem
                have hin : (0xef : UInt8) ∈ (w₀ :: w) ++ String.utf8EncodeChar c := by
                  rw [hsplit]
                  exact List.mem_append_right _ hmem
                rcases List.mem_append.mp hin with hin | hin
                · exact hef hin
                · obtain ⟨rest, hfirst⟩ := encodeChar_of_mem hin
                  rw [hfirst] at hsplit
                  exact hef ((List.cons.inj hsplit).1 ▸ List.mem_cons_self ..)
            · have hlen := congrArg List.length hsplit
              simp only [List.length_append, List.length_cons] at hlen
              omega

/-- The second decoding gives back the bytes of the first only if nothing is lost:
they are the encoding of the whole text. -/
theorem eq_encode_of_percentDecode {p t : Text} {bs : Bytes} (h : Pieces bs t) (hp : p <+: t)
    (heq : percentDecode (encode p) = bs) : bs = encode p ∧ p = t := by
  induction hn : p.length using Nat.strongRecOn generalizing p t bs with
  | _ n ih =>
    cases p with
    | nil =>
      have hnil : bs = [] := heq.symm
      subst hnil
      have ht : t = [] := eq_of_pieces_encode (t := []) h rfl
      exact ⟨rfl, ht.symm⟩
    | cons c p =>
      rw [List.length_cons] at hn
      cases t with
      | nil => exact absurd (List.prefix_nil.mp hp) (List.cons_ne_nil _ _)
      | cons d t =>
        obtain ⟨rfl, htail⟩ := List.cons_prefix_cons.mp hp
        cases he : escaped? Char.toNat (c :: p) with
        | some v =>
          obtain ⟨x, y, rest, rfl, hx, hy, hrest⟩ := h.of_escape htail he
          rw [percentDecode_encode_escape he] at heq
          have hbehind : percentDecode (encode (p.drop 2)) ≠ [x, y] ++ rest :=
            percentDecode_ne_behind hrest (htail.drop 2) (by simp) (by
              intro hmem
              simp only [List.mem_cons, List.not_mem_nil, or_false] at hmem
              rcases hmem with rfl | rfl
              · exact absurd hx (by decide)
              · exact absurd hy (by decide))
          exact absurd (List.cons.inj heq).2 hbehind
        | none =>
          rw [percentDecode_encode_plain he] at heq
          cases h with
          | malformed hnone hbad h =>
            rw [headChar?_eq_some.mpr ⟨_, heq.symm⟩] at hnone
            cases hnone
          | @char c bs t h =>
            obtain ⟨hbs, rfl⟩ := ih p.length (by omega) h htail (List.append_cancel_left heq) rfl
            exact ⟨by rw [encode_cons, hbs], rfl⟩

end Lib
