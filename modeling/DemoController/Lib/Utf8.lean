import DemoController.Lib.Digest

/-!
# Decoding UTF-8

`bs.decode("utf-8", "replace")` reads characters from the front and writes one
U+FFFD for each malformed part: the longest front of the rest that starts an
encoding, one byte when there is none.
-/

namespace Lib

def headChar? (bs : Bytes) : Option Char := bs.toByteArray.utf8DecodeChar? 0

/-- How many bytes follow a first byte, and the range of the first of them. -/
def following (lead : ℕ) : ℕ × ℕ × ℕ :=
  if lead < 0xc2 then (0, 0, 0)
  else if lead ≤ 0xdf then (1, 0x80, 0xbf)
  else if lead = 0xe0 then (2, 0xa0, 0xbf)
  else if lead = 0xed then (2, 0x80, 0x9f)
  else if lead ≤ 0xef then (2, 0x80, 0xbf)
  else if lead = 0xf0 then (3, 0x90, 0xbf)
  else if lead ≤ 0xf3 then (3, 0x80, 0xbf)
  else if lead = 0xf4 then (3, 0x80, 0x8f)
  else (0, 0, 0)

/-- The length of the malformed part in front of bytes that start with no character. -/
def malformedLength : Bytes → ℕ
  | [] => 0
  | lead :: rest =>
    let (count, low, high) := following lead.toNat
    match rest.take count with
    | [] => 1
    | second :: more =>
      if low ≤ second.toNat ∧ second.toNat ≤ high then
        2 + (more.takeWhile fun b => 0x80 ≤ b.toNat && b.toNat ≤ 0xbf).length
      else 1

/-- The bytes in front that become one character. -/
def headLength (bs : Bytes) : ℕ :=
  match headChar? bs with
  | some c => c.utf8Size
  | none => malformedLength bs

/-- Characters one after the other (`fuel` bounds their number). -/
def decodeFrom : ℕ → Bytes → Text
  | 0, _ => []
  | fuel + 1, bs =>
    if bs = [] then [] else (headChar? bs).getD '\uFFFD' :: decodeFrom fuel (bs.drop (headLength bs))

def decodeReplace (bs : Bytes) : Text := decodeFrom bs.length bs

/-- `bs.decode()`, `none` where it raises `UnicodeDecodeError`. -/
def decode (bs : Bytes) : Option Text := if encode (decodeReplace bs) = bs then some (decodeReplace bs) else none

example : decodeReplace [0x61, 0xe2, 0x82, 0x62, 0xff, 0xc3, 0xa9] = "a\uFFFDb\uFFFDé".toList := by decide +kernel

theorem headChar?_eq_some {bs : Bytes} {c : Char} :
    headChar? bs = some c ↔ ∃ rest, bs = String.utf8EncodeChar c ++ rest := by
  constructor
  · intro h
    obtain ⟨l, hl⟩ := ByteArray.exists_of_utf8DecodeChar?_eq_some h
    refine ⟨l.data.toList, ?_⟩
    have hdata := congrArg (fun b : ByteArray => b.data.toList) hl
    simpa using hdata
  · rintro ⟨rest, rfl⟩
    rw [headChar?, List.toByteArray_append]
    exact ByteArray.utf8DecodeChar?_utf8EncodeChar_append

theorem encode_cons (c : Char) (t : Text) : encode (c :: t) = String.utf8EncodeChar c ++ encode t := rfl

theorem encode_append (s t : Text) : encode (s ++ t) = encode s ++ encode t := List.flatMap_append

theorem encodeChar_of_ascii {c : Char} (h : c.toNat < 128) :
    String.utf8EncodeChar c = [UInt8.ofNat c.toNat] := by
  have hv : c.val.toNat ≤ 127 := Nat.le_of_lt_succ h
  unfold String.utf8EncodeChar
  dsimp only
  rw [if_pos hv]
  rfl

theorem encodeChar_ne_nil (c : Char) : String.utf8EncodeChar c ≠ [] := by
  intro h
  have hlen := congrArg List.length h
  rw [String.length_utf8EncodeChar] at hlen
  exact absurd hlen (Nat.pos_iff_ne_zero.mp c.utf8Size_pos)

/-- Bytes as the decoder sees them: a character, or a malformed part that becomes U+FFFD. -/
inductive Pieces : Bytes → Text → Prop
  | nil : Pieces [] []
  | char {c : Char} {bs : Bytes} {t : Text} : Pieces bs t → Pieces (String.utf8EncodeChar c ++ bs) (c :: t)
  | malformed {bad bs : Bytes} {t : Text} : headChar? (bad ++ bs) = none → bad ≠ [] → Pieces bs t →
      Pieces (bad ++ bs) ('\uFFFD' :: t)

theorem malformedLength_pos {bs : Bytes} (h : bs ≠ []) : 0 < malformedLength bs := by
  cases bs with
  | nil => exact absurd rfl h
  | cons lead rest =>
    unfold malformedLength
    dsimp only
    split
    · exact Nat.one_pos
    · split
      · omega
      · exact Nat.one_pos

theorem pieces_decodeFrom {fuel : ℕ} {bs : Bytes} (h : bs.length ≤ fuel) : Pieces bs (decodeFrom fuel bs) := by
  induction fuel generalizing bs with
  | zero =>
    have hnil : bs = [] := List.length_eq_zero_iff.mp (Nat.le_zero.mp h)
    rw [hnil]
    exact .nil
  | succ fuel ih =>
    rw [decodeFrom]
    split
    · next hnil =>
      rw [hnil]
      exact .nil
    · next hne =>
      cases hc : headChar? bs with
      | some c =>
        obtain ⟨rest, rfl⟩ := headChar?_eq_some.mp hc
        have hdrop : (String.utf8EncodeChar c ++ rest).drop (headLength (String.utf8EncodeChar c ++ rest)) = rest := by
          rw [headLength, hc]
          dsimp only
          rw [← String.length_utf8EncodeChar, List.drop_left]
        have hlen : (String.utf8EncodeChar c ++ rest).length = (String.utf8EncodeChar c).length + rest.length :=
          List.length_append
        have hpos := c.utf8Size_pos
        rw [String.length_utf8EncodeChar] at hlen
        rw [hdrop]
        exact .char (ih (by omega))
      | none =>
        have hpos := malformedLength_pos hne
        have hhead : headLength bs = malformedLength bs := by rw [headLength, hc]
        have hsplit : bs.take (headLength bs) ++ bs.drop (headLength bs) = bs := List.take_append_drop ..
        have hlen := List.length_drop (i := headLength bs) (l := bs)
        have hbs := List.length_pos_iff.mpr hne
        have htail := @ih (bs.drop (headLength bs)) (by omega)
        have hbad : bs.take (headLength bs) ≠ [] := by
          intro hnil
          rcases List.take_eq_nil_iff.mp hnil with h | h
          · omega
          · exact hne h
        have hpieces := Pieces.malformed (hsplit.symm ▸ hc) hbad htail
        rw [hsplit] at hpieces
        exact hpieces

theorem pieces_decodeReplace (bs : Bytes) : Pieces bs (decodeReplace bs) := pieces_decodeFrom le_rfl

theorem headChar?_encode_cons (c : Char) (t : Text) : headChar? (encode (c :: t)) = some c :=
  headChar?_eq_some.mpr ⟨encode t, encode_cons c t⟩

theorem eq_of_pieces_encode {bs : Bytes} {t u : Text} (h : Pieces bs u) (he : bs = encode t) : u = t := by
  induction h generalizing t with
  | nil => exact encode_injective he
  | @char c bs u _ ih =>
    cases t with
    | nil => exact absurd (List.append_eq_nil_iff.mp he).1 (encodeChar_ne_nil c)
    | cons d t =>
      have hc := headChar?_encode_cons d t
      rw [← he, headChar?_eq_some.mpr ⟨bs, rfl⟩, Option.some.injEq] at hc
      subst hc
      rw [encode_cons, List.append_cancel_left_eq] at he
      rw [ih he]
  | @malformed bad bs u hnone hbad _ ih =>
    cases t with
    | nil => exact absurd (List.append_eq_nil_iff.mp he).1 hbad
    | cons d t =>
      rw [he, headChar?_encode_cons] at hnone
      cases hnone

@[simp] theorem decodeReplace_encode (t : Text) : decodeReplace (encode t) = t :=
  eq_of_pieces_encode (pieces_decodeReplace _) rfl

theorem decode_eq_some_iff {bs : Bytes} {t : Text} : decode bs = some t ↔ bs = encode t := by
  unfold decode
  constructor
  · intro h
    split at h
    · next he =>
      cases h
      exact he.symm
    · cases h
  · rintro rfl
    rw [decodeReplace_encode, if_pos rfl]

end Lib
