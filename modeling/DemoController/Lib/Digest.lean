import Mathlib.Data.BitVec
import Mathlib.Data.List.GetD
import Mathlib.Tactic.Common

/-!
# Byte strings, SHA-256, HMAC and base64

Bytes are octet lists and texts are lists of Unicode scalar values, as Python's
`bytes` and `str` are, and `encode` is UTF-8. `sha256` and `hmacSha256` are the
hexadecimal digests of `hashlib` and `hmac`; `base64` pads as `b64encode` does.
-/

namespace Lib

abbrev Bytes := List UInt8
abbrev Text := List Char

def encode (t : Text) : Bytes := t.flatMap String.utf8EncodeChar

theorem encode_injective : Function.Injective encode := by
  intro s t h
  have hbytes : (String.ofList s).toByteArray = (String.ofList t).toByteArray := by
    rw [String.toByteArray_ofList, String.toByteArray_ofList, List.utf8Encode, List.utf8Encode]
    exact congrArg List.toByteArray h
  exact String.ofList_injective (String.toByteArray_inj.mp hbytes)

theorem newline_notMem_encode {t : Text} (h : '\n' ∉ t) : (10 : UInt8) ∉ encode t := by
  intro hmem
  obtain ⟨c, hc, hbyte⟩ := List.mem_flatMap.mp hmem
  have hne : c.val.toNat ≠ 10 := by
    intro e
    have hnl : c = '\n' := Char.ext (UInt32.toNat_inj.mp e)
    exact h (hnl ▸ hc)
  have hten : (10 : UInt8).toNat = 10 := rfl
  unfold String.utf8EncodeChar at hbyte
  dsimp only at hbyte
  repeat' split at hbyte
  all_goals
    simp only [List.mem_cons, List.not_mem_nil, or_false, ← UInt8.toNat_inj, hten, UInt8.toNat_ofNat'] at hbyte
    omega

/-! ### SHA-256 -/

namespace Sha256

abbrev Word := BitVec 32

def roundConstants : List Word :=
  [0x428a2f98, 0x71374491, 0xb5c0fbcf, 0xe9b5dba5, 0x3956c25b, 0x59f111f1, 0x923f82a4, 0xab1c5ed5,
   0xd807aa98, 0x12835b01, 0x243185be, 0x550c7dc3, 0x72be5d74, 0x80deb1fe, 0x9bdc06a7, 0xc19bf174,
   0xe49b69c1, 0xefbe4786, 0x0fc19dc6, 0x240ca1cc, 0x2de92c6f, 0x4a7484aa, 0x5cb0a9dc, 0x76f988da,
   0x983e5152, 0xa831c66d, 0xb00327c8, 0xbf597fc7, 0xc6e00bf3, 0xd5a79147, 0x06ca6351, 0x14292967,
   0x27b70a85, 0x2e1b2138, 0x4d2c6dfc, 0x53380d13, 0x650a7354, 0x766a0abb, 0x81c2c92e, 0x92722c85,
   0xa2bfe8a1, 0xa81a664b, 0xc24b8b70, 0xc76c51a3, 0xd192e819, 0xd6990624, 0xf40e3585, 0x106aa070,
   0x19a4c116, 0x1e376c08, 0x2748774c, 0x34b0bcb5, 0x391c0cb3, 0x4ed8aa4a, 0x5b9cca4f, 0x682e6ff3,
   0x748f82ee, 0x78a5636f, 0x84c87814, 0x8cc70208, 0x90befffa, 0xa4506ceb, 0xbef9a3f7, 0xc67178f2]

structure State where
  a : Word
  b : Word
  c : Word
  d : Word
  e : Word
  f : Word
  g : Word
  h : Word

def initial : State :=
  ⟨0x6a09e667, 0xbb67ae85, 0x3c6ef372, 0xa54ff53a, 0x510e527f, 0x9b05688c, 0x1f83d9ab, 0x5be0cd19⟩

def bigSigma0 (x : Word) : Word := x.rotateRight 2 ^^^ x.rotateRight 13 ^^^ x.rotateRight 22
def bigSigma1 (x : Word) : Word := x.rotateRight 6 ^^^ x.rotateRight 11 ^^^ x.rotateRight 25
def smallSigma0 (x : Word) : Word := x.rotateRight 7 ^^^ x.rotateRight 18 ^^^ x >>> 3
def smallSigma1 (x : Word) : Word := x.rotateRight 17 ^^^ x.rotateRight 19 ^^^ x >>> 10

def choose (x y z : Word) : Word := (x &&& y) ^^^ (~~~x &&& z)
def majority (x y z : Word) : Word := (x &&& y) ^^^ (x &&& z) ^^^ (y &&& z)

def round (s : State) (kw : Word) : State :=
  let t1 := s.h + bigSigma1 s.e + choose s.e s.f s.g + kw
  let t2 := bigSigma0 s.a + majority s.a s.b s.c
  ⟨t1 + t2, s.a, s.b, s.c, s.d + t1, s.e, s.f, s.g⟩

/-- The message schedule, newest word first: `n` more words after those given. -/
def extend : ℕ → List Word → List Word
  | 0, ws => ws
  | n + 1, ws =>
    let w := smallSigma1 (ws.getD 1 0) + ws.getD 6 0 + smallSigma0 (ws.getD 14 0) + ws.getD 15 0
    extend n (w :: ws)

def word (b₀ b₁ b₂ b₃ : UInt8) : Word :=
  b₀.toBitVec ++ b₁.toBitVec ++ b₂.toBitVec ++ b₃.toBitVec

def words : Bytes → List Word
  | b₀ :: b₁ :: b₂ :: b₃ :: bs => word b₀ b₁ b₂ b₃ :: words bs
  | _ => []

def compress (s : State) (block : Bytes) : State :=
  let schedule := (extend 48 (words block).reverse).reverse
  let t := (List.zipWith (· + ·) roundConstants schedule).foldl round s
  ⟨s.a + t.a, s.b + t.b, s.c + t.c, s.d + t.d, s.e + t.e, s.f + t.f, s.g + t.g, s.h + t.h⟩

/-- Big-endian bytes of `n`, exactly `count` of them. -/
def bigEndian (n : ℕ) : ℕ → Bytes
  | 0 => []
  | count + 1 => UInt8.ofNat (n / 256 ^ count) :: bigEndian n count

def pad (m : Bytes) : Bytes :=
  m ++ 0x80 :: List.replicate ((119 - m.length % 64) % 64) 0 ++ bigEndian (8 * m.length) 8

/-- Blocks of 64 bytes, one after the other (`fuel` bounds their number). -/
def blocks : ℕ → Bytes → State → State
  | 0, _, s => s
  | fuel + 1, bs, s => if bs.length < 64 then s else blocks fuel (bs.drop 64) (compress s (bs.take 64))

def wordBytes (w : Word) : Bytes := bigEndian w.toNat 4

def digest (m : Bytes) : Bytes :=
  let s := blocks (m.length / 64 + 2) (pad m) initial
  [s.a, s.b, s.c, s.d, s.e, s.f, s.g, s.h].flatMap wordBytes

end Sha256

def hexDigit (n : ℕ) : Char := "0123456789abcdef".toList.getD n '0'

def hex (bs : Bytes) : Text := bs.flatMap fun b => [hexDigit (b.toNat / 16), hexDigit (b.toNat % 16)]

def sha256 (m : Bytes) : Text := hex (Sha256.digest m)

example : sha256 (encode "abc".toList) =
    "ba7816bf8f01cfea414140de5dae2223b00361a396177a9cb410ff61f20015ad".toList := by decide +kernel

theorem hexDigit_mem (n : ℕ) : hexDigit n ∈ "0123456789abcdef".toList := by
  unfold hexDigit
  by_cases h : n < "0123456789abcdef".toList.length
  · rw [List.getD_eq_getElem _ _ h]
    exact List.getElem_mem h
  · rw [List.getD_eq_default _ _ (not_lt.mp h)]
    decide

theorem hex_digits (bs : Bytes) : ∀ c ∈ hex bs, c ∈ "0123456789abcdef".toList := by
  intro c hc
  obtain ⟨b, -, hb⟩ := List.mem_flatMap.mp hc
  simp only [List.mem_cons, List.not_mem_nil, or_false] at hb
  rcases hb with rfl | rfl
  · exact hexDigit_mem _
  · exact hexDigit_mem _

theorem hex_length (bs : Bytes) : (hex bs).length = 2 * bs.length := by
  induction bs with
  | nil => rfl
  | cons b bs ih =>
    have hcons : hex (b :: bs) = hexDigit (b.toNat / 16) :: hexDigit (b.toNat % 16) :: hex bs := rfl
    rw [hcons, List.length_cons, List.length_cons, List.length_cons, ih]
    omega

theorem bigEndian_length (n count : ℕ) : (Sha256.bigEndian n count).length = count := by
  induction count with
  | zero => rfl
  | succ count ih => rw [Sha256.bigEndian, List.length_cons, ih]

theorem sha256_length (m : Bytes) : (sha256 m).length = 64 := by
  have hword : ∀ w, (Sha256.wordBytes w).length = 4 := fun w => bigEndian_length _ _
  rw [sha256, hex_length, Sha256.digest]
  simp only [List.flatMap_cons, List.flatMap_nil, List.length_append, List.length_nil, hword]

/-! ### HMAC -/

def hmacSha256 (key m : Bytes) : Text :=
  let short := if key.length > 64 then Sha256.digest key else key
  let block := short ++ List.replicate (64 - short.length) 0
  let inner := Sha256.digest (block.map (· ^^^ 0x36) ++ m)
  hex (Sha256.digest (block.map (· ^^^ 0x5c) ++ inner))

/-! ### Base64 -/

def base64Digit (n : ℕ) : Char :=
  "ABCDEFGHIJKLMNOPQRSTUVWXYZabcdefghijklmnopqrstuvwxyz0123456789+/".toList.getD n '='

def base64 : Bytes → Text
  | [] => []
  | [x] => [base64Digit (x.toNat / 4), base64Digit (x.toNat % 4 * 16), '=', '=']
  | [x, y] =>
    [base64Digit (x.toNat / 4), base64Digit (x.toNat % 4 * 16 + y.toNat / 16),
      base64Digit (y.toNat % 16 * 4), '=']
  | x :: y :: z :: rest =>
    base64Digit (x.toNat / 4) :: base64Digit (x.toNat % 4 * 16 + y.toNat / 16) ::
      base64Digit (y.toNat % 16 * 4 + z.toNat / 64) :: base64Digit (z.toNat % 64) :: base64 rest

end Lib
