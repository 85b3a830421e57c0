import DemoController.Lib.Percent
import DemoController.Lib.PyText

/-!
# Splitting a URL

`urllib.parse.urlsplit`: the text is cleaned of control characters in front and of tabs
and line ends, and then cut at its first delimiters. What it demands of the network
location (matching brackets, no delimiter under NFKC) is a parameter.
-/

namespace Lib

structure SplitResult where
  scheme : Text
  netloc : Text
  path : Text
  query : Text
  fragment : Text
  deriving DecidableEq

def isC0OrSpace (c : Char) : Bool := c.toNat ≤ 0x20

def isUnsafe (c : Char) : Bool := c == '\t' || c == '\r' || c == '\n'

def isSchemeChar (c : Char) : Bool := c.isAlphanum || c == '+' || c == '-' || c == '.'

def isNetlocEnd (c : Char) : Bool := c == '/' || c == '?' || c == '#'

/-- The scheme and the text after its colon. -/
def splitScheme (url : Text) : Text × Text :=
  match cut ':' url with
  | none => ([], url)
  | some (scheme, rest) =>
    if scheme.head?.any Char.isAlpha && scheme.all isSchemeChar then (scheme.map Char.toLower, rest) else ([], url)

/-- The network location after `//` and the text behind it. -/
def splitNetloc (url : Text) : Text × Text :=
  if "//".toList.isPrefixOf url then
    ((url.drop 2).takeWhile fun c => !isNetlocEnd c, (url.drop 2).dropWhile fun c => !isNetlocEnd c)
  else ([], url)

/-- The path, the query and the fragment. -/
def splitPath (url : Text) : Text × Text × Text :=
  let front := (cut '#' url).getD (url, [])
  let target := (cut '?' front.1).getD (front.1, [])
  (target.1, target.2, front.2)

/-- `urlsplit(url)`, `none` where it raises `ValueError`. -/
def urlsplit (validNetloc : Text → Bool) (url : Text) : Option SplitResult :=
  let clean := (url.dropWhile isC0OrSpace).filter fun c => !isUnsafe c
  let scheme := splitScheme clean
  let netloc := splitNetloc scheme.2
  let target := splitPath netloc.2
  if validNetloc netloc.1 then some ⟨scheme.1, netloc.1, target.1, target.2.1, target.2.2⟩ else none

/-! ### Escapes in a path -/

/-- The text holds a `%` with two hexadecimal digits behind it. -/
def hasEscape : Text → Bool
  | [] => false
  | c :: t => (escaped? Char.toNat (c :: t)).isSome || hasEscape t

/-- Unquoting changes a text exactly where it holds an escape. -/
theorem percentDecode_encode_iff (t : Text) : percentDecode (encode t) = encode t ↔ hasEscape t = false := by
  induction t with
  | nil => exact iff_of_true rfl rfl
  | cons c t ih =>
    rw [hasEscape]
    cases he : escaped? Char.toNat (c :: t) with
    | some v =>
      refine iff_of_false ?_ (by simp)
      intro heq
      have hlength := congrArg List.length heq
      have hdecoded := percentDecode_length_le (encode (t.drop 2))
      obtain ⟨p, x, y, rest, hi, lo, hsplit, -, -, -, -⟩ := escaped_eq_some he
      obtain ⟨rfl, rfl⟩ := List.cons.inj hsplit
      rw [percentDecode_encode_escape he, List.length_cons, encode_cons, encode_cons, encode_cons] at hlength
      have hpos := c.utf8Size_pos
      have hposx := x.utf8Size_pos
      have hposy := y.utf8Size_pos
      simp only [List.length_append, String.length_utf8EncodeChar, List.drop_succ_cons, List.drop_zero] at hlength hdecoded
      omega
    | none =>
      rw [percentDecode_encode_plain he, encode_cons, List.append_cancel_left_eq, ih]
      simp

/-- The text a path is presented as: its escapes undone and read as UTF-8. -/
def unquote (t : Text) : Text := decodeReplace (percentDecode (encode t))

/-- No text begins with a path that it is the unquoted form of, but the path itself
without escapes. -/
theorem unquote_append_iff {path rest : Text} :
    path ++ rest = unquote path ↔ rest = [] ∧ hasEscape path = false := by
  constructor
  · intro h
    have hpieces := pieces_decodeReplace (percentDecode (encode path))
    obtain ⟨hbytes, htext⟩ := eq_encode_of_percentDecode hpieces ⟨rest, h⟩ rfl
    refine ⟨?_, (percentDecode_encode_iff path).mp hbytes⟩
    rw [unquote, ← htext] at h
    exact List.append_right_eq_self.mp h
  · rintro ⟨rfl, hescape⟩
    rw [unquote, (percentDecode_encode_iff path).mpr hescape, decodeReplace_encode, List.append_nil]

/-! ### An origin and a path -/

structure IsOrigin (scheme netloc : Text) : Prop where
  letter : scheme.head?.any Char.isAlpha = true
  scheme : scheme.all isSchemeChar = true
  host : netloc ≠ []
  netloc : ∀ c ∈ netloc, isNetlocEnd c = false ∧ isUnsafe c = false

structure IsPath (path : Text) : Prop where
  slash : path.head? = some '/'
  plain : ∀ c ∈ path, c ≠ '?' ∧ c ≠ '#' ∧ isUnsafe c = false

def originUrl (scheme netloc : Text) : Text := scheme ++ ':' :: '/' :: '/' :: netloc

theorem schemeChar_spec {c : Char} (h : isSchemeChar c = true) : c ≠ ':' ∧ isC0OrSpace c = false ∧ isUnsafe c = false := by
  have hcontrol : ∀ n < 33, isSchemeChar (Char.ofNat n) = false := by decide
  have hlow : ¬c.toNat < 33 := by
    intro hc
    have hfalse := hcontrol c.toNat hc
    rw [Char.ofNat_toNat, h] at hfalse
    cases hfalse
  refine ⟨?_, decide_eq_false (by omega), ?_⟩
  · rintro rfl
    exact absurd h (by decide)
  · rw [Bool.eq_false_iff]
    intro hunsafe
    simp only [isUnsafe, Bool.or_eq_true, beq_iff_eq] at hunsafe
    rcases hunsafe with (rfl | rfl) | rfl
    all_goals exact hlow (by decide)

theorem urlsplit_origin (validNetloc : Text → Bool) {scheme netloc path : Text} (ho : IsOrigin scheme netloc)
    (hp : IsPath path) : urlsplit validNetloc (originUrl scheme netloc ++ path) =
      if validNetloc netloc then some ⟨scheme.map Char.toLower, netloc, path, [], []⟩ else none := by
  have hscheme (c : Char) (hc : c ∈ scheme) := schemeChar_spec (List.all_eq_true.mp ho.scheme c hc)
  have hurl : originUrl scheme netloc ++ path = scheme ++ ':' :: '/' :: '/' :: (netloc ++ path) := by
    simp only [originUrl, List.append_assoc, List.cons_append]
  have hfront : (originUrl scheme netloc ++ path).dropWhile isC0OrSpace = originUrl scheme netloc ++ path := by
    rw [hurl]
    cases scheme with
    | nil => exact absurd ho.letter (by simp)
    | cons c cs => exact List.dropWhile_cons_of_neg (by simp [(hscheme c (List.mem_cons_self ..)).2.1])
  have hsafe : (originUrl scheme netloc ++ path).filter (fun c => !isUnsafe c) = originUrl scheme netloc ++ path := by
    refine List.filter_eq_self.mpr fun c hc => ?_
    rw [hurl] at hc
    simp only [List.mem_append, List.mem_cons] at hc
    rcases hc with hc | rfl | rfl | rfl | hc | hc
    · rw [(hscheme c hc).2.2]; rfl
    · decide
    · decide
    · decide
    · rw [(ho.netloc c hc).2]; rfl
    · rw [(hp.plain c hc).2.2]; rfl
  have hsplit : splitScheme (originUrl scheme netloc ++ path) =
      (scheme.map Char.toLower, '/' :: '/' :: (netloc ++ path)) := by
    rw [hurl, splitScheme, cut_append (fun h => (hscheme ':' h).1 rfl)]
    dsimp only
    rw [ho.letter, ho.scheme]
    rfl
  have hnetloc : splitNetloc ('/' :: '/' :: (netloc ++ path)) = (netloc, path) := by
    obtain ⟨rest, rfl⟩ : ∃ rest, path = '/' :: rest := by
      cases path with
      | nil => exact absurd hp.slash (by simp)
      | cons c rest => exact ⟨rest, by rw [Option.some.inj hp.slash]⟩
    have hall : ∀ c ∈ netloc, (!isNetlocEnd c) = true := fun c hc => by rw [(ho.netloc c hc).1]; rfl
    have htail : ('/' :: rest).takeWhile (fun c => !isNetlocEnd c) = [] ∧
        ('/' :: rest).dropWhile (fun c => !isNetlocEnd c) = '/' :: rest := ⟨rfl, rfl⟩
    have hdrop : ('/' :: '/' :: (netloc ++ '/' :: rest)).drop 2 = netloc ++ '/' :: rest := rfl
    rw [splitNetloc, if_pos (by rfl), hdrop, List.takeWhile_append_of_pos hall, List.dropWhile_append_of_pos hall,
      htail.1, htail.2, List.append_nil]
  have hpath : splitPath path = (path, [], []) := by
    rw [splitPath, cut_of_notMem fun h => (hp.plain '#' h).2.1 rfl, Option.getD_none]
    dsimp only
    rw [cut_of_notMem fun h => (hp.plain '?' h).1 rfl]
    rfl
  rw [urlsplit, hfront, hsafe, hsplit]
  dsimp only
  rw [hnetloc]
  dsimp only
  rw [hpath]

end Lib
