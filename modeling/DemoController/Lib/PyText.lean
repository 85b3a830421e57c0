import DemoController.Lib.Digest
import Mathlib.Data.List.DropRight

/-!
# Python's `str` on lists of characters

The string methods the controller calls. Case mapping outside ASCII is a table
of the Unicode version Python was built with; it is a parameter, of which only
the ASCII part is fixed.
-/

namespace Lib

structure CaseMapping where
  lower : Text → Text
  upper : Text → Text
  lower_ascii : ∀ t : Text, (∀ c ∈ t, c.toNat < 128) → lower t = t.map Char.toLower

/-- A case mapping that leaves everything outside ASCII alone. -/
def CaseMapping.ascii : CaseMapping := ⟨List.map Char.toLower, List.map Char.toUpper, fun _ _ => rfl⟩

def isSpace (c : Char) : Bool :=
  let n := c.toNat
  (9 ≤ n && n ≤ 13) || (28 ≤ n && n ≤ 32) || n == 0x85 || n == 0xa0 || n == 0x1680 ||
    (0x2000 ≤ n && n ≤ 0x200a) || n == 0x2028 || n == 0x2029 || n == 0x202f || n == 0x205f || n == 0x3000

/-- The white space `int` skips around a number: the separators U+001C to U+001F are left
in the text, and refused there. -/
def isIntSpace (c : Char) : Bool := isSpace c && !(28 ≤ c.toNat && c.toNat ≤ 31)

def strip (p : Char → Bool) (t : Text) : Text := (t.dropWhile p).rdropWhile p

def rstrip (p : Char → Bool) (t : Text) : Text := t.rdropWhile p

def removePrefix (p t : Text) : Text := if p.isPrefixOf t then t.drop p.length else t

/-- The text before and after the first `c`, when there is one. -/
def cut (c : Char) : Text → Option (Text × Text)
  | [] => none
  | x :: xs => if x = c then some ([], xs) else (cut c xs).map fun p => (x :: p.1, p.2)

/-- The text after the last `c`, the whole text when there is none. -/
def afterLast (c : Char) (t : Text) : Text := t.rtakeWhile (· ≠ c)

def decimal (n : ℤ) : Text := (toString n).toList

/-- Decimal digits with single underscores between them; `open_` says that a
digit came last, so that the text may end or an underscore follow. -/
def digitsValue (acc : ℕ) (open_ : Bool) : Text → Option ℕ
  | [] => if open_ then some acc else none
  | c :: cs =>
    if c.isDigit then digitsValue (10 * acc + (c.toNat - '0'.toNat)) true cs
    else if c = '_' ∧ open_ then digitsValue acc false cs
    else none

/-- `int(t)`, `none` where it raises `ValueError`. The texts read with it are
latin-1, whose only decimal digits are those of ASCII. -/
def pyInt (t : Text) : Option ℤ :=
  let s := strip isIntSpace t
  let body := match s with
    | '-' :: cs => cs
    | '+' :: cs => cs
    | cs => cs
  if (body.filter Char.isDigit).length > 4300 then none
  else (digitsValue 0 false body).map fun n => if s.head? = some '-' then -(n : ℤ) else n

theorem afterLast_append_cons {c : Char} (a : Text) {b : Text} (h : c ∉ b) : afterLast c (a ++ c :: b) = b := by
  have hall : ∀ d ∈ b.reverse, decide (d ≠ c) = true :=
    fun d hd => decide_eq_true fun e => h (e ▸ List.mem_reverse.mp hd)
  rw [afterLast, List.rtakeWhile, List.reverse_append, List.reverse_cons, List.append_assoc,
    List.takeWhile_append_of_pos hall]
  simp

/-- Texts that end in different positions of the same letter-free tail agree: the
tail after the last `c` determines the split. -/
theorem append_cons_inj {c : Char} {a b x y : Text} (hx : c ∉ x) (hy : c ∉ y)
    (h : a ++ c :: x = b ++ c :: y) : a = b ∧ x = y := by
  have hxy : x = y := by rw [← afterLast_append_cons a hx, h, afterLast_append_cons b hy]
  subst hxy
  exact ⟨List.append_cancel_right h, rfl⟩

/-- Texts without a `c` agree when they end at the first one of equal texts. -/
theorem cons_append_inj {α : Type} {c : α} {a b x y : List α} (ha : c ∉ a) (hb : c ∉ b)
    (h : a ++ c :: x = b ++ c :: y) : a = b ∧ x = y := by
  induction a generalizing b with
  | nil =>
    cases b with
    | nil => exact ⟨rfl, (List.cons.inj h).2⟩
    | cons d b =>
      have hd : c = d := (List.cons.inj h).1
      exact absurd (hd ▸ List.mem_cons_self ..) hb
  | cons d a ih =>
    cases b with
    | nil =>
      have hd : d = c := (List.cons.inj h).1
      exact absurd (hd ▸ List.mem_cons_self ..) ha
    | cons e b =>
      obtain ⟨hde, hrest⟩ := List.cons.inj h
      have htail := ih (fun hc => ha (List.mem_cons_of_mem _ hc)) (fun hc => hb (List.mem_cons_of_mem _ hc)) hrest
      exact ⟨by rw [hde, htail.1], htail.2⟩

/-- Texts without a `c` can be read back from their concatenation with `c` between
them and before a last text that is arbitrary. -/
theorem intercalate_concat_inj {α : Type} {c : α} {as bs : List (List α)} {x y : List α}
    (hlen : as.length = bs.length) (ha : ∀ a ∈ as, c ∉ a) (hb : ∀ b ∈ bs, c ∉ b)
    (h : List.intercalate [c] (as ++ [x]) = List.intercalate [c] (bs ++ [y])) : as = bs ∧ x = y := by
  induction as generalizing bs with
  | nil =>
    have hnil : bs = [] := List.length_eq_zero_iff.mp hlen.symm
    subst hnil
    exact ⟨rfl, by simpa using h⟩
  | cons a as ih =>
    cases bs with
    | nil => cases hlen
    | cons b bs =>
      have hcons (z : List α) (zs : List (List α)) (w : List α) :
          List.intercalate [c] (z :: zs ++ [w]) = z ++ c :: List.intercalate [c] (zs ++ [w]) := by
        cases zs with
        | nil => simp [List.intercalate_cons_cons]
        | cons v zs => simp [List.intercalate_cons_cons]
      rw [hcons, hcons] at h
      obtain ⟨hab, hrest⟩ := cons_append_inj (ha a (List.mem_cons_self ..)) (hb b (List.mem_cons_self ..)) h
      obtain ⟨hpre, hlast⟩ := ih (Nat.succ.inj hlen) (fun z hz => ha z (List.mem_cons_of_mem _ hz))
        (fun z hz => hb z (List.mem_cons_of_mem _ hz)) hrest
      exact ⟨by rw [hab, hpre], hlast⟩

theorem decimal_ofNat (n : ℕ) : decimal (n : ℤ) = Nat.toDigits 10 n := by
  have h : toString (n : ℤ) = n.repr := rfl
  rw [decimal, h, Nat.toList_repr]

theorem decimal_digits {n : ℤ} (hn : 0 ≤ n) : ∀ c ∈ decimal n, c.isDigit = true := by
  obtain ⟨k, rfl⟩ := Int.eq_ofNat_of_zero_le hn
  rw [decimal_ofNat]
  exact fun c hc => Nat.isDigit_of_mem_toDigits (by decide) (by decide) hc

theorem decimal_ne_nil {n : ℤ} (hn : 0 ≤ n) : decimal n ≠ [] := by
  obtain ⟨k, rfl⟩ := Int.eq_ofNat_of_zero_le hn
  rw [decimal_ofNat]
  exact Nat.toDigits_ne_nil

theorem decimal_length {n : ℤ} (hn : 0 ≤ n) (h : n ≤ 2147483647) : (decimal n).length ≤ 10 := by
  obtain ⟨k, rfl⟩ := Int.eq_ofNat_of_zero_le hn
  rw [decimal_ofNat, Nat.length_toDigits_le_iff (by decide) (by decide)]
  omega

theorem decimal_inj {n m : ℤ} (hn : 0 ≤ n) (hm : 0 ≤ m) (h : decimal n = decimal m) : n = m := by
  obtain ⟨k, rfl⟩ := Int.eq_ofNat_of_zero_le hn
  obtain ⟨j, rfl⟩ := Int.eq_ofNat_of_zero_le hm
  rw [decimal_ofNat, decimal_ofNat] at h
  have hv := congrArg (fun ds => Nat.ofDigitChars 10 ds 0) h
  simp only [Nat.ofDigitChars_ten_toDigits] at hv
  rw [hv]

theorem decimal_negSucc (k : ℕ) : decimal (Int.negSucc k) = '-' :: decimal ((k + 1 : ℕ) : ℤ) := by
  have hstr : toString (Int.negSucc k) = "-" ++ toString ((k + 1 : ℕ) : ℤ) := rfl
  rw [decimal, hstr, String.toList_append]
  rfl

theorem decimal_chars (n : ℤ) : ∀ c ∈ decimal n, c.isDigit = true ∨ c = '-' := by
  intro c hc
  cases n with
  | ofNat k => exact .inl (decimal_digits (Int.natCast_nonneg k) c hc)
  | negSucc k =>
    rw [decimal_negSucc] at hc
    rcases List.mem_cons.mp hc with rfl | hc
    · exact .inr rfl
    · exact .inl (decimal_digits (Int.natCast_nonneg _) c hc)

/-- The decimal of a natural number is no other integer's. -/
theorem decimal_eq_of_nonneg {n m : ℤ} (hm : 0 ≤ m) (h : decimal n = decimal m) : n = m := by
  cases n with
  | ofNat k => exact decimal_inj (Int.natCast_nonneg k) hm h
  | negSucc k =>
    have hneg : '-' ∈ decimal (Int.negSucc k) := by
      rw [decimal_negSucc]
      exact List.mem_cons_self ..
    rw [h] at hneg
    exact absurd (decimal_digits hm _ hneg) (by decide)

theorem forall_mem_of_all {p : Char → Prop} [DecidablePred p] {t : Text} (h : (t.all fun c => p c) = true) :
    ∀ c ∈ t, p c := by
  intro c hc
  exact of_decide_eq_true (List.all_eq_true.mp h c hc)

theorem rstrip_of_last {p : Char → Bool} {t d : Text} (hd : d ≠ []) (hp : ∀ c ∈ d, p c = false) :
    rstrip p (t ++ d) = t ++ d := by
  rw [rstrip, List.rdropWhile_eq_self_iff]
  intro hne
  rw [List.getLast_append_of_ne_nil _ hd, hp _ (List.getLast_mem hd)]
  exact Bool.false_ne_true

/-! ### The parts around a character -/

theorem takeWhile_ne_append {c : Char} {a : Text} (b : Text) (h : c ∉ a) :
    (a ++ b).takeWhile (· ≠ c) = a ++ b.takeWhile (· ≠ c) :=
  List.takeWhile_append_of_pos fun _ hd => decide_eq_true fun e => h (e ▸ hd)

theorem dropWhile_ne_append {c : Char} {a : Text} (b : Text) (h : c ∉ a) :
    (a ++ b).dropWhile (· ≠ c) = b.dropWhile (· ≠ c) :=
  List.dropWhile_append_of_pos fun _ hd => decide_eq_true fun e => h (e ▸ hd)

theorem takeWhile_ne_cons (c : Char) (a : Text) : (c :: a).takeWhile (· ≠ c) = [] :=
  List.takeWhile_cons_of_neg (by simp)

theorem dropWhile_ne_cons (c : Char) (a : Text) : (c :: a).dropWhile (· ≠ c) = c :: a :=
  List.dropWhile_cons_of_neg (by simp)

theorem cut_eq_some {c : Char} {t a b : Text} (h : cut c t = some (a, b)) : t = a ++ c :: b ∧ c ∉ a := by
  induction t generalizing a with
  | nil => cases h
  | cons x xs ih =>
    rw [cut] at h
    split at h
    · next hx =>
      cases h
      exact ⟨by rw [hx]; rfl, List.not_mem_nil⟩
    · next hx =>
      obtain ⟨⟨a', b'⟩, hcut, he⟩ := Option.map_eq_some_iff.mp h
      cases he
      obtain ⟨hxs, hn⟩ := ih hcut
      refine ⟨by rw [hxs]; rfl, fun hc => ?_⟩
      rcases List.mem_cons.mp hc with rfl | hc
      · exact hx rfl
      · exact hn hc

theorem cut_of_notMem {c : Char} {t : Text} (h : c ∉ t) : cut c t = none := by
  induction t with
  | nil => rfl
  | cons d t ih =>
    obtain ⟨hd, ht⟩ := not_or.mp (fun hc => h (List.mem_cons.mpr hc))
    rw [cut, if_neg (Ne.symm hd), ih ht]
    rfl

theorem cut_append {c : Char} {t : Text} (h : c ∉ t) (u : Text) : cut c (t ++ c :: u) = some (t, u) := by
  induction t with
  | nil => exact if_pos rfl
  | cons d t ih =>
    obtain ⟨hd, ht⟩ := not_or.mp (fun hc => h (List.mem_cons.mpr hc))
    rw [List.cons_append, cut, if_neg (Ne.symm hd), ih ht]
    rfl

theorem afterLast_of_notMem {c : Char} {t : Text} (h : c ∉ t) : afterLast c t = t :=
  List.rtakeWhile_eq_self_iff.mpr fun _ hd => decide_eq_true fun e => h (e ▸ hd)

theorem removePrefix_append (p t : Text) : removePrefix p (p ++ t) = t := by
  rw [removePrefix, if_pos (List.isPrefixOf_iff_prefix.mpr (List.prefix_append ..)), List.drop_left]

/-! ### Reading a decimal back -/

theorem digitsValue_digits {ds : Text} (hds : ∀ c ∈ ds, c.isDigit = true) (acc : ℕ) :
    digitsValue acc true ds = some (Nat.ofDigitChars 10 ds acc) := by
  induction ds generalizing acc with
  | nil => rw [digitsValue, if_pos rfl, Nat.ofDigitChars_nil]
  | cons c ds ih =>
    rw [digitsValue, if_pos (hds c (List.mem_cons_self ..)), ih fun d hd => hds d (List.mem_cons_of_mem _ hd),
      Nat.ofDigitChars_cons]

theorem isDigit_iff {c : Char} : c.isDigit = true ↔ '0' ≤ c ∧ c ≤ '9' :=
  (Bool.and_eq_true_iff ..).trans (and_congr decide_eq_true_iff decide_eq_true_iff)

theorem not_isSpace_of_digit {c : Char} (h : c.isDigit = true) : isSpace c = false := by
  obtain ⟨h0, h9⟩ := isDigit_iff.mp h
  have hlow : 48 ≤ c.toNat := UInt32.le_iff_toNat_le.mp h0
  have hhigh : c.toNat ≤ 57 := UInt32.le_iff_toNat_le.mp h9
  simp only [isSpace, Bool.or_eq_false_iff, Bool.and_eq_false_iff, decide_eq_false_iff_not, beq_eq_false_iff_ne]
  omega

theorem not_isIntSpace_of_digit {c : Char} (h : c.isDigit = true) : isIntSpace c = false := by
  rw [isIntSpace, not_isSpace_of_digit h, Bool.false_and]

theorem strip_of_forall {p : Char → Bool} {t : Text} (h : ∀ c ∈ t, p c = false) : strip p t = t := by
  have hfront : t.dropWhile p = t := by
    cases t with
    | nil => rfl
    | cons c t => exact List.dropWhile_cons_of_neg (by simp [h c (List.mem_cons_self ..)])
  rw [strip, hfront, List.rdropWhile_eq_self_iff]
  intro hne
  simp [h _ (List.getLast_mem hne)]

/-- `int(str(n))`, as long as `n` has no more digits than `int` reads. -/
theorem pyInt_decimal {n : ℤ} (hn : 0 ≤ n) (hlength : (decimal n).length ≤ 4300) : pyInt (decimal n) = some n := by
  have hdigits := decimal_digits hn
  have hstrip : strip isIntSpace (decimal n) = decimal n :=
    strip_of_forall fun c hc => not_isIntSpace_of_digit (hdigits c hc)
  obtain ⟨k, rfl⟩ := Int.eq_ofNat_of_zero_le hn
  have hvalue : Nat.ofDigitChars 10 (decimal k) 0 = k := by
    rw [decimal_ofNat, Nat.ofDigitChars_ten_toDigits]
  cases hd : decimal k with
  | nil => exact absurd hd (decimal_ne_nil hn)
  | cons c ds =>
    rw [hd] at hdigits hstrip hlength hvalue
    have hc := hdigits c (List.mem_cons_self ..)
    have hminus : c ≠ '-' := fun h => absurd (h ▸ hc) (by decide)
    have hplus : c ≠ '+' := fun h => absurd (h ▸ hc) (by decide)
    have hopen : digitsValue 0 false (c :: ds) = digitsValue 0 true (c :: ds) := by
      rw [digitsValue, digitsValue, if_pos hc, if_pos hc]
    have hcount : ¬4300 < ((c :: ds).filter Char.isDigit).length :=
      Nat.not_lt.mpr ((List.length_filter_le _ _).trans hlength)
    unfold pyInt
    simp only [hstrip]
    split
    · next heq => exact absurd (List.cons.inj heq).1 hminus
    · next heq => exact absurd (List.cons.inj heq).1 hplus
    · have hhead : (c :: ds).head? ≠ some '-' := fun h => hminus (Option.some.inj h)
      rw [if_neg hcount, hopen, digitsValue_digits hdigits, hvalue, Option.map_eq_some_iff]
      exact ⟨k, rfl, if_neg hhead⟩

end Lib
