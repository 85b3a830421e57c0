import DemoController.Lib.Utf8
import Mathlib.Data.List.TakeWhile

/-!
# Where a byte stream can be cut

The decoder reads a byte stream part by part: characters and malformed parts. Decoding
the pieces of a stream one by one gives the text of the stream exactly when every cut
falls between two parts; a cut inside a part makes the text longer.
-/

namespace Lib

def isContinuation (b : UInt8) : Bool := 0x80 ≤ b.toNat && b.toNat ≤ 0xbf

theorem isContinuation_iff {b : UInt8} : isContinuation b = true ↔ 0x80 ≤ b.toNat ∧ b.toNat ≤ 0xbf := by
  rw [isContinuation, Bool.and_eq_true, decide_eq_true_eq, decide_eq_true_eq]

/-! ### The length of the first part -/

theorem following_of_continuation {b : UInt8} (h : isContinuation b = true) : following b.toNat = (0, 0, 0) := by
  have hb := isContinuation_iff.mp h
  rw [following, if_pos (by omega)]

/-- The bytes that follow a first byte are continuation bytes. -/
theorem following_range (lead : ℕ) :
    (following lead).1 = 0 ∨ (0x80 ≤ (following lead).2.1 ∧ (following lead).2.2 ≤ 0xbf) := by
  unfold following
  split_ifs <;> simp

theorem malformedLength_cons (lead : UInt8) (rest : Bytes) : malformedLength (lead :: rest) =
    match rest.take (following lead.toNat).1 with
    | [] => 1
    | second :: more =>
      if (following lead.toNat).2.1 ≤ second.toNat ∧ second.toNat ≤ (following lead.toNat).2.2 then
        2 + (more.takeWhile isContinuation).length
      else 1 := rfl

/-- Of a shorter front as much is read as there is of the part. -/
theorem malformedLength_take (bs : Bytes) (n : ℕ) : malformedLength (bs.take n) = min n (malformedLength bs) := by
  cases bs with
  | nil => simp [malformedLength]
  | cons lead rest =>
    cases n with
    | zero => simp [malformedLength]
    | succ n =>
      have hcut : (rest.take n).take (following lead.toNat).1 = (rest.take (following lead.toNat).1).take n := by
        rw [List.take_take, List.take_take, Nat.min_comm]
      rw [List.take_succ_cons, malformedLength_cons, malformedLength_cons, hcut]
      cases rest.take (following lead.toNat).1 with
      | nil =>
        rw [List.take_nil]
        show 1 = min (n + 1) 1
        omega
      | cons second more =>
        by_cases hrange : (following lead.toNat).2.1 ≤ second.toNat ∧ second.toNat ≤ (following lead.toNat).2.2
        · cases n with
          | zero =>
            rw [List.take_zero]
            simp only [if_pos hrange]
            omega
          | succ n =>
            rw [List.take_succ_cons]
            simp only [if_pos hrange]
            rw [← List.take_takeWhile, List.length_take]
            omega
        · cases n with
          | zero =>
            rw [List.take_zero]
            simp only [if_neg hrange]
            omega
          | succ n =>
            rw [List.take_succ_cons]
            simp only [if_neg hrange]
            omega

theorem following_two {lead : ℕ} (h : 0xc2 ≤ lead ∧ lead ≤ 0xdf) : following lead = (1, 0x80, 0xbf) := by
  rw [following, if_neg (by omega), if_pos h.2]

theorem following_three (lead : ℕ) (h : 0xe0 ≤ lead ∧ lead ≤ 0xef) : ∃ low high, following lead = (2, low, high) ∧
    low = (if lead = 0xe0 then 0xa0 else 0x80) ∧ high = (if lead = 0xed then 0x9f else 0xbf) := by
  unfold following
  rw [if_neg (by omega), if_neg (by omega)]
  split_ifs
  all_goals first
    | exact ⟨_, _, rfl, rfl, rfl⟩
    | omega

theorem following_four (lead : ℕ) (h : 0xf0 ≤ lead ∧ lead ≤ 0xf4) : ∃ low high, following lead = (3, low, high) ∧
    low = (if lead = 0xf0 then 0x90 else 0x80) ∧ high = (if lead = 0xf4 then 0x8f else 0xbf) := by
  unfold following
  rw [if_neg (by omega), if_neg (by omega), if_neg (by omega), if_neg (by omega), if_neg (by omega)]
  split_ifs
  all_goals first
    | exact ⟨_, _, rfl, rfl, rfl⟩
    | omega

theorem malformedLength_of_good {lead second : UInt8} (more : Bytes) {rest : Bytes} {count low high : ℕ}
    (hf : following lead.toNat = (count, low, high)) (hcount : count = more.length + 1)
    (hsecond : low ≤ second.toNat ∧ second.toNat ≤ high) (hmore : ∀ b ∈ more, isContinuation b = true) :
    malformedLength (lead :: second :: more ++ rest) = more.length + 2 := by
  have htake : (second :: more ++ rest).take count = second :: more := by
    rw [hcount]
    exact List.take_left' rfl
  rw [List.cons_append, malformedLength_cons, hf]
  dsimp only
  rw [htake]
  simp only [if_pos hsecond]
  rw [List.takeWhile_eq_self_iff.mpr hmore]
  omega

theorem malformedLength_encodeChar (c : Char) (rest : Bytes) :
    malformedLength (String.utf8EncodeChar c ++ rest) = c.utf8Size := by
  have hvalid : c.val.toNat < 0xd800 ∨ (0xdfff < c.val.toNat ∧ c.val.toNat < 0x110000) := c.valid
  rw [← String.length_utf8EncodeChar]
  unfold String.utf8EncodeChar
  dsimp only
  generalize c.val.toNat = v at hvalid
  have hcont : ∀ n : ℕ, isContinuation (UInt8.ofNat (n % 64 + 128)) = true := by
    intro n
    rw [isContinuation_iff, UInt8.toNat_ofNat']
    omega
  split_ifs with h1 h2 h3
  · have hlead : (UInt8.ofNat v).toNat = v := by
      rw [UInt8.toNat_ofNat']
      omega
    rw [List.singleton_append, malformedLength_cons, hlead, following, if_pos (by omega)]
    rfl
  · have hlead : (UInt8.ofNat (v / 64 % 32 + 192)).toNat = v / 64 + 192 := by
      rw [UInt8.toNat_ofNat']
      omega
    have hsecond := isContinuation_iff.mp (hcont v)
    refine malformedLength_of_good [] (following_two ?_) rfl hsecond (by simp)
    rw [hlead]
    omega
  · have hlead : (UInt8.ofNat (v / 4096 % 16 + 224)).toNat = v / 4096 + 224 := by
      rw [UInt8.toNat_ofNat']
      omega
    have hsecond : (UInt8.ofNat (v / 64 % 64 + 128)).toNat = v / 64 % 64 + 128 := by
      rw [UInt8.toNat_ofNat']
      omega
    obtain ⟨low, high, hf, hlow, hhigh⟩ :=
      following_three (UInt8.ofNat (v / 4096 % 16 + 224)).toNat (by rw [hlead]; omega)
    refine malformedLength_of_good [_] hf rfl ?_ ?_
    · rw [hlow, hhigh, hlead, hsecond]
      split_ifs <;> omega
    · exact List.forall_mem_singleton.mpr (hcont v)
  · have hlead : (UInt8.ofNat (v / 262144 % 8 + 240)).toNat = v / 262144 + 240 := by
      rw [UInt8.toNat_ofNat']
      omega
    have hsecond : (UInt8.ofNat (v / 4096 % 64 + 128)).toNat = v / 4096 % 64 + 128 := by
      rw [UInt8.toNat_ofNat']
      omega
    obtain ⟨low, high, hf, hlow, hhigh⟩ :=
      following_four (UInt8.ofNat (v / 262144 % 8 + 240)).toNat (by rw [hlead]; omega)
    refine malformedLength_of_good [_, _] hf rfl ?_ ?_
    · rw [hlow, hhigh, hlead, hsecond]
      split_ifs <;> omega
    · intro b hb
      rcases List.mem_cons.mp hb with rfl | hb
      · exact hcont (v / 64)
      · rw [List.mem_singleton.mp hb]
        exact hcont v

theorem headLength_eq (bs : Bytes) : headLength bs = malformedLength bs := by
  unfold headLength
  split
  · next c hc =>
    obtain ⟨rest, rfl⟩ := headChar?_eq_some.mp hc
    exact (malformedLength_encodeChar c rest).symm
  · rfl

theorem headLength_pos {bs : Bytes} (h : bs ≠ []) : 0 < headLength bs := by
  rw [headLength_eq]
  exact malformedLength_pos h

theorem headLength_take (bs : Bytes) (n : ℕ) : headLength (bs.take n) = min n (headLength bs) := by
  rw [headLength_eq, headLength_eq]
  exact malformedLength_take bs n

theorem headLength_of_char {bs : Bytes} {c : Char} (h : headChar? bs = some c) : headLength bs = c.utf8Size := by
  rw [headLength, h]

/-- The first part is read the same from every front that holds it. -/
theorem headChar?_take {bs : Bytes} {n : ℕ} (h : headLength bs ≤ n) : headChar? (bs.take n) = headChar? bs := by
  cases hc : headChar? bs with
  | some c =>
    obtain ⟨rest, rfl⟩ := headChar?_eq_some.mp hc
    rw [headLength_of_char hc, ← String.length_utf8EncodeChar] at h
    rw [List.take_append, List.take_of_length_le h]
    exact headChar?_eq_some.mpr ⟨_, rfl⟩
  | none =>
    cases hd : headChar? (bs.take n) with
    | none => rfl
    | some d =>
      obtain ⟨rest, hrest⟩ := headChar?_eq_some.mp hd
      have hbs : bs = String.utf8EncodeChar d ++ (rest ++ bs.drop n) := by
        rw [← List.append_assoc, ← hrest, List.take_append_drop]
      rw [headChar?_eq_some.mpr ⟨_, hbs⟩] at hc
      cases hc

/-- A continuation byte starts no character and is a part of its own. -/
theorem headLength_of_continuation {b : UInt8} (h : isContinuation b = true) (rest : Bytes) :
    headLength (b :: rest) = 1 ∧ headChar? (b :: rest) = none := by
  have hlength : headLength (b :: rest) = 1 := by
    rw [headLength_eq, malformedLength_cons, following_of_continuation h]
    rfl
  refine ⟨hlength, ?_⟩
  cases hc : headChar? (b :: rest) with
  | none => rfl
  | some c =>
    have hsize := headLength_of_char hc
    rw [hlength] at hsize
    obtain ⟨tail, htail⟩ := headChar?_eq_some.mp hc
    have hb := isContinuation_iff.mp h
    rw [String.utf8EncodeChar_eq_singleton hsize.symm] at htail
    have hval : c.val.toNat ≤ 127 := by
      have h1 := Char.utf8Size_eq_one_iff.mp hsize.symm
      exact UInt32.le_iff_toNat_le.mp h1
    have hbyte := (List.cons.inj htail).1
    rw [hbyte] at hb
    have hmod : (c.val.toUInt8).toNat = c.val.toNat % 256 := rfl
    omega

/-- Behind its first byte the first part has only continuation bytes. -/
theorem continuation_of_headLength (bs : Bytes) (n : ℕ) (h0 : 0 < n) (h : n < headLength bs) :
    ∃ b rest, bs.drop n = b :: rest ∧ isContinuation b = true := by
  rw [headLength_eq] at h
  cases bs with
  | nil => exact absurd h (Nat.not_lt_zero n)
  | cons lead rest =>
    have hrange := following_range lead.toNat
    rw [malformedLength_cons] at h
    cases htake : rest.take (following lead.toNat).1 with
    | nil =>
      rw [htake] at h
      dsimp only at h
      omega
    | cons second more =>
      rw [htake] at h
      dsimp only at h
      split at h
      · next hsecond =>
        have hcount : (following lead.toNat).1 ≠ 0 := by
          intro hzero
          rw [hzero, List.take_zero] at htake
          cases htake
        have hrest : rest = second :: (more.takeWhile isContinuation ++
            (more.dropWhile isContinuation ++ rest.drop (following lead.toNat).1)) := by
          rw [← List.append_assoc, List.takeWhile_append_dropWhile, ← List.cons_append, ← htake,
            List.take_append_drop]
        obtain ⟨k, rfl⟩ : ∃ k, n = k + 1 := ⟨n - 1, by omega⟩
        rw [List.drop_succ_cons, hrest]
        cases k with
        | zero =>
          have hcont : isContinuation second = true := isContinuation_iff.mpr (by omega)
          exact ⟨second, _, rfl, hcont⟩
        | succ j =>
          have hlength : j + 1 + 1 < 2 + (more.takeWhile isContinuation).length := h
          have hj : j < (more.takeWhile isContinuation).length := by omega
          rw [List.drop_succ_cons, List.drop_append_of_le_length hj.le, List.drop_eq_getElem_cons hj]
          exact ⟨_, _, rfl, List.mem_takeWhile_imp (List.getElem_mem hj)⟩
      · omega

/-! ### The parts of a stream -/

theorem decodeFrom_eq {fuel : ℕ} {bs : Bytes} (h : bs.length ≤ fuel) : decodeFrom fuel bs = decodeReplace bs := by
  have hstep : ∀ (n m : ℕ) (bs : Bytes), bs.length ≤ n → bs.length ≤ m → decodeFrom n bs = decodeFrom m bs := by
    intro n
    induction n with
    | zero =>
      intro m bs hn _
      have hnil : bs = [] := List.length_eq_zero_iff.mp (Nat.le_zero.mp hn)
      subst hnil
      cases m with
      | zero => rfl
      | succ m => rfl
    | succ n ih =>
      intro m bs hn hm
      cases m with
      | zero =>
        have hnil : bs = [] := List.length_eq_zero_iff.mp (Nat.le_zero.mp hm)
        subst hnil
        rfl
      | succ m =>
        rw [decodeFrom, decodeFrom]
        by_cases hbs : bs = []
        · rw [if_pos hbs, if_pos hbs]
        · have hpos := headLength_pos hbs
          have hlen := List.length_pos_iff.mpr hbs
          rw [if_neg hbs, if_neg hbs, ih m (bs.drop (headLength bs)) (by rw [List.length_drop]; omega)
            (by rw [List.length_drop]; omega)]
  exact hstep fuel bs.length bs h le_rfl

theorem decodeReplace_eq {bs : Bytes} (h : bs ≠ []) :
    decodeReplace bs = (headChar? bs).getD '\uFFFD' :: decodeReplace (bs.drop (headLength bs)) := by
  have hlen := List.length_pos_iff.mpr h
  have hpos := headLength_pos h
  obtain ⟨n, hn⟩ : ∃ n, bs.length = n + 1 := ⟨bs.length - 1, by omega⟩
  rw [decodeReplace, hn, decodeFrom, if_neg h, decodeFrom_eq (by rw [List.length_drop]; omega)]

theorem decodeReplace_length_le (bs : Bytes) : (decodeReplace bs).length ≤ bs.length := by
  induction hn : bs.length using Nat.strong_induction_on generalizing bs with
  | _ n ih =>
    by_cases h : bs = []
    · rw [h]
      exact Nat.zero_le n
    · have hpos := headLength_pos h
      have hlen := List.length_pos_iff.mpr h
      have hdrop := List.length_drop (i := headLength bs) (l := bs)
      have htail := ih _ (by omega) (bs.drop (headLength bs)) rfl
      rw [decodeReplace_eq h, List.length_cons]
      omega

/-- No byte of ASCII stands behind the first byte of a part. -/
theorem ascii_notMem_part {c : Char} (hc : c.toNat < 128) {lead : UInt8} {rest : Bytes} {k : ℕ}
    (hk : headLength (lead :: rest) = k + 1) : UInt8.ofNat c.toNat ∉ rest.take k := by
  intro hmem
  have hbyte : (UInt8.ofNat c.toNat).toNat = c.toNat := by
    rw [UInt8.toNat_ofNat']
    omega
  obtain ⟨i, hi, hget⟩ := List.mem_iff_getElem.mp hmem
  rw [List.length_take] at hi
  obtain ⟨b, tail, hb, hcont⟩ := continuation_of_headLength (lead :: rest) (i + 1) (by omega) (by omega)
  rw [List.drop_succ_cons, List.drop_eq_getElem_cons (by omega)] at hb
  rw [List.getElem_take, (List.cons.inj hb).1] at hget
  have hrange := isContinuation_iff.mp hcont
  rw [hget] at hrange
  omega

/-- A part is read as a character of ASCII exactly when that is its first byte. -/
theorem headChar?_ascii_iff {c : Char} (hc : c.toNat < 128) (lead : UInt8) (rest : Bytes) :
    (headChar? (lead :: rest)).getD '\uFFFD' = c ↔ lead = UInt8.ofNat c.toNat := by
  constructor
  · intro h
    cases hd : headChar? (lead :: rest) with
    | none =>
      rw [hd] at h
      rw [← h] at hc
      exact absurd hc (by decide)
    | some d =>
      rw [hd] at h
      obtain ⟨tail, htail⟩ := headChar?_eq_some.mp hd
      rw [show d = c from h, encodeChar_of_ascii hc] at htail
      exact (List.cons.inj htail).1
  · intro h
    have hd : headChar? (lead :: rest) = some c :=
      headChar?_eq_some.mpr ⟨rest, by rw [encodeChar_of_ascii hc, h]; rfl⟩
    rw [hd]
    rfl

/-- The characters of ASCII are the bytes of their values. -/
theorem count_decodeReplace {c : Char} (hc : c.toNat < 128) (bs : Bytes) :
    (decodeReplace bs).count c = bs.count (UInt8.ofNat c.toNat) := by
  -- one part at a time: its first byte decides, and the bytes behind it are not ASCII
  induction hn : bs.length using Nat.strong_induction_on generalizing bs with
  | _ n ih =>
    cases bs with
    | nil => rfl
    | cons lead rest =>
      have hne : lead :: rest ≠ [] := List.cons_ne_nil _ _
      have hpos := headLength_pos hne
      have hcons : (lead :: rest).length = rest.length + 1 := rfl
      have hdrop := List.length_drop (i := headLength (lead :: rest)) (l := lead :: rest)
      have htail := ih _ (by omega) ((lead :: rest).drop (headLength (lead :: rest))) rfl
      obtain ⟨k, hk⟩ : ∃ k, headLength (lead :: rest) = k + 1 := ⟨headLength (lead :: rest) - 1, by omega⟩
      have hsplit : (lead :: rest).count (UInt8.ofNat c.toNat) =
          (if lead = UInt8.ofNat c.toNat then 1 else 0) + (rest.drop k).count (UInt8.ofNat c.toNat) := by
        have hcount := congrArg (List.count (UInt8.ofNat c.toNat)) (List.take_append_drop k rest)
        rw [List.count_append, List.count_eq_zero.mpr (ascii_notMem_part hc hk)] at hcount
        rw [List.count_cons, ← hcount]
        simp only [beq_iff_eq]
        omega
      rw [decodeReplace_eq hne, List.count_cons, htail, hsplit, hk, List.drop_succ_cons]
      simp only [beq_iff_eq, headChar?_ascii_iff hc]
      omega

/-! ### The size of the encoding -/

theorem length_le_encode (t : Text) : t.length ≤ (encode t).length := by
  induction t with
  | nil => exact Nat.le_refl 0
  | cons c t ih =>
    have hpos := c.utf8Size_pos
    rw [encode_cons, List.length_append, String.length_utf8EncodeChar, List.length_cons]
    omega

theorem encode_length_iff (t : Text) : (encode t).length = t.length ↔ ∀ c ∈ t, c.toNat < 128 := by
  induction t with
  | nil => exact iff_of_true rfl fun c hc => absurd hc List.not_mem_nil
  | cons c t ih =>
    have hpos := c.utf8Size_pos
    have hle := length_le_encode t
    have hone : c.utf8Size = 1 ↔ c.toNat < 128 := by
      rw [Char.utf8Size_eq_one_iff, UInt32.le_iff_toNat_le]
      exact Nat.lt_succ_iff.symm
    rw [encode_cons, List.length_append, String.length_utf8EncodeChar, List.length_cons, List.forall_mem_cons, ← ih,
      ← hone]
    omega

/-! ### Cuts -/

/-- Whether the cut between `a` and `b` falls between two parts of `a ++ b` (`fuel` bounds
the number of parts of `a`). -/
def cutsBetweenFrom : ℕ → Bytes → Bytes → Bool
  | _, [], _ => true
  | 0, _, _ => false
  | fuel + 1, a, b =>
    headLength (a ++ b) ≤ a.length && cutsBetweenFrom fuel (a.drop (headLength (a ++ b))) b

/-- Every cut of the stream falls between two of its parts. -/
def cutsBetweenParts : List Bytes → Bool
  | [] => true
  | chunk :: chunks => cutsBetweenFrom chunk.length chunk chunks.flatten && cutsBetweenParts chunks

/-- Continuation bytes in front are each read as a character. -/
theorem decodeReplace_length_of_continuation {bs : Bytes} {k : ℕ}
    (h : ∀ i < k, ∃ b rest, bs.drop i = b :: rest ∧ isContinuation b = true) :
    (decodeReplace bs).length = k + (decodeReplace (bs.drop k)).length := by
  induction k generalizing bs with
  | zero => rw [List.drop_zero, Nat.zero_add]
  | succ k ih =>
    obtain ⟨b, rest, hbs, hcont⟩ := h 0 (Nat.succ_pos k)
    rw [List.drop_zero] at hbs
    subst hbs
    obtain ⟨hhead, -⟩ := headLength_of_continuation hcont rest
    have htail : ∀ i < k, ∃ b rest', rest.drop i = b :: rest' ∧ isContinuation b = true := by
      intro i hi
      exact h (i + 1) (by omega)
    rw [decodeReplace_eq (List.cons_ne_nil _ _), hhead, List.length_cons, List.drop_succ_cons, List.drop_succ_cons,
      List.drop_zero, ih htail]
    omega

theorem decodeReplace_append_part {a b : Bytes} (ha : a ≠ []) (h : headLength (a ++ b) ≤ a.length) :
    ∃ c, decodeReplace (a ++ b) = c :: decodeReplace (a.drop (headLength (a ++ b)) ++ b) ∧
      decodeReplace a = c :: decodeReplace (a.drop (headLength (a ++ b))) := by
  have htake : (a ++ b).take a.length = a := List.take_left
  have hlength : headLength a = headLength (a ++ b) := by
    have hmin := headLength_take (a ++ b) a.length
    rw [htake] at hmin
    omega
  have hchar : headChar? a = headChar? (a ++ b) := by
    have hfront := headChar?_take h
    rw [htake] at hfront
    exact hfront
  have hne : a ++ b ≠ [] := fun hnil => ha (List.append_eq_nil_iff.mp hnil).1
  refine ⟨(headChar? (a ++ b)).getD '\uFFFD', ?_, ?_⟩
  · rw [decodeReplace_eq hne, List.drop_append_of_le_length h]
  · rw [decodeReplace_eq ha, hchar, hlength]

/-- A cut inside a part: its two ends are read as characters of their own. -/
theorem decodeReplace_append_inside {a b : Bytes} (ha : a ≠ []) (h : a.length < headLength (a ++ b)) :
    (decodeReplace (a ++ b)).length < (decodeReplace a).length + (decodeReplace b).length := by
  have htake : (a ++ b).take a.length = a := List.take_left
  have hlength : headLength a = a.length := by
    have hmin := headLength_take (a ++ b) a.length
    rw [htake] at hmin
    omega
  have hpos := List.length_pos_iff.mpr ha
  have hne : a ++ b ≠ [] := fun hnil => ha (List.append_eq_nil_iff.mp hnil).1
  have hfront : (decodeReplace a).length = 1 := by
    rw [decodeReplace_eq ha, hlength, List.drop_length]
    rfl
  have hback : (decodeReplace b).length = (headLength (a ++ b) - a.length) +
      (decodeReplace (b.drop (headLength (a ++ b) - a.length))).length := by
    refine decodeReplace_length_of_continuation fun i hi => ?_
    have hinside := continuation_of_headLength (a ++ b) (a.length + i) (by omega) (by omega)
    rw [List.drop_append, List.drop_of_length_le (by omega), List.nil_append, Nat.add_sub_cancel_left] at hinside
    exact hinside
  have hwhole : (decodeReplace (a ++ b)).length =
      1 + (decodeReplace (b.drop (headLength (a ++ b) - a.length))).length := by
    rw [decodeReplace_eq hne, List.length_cons, List.drop_append, List.drop_of_length_le h.le, List.nil_append,
      Nat.add_comm]
  omega

theorem decodeReplace_append {fuel : ℕ} {a : Bytes} (hfuel : a.length ≤ fuel) (b : Bytes) :
    (cutsBetweenFrom fuel a b = true → decodeReplace (a ++ b) = decodeReplace a ++ decodeReplace b) ∧
      (cutsBetweenFrom fuel a b = false →
        (decodeReplace (a ++ b)).length < (decodeReplace a).length + (decodeReplace b).length) := by
  induction fuel generalizing a with
  | zero =>
    have hnil : a = [] := List.length_eq_zero_iff.mp (Nat.le_zero.mp hfuel)
    subst hnil
    exact ⟨fun _ => rfl, fun hc => by cases hc⟩
  | succ fuel ih =>
    cases a with
    | nil => exact ⟨fun _ => rfl, fun hc => by cases hc⟩
    | cons x a =>
      have ha : x :: a ≠ [] := List.cons_ne_nil _ _
      have hcuts : cutsBetweenFrom (fuel + 1) (x :: a) b = (decide (headLength (x :: a ++ b) ≤ (x :: a).length) &&
        cutsBetweenFrom fuel ((x :: a).drop (headLength (x :: a ++ b))) b) := rfl
      have hpos : 0 < headLength (x :: a ++ b) := headLength_pos (List.cons_ne_nil _ _)
      by_cases h : headLength (x :: a ++ b) ≤ (x :: a).length
      · have hdrop := List.length_drop (i := headLength (x :: a ++ b)) (l := x :: a)
        have hcons : (x :: a).length = a.length + 1 := rfl
        obtain ⟨hyes, hno⟩ := @ih ((x :: a).drop (headLength (x :: a ++ b))) (by omega)
        obtain ⟨c, hwhole, hfront⟩ := decodeReplace_append_part ha h
        rw [hcuts, decide_eq_true h, Bool.true_and, hwhole, hfront]
        constructor
        · intro hc
          rw [hyes hc]
          rfl
        · intro hc
          have hlt := hno hc
          rw [List.length_cons, List.length_cons]
          omega
      · rw [hcuts, decide_eq_false h, Bool.false_and]
        exact ⟨fun hc => absurd hc Bool.false_ne_true, fun _ => decodeReplace_append_inside ha (not_le.mp h)⟩

/-- The text decoded chunk by chunk is the text of the stream exactly when every cut falls
between two parts, and longer otherwise. -/
theorem decodeReplace_chunks (chunks : List Bytes) :
    (cutsBetweenParts chunks = true → (chunks.map decodeReplace).flatten = decodeReplace chunks.flatten) ∧
      (cutsBetweenParts chunks = false →
        (decodeReplace chunks.flatten).length < (chunks.map decodeReplace).flatten.length) := by
  induction chunks with
  | nil => exact ⟨fun _ => rfl, fun hc => by cases hc⟩
  | cons chunk chunks ih =>
    obtain ⟨hyes, hno⟩ := decodeReplace_append (le_refl chunk.length) chunks.flatten
    have hrest : (decodeReplace chunks.flatten).length ≤ (chunks.map decodeReplace).flatten.length := by
      cases hc : cutsBetweenParts chunks with
      | true => rw [ih.1 hc]
      | false => exact (ih.2 hc).le
    rw [cutsBetweenParts, List.map_cons, List.flatten_cons, List.flatten_cons, List.length_append]
    -- a longer text never gets shorter again, so one cut inside a part is enough
    constructor
    · intro hc
      obtain ⟨hchunk, hchunks⟩ := Bool.and_eq_true_iff.mp hc
      rw [hyes hchunk, ih.1 hchunks]
    · intro hc
      rcases Bool.and_eq_false_iff.mp hc with hchunk | hchunks
      · have hlt := hno hchunk
        omega
      · have hlt := ih.2 hchunks
        cases hfirst : cutsBetweenFrom chunk.length chunk chunks.flatten with
        | true =>
          rw [hyes hfirst, List.length_append]
          omega
        | false =>
          have hlt' := hno hfirst
          omega

theorem decodeReplace_chunks_iff (chunks : List Bytes) :
    (chunks.map decodeReplace).flatten = decodeReplace chunks.flatten ↔ cutsBetweenParts chunks = true := by
  constructor
  · intro h
    by_contra hc
    have hlt := (decodeReplace_chunks chunks).2 (Bool.not_eq_true _ ▸ hc)
    rw [h] at hlt
    exact lt_irrefl _ hlt
  · exact (decodeReplace_chunks chunks).1

end Lib
