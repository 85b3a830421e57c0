import DemoController.Lib.Utf8Parts

/-!
# Reading exec frames (`demo_logs.py`)

`_exec_pebble_logs` decodes every message of the exec websocket by itself and counts the
characters of the texts it has kept. A session is the messages that arrive before the
disconnect.
-/

namespace DemoController

open Lib

/-! ### The loop -/

def maxResultBytes : ℕ := 64000

/-- Why the loop raises: `data[0]` on an empty message. -/
inductive FrameError where
  | indexError
  deriving DecidableEq

def statusStart : Text := "\x7b\"metadata\"".toList

def decodeLogFrame : Bytes → Except FrameError (Option Text)
  | [] => .error .indexError
  | channel :: data =>
    let output := decodeReplace data
    .ok (if channel = 3 || statusStart.isPrefixOf output then none else some output)

/-- The loop of `_exec_pebble_logs`, with the texts kept so far and their length. -/
def receiveFrames (chunks : List Text) (total : ℕ) : List Bytes → Except FrameError Text
  | [] => .ok chunks.flatten
  | data :: frames =>
    if total < maxResultBytes then do
      match ← decodeLogFrame data with
      | none => receiveFrames chunks total frames
      | some output => receiveFrames (chunks ++ [output]) (total + output.length) frames
    else .ok chunks.flatten

/-- What a session of these messages returns. -/
def execPebbleLogs (frames : List Bytes) : Except FrameError Text := receiveFrames [] 0 frames

/-! ### What the loop has read -/

def keptText (data : Bytes) : Text :=
  match decodeLogFrame data with
  | .ok (some output) => output
  | _ => []

def keptTexts (frames : List Bytes) : Text := (frames.map keptText).flatten

theorem keptTexts_cons (data : Bytes) (frames : List Bytes) :
    keptTexts (data :: frames) = keptText data ++ keptTexts frames := rfl

theorem keptTexts_append (frames frames' : List Bytes) :
    keptTexts (frames ++ frames') = keptTexts frames ++ keptTexts frames' := by
  rw [keptTexts, List.map_append, List.flatten_append]
  rfl

theorem keptTexts_length_le {frames frames' : List Bytes} (h : frames <+: frames') :
    (keptTexts frames).length ≤ (keptTexts frames').length := by
  obtain ⟨rest, rfl⟩ := h
  rw [keptTexts_append, List.length_append]
  omega

/-- The loop has read `before` and stops: no shorter front reaches the limit, and either
nothing is left or this one does. -/
structure StopsAfter (total : ℕ) (before after : List Bytes) : Prop where
  read : [] ∉ before
  stop : after = [] ∨ maxResultBytes ≤ total + (keptTexts before).length
  least : ∀ front, front <+: before → front ≠ before → total + (keptTexts front).length < maxResultBytes

/-- The loop meets an empty message after `before`, below the limit. -/
def FailsAfter (total : ℕ) (before : List Bytes) : Prop :=
  [] ∉ before ∧ total + (keptTexts before).length < maxResultBytes

theorem decodeLogFrame_cons (channel : UInt8) (data : Bytes) :
    ∃ kept, decodeLogFrame (channel :: data) = .ok kept ∧ keptText (channel :: data) = kept.getD [] := by
  cases hk : (if channel = 3 || statusStart.isPrefixOf (decodeReplace data) then none
      else some (decodeReplace data)) with
  | none =>
    have hdecode : decodeLogFrame (channel :: data) = .ok none := congrArg Except.ok hk
    exact ⟨none, hdecode, by rw [keptText, hdecode]; rfl⟩
  | some output =>
    have hdecode : decodeLogFrame (channel :: data) = .ok (some output) := congrArg Except.ok hk
    exact ⟨some output, hdecode, by rw [keptText, hdecode]; rfl⟩

theorem receiveFrames_cons {total : ℕ} (htotal : total < maxResultBytes) (chunks : List Text) (channel : UInt8)
    (data : Bytes) (frames : List Bytes) :
    ∃ kept : List Text, kept.flatten = keptText (channel :: data) ∧
      receiveFrames chunks total ((channel :: data) :: frames) =
        receiveFrames (chunks ++ kept) (total + (keptText (channel :: data)).length) frames := by
  obtain ⟨kept, hdecode, hkept⟩ := decodeLogFrame_cons channel data
  refine ⟨kept.toList, ?_, ?_⟩
  · rw [hkept]
    cases kept with
    | none => rfl
    | some output => exact List.flatten_singleton
  · rw [receiveFrames, if_pos htotal, hdecode, hkept]
    cases kept with
    | none =>
      rw [Option.toList_none, List.append_nil]
      rfl
    | some output => rfl

theorem FailsAfter.cons {total : ℕ} {channel : UInt8} {data : Bytes} {before : List Bytes}
    (h : FailsAfter (total + (keptText (channel :: data)).length) before) :
    FailsAfter total ((channel :: data) :: before) := by
  obtain ⟨hread, hlt⟩ := h
  refine ⟨?_, ?_⟩
  · exact fun hmem => (List.mem_cons.mp hmem).elim (fun he => by cases he) hread
  · rw [keptTexts_cons, List.length_append]
    omega

theorem StopsAfter.cons {total : ℕ} (htotal : total < maxResultBytes) {channel : UInt8} {data : Bytes}
    {before after : List Bytes} (h : StopsAfter (total + (keptText (channel :: data)).length) before after) :
    StopsAfter total ((channel :: data) :: before) after where
  read := fun hmem => (List.mem_cons.mp hmem).elim (fun he => by cases he) h.read
  stop := by
    rcases h.stop with hnil | hreach
    · exact .inl hnil
    · refine .inr ?_
      rw [keptTexts_cons, List.length_append]
      omega
  least := by
    intro front hfront hne
    cases front with
    | nil => simpa [keptTexts] using htotal
    | cons data' front =>
      obtain ⟨rfl, htail⟩ := List.cons_prefix_cons.mp hfront
      have hlt := h.least front htail fun he => hne (by rw [he])
      rw [keptTexts_cons, List.length_append]
      omega

theorem stopsAfter_nil {total : ℕ} {after : List Bytes} (h : after = [] ∨ maxResultBytes ≤ total) :
    StopsAfter total [] after where
  read := List.not_mem_nil
  stop := h
  least := fun _ hfront hne => absurd (List.prefix_nil.mp hfront) hne

theorem receiveFrames_spec (frames : List Bytes) (chunks : List Text) (total : ℕ) :
    (∃ before after, frames = before ++ [] :: after ∧ FailsAfter total before ∧
        receiveFrames chunks total frames = .error .indexError) ∨
      ∃ before after, frames = before ++ after ∧ StopsAfter total before after ∧
        receiveFrames chunks total frames = .ok (chunks.flatten ++ keptTexts before) := by
  have hnil : chunks.flatten ++ keptTexts [] = chunks.flatten := List.append_nil _
  induction frames generalizing chunks total with
  | nil => exact .inr ⟨[], [], rfl, stopsAfter_nil (.inl rfl), by rw [receiveFrames, hnil]⟩
  | cons data frames ih =>
    by_cases htotal : total < maxResultBytes
    · cases data with
      | nil =>
        -- `data[0]` on an empty message
        refine .inl ⟨[], frames, rfl, ⟨List.not_mem_nil, by simpa [keptTexts] using htotal⟩, ?_⟩
        rw [receiveFrames, if_pos htotal]
        rfl
      | cons channel data =>
        obtain ⟨kept, hkept, hloop⟩ := receiveFrames_cons htotal chunks channel data frames
        rcases ih (chunks ++ kept) (total + (keptText (channel :: data)).length) (List.append_nil _) with
          ⟨before, after, rfl, hfails, hresult⟩ | ⟨before, after, rfl, hstops, hresult⟩
        · exact .inl ⟨(channel :: data) :: before, after, rfl, hfails.cons, by rw [hloop, hresult]⟩
        · refine .inr ⟨(channel :: data) :: before, after, rfl, hstops.cons htotal, ?_⟩
          rw [hloop, hresult, List.flatten_append, hkept, keptTexts_cons, List.append_assoc]
    · refine .inr ⟨[], data :: frames, rfl, stopsAfter_nil (.inr (not_lt.mp htotal)), ?_⟩
      rw [receiveFrames, if_neg htotal, hnil]

theorem execPebbleLogs_spec (frames : List Bytes) :
    (∃ before after, frames = before ++ [] :: after ∧ FailsAfter 0 before ∧
        execPebbleLogs frames = .error .indexError) ∨
      ∃ before after, frames = before ++ after ∧ StopsAfter 0 before after ∧
        execPebbleLogs frames = .ok (keptTexts before) :=
  receiveFrames_spec frames [] 0

/-! ### Empty messages -/

/-- The loop returns a text exactly when every empty message comes after the limit. -/
theorem returns_iff (frames : List Bytes) : (∃ text, execPebbleLogs frames = .ok text) ↔
    ∀ before after, frames = before ++ [] :: after → maxResultBytes ≤ (keptTexts before).length := by
  constructor
  · rintro ⟨text, htext⟩ before' after' hframes
    rcases execPebbleLogs_spec frames with ⟨before, after, -, -, hresult⟩ | ⟨before, after, hsplit, hstops, -⟩
    · rw [htext] at hresult
      cases hresult
    · rcases List.append_eq_append_iff.mp (hsplit.symm.trans hframes) with ⟨mid, hmid, hafter⟩ | ⟨mid, hmid, hafter⟩
      · have hle := keptTexts_length_le (show before <+: before' from ⟨mid, hmid.symm⟩)
        rcases hstops.stop with hnil | hreach
        · rw [hnil] at hafter
          exact absurd hafter.symm (by simp)
        · omega
      · cases mid with
        | nil =>
          rw [List.append_nil] at hmid
          rcases hstops.stop with hnil | hreach
          · rw [hnil] at hafter
            cases hafter
          · rw [hmid] at hreach
            omega
        | cons data mid =>
          have hempty : [] ∈ before := by
            rw [hmid, ← (List.cons.inj hafter).1]
            exact List.mem_append_right _ (List.mem_cons_self ..)
          exact absurd hempty hstops.read
  · intro h
    rcases execPebbleLogs_spec frames with ⟨before, after, hsplit, hfails, -⟩ | ⟨before, after, -, -, hresult⟩
    · have hreach := h before after hsplit
      have hlt := hfails.2
      omega
    · exact ⟨_, hresult⟩

theorem returns_of_nonempty {frames : List Bytes} (h : [] ∉ frames) : ∃ before after, frames = before ++ after ∧
    StopsAfter 0 before after ∧ execPebbleLogs frames = .ok (keptTexts before) := by
  rcases execPebbleLogs_spec frames with ⟨before, after, hsplit, -, -⟩ | hstops
  · exact absurd (hsplit ▸ List.mem_append_right before (List.mem_cons_self ..)) h
  · exact hstops

/-! ### One byte stream in several messages -/

/-- A message on channel 1. -/
def onStdout (chunk : Bytes) : Bytes := 1 :: chunk

/-- A message on channel 1 or, for the status object, on channel 3. -/
def isLogOrStatus (data : Bytes) : Bool := data.head? == some 1 || data.head? == some 3

/-- The log byte stream, in the pieces it arrives in. -/
def stdoutChunks (frames : List Bytes) : List Bytes :=
  (frames.filter fun data => data.head? == some 1).map List.tail

/-- The chunk's text is taken for the status object. -/
def readsAsStatus (chunk : Bytes) : Bool := statusStart.isPrefixOf (decodeReplace chunk)

theorem keptText_stdout (chunk : Bytes) :
    keptText (onStdout chunk) = if readsAsStatus chunk then [] else decodeReplace chunk := by
  unfold keptText decodeLogFrame readsAsStatus onStdout
  dsimp only
  by_cases hstatus : statusStart.isPrefixOf (decodeReplace chunk) = true
  · rw [hstatus]
    rfl
  · rw [Bool.not_eq_true] at hstatus
    rw [hstatus]
    rfl

theorem keptTexts_stdout_length (chunks : List Bytes) :
    (keptTexts (chunks.map onStdout)).length ≤ chunks.flatten.length := by
  induction chunks with
  | nil => exact Nat.le_refl 0
  | cons chunk chunks ih =>
    have hchunk : (keptText (onStdout chunk)).length ≤ chunk.length := by
      rw [keptText_stdout]
      split
      · exact Nat.zero_le _
      · exact decodeReplace_length_le chunk
    rw [List.map_cons, keptTexts_cons, List.length_append, List.flatten_cons, List.length_append]
    omega

theorem brace_of_status {chunk : Bytes} (h : readsAsStatus chunk = true) : 1 ≤ chunk.count 0x7b := by
  obtain ⟨rest, hrest⟩ := List.isPrefixOf_iff_prefix.mp h
  have hcount := count_decodeReplace (c := '\x7b') (by decide) chunk
  have hstart : 1 ≤ statusStart.count '\x7b' := by decide
  rw [← hrest, List.count_append] at hcount
  have hbyte : UInt8.ofNat '\x7b'.toNat = 0x7b := rfl
  rw [hbyte] at hcount
  omega

/-- A chunk taken for the status object loses a brace of the stream. -/
theorem braces_le (chunks : List Bytes) :
    (keptTexts (chunks.map onStdout)).count '\x7b' ≤ chunks.flatten.count 0x7b ∧
      (chunks.any readsAsStatus = true →
        (keptTexts (chunks.map onStdout)).count '\x7b' < chunks.flatten.count 0x7b) := by
  induction chunks with
  | nil => exact ⟨Nat.le_refl 0, fun h => by cases h⟩
  | cons chunk chunks ih =>
    obtain ⟨hle, hlt⟩ := ih
    have hcount : (decodeReplace chunk).count '\x7b' = chunk.count 0x7b :=
      count_decodeReplace (c := '\x7b') (by decide) chunk
    rw [List.map_cons, keptTexts_cons, List.count_append, List.flatten_cons, List.count_append, keptText_stdout,
      List.any_cons]
    cases hstatus : readsAsStatus chunk with
    | true =>
      have hbrace := brace_of_status hstatus
      have hnil : ([] : Text).count '\x7b' = 0 := rfl
      rw [if_pos rfl, hnil]
      exact ⟨by omega, fun _ => by omega⟩
    | false =>
      rw [if_neg Bool.false_ne_true, hcount, Bool.false_or]
      exact ⟨by omega, fun h => by have hchunks := hlt h; omega⟩

theorem keptTexts_stdout_of_log {chunks : List Bytes} (h : chunks.any readsAsStatus = false) :
    keptTexts (chunks.map onStdout) = (chunks.map decodeReplace).flatten := by
  induction chunks with
  | nil => rfl
  | cons chunk chunks ih =>
    rw [List.any_cons, Bool.or_eq_false_iff] at h
    rw [List.map_cons, keptTexts_cons, keptText_stdout, h.1, if_neg Bool.false_ne_true, ih h.2]
    rfl

theorem keptTexts_stdout_iff (chunks : List Bytes) :
    keptTexts (chunks.map onStdout) = decodeReplace chunks.flatten ↔
      cutsBetweenParts chunks = true ∧ chunks.any readsAsStatus = false := by
  constructor
  · intro h
    have hlog : chunks.any readsAsStatus = false := by
      -- a chunk taken for the status object would leave fewer braces than the stream has
      by_contra hany
      have hlt := (braces_le chunks).2 (Bool.not_eq_false _ ▸ hany)
      have hcount : (decodeReplace chunks.flatten).count '\x7b' = chunks.flatten.count 0x7b :=
        count_decodeReplace (c := '\x7b') (by decide) chunks.flatten
      rw [h] at hlt
      omega
    rw [keptTexts_stdout_of_log hlog] at h
    exact ⟨(decodeReplace_chunks_iff chunks).mp h, hlog⟩
  · rintro ⟨hcuts, hlog⟩
    rw [keptTexts_stdout_of_log hlog]
    exact (decodeReplace_chunks_iff chunks).mpr hcuts

theorem keptTexts_stdoutChunks {frames : List Bytes} (h : ∀ data ∈ frames, isLogOrStatus data = true) :
    keptTexts frames = keptTexts ((stdoutChunks frames).map onStdout) := by
  induction frames with
  | nil => rfl
  | cons data frames ih =>
    have hrest := ih fun d hd => h d (List.mem_cons_of_mem _ hd)
    match data, h data (List.mem_cons_self ..) with
    | channel :: chunk, hchannel =>
      rw [isLogOrStatus, Bool.or_eq_true, beq_iff_eq, beq_iff_eq, List.head?_cons] at hchannel
      rcases hchannel with hlog | hstatus
      · obtain rfl := Option.some.inj hlog
        exact congrArg (keptText (1 :: chunk) ++ ·) hrest
      · obtain rfl := Option.some.inj hstatus
        exact hrest

/-- Below the limit everything that arrives on channel 1 is read. -/
theorem execPebbleLogs_stdout {frames : List Bytes} (hframes : ∀ data ∈ frames, isLogOrStatus data = true)
    (h : (stdoutChunks frames).flatten.length < maxResultBytes) :
    execPebbleLogs frames = .ok (keptTexts ((stdoutChunks frames).map onStdout)) := by
  have hnonempty : [] ∉ frames := by
    intro hmem
    cases hframes [] hmem
  obtain ⟨before, after, hsplit, hstops, hresult⟩ := returns_of_nonempty hnonempty
  have hkept := keptTexts_stdoutChunks hframes
  have hlength := keptTexts_stdout_length (stdoutChunks frames)
  have hbefore := keptTexts_length_le ⟨after, hsplit.symm⟩
  rw [hkept] at hbefore
  rcases hstops.stop with hnil | hreach
  · rw [hnil, List.append_nil] at hsplit
    rw [hresult, ← hsplit, hkept]
  · omega

/-- The loop raises nothing exactly when no empty message arrives below the limit; and a
stream below the limit comes back as its text exactly when no cut falls inside a character
or malformed part and no chunk starts like the status object. -/
theorem log_text_iff (frames : List Bytes) :
    ((∃ text, execPebbleLogs frames = .ok text) ↔
        ∀ before after, frames = before ++ [] :: after → maxResultBytes ≤ (keptTexts before).length) ∧
      ((∀ data ∈ frames, isLogOrStatus data = true) → (stdoutChunks frames).flatten.length < maxResultBytes →
        (execPebbleLogs frames = .ok (decodeReplace (stdoutChunks frames).flatten) ↔
          cutsBetweenParts (stdoutChunks frames) = true ∧ (stdoutChunks frames).any readsAsStatus = false)) := by
  refine ⟨returns_iff frames, ?_⟩
  intro hframes hlimit
  rw [execPebbleLogs_stdout hframes hlimit, ← keptTexts_stdout_iff]
  exact ⟨fun hok => Except.ok.inj hok, congrArg Except.ok⟩

theorem log_text_iff_example :
    execPebbleLogs [[1, 0x61], [1, 0xc3, 0xa9], [3]] = .ok (decodeReplace [0x61, 0xc3, 0xa9]) ↔
      cutsBetweenParts [[0x61], [0xc3, 0xa9]] = true ∧ [[0x61], [0xc3, 0xa9]].any readsAsStatus = false :=
  (log_text_iff [[1, 0x61], [1, 0xc3, 0xa9], [3]]).2 (by decide) (by decide)

/-- An empty message raises, and a cut inside a character changes the text. -/
theorem framing_changes_log : (¬∀ frames, ∃ text, execPebbleLogs frames = .ok text) ∧
    ¬∀ frames frames' : List Bytes, (∀ data ∈ frames ++ frames', isLogOrStatus data = true) →
      (stdoutChunks frames).flatten = (stdoutChunks frames').flatten →
      (stdoutChunks frames).flatten.length < maxResultBytes → execPebbleLogs frames = execPebbleLogs frames' := by
  constructor
  · intro all
    obtain ⟨text, htext⟩ := all [[]]
    cases htext
  · intro all
    have hsame := all [[1, 0xc3, 0xa9]] [[1, 0xc3], [1, 0xa9]] (by decide) rfl (by decide)
    rw [execPebbleLogs_stdout (by decide) (by decide), execPebbleLogs_stdout (by decide) (by decide)] at hsame
    have hdiffer : keptTexts ((stdoutChunks [[1, 0xc3, 0xa9]]).map onStdout) ≠
        keptTexts ((stdoutChunks [[1, 0xc3], [1, 0xa9]]).map onStdout) := by
      decide +kernel
    exact hdiffer (Except.ok.inj hsame)

/-! ### The size of the result -/

/-- The loop stops at the first front that reaches the limit: one of exactly the limit is
what it returns. -/
theorem keptTexts_of_exact {frames before after front : List Bytes} (hsplit : frames = before ++ after)
    (hstops : StopsAfter 0 before after) (hfront : front <+: frames)
    (hexact : (keptTexts front).length = maxResultBytes) : keptTexts before = keptTexts front := by
  have hbefore : before <+: frames := ⟨after, hsplit.symm⟩
  rcases List.prefix_or_prefix_of_prefix hfront hbefore with h | h
  · by_cases hne : front = before
    · rw [hne]
    · have hlt := hstops.least front h hne
      omega
  · obtain ⟨rest, rfl⟩ := h
    rcases hstops.stop with hnil | hreach
    · rw [hnil, List.append_nil] at hsplit
      rw [hsplit] at hfront
      have hrest := hfront.length_le
      rw [List.length_append] at hrest
      have hempty : rest = [] := List.length_eq_zero_iff.mp (by omega)
      rw [hempty, List.append_nil]
    · rw [keptTexts_append, List.length_append] at hexact
      have hempty : keptTexts rest = [] := List.length_eq_zero_iff.mp (by omega)
      rw [keptTexts_append, hempty, List.append_nil]

/-- The result fits exactly when everything the messages decode to fits, or their first
ones decode to just the limit in ASCII. -/
theorem log_size_iff {frames : List Bytes} (h : [] ∉ frames) :
    (∃ text, execPebbleLogs frames = .ok text ∧ (encode text).length ≤ maxResultBytes) ↔
      (encode (keptTexts frames)).length ≤ maxResultBytes ∨
        ∃ front, front <+: frames ∧ (keptTexts front).length = maxResultBytes ∧
          ∀ c ∈ keptTexts front, c.toNat < 128 := by
  obtain ⟨before, after, hsplit, hstops, hresult⟩ := returns_of_nonempty h
  constructor
  · rintro ⟨text, htext, hsize⟩
    rw [hresult] at htext
    cases htext
    rcases hstops.stop with hnil | hreach
    · rw [hnil, List.append_nil] at hsplit
      rw [hsplit]
      exact .inl hsize
    · have hle := length_le_encode (keptTexts before)
      have hexact : (keptTexts before).length = maxResultBytes := by omega
      have hascii : (encode (keptTexts before)).length = (keptTexts before).length := by omega
      exact .inr ⟨before, ⟨after, hsplit.symm⟩, hexact, (encode_length_iff _).mp hascii⟩
  · intro hcond
    refine ⟨_, hresult, ?_⟩
    rcases hcond with hall | ⟨front, hfront, hexact, hascii⟩
    · rw [hsplit, keptTexts_append, encode_append, List.length_append] at hall
      omega
    · rw [keptTexts_of_exact hsplit hstops hfront hexact, (encode_length_iff _).mpr hascii, hexact]

theorem log_size_iff_example :
    (∃ text, execPebbleLogs [[1, 0x61], [2, 0xc3, 0xa9], [3]] = .ok text ∧ (encode text).length ≤ maxResultBytes) ↔
      (encode (keptTexts [[1, 0x61], [2, 0xc3, 0xa9], [3]])).length ≤ maxResultBytes ∨
        ∃ front, front <+: [[1, 0x61], [2, 0xc3, 0xa9], [3]] ∧ (keptTexts front).length = maxResultBytes ∧
          ∀ c ∈ keptTexts front, c.toNat < 128 :=
  log_size_iff (by decide)

/-- One message of 64001 letters is returned whole. -/
theorem result_over_limit : ¬ ∀ frames text, [] ∉ frames → execPebbleLogs frames = .ok text →
    (encode text).length ≤ maxResultBytes := by
  intro all
  have hkept : keptTexts [onStdout (encode (List.replicate 64001 'a'))] = List.replicate 64001 'a' := by
    have hlog : readsAsStatus (encode (List.replicate 64001 'a')) = false := by
      rw [readsAsStatus, decodeReplace_encode, List.replicate_succ]
      rfl
    rw [keptTexts_cons, keptText_stdout, hlog, if_neg Bool.false_ne_true, decodeReplace_encode]
    exact List.append_nil _
  have hnonempty : [] ∉ [onStdout (encode (List.replicate 64001 'a'))] := by
    intro hmem
    cases List.mem_singleton.mp hmem
  obtain ⟨before, after, hsplit, hstops, hresult⟩ := returns_of_nonempty hnonempty
  have hbefore : before = [onStdout (encode (List.replicate 64001 'a'))] := by
    cases before with
    | nil =>
      rcases hstops.stop with hnil | hreach
      · rw [hnil] at hsplit
        cases hsplit
      · exact absurd hreach (by decide)
    | cons data before =>
      obtain ⟨rfl, hrest⟩ := List.cons.inj hsplit
      rw [(List.append_eq_nil_iff.mp hrest.symm).1]
  rw [hbefore, hkept] at hresult
  have hsize := all _ _ hnonempty hresult
  have hlong := length_le_encode (List.replicate 64001 'a')
  rw [List.length_replicate] at hlong
  have hlimit : maxResultBytes = 64000 := rfl
  omega

end DemoController
