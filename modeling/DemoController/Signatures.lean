import DemoController.NonceBinding

/-!
# What a signature decides and what it binds

`authenticate` compares the hexadecimal digest it expects with the text of a
header, and `compare_digest` takes ASCII texts only. The bytes under the digest
and under the fingerprint of a nonce are fields joined by line feeds, of which
only the last, the body, may contain one.
-/

namespace DemoController

open Lib

variable {app : App}

/-! ### The answers of `authenticate` -/

def HttpRequest.suppliedSignature (req : HttpRequest) : Text :=
  removePrefix "sha256=".toList (req.header "x-demos-signature")

/-- The method, the path and the headers that are signed hold no line feed. -/
structure OneLine (req : HttpRequest) : Prop where
  method : '\n' ∉ req.method
  path : '\n' ∉ req.path
  timestamp : '\n' ∉ req.header "x-demos-timestamp"
  nonce : '\n' ∉ req.header "x-demos-nonce"

/-- `str.upper` maps no other character to a line feed. -/
def UpperKeepsLines (cm : CaseMapping) : Prop := ∀ t, '\n' ∉ t → '\n' ∉ cm.upper t

/-- Encoded fields without a line feed, joined before arbitrary bytes, can be read back. -/
theorem joinLines_encode_inj (fields fields' : List Text) {body body' : Bytes}
    (hlen : fields.length = fields'.length) (h : ∀ t ∈ fields, '\n' ∉ t) (h' : ∀ t ∈ fields', '\n' ∉ t)
    (heq : joinLines (fields.map encode ++ [body]) = joinLines (fields'.map encode ++ [body'])) :
    fields = fields' ∧ body = body' := by
  have lineless {ts : List Text} (hts : ∀ t ∈ ts, '\n' ∉ t) : ∀ bs ∈ ts.map encode, (10 : UInt8) ∉ bs := by
    intro bs hbs
    obtain ⟨t, ht, rfl⟩ := List.mem_map.mp hbs
    exact newline_notMem_encode (hts t ht)
  obtain ⟨hfields, hbody⟩ := intercalate_concat_inj (by simpa using hlen) (lineless h) (lineless h') heq
  exact ⟨List.map_injective_iff.mpr encode_injective hfields, hbody⟩

/-- The signed bytes of a request determine its upper-cased method, path, timestamp,
nonce and body, and those under a fingerprint the repository with them. -/
theorem signed_bytes_determine (app : App) (hupper : UpperKeepsLines app.cm) (req req' : HttpRequest)
    (h : OneLine req) (h' : OneLine req') :
    (app.canonical req = app.canonical req' →
      app.cm.upper req.method = app.cm.upper req'.method ∧ req.path = req'.path ∧
        req.header "x-demos-timestamp" = req'.header "x-demos-timestamp" ∧
        req.header "x-demos-nonce" = req'.header "x-demos-nonce" ∧ req.body = req'.body) ∧
    ∀ repository repository', '\n' ∉ repository → '\n' ∉ repository' →
      app.requestFingerprint repository req = app.requestFingerprint repository' req' →
      repository = repository' ∧ app.cm.upper req.method = app.cm.upper req'.method ∧ req.path = req'.path ∧
        req.header "x-demos-nonce" = req'.header "x-demos-nonce" ∧ req.body = req'.body := by
  have hm := hupper _ h.method
  have hm' := hupper _ h'.method
  constructor
  · intro heq
    obtain ⟨hfields, hbody⟩ := joinLines_encode_inj
      [app.cm.upper req.method, req.path, req.header "x-demos-timestamp", req.header "x-demos-nonce"]
      [app.cm.upper req'.method, req'.path, req'.header "x-demos-timestamp", req'.header "x-demos-nonce"]
      rfl (by simp [hm, h.path, h.timestamp, h.nonce]) (by simp [hm', h'.path, h'.timestamp, h'.nonce]) heq
    simp only [List.cons.injEq, and_true] at hfields
    exact ⟨hfields.1, hfields.2.1, hfields.2.2.1, hfields.2.2.2, hbody⟩
  · intro repository repository' hr hr' heq
    obtain ⟨hfields, hbody⟩ := joinLines_encode_inj
      [repository, app.cm.upper req.method, req.path, req.header "x-demos-nonce"]
      [repository', app.cm.upper req'.method, req'.path, req'.header "x-demos-nonce"]
      rfl (by simp [hr, hm, h.path, h.nonce]) (by simp [hr', hm', h'.path, h'.nonce]) heq
    simp only [List.cons.injEq, and_true] at hfields
    exact ⟨hfields.1, hfields.2.1, hfields.2.2.1, hfields.2.2.2, hbody⟩

theorem upperKeepsLines_ascii : UpperKeepsLines .ascii := by
  intro t ht hmem
  obtain ⟨c, hc, hline⟩ := List.mem_map.mp hmem
  have hval : c.toUpper.val.toNat = 10 := congrArg (fun d : Char => d.val.toNat) hline
  unfold Char.toUpper at hval
  split at hval
  · next hletter =>
    have hlow : 97 ≤ c.val.toNat := UInt32.le_iff_toNat_le.mp hletter.1
    have hhigh : c.val.toNat ≤ 122 := UInt32.le_iff_toNat_le.mp hletter.2
    have hshift : ('A'.val - 'a'.val).toNat = 4294967264 := by decide
    rw [UInt32.toNat_add, hshift] at hval
    omega
  · have hnl : c = '\n' := Char.ext (UInt32.toNat_inj.mp hval)
    exact ht (hnl ▸ hc)

theorem signed_bytes_example : exampleApp.canonical firstUse.req ≠ exampleApp.canonical otherBody.req := by
  intro heq
  have hsame := (signed_bytes_determine exampleApp upperKeepsLines_ascii firstUse.req otherBody.req
    ⟨by decide, by decide, by decide +kernel, by decide⟩
    ⟨by decide, by decide, by decide +kernel, by decide⟩).1 heq
  exact absurd hsame.2.2.2.2 (by decide)

end DemoController
