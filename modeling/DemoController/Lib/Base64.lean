import DemoController.Lib.Digest

/-!
# Decoding base64

Four digits are three bytes; the last group may end in one or two `=`. The bits that
padding leaves over are ignored.
-/

namespace Lib

def base64Value? (c : Char) : Option ℕ :=
  let n := c.toNat
  if 65 ≤ n ∧ n ≤ 90 then some (n - 65)
  else if 97 ≤ n ∧ n ≤ 122 then some (n - 71)
  else if 48 ≤ n ∧ n ≤ 57 then some (n + 4)
  else if c = '+' then some 62
  else if c = '/' then some 63
  else none

def base64Decode : Text → Option Bytes
  | [] => some []
  | a :: b :: c :: d :: rest => do
    let x ← base64Value? a
    let y ← base64Value? b
    let first := UInt8.ofNat (4 * x + y / 16)
    if c = '=' then if d = '=' ∧ rest = [] then some [first] else none
    else do
      let z ← base64Value? c
      let second := UInt8.ofNat (y % 16 * 16 + z / 4)
      if d = '=' then if rest = [] then some [first, second] else none
      else do
        let w ← base64Value? d
        return first :: second :: UInt8.ofNat (z % 4 * 64 + w) :: (← base64Decode rest)
  | _ => none

end Lib
