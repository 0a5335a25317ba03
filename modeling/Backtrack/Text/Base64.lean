import Backtrack.Text.Bytes

/-!
# Base 64

Three bytes are written as four characters of an alphabet of sixty-four; a group that is not full is
filled up with equals signs.
-/

namespace Backtrack.Text

def base64Alphabet : Bytes := "ABCDEFGHIJKLMNOPQRSTUVWXYZabcdefghijklmnopqrstuvwxyz0123456789+/"

/-- The character of a number below sixty-four. -/
def base64Digit (n : Nat) : UInt8 := base64Alphabet[n % 64]?.getD 61

def base64 : Bytes → Bytes
  | [] => []
  | [a] => [base64Digit (a.toNat / 4), base64Digit (a.toNat % 4 * 16), 61, 61]
  | [a, b] =>
    let n := a.toNat * 256 + b.toNat
    [base64Digit (n / 1024), base64Digit (n / 16), base64Digit (n % 16 * 4), 61]
  | a :: b :: c :: rest =>
    let n := (a.toNat * 256 + b.toNat) * 256 + c.toNat
    base64Digit (n / 262144) :: base64Digit (n / 4096) :: base64Digit (n / 64) :: base64Digit n
      :: base64 rest

end Backtrack.Text
