/-!
The sixty-four digit characters and the padded form of bytes. Main statement: reading a digit undoes
writing it.
-/
set_option autoImplicit false

namespace Treeshake.Base64

def alphabet : List Char :=
  "ABCDEFGHIJKLMNOPQRSTUVWXYZabcdefghijklmnopqrstuvwxyz0123456789+/".toList

def char (digit : Nat) : Char := alphabet.getD digit '='

def digit? (c : Char) : Option Nat := alphabet.idxOf? c

theorem digit?_char : ∀ n < 64, digit? (char n) = some n := by decide +kernel

/-- Three bytes at a time as four digits; a shorter last group is filled up with equals signs. -/
def encode : List UInt8 → List Char
  | a :: b :: c :: rest =>
    let n := a.toNat * 65536 + b.toNat * 256 + c.toNat
    char (n / 262144) :: char (n / 4096 % 64) :: char (n / 64 % 64) :: char (n % 64) :: encode rest
  | [a, b] =>
    let n := a.toNat * 1024 + b.toNat * 4
    [char (n / 4096), char (n / 64 % 64), char (n % 64), '=']
  | [a] =>
    let n := a.toNat * 16
    [char (n / 64), char (n % 64), '=', '=']
  | [] => []

end Treeshake.Base64
