import Treeshake.SourceMap.Fault
import Treeshake.Text.Base64
/-!
Signed 64-bit numbers as groups of base64 digits: five bits a digit, the least significant first, the
sixth bit set on all digits of a group but its last, and the sign in the lowest bit of the number.
-/
set_option autoImplicit false

namespace Treeshake.SourceMap.Vlq

/-- Twice the magnitude, and one more if the number is negative; the top bit of the magnitude is lost. -/
def fold (n : Int64) : UInt64 :=
  if n < 0 then ((0 - n.toUInt64) <<< 1) ||| 1 else n.toUInt64 <<< 1

def unfold (w : UInt64) : Int64 :=
  let magnitude := (w >>> 1).toInt64
  if w &&& 1 == 1 then -magnitude else magnitude

def digits (n : Nat) : List Nat :=
  if n < 32 then [n] else (n % 32 + 32) :: digits (n / 32)

def encodeOne (n : Int64) : List Char := (digits (fold n).toNat).map Base64.char

def encode (ns : List Int64) : List Char := ns.flatMap encodeOne

def leadByte (c : Char) : Char :=
  match String.utf8EncodeChar c with
  | b :: _ => Char.ofNat b.toNat
  | [] => c

/-- The numbers of a segment, inside a group that stands at `shift` bits with the value read so far. -/
def read (segment : String) : Nat → UInt64 → List Char → Except Fault (List Int64)
  | shift, _, [] => if shift = 0 then .ok [] else .error (.truncated segment)
  | shift, value, c :: cs =>
    match Base64.digit? c with
    | none => .error (.invalidCharacter (leadByte c))
    | some d =>
      if 60 < shift then .error (.valueTooLarge segment)
      else
        let value := value + ((d % 32).toUInt64 <<< shift.toUInt64)
        if 32 ≤ d then read segment (shift + 5) value cs
        else (read segment 0 0 cs).map (unfold value :: ·)

def decode (segment : String) : Except Fault (List Int64) := read segment 0 0 segment.toList

end Treeshake.SourceMap.Vlq
