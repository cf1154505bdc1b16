import Mathlib.Data.List.Basic

namespace Aki

abbrev Bytes := List UInt8

namespace Resp

def crlf : Bytes := [13, 10]

def decimalLoop : Nat → Nat → Bytes → Bytes
  | 0, _, acc => acc
  | fuel + 1, u, acc =>
    let acc := UInt8.ofNat (48 + u % 10) :: acc
    if u / 10 = 0 then acc else decimalLoop fuel (u / 10) acc

/-- The digits `putDecimal` and `AppendInt` write. -/
def putDecimal (u : Nat) : Bytes := decimalLoop (u + 1) u []

def appendBulk (dst v : Bytes) : Bytes := dst ++ (36 :: putDecimal v.length ++ crlf ++ v ++ crlf)

def appendArrayHeader (dst : Bytes) (n : Nat) : Bytes := dst ++ (42 :: putDecimal n ++ crlf)

def appendMapHeader (dst : Bytes) (n : Nat) : Bytes := dst ++ (37 :: putDecimal n ++ crlf)

end Resp

end Aki
