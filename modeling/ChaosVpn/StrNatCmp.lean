import ChaosVpn.CStrings

/-! strnatcmp.c: comparison of texts that takes runs of digits as numbers. The
terminating NUL is the byte read behind the end. Digits compare as bytes, other
bytes as the signed `char` of the platform. -/

namespace ChaosVpn.StrNatCmp
open CStrings

def natChar (b : UInt8) : Int := b.toBitVec.toInt

def startsWithDigit (s : Bytes) : Bool := s.head?.any isDigit

/-- The longer run of digits wins; of equally long ones the first difference does. -/
def compareRight (bias : Int) : Bytes → Bytes → Int
  | [], b => if startsWithDigit b then -1 else bias
  | x :: a, b =>
    if !isDigit x then if startsWithDigit b then -1 else bias
    else
      match b with
      | [] => 1
      | y :: b =>
        if !isDigit y then 1
        else if bias ≠ 0 then compareRight bias a b
        else compareRight (if x < y then -1 else if y < x then 1 else 0) a b

def compareLeft : Bytes → Bytes → Int
  | [], b => if startsWithDigit b then -1 else 0
  | x :: a, b =>
    if !isDigit x then if startsWithDigit b then -1 else 0
    else
      match b with
      | [] => 1
      | y :: b =>
        if !isDigit y then 1
        else if x < y then -1
        else if y < x then 1
        else compareLeft a b

/-- The comparison of two runs of digits, 0 if one of the texts is not at one. -/
def compareRuns (a b : Bytes) : Int :=
  if startsWithDigit a && startsWithDigit b then
    if a.head? = some 48 || b.head? = some 48 then compareLeft a b else compareRight 0 a b
  else 0

/-- White space is skipped in `a` one byte a call, and in `b` at once. -/
def strnatcmp : Bytes → Bytes → Int
  | [], b =>
    match strSkipSpaces b with
    | [] => 0
    | cb :: _ => if 0 < natChar cb then -1 else 1
  | ca :: a, b =>
    if isSpace ca then strnatcmp a b
    else
      let b := strSkipSpaces b
      let result := compareRuns (ca :: a) b
      if result ≠ 0 then result
      else
        match b with
        | [] => if natChar ca < 0 then -1 else 1
        | cb :: b =>
          if natChar ca < natChar cb then -1
          else if natChar cb < natChar ca then 1
          else strnatcmp a b

end ChaosVpn.StrNatCmp
