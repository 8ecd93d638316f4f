import ChaosVpn.StringBuffer

/-! ar.c: the members of an ar archive in memory. An archive without the member
asked for gives an empty result, not an error. -/

namespace ChaosVpn.ArArchive
open CStrings StringBuffer

def armag : Bytes := ascii "!<arch>\n"
def arfmag : Bytes := [96, 10]

/-- The fields of `struct ar_hdr` that are read. -/
structure ArHdr where
  arName : Bytes
  arSize : Bytes
  arFmag : Bytes

def arHdrSize : Nat := 60

def arHdr (pos : Bytes) : ArHdr where
  arName := pos.take 16
  arSize := (pos.drop 48).take 10
  arFmag := (pos.drop 58).take 2

/-- A field up to its first blank. -/
def fieldText (inh : Bytes) : Bytes := inh.takeWhile (· ≠ space)

def arParseheaderlength (inh : Bytes) : Option Nat :=
  if (0 : UInt8) ∈ inh then none
  else
    let (r, endp) := strtol (fieldText inh)
    if r < 0 then none else if endp.isEmpty then some r.toNat else none

/-- A name with a NUL byte makes the function return -1, which is `true` as a `bool`. -/
def arCompareName (inh searchname : Bytes) : Bool :=
  if (0 : UInt8) ∈ inh then true
  else
    let name := fieldText inh
    (if name.getLast? = some slash then name.dropLast else name) == searchname

def arIsArFile (archive : Bytes) : Bool := armag.length ≤ archive.length && armag <+: archive

/-- The walk over the members. Each one takes at least its header, so there are
never more of them than bytes. -/
def arExtractMember (membername : Bytes) : Nat → Bytes → Bool × StructString
  | 0, _ => (false, ⟨none⟩)
  | fuel + 1, pos =>
    if pos.length < arHdrSize then (false, ⟨none⟩)
    else
      let arh := arHdr pos
      let pos := pos.drop arHdrSize
      if arh.arFmag ≠ arfmag then (false, ⟨none⟩)
      else
        match arParseheaderlength arh.arSize with
        | none => (false, ⟨none⟩)
        | some memberlen =>
          if memberlen + memberlen % 2 > pos.length then (false, ⟨none⟩)
          else if arCompareName arh.arName membername then
            (true, stringConcatb ⟨none⟩ (pos.take memberlen))
          else
            let pos := pos.drop (memberlen + memberlen % 2)
            if pos.isEmpty then (true, ⟨none⟩) else arExtractMember membername fuel pos

/-- The result and what it leaves in the string it was given, which is freed first. -/
def arExtract (archive membername : Bytes) : Bool × StructString :=
  if arIsArFile archive then
    arExtractMember membername archive.length (archive.drop armag.length)
  else (false, ⟨none⟩)

end ChaosVpn.ArArchive
