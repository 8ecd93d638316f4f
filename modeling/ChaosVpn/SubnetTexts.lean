import Mathlib.Data.List.GetD
import ChaosVpn.AddrMask
import ChaosVpn.Numerals

/-! The texts that addrmask_parse reads, and the network it makes of each. -/

namespace ChaosVpn.SubnetTexts
open CStrings Libc PrefixNetworks AddrMask Numerals

abbrev openBracket : UInt8 := 91
abbrev closeBracket : UInt8 := 93

/-- A text with its address part and its mask part. -/
inductive SubnetText (addr : Bytes) : Option Bytes → Bytes → Prop
  | bare : slash ∉ addr → addr.head? ≠ some openBracket → SubnetText addr none addr
  | bracketed : slash ∉ addr → closeBracket ∉ addr →
      SubnetText addr none (openBracket :: (addr ++ [closeBracket]))
  | bareMask {m : Bytes} : slash ∉ addr → addr.head? ≠ some openBracket →
      SubnetText addr (some m) (addr ++ slash :: m)
  | bracketedMask {m : Bytes} : closeBracket ∉ addr →
      SubnetText addr (some m) (openBracket :: (addr ++ closeBracket :: slash :: m))
  | maskInBrackets {m : Bytes} : slash ∉ addr → closeBracket ∉ addr → closeBracket ∉ m →
      SubnetText addr (some m) (openBracket :: (addr ++ slash :: m ++ [closeBracket]))

theorem splitPattern_of_head {text : Bytes} (h : text.head? ≠ some openBracket) :
    splitPattern text = some (strSplitAt slash text) := by
  unfold splitPattern
  split
  · exact absurd rfl h
  · rfl

theorem splitPattern_iff {text addr : Bytes} {mask : Option Bytes} :
    splitPattern text = some (addr, mask) ↔ SubnetText addr mask text := by
  constructor
  · intro h
    cases text with
    | nil =>
      obtain ⟨rfl, rfl⟩ := Prod.mk.inj (Option.some.inj h)
      exact .bare (by simp) (by simp)
    | cons c text =>
      by_cases hc : c = openBracket
      · subst hc
        rw [splitPattern] at h
        split at h
        · cases h
        · rename_i inside hsplit
          obtain ⟨rfl, hclose⟩ := strSplitAt_some.mp hsplit
          have hparts := Option.some.inj h
          cases mask with
          | none =>
            obtain ⟨rfl, hslash⟩ := strSplitAt_none.mp hparts
            exact .bracketed hslash hclose
          | some m =>
            obtain ⟨rfl, hslash⟩ := strSplitAt_some.mp hparts
            simp only [List.mem_append, List.mem_cons, not_or] at hclose
            exact .maskInBrackets hslash hclose.1 hclose.2.2
        · rename_i inside d m hsplit
          obtain ⟨rfl, hclose⟩ := strSplitAt_some.mp hsplit
          split at h
          · rename_i hd
            obtain ⟨rfl, rfl⟩ := Prod.mk.inj (Option.some.inj h)
            exact hd ▸ .bracketedMask hclose
          · cases h
      · have hhead : (c :: text).head? ≠ some openBracket := fun heq => hc (Option.some.inj heq)
        rw [splitPattern_of_head hhead] at h
        have hparts := Option.some.inj h
        cases mask with
        | none =>
          obtain ⟨rfl, hslash⟩ := strSplitAt_none.mp hparts
          exact .bare hslash hhead
        | some m =>
          obtain ⟨heq, hslash⟩ := strSplitAt_some.mp hparts
          rw [heq] at hhead ⊢
          refine .bareMask hslash fun hopen => hhead ?_
          rw [List.head?_append, hopen]
          rfl
  · intro h
    cases h with
    | bare hslash hhead =>
      rw [splitPattern_of_head hhead, strSplitAt_none.mpr ⟨rfl, hslash⟩]
    | bracketed hslash hclose =>
      have hsplit : strSplitAt 93 (addr ++ [closeBracket]) = (addr, some []) :=
        strSplitAt_some.mpr ⟨rfl, hclose⟩
      simp only [splitPattern, hsplit, strSplitAt_none.mpr ⟨rfl, hslash⟩]
    | @bareMask m hslash hhead =>
      have hfirst : (addr ++ slash :: m).head? ≠ some openBracket := by
        cases addr with
        | nil => exact fun heq => absurd (Option.some.inj heq) (by decide)
        | cons c cs => exact hhead
      rw [splitPattern_of_head hfirst, strSplitAt_some.mpr ⟨rfl, hslash⟩]
    | @bracketedMask m hclose =>
      have hsplit : strSplitAt 93 (addr ++ closeBracket :: slash :: m) = (addr, some (slash :: m)) :=
        strSplitAt_some.mpr ⟨rfl, hclose⟩
      simp only [splitPattern, hsplit, if_true]
    | @maskInBrackets m hslash hclose hmask =>
      have hsplit : strSplitAt 93 (addr ++ slash :: m ++ [closeBracket]) =
          (addr ++ slash :: m, some []) := by
        refine strSplitAt_some.mpr ⟨rfl, ?_⟩
        simp only [List.mem_append, List.mem_cons, not_or]
        exact ⟨hclose, by decide, hmask⟩
      have hmaskSplit : strSplitAt slash (addr ++ slash :: m) = (addr, some m) :=
        strSplitAt_some.mpr ⟨rfl, hslash⟩
      simp only [splitPattern, hsplit, hmaskSplit]

variable {libc : CLibrary} {addr m text : Bytes}

/-! The prefix length -/

/-- The numeral is cut at the largest `long` and then taken modulo 256. -/
theorem maskShiftOf_eq (h : strAlldig m = true) :
    maskShiftOf m = min (digitsValue m) 0x7fffffffffffffff % 256 := by
  obtain ⟨hne, hdigits⟩ := strAlldig_iff.mp h
  have hvalue : (min (digitsValue m : Int) longMax) =
      ((min (digitsValue m) 0x7fffffffffffffff : Nat) : Int) := by
    unfold longMax
    omega
  rw [maskShiftOf, atoi, strtol_allDigits hne hdigits, hvalue, toInt32]
  have hmod (n : Nat) : (Int.bmod n 0x100000000 % 256).toNat = n % 256 := by
    unfold Int.bmod
    dsimp only
    split <;> omega
  exact hmod _

theorem addrmaskParse_mask (h : SubnetText addr (some m) text) {info : AddrInfo} :
    addrmaskParse libc text = some info ↔
      ∃ (_ : strAlldig m = true)
        (hshift : maskShiftOf m ≤ addrBitCount (cidrMatchAddrFamily addr)),
        ∃ address, libc.getaddrinfo (cidrMatchAddrFamily addr) addr = some address ∧
          networkOf (cidrMatchAddrFamily addr) address (maskShiftOf m) hshift = info := by
  rw [addrmaskParse, splitPattern_iff.mpr h, Option.bind_some]
  dsimp only
  split
  · rename_i hmask
    rw [Option.map_eq_some_iff]
    constructor
    · rintro ⟨address, hget, hinfo⟩
      exact ⟨hmask.1, hmask.2, address, hget, hinfo⟩
    · rintro ⟨hdigits, hshift, address, hget, hinfo⟩
      exact ⟨address, hget, hinfo⟩
  · rename_i hmask
    constructor
    · intro hnone
      cases hnone
    · rintro ⟨hdigits, hshift, -⟩
      exact absurd ⟨hdigits, hshift⟩ hmask

/-- A subnet is accepted with the prefix length that its text gives. -/
def PrefixBounded (libc : CLibrary) (addr m text : Bytes) : Prop :=
  ∀ info, addrmaskParse libc text = some info →
    strAlldig m = true ∧ digitsValue m ≤ addrBitCount (cidrMatchAddrFamily addr) ∧
      (libc.getaddrinfo (cidrMatchAddrFamily addr) addr).isSome = true ∧
        info.maskShift = digitsValue m

/-- A length beyond the address is refused unless it is a small one modulo 256. -/
theorem prefixBounded_iff (h : SubnetText addr (some m) text) :
    PrefixBounded libc addr m text ↔
      strAlldig m = false ∨ libc.getaddrinfo (cidrMatchAddrFamily addr) addr = none ∨
        digitsValue m ≤ addrBitCount (cidrMatchAddrFamily addr) ∨
          0x7fffffffffffffff ≤ digitsValue m ∨
            addrBitCount (cidrMatchAddrFamily addr) < digitsValue m % 256 := by
  have hbits : addrBitCount (cidrMatchAddrFamily addr) ≤ 128 := by
    cases cidrMatchAddrFamily addr <;> decide
  constructor
  · intro hbounded
    cases hdigits : strAlldig m with
    | false => exact .inl rfl
    | true =>
      cases hget : libc.getaddrinfo (cidrMatchAddrFamily addr) addr with
      | none => exact .inr (.inl rfl)
      | some address =>
        refine .inr (.inr ?_)
        by_cases hshift : maskShiftOf m ≤ addrBitCount (cidrMatchAddrFamily addr)
        · exact .inl (hbounded _ ((addrmaskParse_mask h).mpr
            ⟨hdigits, hshift, address, hget, rfl⟩)).2.1
        · rw [maskShiftOf_eq hdigits] at hshift
          omega
  · intro hcases info hinfo
    obtain ⟨hdigits, hshift, address, hget, rfl⟩ := (addrmaskParse_mask h).mp hinfo
    have hvalue := maskShiftOf_eq hdigits
    rcases hcases with hno | hno | hrest
    · rw [hdigits] at hno
      cases hno
    · rw [hget] at hno
      cases hno
    · have hle : digitsValue m ≤ addrBitCount (cidrMatchAddrFamily addr) := by omega
      have hsame : maskShiftOf m = digitsValue m := by omega
      exact ⟨hdigits, hle, by rw [hget]; rfl, hsame⟩

theorem prefixBounded_ten : PrefixBounded plainLibrary (ascii "10.0.0.0") (ascii "8")
    (ascii "[10.0.0.0]/8") :=
  (prefixBounded_iff (.bracketedMask (by decide))).mpr (.inr (.inr (.inl (by decide))))

/-- The prefix length 264 is stored as 8. -/
theorem prefix_wraps :
    SubnetText (ascii "10.0.0.0") (some (ascii "264")) (ascii "10.0.0.0/264") ∧
      (addrmaskParse plainLibrary (ascii "10.0.0.0/264")).map AddrInfo.maskShift = some 8 ∧
        ¬ PrefixBounded plainLibrary (ascii "10.0.0.0") (ascii "264") (ascii "10.0.0.0/264") := by
  have hparse : (addrmaskParse plainLibrary (ascii "10.0.0.0/264")).map AddrInfo.maskShift =
      some 8 := by decide +kernel
  refine ⟨.bareMask (by decide) (by decide), hparse, fun hbounded => ?_⟩
  obtain ⟨info, hinfo, -⟩ := Option.map_eq_some_iff.mp hparse
  exact absurd (hbounded info hinfo).2.1 (by decide)

/-! The network -/

def hasHostBit (netBytes maskBytes : Bytes) (i : Nat) : Bool :=
  netBytes.getD i 0 &&& ~~~maskBytes.getD i 0 ≠ 0

/-- The loop over the bytes, which masks them all where it meets a host bit. -/
def sanityCheck (maskBytes : Bytes) (maskShift : Nat) : List Nat → Bytes → Bytes
  | [], netBytes => netBytes
  | i :: rest, netBytes =>
    sanityCheck maskBytes maskShift rest
      (if hasHostBit netBytes maskBytes i then maskAddr netBytes maskShift else netBytes)

/-- The network of an accepted text, with the bytes `a` of its address. -/
structure Normalised (libc : CLibrary) (text addr : Bytes) (mask : Option Bytes) (info : AddrInfo)
    (a : Address info.addrFamily) : Prop where
  parts : SubnetText addr mask text
  family : info.addrFamily = cidrMatchAddrFamily addr
  read : libc.getaddrinfo info.addrFamily addr = some a
  full : mask = none → info.maskShift = addrBitCount info.addrFamily
  maskBytes_length : info.maskBytes.length = addrByteCount info.addrFamily
  maskBytes_bits : ∀ i < 8 * info.maskBytes.length,
    (bits info.maskBytes)[i]? = some (decide (i < info.maskShift))
  netBytes : info.netBytes = List.zipWith (· &&& ·) a.1 info.maskBytes
  netBytes_checked : info.netBytes =
    sanityCheck info.maskBytes info.maskShift (List.range (addrByteCount info.addrFamily)) a.1

theorem networkOf_netBytes {family : Family} (address : Address family) {shift : Nat}
    (hshift : shift ≤ addrBitCount family) :
    (networkOf family address shift hshift).netBytes =
      List.zipWith (· &&& ·) address.1 (maskOf (addrByteCount family) shift) := by
  have hlength : address.1.length = (maskOf (addrByteCount family) shift).length := by
    rw [address.2, length_maskOf]
  have hroom : shift ≤ 8 * address.1.length := by rwa [address.2, ← addrBitCount_eq]
  unfold networkOf
  dsimp only
  split
  · apply bits_injective
    have hwidth : 8 * addrByteCount family = (bits address.1).length := by simp [address.2]
    rw [bits_zipWith_and _ _ hlength, bits_maskOf (address.2 ▸ hroom), hwidth,
      zipWith_and_prefixMask (by simpa using hroom), bits_maskAddr hroom, bits_length]
  · rename_i hhost
    exact (zipWith_and_of_no_host_bits hlength (by simpa using hhost)).symm

theorem hasHostBit_of_masked {netBytes maskBytes : Bytes}
    (hmasked : List.zipWith (· &&& ·) netBytes maskBytes = netBytes) (i : Nat) :
    hasHostBit netBytes maskBytes i = false := by
  rw [hasHostBit, decide_eq_false_iff_not, not_not]
  by_cases hi : i < netBytes.length
  · have hzip : i < (List.zipWith (· &&& ·) netBytes maskBytes).length := by rwa [hmasked]
    have hmask : i < maskBytes.length := by
      rw [List.length_zipWith] at hzip
      omega
    have hbyte : netBytes[i] &&& maskBytes[i] = netBytes[i] := by
      rw [← List.getElem_zipWith (h := hzip)]
      simp only [hmasked]
    rw [List.getD_eq_getElem _ _ hi, List.getD_eq_getElem _ _ hmask, ← hbyte, UInt8.and_assoc,
      UInt8.and_not_self, UInt8.and_zero]
  · rw [List.getD_eq_default _ _ (Nat.le_of_not_lt hi), UInt8.zero_and]

theorem hasHostBits_iff {netBytes maskBytes : Bytes} (hlen : netBytes.length = maskBytes.length) :
    hasHostBits netBytes maskBytes = true ↔
      ∃ i ∈ List.range netBytes.length, hasHostBit netBytes maskBytes i = true := by
  rw [hasHostBits, List.any_eq_true]
  constructor
  · rintro ⟨byte, hmem, hbyte⟩
    obtain ⟨i, hi, rfl⟩ := List.mem_iff_getElem.mp hmem
    rw [List.length_zipWith] at hi
    rw [List.getElem_zipWith] at hbyte
    refine ⟨i, List.mem_range.mpr (by omega), ?_⟩
    rwa [hasHostBit, List.getD_eq_getElem _ _ (by omega), List.getD_eq_getElem _ _ (by omega)]
  · rintro ⟨i, hi, hbyte⟩
    have hnet := List.mem_range.mp hi
    have hmask : i < maskBytes.length := hlen ▸ hnet
    rw [hasHostBit, List.getD_eq_getElem _ _ hnet, List.getD_eq_getElem _ _ hmask] at hbyte
    refine ⟨netBytes[i] &&& ~~~maskBytes[i], List.mem_iff_getElem.mpr ⟨i, ?_, ?_⟩, hbyte⟩
    · rw [List.length_zipWith]
      omega
    · rw [List.getElem_zipWith]

theorem sanityCheck_of_masked {maskBytes netBytes : Bytes}
    (hmasked : List.zipWith (· &&& ·) netBytes maskBytes = netBytes) (shift : Nat)
    (indices : List Nat) : sanityCheck maskBytes shift indices netBytes = netBytes := by
  induction indices with
  | nil => rfl
  | cons i indices ih => rw [sanityCheck, hasHostBit_of_masked hmasked, if_neg (by simp), ih]

theorem sanityCheck_eq {maskBytes netBytes : Bytes} {shift : Nat}
    (hmasked : List.zipWith (· &&& ·) (maskAddr netBytes shift) maskBytes = maskAddr netBytes shift)
    (indices : List Nat) :
    sanityCheck maskBytes shift indices netBytes =
      if ∃ i ∈ indices, hasHostBit netBytes maskBytes i = true then maskAddr netBytes shift
      else netBytes := by
  induction indices with
  | nil => simp [sanityCheck]
  | cons i indices ih =>
    rw [sanityCheck]
    by_cases hi : hasHostBit netBytes maskBytes i = true
    · rw [if_pos hi, sanityCheck_of_masked hmasked, if_pos ⟨i, by simp, hi⟩]
    · rw [if_neg hi, ih]
      simp [hi]

/-- The loop leaves the bytes that the model stores. -/
theorem sanityCheck_networkOf {family : Family} (address : Address family) {shift : Nat}
    (hshift : shift ≤ addrBitCount family) :
    sanityCheck (maskOf (addrByteCount family) shift) shift
        (List.range (addrByteCount family)) address.1 =
      (networkOf family address shift hshift).netBytes := by
  have hlength : address.1.length = (maskOf (addrByteCount family) shift).length := by
    rw [address.2, length_maskOf]
  by_cases hhost : hasHostBits address.1 (maskOf (addrByteCount family) shift) = true
  · have hmasked := (networkOf family address shift hshift).net_masked
    have hnet : (networkOf family address shift hshift).netBytes = maskAddr address.1 shift :=
      if_pos hhost
    have hmask : (networkOf family address shift hshift).maskBytes =
        maskOf (addrByteCount family) shift := rfl
    rw [hnet, hmask] at hmasked
    have hexists := (hasHostBits_iff hlength).mp hhost
    rw [address.2] at hexists
    rw [sanityCheck_eq hmasked, if_pos hexists, hnet]
  · have hnet : (networkOf family address shift hshift).netBytes = address.1 := if_neg hhost
    have hmasked := zipWith_and_of_no_host_bits hlength (by simpa using hhost)
    rw [sanityCheck_of_masked hmasked, hnet]

theorem normalised_networkOf {mask : Option Bytes} (hparts : SubnetText addr mask text)
    {address : Address (cidrMatchAddrFamily addr)} {shift : Nat}
    (hread : libc.getaddrinfo (cidrMatchAddrFamily addr) addr = some address)
    (hshift : shift ≤ addrBitCount (cidrMatchAddrFamily addr))
    (hfull : mask = none → shift = addrBitCount (cidrMatchAddrFamily addr)) :
    Normalised libc text addr mask (networkOf (cidrMatchAddrFamily addr) address shift hshift)
      address where
  parts := hparts
  family := rfl
  read := hread
  full := hfull
  maskBytes_length := length_maskOf _ _
  maskBytes_bits i hi := by
    rw [(networkOf (cidrMatchAddrFamily addr) address shift hshift).bits_maskBytes]
    refine getElem?_prefixMask ?_
    rwa [addrBitCount_eq, ← (networkOf _ address shift hshift).maskBytes_length]
  netBytes := networkOf_netBytes address hshift
  netBytes_checked := (sanityCheck_networkOf address hshift).symm

/-- Every accepted text gives the network of its address. -/
theorem addrmaskParse_normalised {info : AddrInfo} (h : addrmaskParse libc text = some info) :
    ∃ addr mask a, Normalised libc text addr mask info a := by
  obtain ⟨⟨addr, mask⟩, hsplit, hmask⟩ := Option.bind_eq_some_iff.mp h
  have hparts := splitPattern_iff.mp hsplit
  cases mask with
  | none =>
    obtain ⟨address, hget, rfl⟩ := Option.map_eq_some_iff.mp hmask
    exact ⟨addr, none, address, normalised_networkOf hparts hget (Nat.le_refl _) fun _ => rfl⟩
  | some m =>
    obtain ⟨-, hshift, address, hget, rfl⟩ := (addrmaskParse_mask hparts).mp h
    exact ⟨addr, some m, address, normalised_networkOf hparts hget hshift (by simp)⟩

/-- The host bits of 10.33.2.3 behind the first eleven bits are gone. -/
theorem addrmaskParse_normalised_eleven :
    ∃ info, addrmaskParse plainLibrary (ascii "10.33.2.3/11") = some info ∧
      info.netBytes = [10, 32, 0, 0] ∧
        ∃ addr mask a, Normalised plainLibrary (ascii "10.33.2.3/11") addr mask info a := by
  have hparse : (addrmaskParse plainLibrary (ascii "10.33.2.3/11")).map AddrInfo.netBytes =
      some [10, 32, 0, 0] := by decide +kernel
  obtain ⟨info, hinfo, hnet⟩ := Option.map_eq_some_iff.mp hparse
  exact ⟨info, hinfo, hnet, addrmaskParse_normalised hinfo⟩

end ChaosVpn.SubnetTexts
