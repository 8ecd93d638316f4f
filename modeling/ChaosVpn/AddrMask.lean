import ChaosVpn.Libc
import ChaosVpn.Library.PrefixNetworks

/-! addrmask.c: networks of two address families. A network carries the facts
that addrmask_parse establishes, so that every network at hand is a well formed
one: its mask is a prefix mask of `maskShift` bits and hides none of its bits. -/

namespace ChaosVpn.AddrMask
open CStrings Libc PrefixNetworks

def cidrMatchAddrFamily (pattern : Bytes) : Family := if colon ∈ pattern then .inet6 else .inet

/-- Clear everything behind the first `networkBits` bits, `networkBits < 8`. -/
def clearBehind (networkBits : Nat) : Bytes → Bytes
  | [] => []
  | b :: bs =>
    (if networkBits = 0 then 0 else b &&& (255 : UInt8) <<< UInt8.ofNat (8 - networkBits)) ::
      List.replicate bs.length 0

def maskAddr (addrBytes : Bytes) (networkBits : Nat) : Bytes :=
  if networkBits > 8 * addrBytes.length then addrBytes
  else addrBytes.take (networkBits / 8) ++
    clearBehind (networkBits % 8) (addrBytes.drop (networkBits / 8))

theorem length_clearBehind (networkBits : Nat) (addrBytes : Bytes) :
    (clearBehind networkBits addrBytes).length = addrBytes.length := by
  cases addrBytes <;> simp [clearBehind]

@[simp] theorem length_maskAddr (addrBytes : Bytes) (networkBits : Nat) :
    (maskAddr addrBytes networkBits).length = addrBytes.length := by
  unfold maskAddr
  split
  · rfl
  · simp only [List.length_append, List.length_take, length_clearBehind, List.length_drop]
    omega

theorem bits_clearBehind {networkBits : Nat} (addrBytes : Bytes) (h : networkBits < 8)
    (hroom : networkBits ≤ 8 * addrBytes.length) :
    bits (clearBehind networkBits addrBytes) =
      (bits addrBytes).take networkBits ++
        List.replicate (8 * addrBytes.length - networkBits) false := by
  cases addrBytes with
  | nil => simp [clearBehind, bits]
  | cons b bs =>
    have hwidth : 8 * (bs.length + 1) - networkBits = (8 - networkBits) + 8 * bs.length := by omega
    rcases Nat.eq_zero_or_pos networkBits with rfl | hpos
    · simp only [clearBehind, if_pos, bits_cons, bits_replicate_zero, byteBits_zero,
        List.replicate_append_replicate, List.length_cons, List.take_zero, List.nil_append]
      congr 1
      omega
    · have hfits : networkBits ≤ (byteBits b).length := by simp; omega
      simp only [clearBehind, if_neg (Nat.pos_iff_ne_zero.mp hpos), bits_cons,
        byteBits_clear b hpos h, bits_replicate_zero, List.length_cons, hwidth,
        List.take_append_of_le_length hfits, List.append_assoc, List.replicate_append_replicate]

/-- The bits behind the prefix become zero, whatever they were. -/
theorem bits_maskAddr {addrBytes : Bytes} {networkBits : Nat}
    (h : networkBits ≤ 8 * addrBytes.length) :
    bits (maskAddr addrBytes networkBits) =
      (bits addrBytes).take networkBits ++
        List.replicate (8 * addrBytes.length - networkBits) false := by
  have hdrop : (addrBytes.drop (networkBits / 8)).length = addrBytes.length - networkBits / 8 :=
    List.length_drop
  rw [maskAddr, if_neg (Nat.not_lt.mpr h), bits_append, bits_clearBehind _ (Nat.mod_lt _ (by simp))
    (by rw [hdrop]; omega), bits_take, bits_drop, hdrop, ← List.append_assoc, ← List.take_add]
  congr 2 <;> omega

theorem bits_maskAddr_ones {n networkBits : Nat} (h : networkBits ≤ 8 * n) :
    bits (maskAddr (List.replicate n 255) networkBits) = prefixMask (8 * n) networkBits := by
  rw [bits_maskAddr (by simpa using h), bits_replicate_ones, List.take_replicate,
    List.length_replicate, Nat.min_eq_left h, prefixMask]

/-! Networks -/

structure AddrInfo where
  netBytes : Bytes
  maskBytes : Bytes
  addrFamily : Family
  maskShift : Nat
  netBytes_length : netBytes.length = addrByteCount addrFamily
  maskBytes_length : maskBytes.length = addrByteCount addrFamily
  maskShift_le : maskShift ≤ addrBitCount addrFamily
  bits_maskBytes : bits maskBytes = prefixMask (addrBitCount addrFamily) maskShift
  net_masked : List.zipWith (· &&& ·) netBytes maskBytes = netBytes
  deriving DecidableEq

/-- A mask of no bits is written without mask_addr. -/
def maskOf (addrByteCount maskShift : Nat) : Bytes :=
  if maskShift > 0 then maskAddr (List.replicate addrByteCount 255) maskShift
  else List.replicate addrByteCount 0

def hasHostBits (netBytes maskBytes : Bytes) : Bool :=
  (List.zipWith (fun np mp => np &&& ~~~mp) netBytes maskBytes).any (· ≠ 0)

theorem length_maskOf (n maskShift : Nat) : (maskOf n maskShift).length = n := by
  unfold maskOf
  split <;> simp

theorem bits_maskOf {n maskShift : Nat} (h : maskShift ≤ 8 * n) :
    bits (maskOf n maskShift) = prefixMask (8 * n) maskShift := by
  unfold maskOf
  split
  · exact bits_maskAddr_ones h
  · have hzero : maskShift = 0 := by omega
    simp [hzero, prefixMask, bits_replicate_zero]

theorem and_eq_self_of_no_host_bits {np mp : UInt8} (h : np &&& ~~~mp = 0) : np &&& mp = np := by
  apply UInt8.toBitVec_inj.mp
  apply BitVec.eq_of_getLsbD_eq
  intro i hi
  have hbit := congrArg (fun b : UInt8 => b.toBitVec.getLsbD i) h
  simp only [UInt8.toBitVec_and, UInt8.toBitVec_not, BitVec.getLsbD_and, BitVec.getLsbD_not, hi,
    decide_true, Bool.true_and, UInt8.toBitVec_ofNat] at hbit ⊢
  cases hnp : np.toBitVec.getLsbD i <;> simp_all

theorem zipWith_and_of_no_host_bits {netBytes maskBytes : Bytes}
    (hlen : netBytes.length = maskBytes.length) (h : hasHostBits netBytes maskBytes = false) :
    List.zipWith (· &&& ·) netBytes maskBytes = netBytes := by
  induction netBytes generalizing maskBytes with
  | nil => simp
  | cons np netBytes ih =>
    cases maskBytes with
    | nil => cases hlen
    | cons mp maskBytes =>
      simp only [hasHostBits, List.zipWith_cons_cons, List.any_cons, Bool.or_eq_false_iff,
        decide_eq_false_iff_not, not_not] at h
      rw [List.zipWith_cons_cons, and_eq_self_of_no_host_bits h.1,
        ih (by simpa using hlen) h.2]

/-- The network of an address: what addrmask_parse stores once the text is read. -/
def networkOf (addrFamily : Family) (address : Address addrFamily) (maskShift : Nat)
    (h : maskShift ≤ addrBitCount addrFamily) : AddrInfo where
  netBytes :=
    if hasHostBits address.1 (maskOf (addrByteCount addrFamily) maskShift) then
      maskAddr address.1 maskShift
    else address.1
  maskBytes := maskOf (addrByteCount addrFamily) maskShift
  addrFamily := addrFamily
  maskShift := maskShift
  netBytes_length := by
    split <;> simp [address.2]
  maskBytes_length := length_maskOf _ _
  maskShift_le := h
  bits_maskBytes := by
    rw [addrBitCount_eq] at h ⊢
    exact bits_maskOf h
  net_masked := by
    have hlen : address.1.length = (maskOf (addrByteCount addrFamily) maskShift).length := by
      rw [length_maskOf, address.2]
    split
    · rw [addrBitCount_eq, ← address.2] at h
      have htake : ((bits address.1).take maskShift).length = maskShift := by simp; omega
      have hmasked :
          (bits (maskAddr address.1 maskShift)).length = 8 * addrByteCount addrFamily := by
        simp [address.2]
      apply bits_injective
      rw [bits_zipWith_and _ _ (by simpa using hlen), bits_maskOf (address.2 ▸ h), ← hmasked,
        zipWith_and_prefixMask (by simpa using h), bits_maskAddr h,
        List.take_append_of_le_length (by omega), List.take_of_length_le (by omega)]
      simp [htake]
    · exact zipWith_and_of_no_host_bits hlen (by simp_all)

/-! addrmask_parse and the functions on its results -/

/-- The address and the mask text of `addr/len`, `[addr]/len` and `[addr/len]`. -/
def splitPattern : Bytes → Option (Bytes × Option Bytes)
  | 91 :: pattern =>
    match strSplitAt 93 pattern with
    | (_, none) => none
    | (addr, some []) => some (strSplitAt slash addr)
    | (addr, some (c :: mask)) => if c = slash then some (addr, some mask) else none
  | pattern => some (strSplitAt slash pattern)

/-- The mask length is stored in an `unsigned char` before it is compared. -/
def maskShiftOf (mask : Bytes) : Nat := (atoi mask % 256).toNat

def addrmaskParse (libc : CLibrary) (addressmask : Bytes) : Option AddrInfo :=
  (splitPattern addressmask).bind fun (pattern, mask) =>
    let family := cidrMatchAddrFamily pattern
    match mask with
    | some mask =>
      if h : strAlldig mask = true ∧ maskShiftOf mask ≤ addrBitCount family then
        (libc.getaddrinfo family pattern).map fun address =>
          networkOf family address (maskShiftOf mask) h.2
      else none
    | none =>
      (libc.getaddrinfo family pattern).map fun address =>
        networkOf family address (addrBitCount family) (Nat.le_refl _)

/-- The comparison of the address bits with one entry. -/
def addressMatches (entry info : AddrInfo) : Bool :=
  entry.addrFamily = info.addrFamily &&
    if entry.maskShift < addrBitCount entry.addrFamily then
      List.zipWith (· &&& ·) info.netBytes entry.maskBytes == entry.netBytes
    else info.netBytes == entry.netBytes

/-- The search stops at the first entry whose address bits match, and only then
compares the prefix lengths. -/
def addrmaskMatch (libc : CLibrary) (ms : List AddrInfo) (addr : Bytes) : Option AddrInfo :=
  (addrmaskParse libc addr).bind fun info =>
    (ms.find? (addressMatches · info)).filter fun entry => ¬ info.maskShift < entry.maskShift

def addrmaskToString (libc : CLibrary) (addr : AddrInfo) : Bytes :=
  libc.inetNtop addr.addrFamily addr.netBytes ++ ascii "/" ++ decimal addr.maskShift

/-- `none` stands for AF_UNSPEC. -/
def addrmaskVerifySubnet (libc : CLibrary) (addressmask : Bytes) (family : Option Family) : Bool :=
  !addressmask.isEmpty &&
    match addrmaskParse libc addressmask with
    | none => false
    | some addr => family = none || family = some addr.addrFamily

theorem addrmaskVerifySubnet_iff {libc : CLibrary} {addressmask : Bytes} {family : Family} :
    addrmaskVerifySubnet libc addressmask (some family) = true ↔
      addressmask ≠ [] ∧ ∃ addr, addrmaskParse libc addressmask = some addr ∧
        addr.addrFamily = family := by
  unfold addrmaskVerifySubnet
  cases addrmaskParse libc addressmask with
  | none => simp
  | some addr =>
    have hfamily : family = addr.addrFamily ↔ addr.addrFamily = family := eq_comm
    simp [hfamily]

/-! Texts that addrmask_parse accepts -/

theorem splitPattern_parts {text pattern : Bytes} {mask : Option Bytes}
    (h : splitPattern text = some (pattern, mask)) (hpattern : Unmarked pattern)
    (hmask : ∀ m, mask = some m → Unmarked m) : Unmarked text := by
  have hslash : ∀ {s : Bytes}, strSplitAt slash s = (pattern, mask) → Unmarked s := by
    intro s hs
    cases mask with
    | none => exact (strSplitAt_none.mp hs).1 ▸ hpattern
    | some m =>
      rw [(strSplitAt_some.mp hs).1, unmarked_append]
      exact ⟨hpattern, unmarked_cons.mpr ⟨by decide, hmask m rfl⟩⟩
  unfold splitPattern at h
  split at h
  · rename_i bracketed
    refine unmarked_cons.mpr ⟨by decide, ?_⟩
    split at h
    · cases h
    · rename_i addr hsplit
      rw [(strSplitAt_some.mp hsplit).1, unmarked_append]
      exact ⟨hslash (Option.some.inj h), by decide⟩
    · rename_i addr c m hsplit
      split at h
      · rename_i hc
        obtain ⟨rfl, rfl⟩ := Prod.mk.inj (Option.some.inj h)
        rw [(strSplitAt_some.mp hsplit).1, unmarked_append, hc]
        exact ⟨hpattern, unmarked_cons.mpr ⟨by decide, unmarked_cons.mpr ⟨by decide, hmask m rfl⟩⟩⟩
      · cases h
  · exact hslash (Option.some.inj h)

theorem unmarked_of_strAlldig {s : Bytes} (h : strAlldig s = true) : Unmarked s :=
  unmarked_of_forall (by decide) (by decide) (List.all_eq_true.mp (Bool.and_eq_true_iff.mp h).2)

/-- An accepted text holds no more than an address, digits, a slash and brackets. -/
theorem unmarked_of_addrmaskParse {libc : CLibrary} (hlibc : NumericTexts libc) {text : Bytes}
    {addr : AddrInfo} (h : addrmaskParse libc text = some addr) : Unmarked text := by
  obtain ⟨⟨pattern, mask⟩, hsplit, h⟩ := Option.bind_eq_some_iff.mp h
  have hread : ∀ address, libc.getaddrinfo (cidrMatchAddrFamily pattern) pattern = some address →
      Unmarked pattern := fun _ hget =>
    hlibc.read (cidrMatchAddrFamily pattern) pattern (Option.isSome_of_eq_some hget)
  cases mask with
  | none =>
    obtain ⟨address, hget, -⟩ := Option.map_eq_some_iff.mp h
    exact splitPattern_parts hsplit (hread address hget) (by simp)
  | some mask =>
    dsimp only at h
    split at h
    · rename_i hdigits
      obtain ⟨address, hget, -⟩ := Option.map_eq_some_iff.mp h
      exact splitPattern_parts hsplit (hread address hget) fun m hm =>
        Option.some.inj hm ▸ unmarked_of_strAlldig hdigits.1
    · cases h

theorem unmarked_addrmaskToString {libc : CLibrary} (hlibc : NumericTexts libc) (addr : AddrInfo) :
    Unmarked (addrmaskToString libc addr) := by
  rw [addrmaskToString, unmarked_append, unmarked_append]
  exact ⟨⟨hlibc.written addr.addrFamily ⟨addr.netBytes, addr.netBytes_length⟩, by decide⟩,
    unmarked_toDigits (by decide) _⟩

end ChaosVpn.AddrMask
