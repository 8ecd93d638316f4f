import ChaosVpn.SubnetTexts

/-! addrmask_to_string: the text of a network, which addrmask_parse reads back. -/

namespace ChaosVpn.SubnetPrinting
open CStrings StringBuffer Libc AddrMask Numerals SubnetTexts

/-- The exit for numerals of more than 30 bytes is out of reach of an `int`. -/
def stringPutint (s : StructString) (i : Int) : StructString := stringConcatb s (decimalInt i)

/-- The result and the target, to which the text is appended. -/
def addrmaskToStringIn (libc : CLibrary) (target : StructString) (addr : AddrInfo) :
    Bool × StructString :=
  let target := stringConcatb target (libc.inetNtop addr.addrFamily addr.netBytes)
  let target := stringConcatb target [slash]
  (true, stringPutint target addr.maskShift)

/-- What is assumed of inet_ntop() and of the reader of numeric addresses. -/
structure PrintsAddresses (libc : CLibrary) : Prop where
  colon : ∀ family (a : Address family), colon ∈ libc.inetNtop family a.1 ↔ family = .inet6
  plain : ∀ family (a : Address family), ∀ c ∈ libc.inetNtop family a.1,
    c ≠ slash ∧ c ≠ openBracket ∧ c ≠ closeBracket
  readBack : ∀ family (a : Address family),
    libc.getaddrinfo family (libc.inetNtop family a.1) = some a

/-- A network is printed into every empty string as the text `t`. -/
def Prints (libc : CLibrary) (info : AddrInfo) (t : Bytes) : Prop :=
  ∀ target, content target = [] → addrmaskToStringIn libc target info = (true, ⟨some t⟩)

variable {libc : CLibrary}

theorem decimalInt_natCast (n : Nat) : decimalInt n = decimal n := by
  rw [decimalInt, if_neg (by omega), Int.natAbs_natCast]

theorem prints_addrmaskToString (info : AddrInfo) :
    Prints libc info (addrmaskToString libc info) := by
  intro target htarget
  have hslash : content (stringConcatb (stringConcatb target
      (libc.inetNtop info.addrFamily info.netBytes)) [slash]) =
        libc.inetNtop info.addrFamily info.netBytes ++ [slash] := by
    rw [content_stringConcatb, content_stringConcatb, htarget, List.nil_append]
  have hdigits : (decimal info.maskShift).isEmpty = false := by
    simpa using decimal_ne_nil info.maskShift
  rw [addrmaskToStringIn, stringPutint, decimalInt_natCast]
  conv_lhs => rw [stringConcatb]
  rw [hslash, hdigits, addrmaskToString]
  rfl

theorem maskShiftOf_decimal {n : Nat} (h : n ≤ 128) : maskShiftOf (decimal n) = n := by
  have hdigits : strAlldig (decimal n) = true :=
    strAlldig_iff.mpr ⟨decimal_ne_nil n, fun d hd => isDigit_of_mem_decimal hd⟩
  rw [maskShiftOf_eq hdigits, digitsValue_decimal]
  omega

theorem addrInfo_ext {a b : AddrInfo} (hnet : a.netBytes = b.netBytes)
    (hmask : a.maskBytes = b.maskBytes) (hfamily : a.addrFamily = b.addrFamily)
    (hshift : a.maskShift = b.maskShift) : a = b := by
  cases a
  cases b
  simp only [AddrInfo.mk.injEq]
  exact ⟨hnet, hmask, hfamily, hshift⟩

/-- A network is determined by family, address bytes and prefix length. -/
theorem networkOf_self (info : AddrInfo) :
    networkOf info.addrFamily ⟨info.netBytes, info.netBytes_length⟩ info.maskShift
      info.maskShift_le = info := by
  have hmask : maskOf (addrByteCount info.addrFamily) info.maskShift = info.maskBytes := by
    apply PrefixNetworks.bits_injective
    have hshift := info.maskShift_le
    rw [addrBitCount_eq] at hshift
    rw [bits_maskOf hshift, info.bits_maskBytes, addrBitCount_eq]
  have hnet : _ = List.zipWith (· &&& ·) info.netBytes _ :=
    networkOf_netBytes ⟨info.netBytes, info.netBytes_length⟩ info.maskShift_le
  rw [hmask, info.net_masked] at hnet
  exact addrInfo_ext hnet hmask rfl rfl

theorem addrmaskParse_addrmaskToString (hlibc : PrintsAddresses libc) (info : AddrInfo) :
    addrmaskParse libc (addrmaskToString libc info) = some info := by
  have hcolon := hlibc.colon info.addrFamily ⟨info.netBytes, info.netBytes_length⟩
  have hplain := hlibc.plain info.addrFamily ⟨info.netBytes, info.netBytes_length⟩
  have hread := hlibc.readBack info.addrFamily ⟨info.netBytes, info.netBytes_length⟩
  have hself := networkOf_self info
  have hle : info.maskShift ≤ 128 := by
    have hbits : addrBitCount info.addrFamily ≤ 128 := by cases info.addrFamily <;> decide
    exact info.maskShift_le.trans hbits
  have hdigits : strAlldig (decimal info.maskShift) = true :=
    strAlldig_iff.mpr ⟨decimal_ne_nil _, fun d hd => isDigit_of_mem_decimal hd⟩
  dsimp only at hcolon hplain hread
  have hfamily : cidrMatchAddrFamily (libc.inetNtop info.addrFamily info.netBytes) =
      info.addrFamily := by
    unfold cidrMatchAddrFamily
    split
    · rename_i hmem
      exact (hcolon.mp hmem).symm
    · rename_i hmem
      cases hf : info.addrFamily with
      | inet => rfl
      | inet6 => exact absurd (hcolon.mpr hf) hmem
  have hslash : slash ∉ libc.inetNtop info.addrFamily info.netBytes :=
    fun hmem => (hplain _ hmem).1 rfl
  have hhead : (libc.inetNtop info.addrFamily info.netBytes).head? ≠ some openBracket :=
    fun heq => (hplain _ (List.mem_of_head? heq)).2.1 rfl
  have htext : addrmaskToString libc info =
      libc.inetNtop info.addrFamily info.netBytes ++ slash :: decimal info.maskShift := by
    rw [addrmaskToString, List.append_assoc]
    rfl
  have hshift := maskShiftOf_decimal hle
  rw [htext, addrmaskParse_mask (.bareMask hslash hhead)]
  generalize cidrMatchAddrFamily (libc.inetNtop info.addrFamily info.netBytes) = family at hfamily
  generalize maskShiftOf (decimal info.maskShift) = shift at hshift
  subst hfamily hshift
  exact ⟨hdigits, info.maskShift_le, _, hread, hself⟩

/-- Reading what was printed gives the same network, and printing that the same text. -/
theorem parse_print_roundTrip (hlibc : PrintsAddresses libc) :
    ∀ s info, addrmaskParse libc s = some info →
      ∃ t info', Prints libc info t ∧ addrmaskParse libc t = some info' ∧
        info'.addrFamily = info.addrFamily ∧ info'.netBytes = info.netBytes ∧
          info'.maskBytes = info.maskBytes ∧ info'.maskShift = info.maskShift ∧
            Prints libc info' t := by
  intro s info _
  exact ⟨addrmaskToString libc info, info, prints_addrmaskToString info,
    addrmaskParse_addrmaskToString hlibc info, rfl, rfl, rfl, rfl, prints_addrmaskToString info⟩

/-! The plain library -/

theorem plainByte_decimal (b : UInt8) : plainByte (decimal b.toNat) = some b := by
  have hdigits : strAlldig (decimal b.toNat) = true :=
    strAlldig_iff.mpr ⟨decimal_ne_nil _, fun d hd => isDigit_of_mem_decimal hd⟩
  have hvalue := digitsValue_decimal b.toNat
  rw [plainByte, hvalue, if_pos ⟨hdigits, b.toNat_lt, rfl⟩, UInt8.ofNat_toNat]

theorem mapM_some {α β : Type} {f : α → Option β} {g : α → β} {l : List α}
    (h : ∀ x ∈ l, f x = some (g x)) : l.mapM f = some (l.map g) := by
  induction l with
  | nil => rfl
  | cons x l ih =>
    rw [List.mapM_cons, h x (by simp), ih fun y hy => h y (by simp [hy])]
    rfl

theorem hexDigit_digitChar {d : Nat} (h : d < 16) :
    hexDigit (UInt8.ofNat d.digitChar.toNat) = d := by
  have hall : ∀ d < 16, hexDigit (UInt8.ofNat (Nat.digitChar d).toNat) = d := by decide
  exact hall d h

/-- A group of an address of the second family. -/
def hexWord (v : Nat) : Bytes := (Nat.toDigits 16 v).map fun c => UInt8.ofNat c.toNat

theorem hexWord_step {v : Nat} (h : 16 ≤ v) :
    hexWord v = hexWord (v / 16) ++ [UInt8.ofNat (v % 16).digitChar.toNat] := by
  rw [hexWord, Nat.toDigits_of_base_le (by decide) h, List.map_append]
  rfl

theorem hexWord_small {v : Nat} (h : v < 16) : hexWord v = [UInt8.ofNat v.digitChar.toNat] := by
  rw [hexWord, Nat.toDigits_of_lt_base h]
  rfl

theorem hexDigit_of_mem_hexWord {v : Nat} {c : UInt8} (h : c ∈ hexWord v) : hexDigit c < 16 := by
  induction v using Nat.strongRecOn with
  | ind v ih =>
    by_cases hv : v < 16
    · rw [hexWord_small hv, List.mem_singleton] at h
      rw [h, hexDigit_digitChar hv]
      exact hv
    · rw [hexWord_step (by omega), List.mem_append, List.mem_singleton] at h
      rcases h with h | h
      · exact ih (v / 16) (by omega) h
      · rw [h, hexDigit_digitChar (Nat.mod_lt _ (by decide))]
        exact Nat.mod_lt _ (by decide)

theorem foldl_hexWord (v : Nat) : (hexWord v).foldl (fun v d => 16 * v + hexDigit d) 0 = v := by
  induction v using Nat.strongRecOn with
  | ind v ih =>
    by_cases hv : v < 16
    · rw [hexWord_small hv, List.foldl_cons, hexDigit_digitChar hv]
      simp
    · rw [hexWord_step (by omega), List.foldl_append, ih (v / 16) (by omega), List.foldl_cons,
        hexDigit_digitChar (Nat.mod_lt _ (by decide)), List.foldl_nil]
      omega

theorem plainWord_hexWord (h l : UInt8) :
    plainWord (hexWord (256 * h.toNat + l.toNat)) = some [h, l] := by
  have hh := h.toNat_lt
  have hl := l.toNat_lt
  have hne : hexWord (256 * h.toNat + l.toNat) ≠ [] := by
    simp [hexWord, Nat.toDigits_ne_nil]
  have hlength : (hexWord (256 * h.toNat + l.toNat)).length ≤ 4 := by
    rw [hexWord, List.length_map]
    exact (Nat.length_toDigits_le_iff (by decide) (by decide)).mpr (by omega)
  have hall : ((hexWord (256 * h.toNat + l.toNat)).all (hexDigit · < 16)) = true :=
    List.all_eq_true.mpr fun c hc => decide_eq_true (hexDigit_of_mem_hexWord hc)
  have hdiv : (256 * h.toNat + l.toNat) / 256 = h.toNat := by omega
  have hmod : (256 * h.toNat + l.toNat) % 256 = l.toNat := by omega
  rw [plainWord, if_pos ⟨hne, hlength, hall⟩]
  simp only [foldl_hexWord, hdiv, hmod, UInt8.ofNat_toNat]

/-- The groups of an address are pairs of its bytes. -/
def groups : Bytes → List (UInt8 × UInt8)
  | h :: l :: rest => (h, l) :: groups rest
  | _ => []

def groupText (w : UInt8 × UInt8) : Bytes := hexWord (256 * w.1.toNat + w.2.toNat)

theorem toChunks_groups (a : Address .inet6) :
    (a.1.toChunks 2 = (groups a.1).map fun w => [w.1, w.2]) ∧
      ((groups a.1).map fun w => [w.1, w.2]).flatten = a.1 ∧ groups a.1 ≠ [] := by
  obtain ⟨bytes, hlength⟩ := a
  simp only [addrByteCount] at hlength
  rcases bytes with _ | ⟨b0, _ | ⟨b1, _ | ⟨b2, _ | ⟨b3, _ | ⟨b4, _ | ⟨b5, _ | ⟨b6, _ | ⟨b7, _
    | ⟨b8, _ | ⟨b9, _ | ⟨b10, _ | ⟨b11, _ | ⟨b12, _ | ⟨b13, _ | ⟨b14, _ | ⟨b15, _ | ⟨b16,
    rest⟩⟩⟩⟩⟩⟩⟩⟩⟩⟩⟩⟩⟩⟩⟩⟩⟩ <;>
    first
    | (simp at hlength; done)
    | exact ⟨rfl, rfl, List.cons_ne_nil _ _⟩

theorem inetNtop_inet6 (a : Address .inet6) :
    plainLibrary.inetNtop .inet6 a.1 = [colon].intercalate ((groups a.1).map groupText) := by
  have htext : plainLibrary.inetNtop .inet6 a.1 = [colon].intercalate ((a.1.toChunks 2).map
      fun word => hexWord (word.foldl (fun v b => 256 * v + b.toNat) 0)) := rfl
  rw [htext, (toChunks_groups a).1, List.map_map]
  refine congrArg _ (List.map_congr_left fun w _ => ?_)
  simp [groupText]

theorem inetNtop_inet (a : Address .inet) :
    plainLibrary.inetNtop .inet a.1 = [46].intercalate (a.1.map fun b => decimal b.toNat) ∧
      a.1.map (fun b => decimal b.toNat) ≠ [] := by
  have hne : a.1 ≠ [] := fun hnil => by simpa [hnil, addrByteCount] using a.2
  exact ⟨rfl, by simpa using hne⟩

theorem getaddrinfo_plainLibrary {family : Family} (a : Address family) {text : Bytes}
    (h : plainAddress family text = some a.1) :
    plainLibrary.getaddrinfo family text = some a := by
  have hread : plainLibrary.getaddrinfo family text =
      (plainAddress family text).bind fun bytes =>
        if h : bytes.length = addrByteCount family then some ⟨bytes, h⟩ else none := rfl
  rw [hread, h, Option.bind_some, dif_pos a.2]

theorem splitOn_inet (a : Address .inet) :
    (plainLibrary.inetNtop .inet a.1).splitOn 46 = a.1.map fun b => decimal b.toNat := by
  have hdot : ∀ piece ∈ a.1.map fun b => decimal b.toNat, (46 : UInt8) ∉ piece := by
    simp only [List.forall_mem_map]
    exact fun b _ hmem => absurd (isDigit_of_mem_decimal hmem) (by decide)
  rw [(inetNtop_inet a).1, List.splitOn_intercalate 46 hdot (inetNtop_inet a).2]

theorem splitOn_inet6 (a : Address .inet6) :
    (plainLibrary.inetNtop .inet6 a.1).splitOn colon = (groups a.1).map groupText := by
  have hcolon : ∀ piece ∈ (groups a.1).map groupText, colon ∉ piece := by
    simp only [List.forall_mem_map]
    exact fun w _ hmem => absurd (hexDigit_of_mem_hexWord hmem) (by decide)
  rw [inetNtop_inet6, List.splitOn_intercalate colon hcolon (by simpa using (toChunks_groups a).2.2)]

theorem readBack_plainLibrary (family : Family) (a : Address family) :
    plainLibrary.getaddrinfo family (plainLibrary.inetNtop family a.1) = some a := by
  cases family with
  | inet =>
    refine getaddrinfo_plainLibrary a ?_
    have hbytes : a.1.mapM (plainByte ∘ fun b => decimal b.toNat) = some (a.1.map id) :=
      mapM_some fun b _ => plainByte_decimal b
    rw [plainAddress, splitOn_inet, List.mapM_map, hbytes, List.map_id]
  | inet6 =>
    refine getaddrinfo_plainLibrary a ?_
    have hwords : (groups a.1).mapM (plainWord ∘ groupText) =
        some ((groups a.1).map fun w => [w.1, w.2]) :=
      mapM_some fun w _ => plainWord_hexWord w.1 w.2
    rw [plainAddress, splitOn_inet6, List.mapM_map, hwords, Option.map_some,
      (toChunks_groups a).2.1]

theorem byte_inetNtop {family : Family} (a : Address family) {c : UInt8}
    (h : c ∈ plainLibrary.inetNtop family a.1) :
    c = (if family = .inet then 46 else colon) ∨ hexDigit c < 16 := by
  cases family with
  | inet =>
    rw [(inetNtop_inet a).1] at h
    rcases TextLines.mem_of_mem_intercalate h with hc | ⟨piece, hpiece, hc⟩
    · exact .inl (List.mem_singleton.mp hc)
    · obtain ⟨b, -, rfl⟩ := List.mem_map.mp hpiece
      have hdigit := isDigit_of_mem_decimal hc
      have hrange := isDigit_iff.mp hdigit
      rw [hexDigit_of_isDigit hdigit]
      exact .inr (by omega)
  | inet6 =>
    rw [inetNtop_inet6] at h
    rcases TextLines.mem_of_mem_intercalate h with hc | ⟨piece, hpiece, hc⟩
    · exact .inl (List.mem_singleton.mp hc)
    · obtain ⟨w, -, rfl⟩ := List.mem_map.mp hpiece
      exact .inr (hexDigit_of_mem_hexWord hc)

theorem printsAddresses_plainLibrary : PrintsAddresses plainLibrary where
  colon family a := by
    constructor
    · intro hmem
      cases family with
      | inet =>
        rcases byte_inetNtop a hmem with hc | hc
        · exact absurd hc (by decide)
        · exact absurd hc (by decide)
      | inet6 => rfl
    · rintro rfl
      by_contra hno
      have hsplit := splitOn_inet6 a
      rw [List.splitOn_eq_singleton hno] at hsplit
      have hgroups := congrArg List.length hsplit
      have hbytes := congrArg List.length (toChunks_groups a).2.1
      rw [List.length_singleton, List.length_map] at hgroups
      rw [a.2, List.length_flatten, List.map_map] at hbytes
      have hpairs : (groups a.1).map (List.length ∘ fun w => [w.1, w.2]) =
          List.replicate (groups a.1).length 2 := by
        simp [Function.comp_def, List.map_const']
      rw [hpairs, ← hgroups] at hbytes
      exact absurd hbytes (by decide)
  plain family a c hc := by
    rcases byte_inetNtop a hc with hjoint | hdigit
    · cases family with
      | inet => exact hjoint ▸ by decide
      | inet6 => exact hjoint ▸ by decide
    · refine ⟨?_, ?_, ?_⟩ <;> rintro rfl <;> revert hdigit <;> decide
  readBack := readBack_plainLibrary

def officeNetwork : AddrInfo := networkOf .inet ⟨[10, 20, 48, 1], rfl⟩ 20 (by decide)

theorem parse_print_roundTrip_office :
    ∃ t info', Prints plainLibrary officeNetwork t ∧ addrmaskParse plainLibrary t = some info' ∧
      info'.addrFamily = officeNetwork.addrFamily ∧ info'.netBytes = officeNetwork.netBytes ∧
        info'.maskBytes = officeNetwork.maskBytes ∧ info'.maskShift = officeNetwork.maskShift ∧
          Prints plainLibrary info' t :=
  parse_print_roundTrip printsAddresses_plainLibrary (ascii "[10.20.48.1/20]") officeNetwork
    (by decide +kernel)

end ChaosVpn.SubnetPrinting
