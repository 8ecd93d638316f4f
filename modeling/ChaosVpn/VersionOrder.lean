import ChaosVpn.NaturalOrder
import ChaosVpn.VersionChecks

/-! Versions of tincd, numbers with dots between them, are compared as numbers. -/

namespace ChaosVpn.VersionOrder
open CStrings Numerals StrNatCmp NaturalOrder Settings OldDaemon VersionChecks

/-- `a.b.c` -/
def dotted : List Nat → Bytes
  | [] => []
  | [n] => decimal n
  | n :: m :: rest => decimal n ++ 46 :: dotted (m :: rest)

/-- The first number that differs decides, and what goes on is above what ends. -/
def versionOrder : List Nat → List Nat → Ordering :=
  List.compareLex fun m n => intOrder m n

/-! Numbers by their digits -/

variable {m n : Nat} {ds es : Bytes}

def valueFrom (v : Nat) (ds : Bytes) : Nat := ds.foldl (fun v d => 10 * v + (d.toNat - 48)) v

theorem valueFrom_cons (v : Nat) (d : UInt8) (ds : Bytes) :
    valueFrom v (d :: ds) = valueFrom (10 * v + (d.toNat - 48)) ds := by
  rw [valueFrom, List.foldl_cons, ← valueFrom]

/-- A difference in front is not made up for behind. -/
theorem valueFrom_lt {v w : Nat} (hlength : ds.length = es.length)
    (hds : ∀ d ∈ ds, isDigit d = true) (h : v < w) : valueFrom v ds < valueFrom w es := by
  induction ds generalizing es v w with
  | nil =>
    rw [List.length_nil, eq_comm, List.length_eq_zero_iff] at hlength
    subst hlength
    exact h
  | cons d ds ih =>
    cases es with
    | nil => cases hlength
    | cons e es =>
      rw [valueFrom_cons, valueFrom_cons]
      have hd := (isDigit_iff.mp (hds d (by simp))).2
      exact ih (by simpa using hlength) (fun c hc => hds c (List.mem_cons_of_mem d hc)) (by omega)

theorem intOrder_ofNat {m n : Nat} :
    intOrder m n = if m < n then .lt else if n < m then .gt else .eq := by
  simp [intOrder]

/-- Numerals of one length are in the order of their values. -/
theorem keyOrder_digits {v : Nat} (hlength : ds.length = es.length)
    (hds : ∀ d ∈ ds, isDigit d = true) (hes : ∀ e ∈ es, isDigit e = true) :
    keyOrder (ds.map natChar) (es.map natChar) = intOrder (valueFrom v ds) (valueFrom v es) := by
  induction ds generalizing es v with
  | nil =>
    rw [List.length_nil, eq_comm, List.length_eq_zero_iff] at hlength
    subst hlength
    rw [intOrder_self]
    rfl
  | cons d ds ih =>
    cases es with
    | nil => cases hlength
    | cons e es =>
      have hd := hds d (by simp)
      have he := hes e (by simp)
      have hds' := fun c hc => hds c (List.mem_cons_of_mem d hc)
      have hes' := fun c hc => hes c (List.mem_cons_of_mem e hc)
      have hlength' : ds.length = es.length := by simpa using hlength
      have hbounds := (isDigit_iff.mp hd).1
      have hbounds' := (isDigit_iff.mp he).1
      rw [List.map_cons, List.map_cons, keyOrder_digit hd he, valueFrom_cons, valueFrom_cons]
      split_ifs with hlt hgt
      · rw [UInt8.lt_iff_toNat_lt] at hlt
        rw [intOrder_lt (Int.ofNat_lt.mpr (valueFrom_lt hlength' hds' (by omega)))]
      · rw [UInt8.lt_iff_toNat_lt] at hgt
        rw [intOrder_gt (Int.ofNat_lt.mpr (valueFrom_lt hlength'.symm hes' (by omega)))]
      · have heq : d = e := by
          refine UInt8.toNat_inj.mp ?_
          rw [UInt8.lt_iff_toNat_lt] at hlt hgt
          omega
        rw [heq]
        exact ih hlength' hds' hes'

/-- A longer numeral without a leading zero is of a greater number. -/
theorem digitsValue_lt_of_length {d : UInt8} (hes : ∀ e ∈ es, isDigit e = true)
    (hd : isDigit d = true) (hzero : d ≠ 48) (hlength : es.length < (d :: ds).length) :
    digitsValue es < digitsValue (d :: ds) := by
  have hpos : 0 < d.toNat - 48 := by
    have hbounds := (isDigit_iff.mp hd).1
    have hne : d.toNat ≠ 48 := fun h => hzero (UInt8.toNat_inj.mp h)
    omega
  -- as many digits of the longer one are at least the shorter one
  have hgrow : ∀ (v : Nat) (ds : Bytes), v ≤ valueFrom v ds := by
    intro v ds
    induction ds generalizing v with
    | nil => exact Nat.le_refl v
    | cons e ds ih =>
      rw [valueFrom_cons]
      exact Nat.le_trans (by omega) (ih _)
  have hfront : digitsValue es < valueFrom (d.toNat - 48) (ds.take es.length) := by
    refine valueFrom_lt ?_ hes hpos
    rw [List.length_take, Nat.min_eq_left (Nat.le_of_lt_succ hlength)]
  have hsplit : digitsValue (d :: ds) =
      valueFrom (valueFrom (d.toNat - 48) (ds.take es.length)) (ds.drop es.length) := by
    rw [valueFrom, valueFrom, ← List.foldl_append, List.take_append_drop, digitsValue,
      List.foldl_cons, Nat.mul_zero, Nat.zero_add]
  exact Nat.lt_of_lt_of_le hfront (hsplit ▸ hgrow _ _)

theorem runKey_positive {d : UInt8} (hzero : d ≠ 48) :
    runKey (d :: ds) = 49 :: ((d :: ds).length : Int) :: (d :: ds).map natChar :=
  if_neg (by simpa using hzero)

/-- Numbers are in the order of the keys of their numerals. -/
theorem keyOrder_decimal (m n : Nat) :
    keyOrder (runKey (decimal m)) (runKey (decimal n)) = intOrder m n := by
  rcases Nat.eq_zero_or_pos m with rfl | hm <;> rcases Nat.eq_zero_or_pos n with rfl | hn
  · rw [keyOrder_self, intOrder_self]
  · obtain ⟨e, es, hes, hzero⟩ := head_decimal hn
    rw [hes, runKey_positive hzero, intOrder_lt (Int.ofNat_lt.mpr hn)]
    rfl
  · obtain ⟨d, ds, hds, hzero⟩ := head_decimal hm
    rw [hds, runKey_positive hzero, intOrder_gt (Int.ofNat_lt.mpr hm)]
    rfl
  · obtain ⟨d, ds, hds, hzeroD⟩ := head_decimal hm
    obtain ⟨e, es, hes, hzeroE⟩ := head_decimal hn
    have hdigitsM : ∀ c ∈ d :: ds, isDigit c = true := fun c hc => isDigit_of_mem_decimal (hds ▸ hc)
    have hdigitsN : ∀ c ∈ e :: es, isDigit c = true := fun c hc => isDigit_of_mem_decimal (hes ▸ hc)
    have hvalueM : digitsValue (d :: ds) = m := hds ▸ digitsValue_decimal m
    have hvalueN : digitsValue (e :: es) = n := hes ▸ digitsValue_decimal n
    rw [hds, hes, runKey_positive hzeroD, runKey_positive hzeroE, keyOrder_cons, intOrder_self,
      Ordering.eq_then, keyOrder_cons]
    rcases Nat.lt_trichotomy (d :: ds).length (e :: es).length with hlt | heq | hgt
    · have hvalue := digitsValue_lt_of_length hdigitsM (hdigitsN e (by simp)) hzeroE hlt
      rw [intOrder_lt (Int.ofNat_lt.mpr hlt), intOrder_lt (by omega)]
      rfl
    · have hdigits := keyOrder_digits (v := 0) heq hdigitsM hdigitsN
      rw [heq, intOrder_self, Ordering.eq_then, hdigits, ← hvalueM, ← hvalueN]
      rfl
    · have hvalue := digitsValue_lt_of_length hdigitsN (hdigitsM d (by simp)) hzeroD hgt
      rw [intOrder_gt (Int.ofNat_lt.mpr hgt), intOrder_gt (by omega)]
      rfl

/-! Versions -/

theorem natKey_decimal (n : Nat) {s : Bytes} (hs : s.head?.all fun c => !isDigit c) :
    natKey false (decimal n ++ s) = runKey (decimal n) ++ natKey false s := by
  obtain ⟨d, ds, hds⟩ := List.exists_cons_of_ne_nil (decimal_ne_nil n)
  have hdigits : ∀ c ∈ d :: ds, isDigit c = true := fun c hc => isDigit_of_mem_decimal (hds ▸ hc)
  have hstop : s.takeWhile isDigit = [] ∧ s.dropWhile isDigit = s := by
    cases s with
    | nil => exact ⟨rfl, rfl⟩
    | cons c s =>
      have hc : isDigit c = false := by simpa using hs
      simp [hc]
  have hrest : ∀ c ∈ ds, isDigit c = true := fun c hc => hdigits c (by simp [hc])
  rw [hds, List.cons_append, natKey_digit (hdigits d (by simp)),
    List.takeWhile_append_of_pos hrest, List.dropWhile_append_of_pos hrest, hstop.1, hstop.2,
    List.append_nil]

theorem versionOrder_cons (m n : Nat) (v w : List Nat) :
    versionOrder (m :: v) (n :: w) = (intOrder m n).then (versionOrder v w) :=
  List.compareLex_cons_cons

theorem natKey_dotted (n m : Nat) (rest : List Nat) :
    natKey false (dotted (n :: m :: rest)) =
      runKey (decimal n) ++ 46 :: natKey false (dotted (m :: rest)) := by
  rw [dotted, natKey_decimal n rfl, natKey_other (by decide) (by decide)]
  rfl

theorem natKey_single (n : Nat) : natKey false (dotted [n]) = runKey (decimal n) ++ [0] := by
  have hkey := natKey_decimal n (s := []) rfl
  rwa [List.append_nil, natKey_nil] at hkey

/-- Texts of versions are in the order of the versions. -/
theorem keyOrder_dotted {v w : List Nat} (hv : v ≠ []) (hw : w ≠ []) :
    keyOrder (natKey false (dotted v)) (natKey false (dotted w)) = versionOrder v w := by
  have hdigits : ∀ n, ∀ d ∈ decimal n, isDigit d = true := fun n d hd => isDigit_of_mem_decimal hd
  induction v generalizing w with
  | nil => exact absurd rfl hv
  | cons m v ih =>
    obtain ⟨n, w, rfl⟩ := List.exists_cons_of_ne_nil hw
    rw [versionOrder_cons, ← keyOrder_decimal]
    rcases v with _ | ⟨m', v⟩ <;> rcases w with _ | ⟨n', w⟩
    · rw [natKey_single, natKey_single, keyOrder_runKey (hdigits m) (hdigits n)]
      rfl
    · rw [natKey_single, natKey_dotted, keyOrder_runKey (hdigits m) (hdigits n)]
      rfl
    · rw [natKey_single, natKey_dotted, keyOrder_runKey (hdigits m) (hdigits n)]
      rfl
    · rw [natKey_dotted, natKey_dotted, keyOrder_runKey (hdigits m) (hdigits n), keyOrder_cons,
        intOrder_self, Ordering.eq_then, ih (List.cons_ne_nil _ _) (List.cons_ne_nil _ _)]

theorem zero_notMem_dotted (v : List Nat) : (0 : UInt8) ∉ dotted v := by
  have hdecimal : ∀ n, (0 : UInt8) ∉ decimal n := fun n h =>
    absurd (isDigit_of_mem_decimal h) (by decide)
  induction v using dotted.induct with
  | case1 => simp [dotted]
  | case2 n => simpa [dotted] using hdecimal n
  | case3 n m rest ih => simp [dotted, hdecimal n, ih]

theorem strnatcmp_dotted {v w : List Nat} (hv : v ≠ []) (hw : w ≠ []) :
    strnatcmp (dotted v) (dotted w) = signOf (versionOrder v w) := by
  rw [strnatcmp_eq (zero_notMem_dotted v) (zero_notMem_dotted w), keyOrder_dotted hv hw]

/-! The program's use of the order -/

theorem space_notMem_dotted (v : List Nat) : space ∉ dotted v := by
  have hdecimal : ∀ n, space ∉ decimal n := fun n h =>
    absurd (isDigit_of_mem_decimal h) (by decide)
  induction v using dotted.induct with
  | case1 => simp [dotted]
  | case2 n => simpa [dotted] using hdecimal n
  | case3 n m rest ih =>
    have hdot : space ≠ 46 := by decide
    simp [dotted, hdecimal n, ih, hdot]

/-- What tincd prints: its version, and perhaps more behind a space. -/
def versionOutput (v : List Nat) (more : Option Bytes) : Bytes :=
  ascii "tinc version " ++ dotted v ++ (more.map fun text => space :: text).getD []

theorem tincGetVersion_output (v : List Nat) {more : Option Bytes}
    (hmore : ∀ text ∈ more, (0 : UInt8) ∉ text) :
    tincGetVersion (versionOutput v more) = some (dotted v) := by
  have hzero : (0 : UInt8) ∉ versionOutput v more := by
    have hprefix : (0 : UInt8) ∉ ascii "tinc version " := by decide
    cases more with
    | none => simp [versionOutput, hprefix, zero_notMem_dotted]
    | some text =>
      have hspace : (0 : UInt8) ≠ space := by decide
      simp [versionOutput, hprefix, zero_notMem_dotted, hspace, hmore text rfl]
  have htake : (versionOutput v more).take 13 = ascii "tinc version " := by
    rw [versionOutput, List.append_assoc]
    exact List.take_left' rfl
  have hdrop : (versionOutput v more).drop 13 =
      dotted v ++ (more.map fun text => space :: text).getD [] := by
    rw [versionOutput, List.append_assoc]
    exact List.drop_left' rfl
  rw [tincGetVersion, cstr_eq hzero, htake, if_neg (by simp), hdrop]
  cases more with
  | none =>
    have hsplit : strSplitAt space (dotted v) = (dotted v, none) :=
      strSplitAt_none.mpr ⟨rfl, space_notMem_dotted v⟩
    simp [hsplit]
  | some text =>
    have hsplit : strSplitAt space (dotted v ++ space :: text) = (dotted v, some text) :=
      strSplitAt_some.mpr ⟨rfl, space_notMem_dotted v⟩
    simp [hsplit]

theorem signOf_pos {o : Ordering} : 0 < signOf o ↔ o = .gt := by
  cases o <;> decide

theorem versionAbove_dotted {config : Config} {v w : List Nat} (hv : v ≠ []) (hw : w ≠ [])
    (hversion : config.tincdVersion = some (dotted v)) :
    TincConf.versionAbove config (dotted w) = decide (versionOrder v w = .gt) := by
  simp [TincConf.versionAbove, hversion, strnatcmp_dotted hv hw, signOf_pos]

def sampleConfig : Config where
  peerid := ascii "a"
  networkname := ascii "chaos"
  basePath := ascii "/etc/tinc/chaos"

end ChaosVpn.VersionOrder
