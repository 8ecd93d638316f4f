import Mathlib.Data.Set.Basic
import Mathlib.Data.List.Basic
import Mathlib.Tactic.IntervalCases

/-! Networks as prefixes of addresses. An address is its bits from the most
significant one on; a network is the set of addresses that share a prefix with a
given one. Masks of bytes and the inclusion of networks are related through the
bits of a byte list. -/

namespace PrefixNetworks

abbrev Address := List Bool

/-- The addresses that agree with `net` in their first `p` bits. -/
def network (net : Address) (p : Nat) : Set Address :=
  {a | a.length = net.length ∧ a.take p = net.take p}

theorem self_mem_network (net : Address) (p : Nat) : net ∈ network net p := ⟨rfl, rfl⟩

theorem take_of_take {n n' : Address} {p p' : Nat} (hp : p ≤ p') (h : n.take p' = n'.take p') :
    n.take p = n'.take p := by
  have := congrArg (List.take p) h
  simpa [List.take_take, Nat.min_eq_left hp] using this

/-- A network lies inside another one exactly when its prefix extends the other's. -/
theorem network_subset_iff {n n' : Address} {p p' : Nat} (hlen : n'.length = n.length)
    (hp : p ≤ n.length) :
    network n' p' ⊆ network n p ↔ p ≤ p' ∧ n'.take p = n.take p := by
  constructor
  · intro hsub
    have hself := hsub (self_mem_network n' p')
    refine ⟨?_, hself.2⟩
    by_contra hlt
    have hlt : p' < p := Nat.lt_of_not_le hlt
    have hin : p' < n'.length := by omega
    let flipped := n'.set p' (!n'[p'])
    have hflipped : flipped ∈ network n' p' := by
      refine ⟨by simp [flipped], ?_⟩
      rw [List.take_set_of_le (Nat.le_refl p')]
    have hagree : flipped.take p = n'.take p := (hsub hflipped).2.trans hself.2.symm
    have hbit : flipped[p']? = n'[p']? := by
      rw [← List.getElem?_take_of_lt hlt, hagree, List.getElem?_take_of_lt hlt]
    simp [flipped, hin] at hbit
  · rintro ⟨hle, htake⟩ a ⟨ha, hpre⟩
    exact ⟨ha.trans hlen, (take_of_take hle hpre).trans htake⟩

/-! Masks -/

def prefixMask (width p : Nat) : Address :=
  List.replicate p true ++ List.replicate (width - p) false

theorem getElem?_prefixMask {width p i : Nat} (hi : i < width) :
    (prefixMask width p)[i]? = some (decide (i < p)) := by
  unfold prefixMask
  by_cases hp : i < p
  · rw [List.getElem?_append_left (by simpa using hp), List.getElem?_replicate_of_lt hp]
    simp [hp]
  · rw [List.getElem?_append_right (by simpa using hp), List.length_replicate,
      List.getElem?_replicate_of_lt (by omega)]
    simp [hp]

theorem zipWith_and_replicate_true (a : Address) :
    List.zipWith and a (List.replicate a.length true) = a := by
  induction a with
  | nil => rfl
  | cons b a ih => simp [List.replicate_succ, ih]

theorem zipWith_and_replicate_false (a : Address) :
    List.zipWith and a (List.replicate a.length false) = List.replicate a.length false := by
  induction a with
  | nil => rfl
  | cons b a ih => simp [List.replicate_succ, ih]

theorem zipWith_and_prefixMask {a : Address} {p : Nat} (hp : p ≤ a.length) :
    List.zipWith and a (prefixMask a.length p) =
      a.take p ++ List.replicate (a.length - p) false := by
  have hsplit : List.zipWith and (a.take p ++ a.drop p) (prefixMask a.length p) = _ :=
    List.zipWith_append (by simp [hp])
  have hhead := zipWith_and_replicate_true (a.take p)
  have htail := zipWith_and_replicate_false (a.drop p)
  rw [List.length_take, Nat.min_eq_left hp] at hhead
  rw [List.length_drop] at htail
  rwa [List.take_append_drop, hhead, htail] at hsplit

theorem zipWith_and_prefixMask_eq_iff {a n : Address} {p : Nat} (hlen : a.length = n.length)
    (hp : p ≤ n.length) :
    List.zipWith and a (prefixMask n.length p) = List.zipWith and n (prefixMask n.length p) ↔
      a.take p = n.take p := by
  rw [zipWith_and_prefixMask hp, ← hlen, zipWith_and_prefixMask (hlen ▸ hp)]
  exact ⟨fun h => List.append_cancel_right h, fun h => by rw [h]⟩

/-! Bytes -/

def byteBits (b : UInt8) : List Bool := (List.range 8).map b.toBitVec.getMsbD

def bits (bytes : List UInt8) : Address := bytes.flatMap byteBits

@[simp] theorem byteBits_length (b : UInt8) : (byteBits b).length = 8 := by simp [byteBits]

@[simp] theorem bits_length (bytes : List UInt8) : (bits bytes).length = 8 * bytes.length := by
  induction bytes with
  | nil => rfl
  | cons b bytes ih => simp_all [bits]; omega

@[simp] theorem bits_cons (b : UInt8) (bytes : List UInt8) :
    bits (b :: bytes) = byteBits b ++ bits bytes := rfl

theorem bits_append (a b : List UInt8) : bits (a ++ b) = bits a ++ bits b :=
  List.flatMap_append

theorem bits_take (bytes : List UInt8) (n : Nat) :
    bits (bytes.take n) = (bits bytes).take (8 * n) := by
  induction bytes generalizing n with
  | nil => simp [bits]
  | cons b bytes ih =>
    cases n with
    | zero => simp [bits]
    | succ n =>
      have hwidth : 8 * (n + 1) = (byteBits b).length + 8 * n := by simp; omega
      rw [List.take_succ_cons, bits_cons, bits_cons, ih, hwidth, List.take_length_add_append]

theorem bits_drop (bytes : List UInt8) (n : Nat) :
    bits (bytes.drop n) = (bits bytes).drop (8 * n) := by
  have hbytes := bits_append (bytes.take n) (bytes.drop n)
  rw [List.take_append_drop, bits_take] at hbytes
  have hbits := List.take_append_drop (8 * n) (bits bytes)
  exact (List.append_cancel_left (hbits.trans hbytes)).symm

theorem byteBits_injective {a b : UInt8} (h : byteBits a = byteBits b) : a = b := by
  apply UInt8.toBitVec_inj.mp
  apply BitVec.eq_of_getMsbD_eq
  intro i hi
  have hbit := congrArg (fun l => l[i]?) h
  simpa [byteBits, hi] using hbit

theorem bits_injective {a b : List UInt8} (h : bits a = bits b) : a = b := by
  induction a generalizing b with
  | nil => cases b with
    | nil => rfl
    | cons y b => exact absurd (congrArg List.length h) (by simp; omega)
  | cons x a ih => cases b with
    | nil => simpa using congrArg List.length h
    | cons y b =>
      rw [bits_cons, bits_cons] at h
      obtain ⟨hhead, htail⟩ := List.append_inj h (by simp)
      rw [byteBits_injective hhead, ih htail]

theorem byteBits_and (a b : UInt8) :
    byteBits (a &&& b) = List.zipWith and (byteBits a) (byteBits b) := by
  simp [byteBits, List.zipWith_map, List.zipWith_self]

theorem bits_zipWith_and (a b : List UInt8) (hlen : a.length = b.length) :
    bits (List.zipWith (· &&& ·) a b) = List.zipWith and (bits a) (bits b) := by
  induction a generalizing b with
  | nil => rfl
  | cons x a ih => cases b with
    | nil => cases hlen
    | cons y b =>
      simp only [List.zipWith_cons_cons, bits_cons]
      rw [List.zipWith_append (by simp), byteBits_and, ih b (by simpa using hlen)]

@[simp] theorem byteBits_zero : byteBits 0 = List.replicate 8 false := by decide

@[simp] theorem byteBits_ones : byteBits 255 = List.replicate 8 true := by decide

theorem bits_replicate_zero (n : Nat) :
    bits (List.replicate n 0) = List.replicate (8 * n) false := by
  induction n with
  | zero => rfl
  | succ n ih => rw [List.replicate_succ, bits_cons, ih, byteBits_zero,
      List.replicate_append_replicate, Nat.mul_succ, Nat.add_comm]

theorem bits_replicate_ones (n : Nat) :
    bits (List.replicate n 255) = List.replicate (8 * n) true := by
  induction n with
  | zero => rfl
  | succ n ih => rw [List.replicate_succ, bits_cons, ih, byteBits_ones,
      List.replicate_append_replicate, Nat.mul_succ, Nat.add_comm]

/-- A byte whose low bits are cleared by a shifted mask keeps its high ones. -/
theorem byteBits_clear (b : UInt8) {r : Nat} (hr : 0 < r) (hr' : r < 8) :
    byteBits (b &&& (255 : UInt8) <<< UInt8.ofNat (8 - r)) =
      (byteBits b).take r ++ List.replicate (8 - r) false := by
  have hones : byteBits ((255 : UInt8) <<< UInt8.ofNat (8 - r)) = prefixMask 8 r := by
    interval_cases r <;> decide
  have hmask := zipWith_and_prefixMask (a := byteBits b) (p := r) (by simp; omega)
  rw [byteBits_length] at hmask
  rw [byteBits_and, hones, hmask]

end PrefixNetworks
