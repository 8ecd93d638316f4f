import ChaosVpn.AddrMask

/-! Subnet matching. An entry contains a network when its own network covers all
of the other's addresses; addrmask_match looks for such an entry but lets the
first entry with the right address bits decide. -/

namespace ChaosVpn.SubnetMatch
open CStrings Libc PrefixNetworks AddrMask

def addresses (e : AddrInfo) : Set Address := network (bits e.netBytes) e.maskShift

/-- Same family, and under the mask of `e` the same bits. -/
def SharesBits (e q : AddrInfo) : Prop :=
  e.addrFamily = q.addrFamily ∧ List.zipWith (· &&& ·) q.netBytes e.maskBytes = e.netBytes

def Contains (e q : AddrInfo) : Prop := SharesBits e q ∧ e.maskShift ≤ q.maskShift

instance (e q : AddrInfo) : Decidable (SharesBits e q) := inferInstanceAs (Decidable (_ ∧ _))

instance (e q : AddrInfo) : Decidable (Contains e q) := inferInstanceAs (Decidable (_ ∧ _))

variable {libc : CLibrary} {entries : List AddrInfo} {addr : Bytes} {e q : AddrInfo}

theorem bits_netBytes_length (e : AddrInfo) :
    (bits e.netBytes).length = addrBitCount e.addrFamily := by
  rw [bits_length, e.netBytes_length, addrBitCount_eq]

/-- The masked comparison looks at the bits of the prefix. -/
theorem masked_eq_iff (hfamily : e.addrFamily = q.addrFamily) :
    List.zipWith (· &&& ·) q.netBytes e.maskBytes = e.netBytes ↔
      (bits q.netBytes).take e.maskShift = (bits e.netBytes).take e.maskShift := by
  have hlen : (bits q.netBytes).length = (bits e.netBytes).length := by
    rw [bits_netBytes_length, bits_netBytes_length, hfamily]
  have hmask : bits e.maskBytes = prefixMask (bits e.netBytes).length e.maskShift := by
    rw [e.bits_maskBytes, bits_netBytes_length]
  have hshift : e.maskShift ≤ (bits e.netBytes).length := by
    rw [bits_netBytes_length]
    exact e.maskShift_le
  rw [← zipWith_and_prefixMask_eq_iff hlen hshift, ← hmask,
    ← bits_zipWith_and _ _ (by rw [q.netBytes_length, e.maskBytes_length, hfamily]),
    ← bits_zipWith_and _ _ (by rw [e.netBytes_length, e.maskBytes_length]), e.net_masked]
  exact ⟨fun h => by rw [h], fun h => bits_injective h⟩

theorem contains_iff_subset (hfamily : e.addrFamily = q.addrFamily) :
    Contains e q ↔ addresses q ⊆ addresses e := by
  have hlen : (bits q.netBytes).length = (bits e.netBytes).length := by
    rw [bits_netBytes_length, bits_netBytes_length, hfamily]
  have hshift : e.maskShift ≤ (bits e.netBytes).length := by
    rw [bits_netBytes_length]
    exact e.maskShift_le
  rw [addresses, addresses, network_subset_iff hlen hshift, ← masked_eq_iff hfamily]
  exact ⟨fun h => ⟨h.2, h.1.2⟩, fun h => ⟨⟨hfamily, h.2⟩, h.1⟩⟩

/-- The comparison without the mask is the masked one with a full mask. -/
theorem addressMatches_iff : addressMatches e q = true ↔ SharesBits e q := by
  unfold addressMatches
  rw [Bool.and_eq_true, decide_eq_true_eq]
  refine and_congr_right fun hfamily => ?_
  split
  · exact beq_iff_eq
  · rename_i hfull
    have hshift : e.maskShift = addrBitCount e.addrFamily :=
      Nat.le_antisymm e.maskShift_le (Nat.not_lt.mp hfull)
    have hlen : (bits q.netBytes).length = (bits e.netBytes).length := by
      rw [bits_netBytes_length, bits_netBytes_length, hfamily]
    rw [beq_iff_eq, masked_eq_iff hfamily, hshift, ← bits_netBytes_length, List.take_length,
      ← hlen, List.take_length]
    exact ⟨fun h => by rw [h], fun h => bits_injective h⟩

/-! The search -/

/-- Of the entries that share the bits of `q`, the first one contains `q`. -/
def FirstFits (entries : List AddrInfo) (q : AddrInfo) : Prop :=
  ∃ before e after, entries = before ++ e :: after ∧ (∀ x ∈ before, ¬ SharesBits x q) ∧
    Contains e q

theorem addrmaskMatch_eq_some (hq : addrmaskParse libc addr = some q) :
    addrmaskMatch libc entries addr = some e ↔
      ∃ before after, entries = before ++ e :: after ∧ (∀ x ∈ before, ¬ SharesBits x q) ∧
        Contains e q := by
  have hnot : ∀ x, (!addressMatches x q) = true ↔ ¬ SharesBits x q := fun x => by
    rw [← addressMatches_iff, Bool.not_eq_true, Bool.not_eq_true']
  simp only [addrmaskMatch, hq, Option.bind_some, Option.filter_eq_some_iff,
    List.find?_eq_some_iff_append, decide_eq_true_eq, Nat.not_lt, addressMatches_iff, hnot]
  constructor
  · rintro ⟨⟨hshares, before, after, hentries, hbefore⟩, hle⟩
    exact ⟨before, after, hentries, hbefore, hshares, hle⟩
  · rintro ⟨before, after, hentries, hbefore, hshares, hle⟩
    exact ⟨⟨hshares, before, after, hentries, hbefore⟩, hle⟩

theorem addrmaskMatch_isSome (hq : addrmaskParse libc addr = some q) :
    (addrmaskMatch libc entries addr).isSome = true ↔ FirstFits entries q := by
  rw [Option.isSome_iff_exists, FirstFits]
  simp only [addrmaskMatch_eq_some hq]
  constructor
  · rintro ⟨e, before, after, h⟩
    exact ⟨before, e, after, h⟩
  · rintro ⟨before, e, after, h⟩
    exact ⟨e, before, after, h⟩

/-- What addrmask_match returns is an entry that contains the network asked for. -/
theorem addrmaskMatch_contains (hq : addrmaskParse libc addr = some q)
    (h : addrmaskMatch libc entries addr = some e) : e ∈ entries ∧ Contains e q := by
  obtain ⟨before, after, rfl, -, hcontains⟩ := (addrmaskMatch_eq_some hq).mp h
  exact ⟨by simp, hcontains⟩

theorem FirstFits.exists_contains (h : FirstFits entries q) : ∃ e ∈ entries, Contains e q := by
  obtain ⟨before, e, after, rfl, -, hcontains⟩ := h
  exact ⟨e, by simp, hcontains⟩

/-- Some order of the entries puts a given one first. -/
theorem perm_cons_of_mem (h : e ∈ entries) :
    ∃ rest, (e :: rest).Perm entries := by
  obtain ⟨before, after, rfl⟩ := List.append_of_mem h
  exact ⟨before ++ after, List.perm_middle.symm⟩

theorem firstFits_cons (h : SharesBits e q) {rest : List AddrInfo} :
    FirstFits (e :: rest) q ↔ e.maskShift ≤ q.maskShift := by
  constructor
  · rintro ⟨before, x, after, hsplit, hbefore, -, hle⟩
    cases before with
    | nil => exact (List.cons.inj hsplit).1 ▸ hle
    | cons y before =>
      obtain ⟨rfl, -⟩ := List.cons.inj hsplit
      exact absurd h (hbefore e (by simp))
  · exact fun hle => ⟨[], e, rest, rfl, by simp, h, hle⟩

/-- No entry contains `q`, or all entries that share its bits do. -/
def OrderFree (entries : List AddrInfo) (q : AddrInfo) : Prop :=
  (∀ e ∈ entries, ¬ Contains e q) ∨ ∀ e ∈ entries, SharesBits e q → Contains e q

theorem firstFits_of_all_fit (hex : ∃ e ∈ entries, Contains e q)
    (hall : ∀ e ∈ entries, SharesBits e q → Contains e q) : FirstFits entries q := by
  induction entries with
  | nil => simp at hex
  | cons x rest ih =>
    by_cases hx : SharesBits x q
    · exact (firstFits_cons hx).mpr (hall x (by simp) hx).2
    · obtain ⟨e, hmem, hcontains⟩ := hex
      have hne : e ≠ x := by
        rintro rfl
        exact hx hcontains.1
      obtain ⟨before, y, after, rfl, hbefore, hfits⟩ :=
        ih ⟨e, by simpa [hne] using hmem, hcontains⟩ fun e he => hall e (by simp [he])
      exact ⟨x :: before, y, after, rfl, by simpa [hx] using hbefore, hfits⟩

theorem orderFree_iff :
    (∀ entries', entries'.Perm entries → (FirstFits entries' q ↔ FirstFits entries q)) ↔
      OrderFree entries q := by
  constructor
  · intro hfree
    by_contra hnot
    simp only [OrderFree, not_or, not_forall, not_not, exists_prop] at hnot
    obtain ⟨⟨e, he, hcontains⟩, x, hx, hshares, hnot⟩ := hnot
    obtain ⟨rest, hrest⟩ := perm_cons_of_mem he
    obtain ⟨others, hothers⟩ := perm_cons_of_mem hx
    have hfits := (hfree _ hrest).mp ((firstFits_cons hcontains.1).mpr hcontains.2)
    exact hnot ⟨hshares, (firstFits_cons hshares).mp ((hfree _ hothers).mpr hfits)⟩
  · rintro (hnone | hall) entries' hperm
    · have hnot : ∀ l : List AddrInfo, l.Perm entries → ¬ FirstFits l q := fun l hl h => by
        obtain ⟨e, he, hcontains⟩ := h.exists_contains
        exact hnone e (hl.mem_iff.mp he) hcontains
      exact iff_of_false (hnot _ hperm) (hnot _ (List.Perm.refl _))
    · constructor
      · intro h
        obtain ⟨e, he, hcontains⟩ := h.exists_contains
        exact firstFits_of_all_fit ⟨e, hperm.mem_iff.mp he, hcontains⟩ hall
      · intro h
        obtain ⟨e, he, hcontains⟩ := h.exists_contains
        exact firstFits_of_all_fit ⟨e, hperm.mem_iff.mpr he, hcontains⟩
          fun x hx => hall x (hperm.mem_iff.mp hx)

/-- addrmask_match decides containment exactly when no entry contains the network or
the first one to share its bits does, and its answer is the same for every order of
the entries exactly when they are order free. -/
theorem addrmaskMatch_decides_iff (libc : CLibrary) (entries : List AddrInfo) (addr : Bytes)
    (q : AddrInfo) (hq : addrmaskParse libc addr = some q) :
    (((addrmaskMatch libc entries addr).isSome = true ↔ ∃ e ∈ entries, Contains e q) ↔
        (∀ e ∈ entries, ¬ Contains e q) ∨ FirstFits entries q) ∧
      ((∀ entries', entries'.Perm entries →
          ((addrmaskMatch libc entries' addr).isSome = true ↔
            (addrmaskMatch libc entries addr).isSome = true)) ↔ OrderFree entries q) ∧
      ∀ e, addrmaskMatch libc entries addr = some e →
        e ∈ entries ∧ Contains e q ∧ addresses q ⊆ addresses e := by
  simp only [addrmaskMatch_isSome hq]
  refine ⟨?_, orderFree_iff, ?_⟩
  · constructor
    · intro h
      by_cases hex : ∃ e ∈ entries, Contains e q
      · exact .inr (h.mpr hex)
      · exact .inl (by simpa using hex)
    · rintro (hnone | hfits)
      · exact ⟨fun h => h.exists_contains, fun ⟨e, he, hc⟩ => absurd hc (hnone e he)⟩
      · exact iff_of_true hfits hfits.exists_contains
  · intro e he
    obtain ⟨hmem, hcontains⟩ := addrmaskMatch_contains hq he
    exact ⟨hmem, hcontains, (contains_iff_subset hcontains.1.1).mp hcontains⟩

/-- A network inside another one, both given in the order that hides the wider one. -/
def nestedEntries : List AddrInfo :=
  [ascii "10.1.0.0/24", ascii "10.0.0.0/8"].filterMap (addrmaskParse plainLibrary)

def middleNetwork : AddrInfo :=
  (addrmaskParse plainLibrary (ascii "10.1.0.0/16")).get (by decide)

theorem addrmaskMatch_nested_missed :
    addrmaskParse plainLibrary (ascii "10.1.0.0/16") = some middleNetwork ∧
      ¬ ((addrmaskMatch plainLibrary nestedEntries (ascii "10.1.0.0/16")).isSome = true ↔
          ∃ e ∈ nestedEntries, Contains e middleNetwork) ∧
        (addrmaskMatch plainLibrary nestedEntries.reverse (ascii "10.1.0.0/16")).isSome = true :=
  ⟨(Option.some_get _).symm, by decide, by decide⟩

theorem addrmaskMatch_nested_found :
    (addrmaskMatch plainLibrary nestedEntries.reverse (ascii "10.1.0.0/16")).isSome = true ↔
      ∃ e ∈ nestedEntries.reverse, Contains e middleNetwork :=
  (addrmaskMatch_decides_iff plainLibrary nestedEntries.reverse (ascii "10.1.0.0/16") middleNetwork
    (Option.some_get _).symm).1.mpr
      (.inr ⟨[], _, nestedEntries.reverse.tail, rfl, by simp, by decide⟩)

end ChaosVpn.SubnetMatch
