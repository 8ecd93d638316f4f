import ChaosVpn.Numerals
import ChaosVpn.ParserLines

/-! The port lines of a section: what strtoul() and the cast to 16 bits make of the text, against
the number that the text says. -/

namespace ChaosVpn.PortLines
open CStrings Libc PeerParser ParserLines Numerals

/-- A line that parser_parse_line takes for a port line with this text. -/
def PortLine (token v : Bytes) : Prop :=
  parserCheckConfigitem (strTrim token) (ascii "port=") = some v

instance (token v : Bytes) : Decidable (PortLine token v) := inferInstanceAs (Decidable (_ = _))

/-- The decimal numeral of a port. -/
def Numeral (v : Bytes) (n : Nat) : Prop := 1 ≤ n ∧ n ≤ 65535 ∧ v = decimal n

/-- A numeral is taken for its number, any other text leaves the port as it was. -/
def ReadAs (old : Nat) (v : Bytes) (new : Nat) : Prop :=
  (∀ n, Numeral v n → new = n) ∧ ((∀ n, ¬ Numeral v n) → new = old)

variable {libc : CLibrary}

theorem parserParseLine_port {token v : Bytes} (h : PortLine token v)
    (complete : List PeerConfig) (p : PeerConfig) (keyMode : Bool) :
    parserParseLine libc ⟨complete, some p, keyMode⟩ token =
      ⟨complete, some { p with port := parsePort p.port v }, keyMode⟩ := by
  have hentry : (ascii "port=", fun item (p : PeerConfig) =>
      { p with port := parsePort p.port item }) ∈ configItems libc := by
    simp [configItems]
  exact parserParseLine_checked hentry h complete p keyMode

theorem parsePort_numeral {v : Bytes} {n : Nat} (h : Numeral v n) (old : Nat) :
    parsePort old v = n := by
  obtain ⟨hpos, hlast, rfl⟩ := h
  have hlong : n ≤ ulongMax := Nat.le_trans hlast (by decide)
  have hne : n ≠ ulongMax := by
    unfold ulongMax
    omega
  rw [parsePort, strtoul_decimal hpos hlong, if_pos hne, Nat.mod_eq_of_lt (by omega)]

theorem parsePort_same_iff (old : Nat) (v : Bytes) :
    parsePort old v = old ↔ strtoul v = ulongMax ∨ strtoul v % 65536 = old := by
  unfold parsePort
  split
  · rename_i hne
    rw [or_iff_right hne]
  · rename_i heq
    exact iff_of_true rfl (.inl (not_not.mp heq))

theorem readAs_iff (old : Nat) (v : Bytes) :
    ReadAs old v (parsePort old v) ↔
      (∃ n, Numeral v n) ∨ strtoul v = ulongMax ∨ strtoul v % 65536 = old := by
  by_cases hnumeral : ∃ n, Numeral v n
  · refine iff_of_true ⟨fun n h => parsePort_numeral h old, fun hnone => ?_⟩ (.inl hnumeral)
    obtain ⟨n, hn⟩ := hnumeral
    exact absurd hn (hnone n)
  · rw [or_iff_right hnumeral, ← parsePort_same_iff]
    have hnone := not_exists.mp hnumeral
    exact ⟨fun h => h.2 hnone, fun h => ⟨fun n hn => absurd hn (hnone n), fun _ => h⟩⟩

/-- Exactly the texts that a port line is read as it says, in a section with any peer. -/
theorem portLine_iff {token v : Bytes} (h : PortLine token v) (complete : List PeerConfig)
    (p : PeerConfig) (keyMode : Bool) :
    (∃ p', (parserParseLine libc ⟨complete, some p, keyMode⟩ token).myConfig = some p' ∧
      ReadAs p.port v p'.port) ↔
      (∃ n, Numeral v n) ∨ strtoul v = ulongMax ∨ strtoul v % 65536 = p.port := by
  rw [← readAs_iff, parserParseLine_port h]
  constructor
  · rintro ⟨p', hp', hread⟩
    cases hp'
    exact hread
  · exact fun hread => ⟨_, rfl, hread⟩

/-- A peer with the default port, as after its header. -/
def newPeer : PeerConfig := parserCreateConfig (ascii "gate")

theorem portLine_655 : ∃ p', (parserParseLine plainLibrary ⟨[], some newPeer, false⟩
      (ascii "port=655")).myConfig = some p' ∧ ReadAs 665 (ascii "655") p'.port := by
  have hline : PortLine (ascii "port=655") (ascii "655") := by decide +kernel
  have hnumeral : Numeral (ascii "655") 655 := ⟨by decide, by decide, by decide +kernel⟩
  exact (portLine_iff hline [] newPeer false).mpr (.inl ⟨655, hnumeral⟩)

/-- A number that 16 bits do not hold is cut off. -/
theorem portLine_65537 : PortLine (ascii "port=65537") (ascii "65537") ∧
    (parserParseLine plainLibrary ⟨[], some newPeer, false⟩ (ascii "port=65537")).myConfig =
      some { newPeer with port := 1 } ∧
    ¬ ReadAs newPeer.port (ascii "65537") 1 := by
  have hline : PortLine (ascii "port=65537") (ascii "65537") := by decide +kernel
  have hparsed : parsePort newPeer.port (ascii "65537") = 1 := by decide +kernel
  refine ⟨hline, ?_, fun hread => ?_⟩
  · rw [parserParseLine_port hline, hparsed]
  · have hnone : ∀ n, ¬ Numeral (ascii "65537") n := by
      rintro n ⟨-, hlast, hn⟩
      have hvalue : digitsValue (ascii "65537") = 65537 := by decide +kernel
      rw [hn, digitsValue_decimal] at hvalue
      omega
    have hkept : 1 = newPeer.port := hread.2 hnone
    cases hkept

end ChaosVpn.PortLines
