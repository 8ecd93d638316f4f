import ChaosVpn.Settings
import ChaosVpn.StrNatCmp

/-! The end of an old tinc daemon: tinc_get_pid finds a number in a pid file or in
the output of `tinc pid`, and main_terminate_old_tincd sends signals to it. -/

namespace ChaosVpn.OldDaemon
open CStrings Settings StrNatCmp

/-- What the system answers: a file that can be read, the output of a command, and
whether the last kill() finds its process. -/
structure Host where
  readFile : Bytes → Option Bytes
  backticks : Bytes → Bytes
  sigkillDelivered : Bool

inductive Signal
  | sigterm
  | sigkill
  deriving DecidableEq

structure Termination where
  signals : List (Int × Signal)
  unlinked : Option Bytes
  deriving DecidableEq

/-- tinc 1.1 and later are asked for the pid, earlier ones write it into a file. -/
def usesTincctl (config : Config) : Bool :=
  config.tincdVersion.any fun version => 0 < strnatcmp version (ascii "1.1")

/-- The text that the number is read from, unless there is no place to look. -/
def pidText (host : Host) (config : Config) : Option Bytes :=
  if usesTincctl config then
    match config.tincctlBin with
    | none => none
    | some tincctlBin =>
      if tincctlBin.isEmpty then none
      else some (host.backticks
        ((tincctlBin ++ ascii " --net=" ++ config.networkname ++ ascii " pid 2>/dev/null").take 1023))
  else
    match config.tincdPidfile with
    | none => none
    | some tincdPidfile => if tincdPidfile.isEmpty then none else host.readFile tincdPidfile

/-- The result of strtol() is stored in a `bool`, and that in the `pid_t`. -/
def tincGetPid (host : Host) (config : Config) : Int :=
  match pidText host config with
  | none => 0
  | some text =>
    if (cstr text).isEmpty then 0
    else
      let res : Bool := (strtol (cstr text)).1 ≠ 0
      if res then 1 else 0

def mainTerminateOldTincd (host : Host) (config : Config) : Termination :=
  let pid := tincGetPid host config
  if pid = 0 then ⟨[], none⟩
  else
    ⟨[(pid, .sigterm), (pid, .sigkill)],
      if host.sigkillDelivered && strIsNonempty config.tincdPidfile then config.tincdPidfile
      else none⟩

variable {host : Host} {config : Config} {text : Bytes}

theorem tincGetPid_eq (h : pidText host config = some text) :
    tincGetPid host config = if (strtol (cstr text)).1 = 0 then 0 else 1 := by
  unfold tincGetPid
  rw [h]
  by_cases hempty : cstr text = []
  · simp [hempty, show (strtol []).1 = 0 from rfl]
  · simp [hempty]

theorem signals_eq (h : pidText host config = some text) :
    (mainTerminateOldTincd host config).signals =
      if (strtol (cstr text)).1 = 0 then [] else [(1, .sigterm), (1, .sigkill)] := by
  unfold mainTerminateOldTincd
  rw [tincGetPid_eq h]
  split <;> rfl

/-- Without a text to look at nothing is signalled. -/
theorem signals_of_no_text (h : pidText host config = none) :
    (mainTerminateOldTincd host config).signals = [] := by
  simp [mainTerminateOldTincd, tincGetPid, h]

/-- The signals reach the process that the text names only for the numbers 0 and 1. -/
theorem signals_name_iff (h : pidText host config = some text) :
    (∀ s ∈ (mainTerminateOldTincd host config).signals, s.1 = (strtol (cstr text)).1) ↔
      (strtol (cstr text)).1 = 0 ∨ (strtol (cstr text)).1 = 1 := by
  rw [signals_eq h]
  split
  · rename_i hzero
    simp [hzero]
  · rename_i hnonzero
    simp [hnonzero, eq_comm]

/-- A text that starts with a numeral: all digits, and no digit behind them. -/
structure StartsWithNumeral (text ds : Bytes) : Prop where
  nonempty : ds ≠ []
  digits : ∀ d ∈ ds, isDigit d = true
  boundary : ∃ rest, text = ds ++ rest ∧ ∀ x, rest.head? = some x → isDigit x = false

theorem strtol_of_startsWithNumeral {ds : Bytes} (h : StartsWithNumeral text ds)
    (hfits : digitsValue ds < 2 ^ 31) : (strtol (cstr text)).1 = digitsValue ds := by
  obtain ⟨hne, hds, rest, rfl, hrest⟩ := h
  have hnonzero : ∀ d ∈ ds, decide (d ≠ 0) = true := fun d hd => by
    rw [decide_eq_true_eq]
    rintro rfl
    exact absurd (hds 0 hd) (by decide)
  have hcstr : cstr (ds ++ rest) = ds ++ cstr rest := by
    rw [cstr, List.takeWhile_append_of_pos hnonzero]
    rfl
  have hboundary : ∀ x, (cstr rest).head? = some x → isDigit x = false := by
    intro x hx
    cases rest with
    | nil => cases hx
    | cons y ys =>
      by_cases hy : y = 0
      · simp [cstr, hy] at hx
      · exact hrest x (by simpa [cstr, hy] using hx)
  rw [hcstr, strtol_numeral hne hds hboundary]
  have hlong : (digitsValue ds : Int) ≤ longMax := by
    unfold longMax
    omega
  exact min_eq_left hlong

theorem numeral_iff {ds : Bytes} (htext : pidText host config = some text)
    (hnumeral : StartsWithNumeral text ds) (hpos : 0 < digitsValue ds)
    (hfits : digitsValue ds < 2 ^ 31) :
    (tincGetPid host config = digitsValue ds ∧
        ∀ s ∈ (mainTerminateOldTincd host config).signals, s.1 = digitsValue ds) ↔
      digitsValue ds = 1 := by
  have hvalue := strtol_of_startsWithNumeral hnumeral hfits
  have hpid := tincGetPid_eq htext
  have hsignals := signals_name_iff htext
  rw [hvalue] at hpid hsignals
  rw [hpid, hsignals]
  split <;> omega

/-- The pid and the signals are those of a numeral only when it is a one. Whatever the
text, signals go to the number in it only when that is 0 or 1; without a text there
are none. -/
theorem tincGetPid_named_iff (host : Host) (config : Config) :
    (∀ text, pidText host config = some text →
      (∀ ds, StartsWithNumeral text ds → 0 < digitsValue ds → digitsValue ds < 2 ^ 31 →
        ((tincGetPid host config = digitsValue ds ∧
            ∀ s ∈ (mainTerminateOldTincd host config).signals, s.1 = digitsValue ds) ↔
          digitsValue ds = 1)) ∧
      ((∀ s ∈ (mainTerminateOldTincd host config).signals, s.1 = (strtol (cstr text)).1) ↔
        (strtol (cstr text)).1 = 0 ∨ (strtol (cstr text)).1 = 1)) ∧
    (pidText host config = none → (mainTerminateOldTincd host config).signals = []) :=
  ⟨fun _ htext => ⟨fun _ hnumeral hpos hfits => numeral_iff htext hnumeral hpos hfits,
    signals_name_iff htext⟩, signals_of_no_text⟩

/-- tinc 1.0 with the given content in its pid file. -/
def hostWithPidfile (content : Bytes) : Host where
  readFile _ := some content
  backticks _ := []
  sigkillDelivered := true

def pidfileConfig : Config where
  peerid := ascii "here"
  networkname := ascii "chaos"
  basePath := ascii "/etc/tinc/chaos"
  tincdVersion := some (ascii "1.0.36")
  tincdPidfile := some (ascii "/var/run/tinc.chaos.pid")

theorem tincGetPid_kills_init :
    StartsWithNumeral (ascii "1234\n") (ascii "1234") ∧
      pidText (hostWithPidfile (ascii "1234\n")) pidfileConfig = some (ascii "1234\n") ∧
        ¬ (tincGetPid (hostWithPidfile (ascii "1234\n")) pidfileConfig = 1234) ∧
          mainTerminateOldTincd (hostWithPidfile (ascii "1234\n")) pidfileConfig =
            ⟨[(1, .sigterm), (1, .sigkill)], some (ascii "/var/run/tinc.chaos.pid")⟩ :=
  ⟨⟨by decide, by decide, ascii "\n", rfl, fun x hx => by cases hx; rfl⟩, by decide, by decide,
    by decide⟩

theorem tincGetPid_one :
    tincGetPid (hostWithPidfile (ascii "1\n")) pidfileConfig = digitsValue (ascii "1") ∧
      ∀ s ∈ (mainTerminateOldTincd (hostWithPidfile (ascii "1\n")) pidfileConfig).signals,
        s.1 = digitsValue (ascii "1") :=
  (((tincGetPid_named_iff (hostWithPidfile (ascii "1\n")) pidfileConfig).1 (ascii "1\n")
    (by decide)).1 (ascii "1") ⟨by decide, by decide, ascii "\n", rfl, fun x hx => by cases hx; rfl⟩
      (by decide) (by decide)).mpr (by decide)

end ChaosVpn.OldDaemon
