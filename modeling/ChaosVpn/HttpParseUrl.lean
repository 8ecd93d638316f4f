import Mathlib.Algebra.Group.Nat.Defs
import ChaosVpn.HttpReceive
import ChaosVpn.Library.TextLines
import ChaosVpn.Numerals
import ChaosVpn.StringBuffer

/-! http_parseurl: the loop over the characters behind `http://` with its three states,
and the grammar of the URLs that it takes. Memory is taken to suffice. -/

namespace ChaosVpn.HttpParseUrl
open CStrings Numerals StringBuffer HttpReceive TextLines

inductive UrlPart
  | hostname
  | port
  | path

/-- The strings that the loop fills. -/
structure UrlStrings where
  hostname : StructString
  portnum : StructString
  path : StructString

structure ParsedUrl where
  retval : Nat
  hostname : StructString
  port : Int
  path : StructString

def httpScheme : Bytes := ascii "http://"

/-- The loop from one character on. The rest of the path is taken at once. -/
def urlLoop : UrlPart → Bytes → UrlStrings → Nat × UrlStrings
  | _, [], strings => (httpEok, strings)
  | .hostname, c :: rest, strings =>
    if c = colon then
      if stringLength strings.hostname < 1 then (httpEinvurl, strings)
      else urlLoop .port rest strings
    else if c = slash then
      if stringLength strings.hostname < 1 then (httpEinvurl, strings)
      else urlLoop .path rest strings
    else urlLoop .hostname rest { strings with hostname := stringPutc strings.hostname c }
  | .port, c :: rest, strings =>
    if c = slash then urlLoop .path rest strings
    else if c < 48 ∨ c > 57 then (httpEinvurl, strings)
    else urlLoop .port rest { strings with portnum := stringPutc strings.portnum c }
  | .path, c :: rest, strings =>
    (httpEok, { strings with path := stringConcatb strings.path (c :: rest) })

def portOf (portnum : StructString) : Int :=
  match stringGet portnum with
  | some _ => atoi ((stringGet (stringEnsurez portnum)).getD [])
  | none => 80

def httpParseurl (url : Bytes) (hostname : StructString) (port : Int) (path : StructString) :
    ParsedUrl :=
  if url.length < 7 then ⟨httpEinvurl, hostname, port, path⟩
  else if url.take 7 ≠ httpScheme then ⟨httpEinvurl, hostname, port, path⟩
  else
    let (retval, strings) := urlLoop .hostname (url.drop 7)
      ⟨hostname, stringLazyinit, stringConcat path (ascii "/")⟩
    ⟨retval, strings.hostname, if retval = httpEok then portOf strings.portnum else port,
      strings.path⟩

/-! The grammar -/

def portText (digits : Option Bytes) : Bytes := digits.elim [] (colon :: ·)

def pathText (rest : Option Bytes) : Bytes := rest.elim [] (slash :: ·)

/-- `http://` host [`:` digits*] [`/` rest] -/
structure UrlText (url host : Bytes) (digits rest : Option Bytes) : Prop where
  text : url = httpScheme ++ (host ++ (portText digits ++ pathText rest))
  nonempty : host ≠ []
  plain : ∀ c ∈ host, c ≠ colon ∧ c ≠ slash
  numeral : ∀ ds ∈ digits, ∀ d ∈ ds, isDigit d = true

/-- What the parts of the URL are taken for. -/
structure TakenFor (parsed : ParsedUrl) (host : Bytes) (digits rest : Option Bytes) : Prop where
  hostname : content parsed.hostname = host
  path : content parsed.path = slash :: rest.getD []
  noPort : digits.getD [] = [] → parsed.port = 80
  port : digits.getD [] ≠ [] → digitsValue (digits.getD []) < 2 ^ 31 →
    parsed.port = digitsValue (digits.getD [])

/-- The texts of the grammar are accepted and no others, and they are taken apart. -/
structure FollowsGrammar (url : Bytes) (parsed : ParsedUrl) : Prop where
  accepts : parsed.retval = httpEok ↔ ∃ host digits rest, UrlText url host digits rest
  takesApart : ∀ host digits rest, UrlText url host digits rest →
    TakenFor parsed host digits rest

/-! The states of the loop -/

theorem urlLoop_path (rest : Bytes) (strings : UrlStrings) :
    urlLoop .path rest strings =
      (httpEok, { strings with path := stringConcatb strings.path rest }) := by
  cases rest <;> simp [urlLoop, stringConcatb]

theorem stringConcatb_cons (x : StructString) (c : UInt8) (bytes : Bytes) :
    stringConcatb (stringPutc x c) bytes = stringConcatb x (c :: bytes) := by
  cases bytes <;> simp [stringConcatb, stringPutc, content]

theorem urlLoop_hostname {host : Bytes} (h : ∀ c ∈ host, c ≠ colon ∧ c ≠ slash) (tail : Bytes)
    (strings : UrlStrings) :
    urlLoop .hostname (host ++ tail) strings =
      urlLoop .hostname tail
        { strings with hostname := stringConcatb strings.hostname host } := by
  induction host generalizing strings with
  | nil => simp [stringConcatb]
  | cons c host ih =>
    obtain ⟨⟨hcolon, hslash⟩, hrest⟩ := List.forall_mem_cons.mp h
    rw [List.cons_append, urlLoop, if_neg hcolon, if_neg hslash, ih hrest, stringConcatb_cons]

theorem isDigit_iff_not_outside {c : UInt8} : isDigit c = true ↔ ¬ (c < 48 ∨ c > 57) := by
  simp only [isDigit_iff, UInt8.lt_iff_toNat_lt, UInt8.reduceToNat, gt_iff_lt]
  omega

theorem urlLoop_port {digits : Bytes} (h : ∀ d ∈ digits, isDigit d = true) (tail : Bytes)
    (strings : UrlStrings) :
    urlLoop .port (digits ++ tail) strings =
      urlLoop .port tail { strings with portnum := stringConcatb strings.portnum digits } := by
  induction digits generalizing strings with
  | nil => simp [stringConcatb]
  | cons d digits ih =>
    obtain ⟨hd, hrest⟩ := List.forall_mem_cons.mp h
    have hslash : d ≠ slash := by
      rintro rfl
      exact absurd hd (by decide)
    rw [List.cons_append, urlLoop, if_neg hslash, if_neg (isDigit_iff_not_outside.mp hd), ih hrest,
      stringConcatb_cons]

/-- Behind the hostname the loop takes a port and a path. -/
theorem urlLoop_tail {strings : UrlStrings} (hhost : content strings.hostname ≠ [])
    {digits rest : Option Bytes} (hdigits : ∀ ds ∈ digits, ∀ d ∈ ds, isDigit d = true) :
    urlLoop .hostname (portText digits ++ pathText rest) strings =
      (httpEok, { strings with
        portnum := stringConcatb strings.portnum (digits.getD [])
        path := stringConcatb strings.path (rest.getD []) }) := by
  have hlength : ¬ stringLength strings.hostname < 1 := by
    simpa [stringLength] using hhost
  have hmarks : slash ≠ colon := by decide
  cases digits with
  | none =>
    cases rest with
    | none => simp [portText, pathText, urlLoop, stringConcatb]
    | some rest => simp [portText, pathText, urlLoop, hmarks, hlength, urlLoop_path, stringConcatb]
  | some ds =>
    have hds := urlLoop_port (hdigits ds rfl) (pathText rest) strings
    simp only [portText, Option.elim_some, List.cons_append, urlLoop, if_true, if_neg hlength, hds]
    cases rest with
    | none => simp [pathText, urlLoop, stringConcatb]
    | some rest => simp [pathText, urlLoop, urlLoop_path]

theorem portOf_digits {digits : Bytes} (h : ∀ d ∈ digits, isDigit d = true) :
    (digits = [] → portOf (stringConcatb stringLazyinit digits) = 80) ∧
      (digits ≠ [] → digitsValue digits < 2 ^ 31 →
        portOf (stringConcatb stringLazyinit digits) = digitsValue digits) := by
  constructor
  · rintro rfl
    rfl
  · intro hne hfits
    have hcstr : cstr digits = digits := cstr_eq fun hd => absurd (h 0 hd) (by decide)
    have hport : portOf (stringConcatb stringLazyinit digits) = atoi (cstr digits) := by
      simp [stringConcatb, hne, portOf, stringGet, stringEnsurez, content, stringLazyinit]
    rw [hport, hcstr, atoi, strtol_allDigits hne h, toInt32, longMax]
    simp only [Int.bmod_def]
    omega

/-! The whole URL -/

variable {url : Bytes} {hostname path : StructString} {port : Int}

theorem httpParseurl_scheme (chars : Bytes) :
    httpParseurl (httpScheme ++ chars) hostname port path =
      let (retval, strings) := urlLoop .hostname chars
        ⟨hostname, stringLazyinit, stringConcat path (ascii "/")⟩
      ⟨retval, strings.hostname, if retval = httpEok then portOf strings.portnum else port,
        strings.path⟩ := by
  have hlength : httpScheme.length = 7 := by decide
  have htake : (httpScheme ++ chars).take 7 = httpScheme := List.take_left' hlength
  have hdrop : (httpScheme ++ chars).drop 7 = chars := List.drop_left' hlength
  rw [httpParseurl, if_neg (by simp [hlength]), htake, if_neg (not_not.mpr rfl), hdrop]

theorem urlLoop_retval (part : UrlPart) (chars : Bytes) (strings : UrlStrings) :
    (urlLoop part chars strings).1 = httpEok ∨ (urlLoop part chars strings).1 = httpEinvurl := by
  fun_induction urlLoop part chars strings <;> simp_all

theorem httpParseurl_retval :
    (httpParseurl url hostname port path).retval = httpEok ∨
      (httpParseurl url hostname port path).retval = httpEinvurl := by
  unfold httpParseurl
  split
  · exact .inr rfl
  · split
    · exact .inr rfl
    · exact urlLoop_retval _ _ _

theorem httpParseurl_of_urlText {host : Bytes} {digits rest : Option Bytes}
    (hhost : content hostname = []) (hpath : content path = [])
    (h : UrlText url host digits rest) :
    (httpParseurl url hostname port path).retval = httpEok ∧
      TakenFor (httpParseurl url hostname port path) host digits rest := by
  obtain ⟨rfl, hne, hplain, hnumeral⟩ := h
  have hfilled : content (stringConcatb hostname host) = host := by simp [hhost]
  have hdigits : ∀ d ∈ digits.getD [], isDigit d = true := by
    cases digits with
    | none => simp
    | some ds => exact hnumeral ds rfl
  obtain ⟨hnoPort, hport⟩ := portOf_digits hdigits
  rw [httpParseurl_scheme, urlLoop_hostname hplain,
    urlLoop_tail (by rw [hfilled]; exact hne) hnumeral]
  refine ⟨rfl, hfilled, ?_, hnoPort, hport⟩
  simp only [content_stringConcatb, content_stringConcat, hpath, List.nil_append]
  rfl

/-- What the loop accepts is of the grammar, unless there is nothing behind the scheme. -/
theorem urlText_of_accepted {chars : Bytes} {strings : UrlStrings}
    (hhost : content strings.hostname = [])
    (h : (urlLoop .hostname chars strings).1 = httpEok) (hne : chars ≠ []) :
    ∃ host digits rest, UrlText (httpScheme ++ chars) host digits rest := by
  obtain ⟨host, tail, rfl, hplain, htail⟩ := split_while (fun c => c != colon && c != slash) chars
  replace hplain : ∀ c ∈ host, c ≠ colon ∧ c ≠ slash := by simpa using hplain
  rw [urlLoop_hostname hplain] at h
  have hfilled : stringLength (stringConcatb strings.hostname host) = host.length := by
    simp [stringLength, hhost]
  cases tail with
  | nil =>
    exact ⟨host, none, none, by simp [portText, pathText], by simpa using hne, hplain, by simp⟩
  | cons c tail =>
    have hmark : c = colon ∨ c = slash := by
      have hstop := htail c rfl
      simp only [Bool.and_eq_false_iff, bne_eq_false_iff_eq] at hstop
      exact hstop
    have hhostname : host ≠ [] := by
      rintro rfl
      have hzero : stringLength (stringConcatb strings.hostname []) < 1 := by simp [hfilled]
      rcases hmark with rfl | rfl
      · rw [urlLoop, if_pos rfl, if_pos hzero] at h
        cases h
      · rw [urlLoop, if_neg (by decide), if_pos rfl, if_pos hzero] at h
        cases h
    have hlength : ¬ stringLength (stringConcatb strings.hostname host) < 1 := by
      rw [hfilled, Nat.lt_one_iff, List.length_eq_zero_iff]
      exact hhostname
    by_cases hslash : c = slash
    · exact ⟨host, none, some tail, by simp [portText, pathText, hslash], hhostname, hplain,
        by simp⟩
    · obtain rfl := hmark.resolve_right hslash
      obtain ⟨ds, after, rfl, hds, hafter⟩ := split_while isDigit tail
      rw [urlLoop, if_pos rfl, if_neg hlength, urlLoop_port hds] at h
      cases after with
      | nil =>
        exact ⟨host, some ds, none, by simp [portText, pathText], hhostname, hplain,
          by simpa using hds⟩
      | cons x after =>
        by_cases hx : x = slash
        · exact ⟨host, some ds, some after, by simp [portText, pathText, hx], hhostname, hplain,
            by simpa using hds⟩
        · have hdigit : ¬ isDigit x = true := by simp [hafter x rfl]
          rw [urlLoop, if_neg hx, if_pos (not_not.mp (mt isDigit_iff_not_outside.mpr hdigit))] at h
          cases h

theorem UrlText.ne_scheme {host : Bytes} {digits rest : Option Bytes}
    (h : UrlText url host digits rest) : url ≠ httpScheme := by
  rintro rfl
  have hnil := List.self_eq_append_right.mp h.text
  exact h.nonempty (List.append_eq_nil_iff.mp hnil).1

theorem httpParseurl_scheme_accepted :
    (httpParseurl httpScheme hostname port path).retval = httpEok := by
  rw [← List.append_nil httpScheme, httpParseurl_scheme]
  rfl

/-- The loop forgets to ask for a hostname where the URL ends behind the scheme. -/
theorem followsGrammar_iff (url : Bytes) (hostname path : StructString) (port : Int)
    (hhost : content hostname = []) (hpath : content path = []) :
    FollowsGrammar url (httpParseurl url hostname port path) ↔ url ≠ httpScheme := by
  constructor
  · rintro h rfl
    obtain ⟨host, digits, rest, htext⟩ := h.accepts.mp httpParseurl_scheme_accepted
    exact htext.ne_scheme rfl
  · intro hurl
    refine ⟨⟨fun h => ?_, ?_⟩, fun host digits rest h =>
      (httpParseurl_of_urlText hhost hpath h).2⟩
    · unfold httpParseurl at h
      split at h
      · cases h
      · rename_i hlong
        split at h
        · cases h
        · rename_i hscheme
          obtain ⟨chars, rfl⟩ : ∃ chars, url = httpScheme ++ chars :=
            ⟨url.drop 7, by rw [← not_not.mp hscheme, List.take_append_drop]⟩
          have hchars : chars ≠ [] := fun hnil => hurl (by rw [hnil, List.append_nil])
          rw [List.drop_left' (by decide)] at h
          have hempty : content (UrlStrings.mk hostname stringLazyinit
              (stringConcat path (ascii "/"))).hostname = [] := hhost
          exact urlText_of_accepted hempty h hchars
    · rintro ⟨host, digits, rest, h⟩
      exact (httpParseurl_of_urlText hhost hpath h).1

theorem followsGrammar_update :
    FollowsGrammar (ascii "http://vpn.example:8080/update?id=lab")
      (httpParseurl (ascii "http://vpn.example:8080/update?id=lab") stringInit 0 stringInit) :=
  (followsGrammar_iff _ stringInit stringInit 0 rfl rfl).mpr (by decide)

/-- `http://` alone is taken for a URL with the hostname "". -/
theorem hostless_accepted :
    ¬ FollowsGrammar httpScheme (httpParseurl httpScheme stringInit 0 stringInit) := by
  intro h
  obtain ⟨host, digits, rest, htext⟩ := h.accepts.mp httpParseurl_scheme_accepted
  exact htext.ne_scheme rfl

end ChaosVpn.HttpParseUrl
