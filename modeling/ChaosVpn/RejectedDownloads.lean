import ChaosVpn.FetchAndApply

/-! Downloads that are rejected. The next request asks for what is newer than the
start of the last successful transfer, also when its content was then refused. -/

namespace ChaosVpn.RejectedDownloads
open CStrings StringBuffer Libc Settings HttpReceive RequestConfig FetchAndApply

/-- There was no download, or it passes all checks, or the time does not change. -/
def KeepsTime (config : Config) (env : RequestEnv) (ifmodifiedsince : Int) : Prop :=
  (env.httpGet ifmodifiedsince).retval ≠ httpEok ∨
    Accepted config env (env.httpGet ifmodifiedsince).archive stringInit ∨
      env.startfetchtime = ifmodifiedsince

variable {libc : CLibrary} {config : Config} {tmpconf : Option Bytes}

theorem mainRequestConfig_keeps_iff {env : RequestEnv} {ifmodifiedsince : Int}
    {request : RequestResult}
    (h : mainRequestConfig config env ifmodifiedsince stringInit = some request) :
    (request.retval = -1 → request.ifmodifiedsince = ifmodifiedsince) ↔
      KeepsTime config env ifmodifiedsince := by
  unfold mainRequestConfig at h
  dsimp only at h
  split at h
  · rename_i hfail
    have hkeeps : KeepsTime config env ifmodifiedsince := .inl hfail
    split at h
    · obtain rfl := Option.some.inj h
      exact iff_of_true (fun _ => rfl) hkeeps
    · split at h
      · cases h
      · obtain rfl := Option.some.inj h
        exact iff_of_true (fun _ => rfl) hkeeps
  · rename_i hok
    obtain rfl := Option.some.inj h
    simp only [KeepsTime, hok, false_or]
    rcases openArchive_retval config env (env.httpGet ifmodifiedsince).archive stringInit with
      ⟨hone, haccepted⟩ | ⟨hminus, hrejected⟩
    · simp [hone, haccepted]
    · simp [hminus, hrejected]

/-- The text was transferred and not accepted. -/
def Rejected (c : Call) : Prop :=
  (c.input.httpGet c.pre.ifmodifiedsince).retval = httpEok ∧ c.out.requested = -1

def NotModified (env : RequestEnv) (ifmodifiedsince : Int) : Prop :=
  (env.httpGet ifmodifiedsince).retval = httpEsrverr ∧ (env.httpGet ifmodifiedsince).httpres = 304

/-- The server of a file answers 304 exactly when the file is not newer than the time
it is told, which is left out when it is 0. -/
def AnswersByDate (mtime : Int) (env : RequestEnv) : Prop :=
  ∀ ifmodifiedsince, NotModified env ifmodifiedsince ↔ ifmodifiedsince ≠ 0 ∧ mtime ≤ ifmodifiedsince

/-- A rejected download leaves the time at which it was started. -/
theorem rejected_time {c : Call}
    (hstep : mainFetchAndApplyConfig libc config c.pre c.input = some (c.out, c.post))
    (h : Rejected c) : c.post.ifmodifiedsince = c.input.startfetchtime := by
  obtain ⟨request, hrequest, hout⟩ := mainFetchAndApplyConfig_cases hstep
  rw [hout.ifmodifiedsince]
  simp only [mainRequestConfig, h.1, ne_eq, not_true_eq_false, if_false, Option.some.injEq]
    at hrequest
  rw [← hrequest]

theorem notModified_after {c c' : Call} {before : List Call} {s : Client} {mtime : Int}
    (run : Run libc config (startClient tmpconf) (before ++ [c]) s)
    (hrejected : Rejected c) (hserver : AnswersByDate mtime c'.input.toRequestEnv)
    (hnext : c'.pre = s) :
    ¬ NotModified c'.input.toRequestEnv c'.pre.ifmodifiedsince ↔
      c.input.startfetchtime = 0 ∨ c.input.startfetchtime < mtime := by
  obtain ⟨-, hstep⟩ := run.split (rfl : before ++ [c] = before ++ c :: [])
  rw [hserver, hnext, run.last_post, rejected_time hstep hrejected]
  omega

/-- A failed request keeps the time exactly when it did not reject a download. In a
run, a rejected download is asked for again exactly when the file is newer than the
start of that request, and where every call keeps the time it always is. -/
theorem rejected_iff (libc : CLibrary) (config : Config) (tmpconf : Option Bytes)
    (t : List Call) (s : Client) (run : Run libc config (startClient tmpconf) t s) :
    (∀ env ifmodifiedsince request,
        mainRequestConfig config env ifmodifiedsince stringInit = some request →
          ((request.retval = -1 → request.ifmodifiedsince = ifmodifiedsince) ↔
            KeepsTime config env ifmodifiedsince)) ∧
      (∀ before c c' after mtime, t = before ++ c :: c' :: after → Rejected c →
        AnswersByDate mtime c'.input.toRequestEnv →
          (¬ NotModified c'.input.toRequestEnv c'.pre.ifmodifiedsince ↔
            c.input.startfetchtime = 0 ∨ c.input.startfetchtime < mtime)) ∧
      ((∀ c ∈ t, KeepsTime config c.input.toRequestEnv c.pre.ifmodifiedsince) →
        ∀ before c c' after mtime mtime', t = before ++ c :: c' :: after → Rejected c →
          AnswersByDate mtime c.input.toRequestEnv → AnswersByDate mtime' c'.input.toRequestEnv →
            mtime ≤ mtime' → ¬ NotModified c'.input.toRequestEnv c'.pre.ifmodifiedsince) := by
  have hafter : ∀ before c c' after mtime, t = before ++ c :: c' :: after → Rejected c →
      AnswersByDate mtime c'.input.toRequestEnv →
        (¬ NotModified c'.input.toRequestEnv c'.pre.ifmodifiedsince ↔
          c.input.startfetchtime = 0 ∨ c.input.startfetchtime < mtime) := by
    intro before c c' after mtime ht hrejected hserver
    have hrun := (run.split (show t = (before ++ [c]) ++ c' :: after by simpa using ht)).1
    exact notModified_after hrun hrejected hserver rfl
  refine ⟨fun _ _ _ => mainRequestConfig_keeps_iff, hafter, ?_⟩
  intro hall before c c' after mtime mtime' ht hrejected hserver hserver' hle
  rw [hafter before c c' after mtime' ht hrejected hserver']
  have hstep := (run.split ht).2
  obtain ⟨request, hrequest, hout⟩ := mainFetchAndApplyConfig_cases hstep
  have hsame := (mainRequestConfig_keeps_iff hrequest).mpr (hall c (by simp [ht]))
    (hout.requested_eq ▸ hrejected.2)
  rw [← hout.ifmodifiedsince, rejected_time hstep hrejected] at hsame
  have hfresh : ¬ NotModified c.input.toRequestEnv c.pre.ifmodifiedsince := fun h =>
    absurd (hrejected.1.symm.trans h.1) (by decide)
  rw [hserver] at hfresh
  omega

/-- A client with a key and a server whose file of the time 900 is no archive. -/
def junkEnv (startfetchtime : Int) : Env where
  startfetchtime := startfetchtime
  httpGet ifmodifiedsince :=
    if ifmodifiedsince ≠ 0 ∧ 900 ≤ ifmodifiedsince then ⟨httpEsrverr, 304, []⟩
    else ⟨httpEok, 200, ascii "junk"⟩
  ssl := noSsl
  zlib := ⟨false, fun _ => []⟩
  loadSucceeds := true
  save := .written
  cleanupSucceeds := true
  writeSucceeds _ := true

def keyConfig : Config := { rawConfig with masterdataSignkey := some (ascii "key") }

theorem junkEnv_answersByDate (startfetchtime : Int) :
    AnswersByDate 900 (junkEnv startfetchtime).toRequestEnv := by
  intro ifmodifiedsince
  by_cases h : ifmodifiedsince ≠ 0 ∧ 900 ≤ ifmodifiedsince
  · simp [NotModified, junkEnv, h]
  · simp only [NotModified, junkEnv, h, iff_false]
    exact fun hfail => absurd hfail.1 (by decide)

theorem rejected_not_asked_again :
    ∃ first second s,
      Run plainLibrary keyConfig (startClient none) [first, second] s ∧ Rejected first ∧
        first.post.ifmodifiedsince ≠ first.pre.ifmodifiedsince ∧
          AnswersByDate 900 second.input.toRequestEnv ∧
            NotModified second.input.toRequestEnv second.pre.ifmodifiedsince :=
  ⟨_, _, _, Runs.run_of_execute (show Runs.execute _ _ [junkEnv 1000, junkEnv 1060] = _ from rfl),
    ⟨rfl, rfl⟩, by decide, junkEnv_answersByDate 1060, by decide, by decide⟩

theorem rejected_asked_again :
    ∃ first second s,
      Run plainLibrary keyConfig (startClient none) [first, second] s ∧ Rejected first ∧
        ¬ NotModified second.input.toRequestEnv second.pre.ifmodifiedsince := by
  have run : Run plainLibrary keyConfig (startClient none) _ _ :=
    Runs.run_of_execute (show Runs.execute _ _ [junkEnv 800, junkEnv 860] = _ from rfl)
  exact ⟨_, _, _, run, ⟨rfl, rfl⟩,
    ((rejected_iff plainLibrary keyConfig none _ _ run).2.1 [] _ _ [] 900 rfl ⟨rfl, rfl⟩
      (junkEnv_answersByDate 860)).mpr (.inr (by decide))⟩

end ChaosVpn.RejectedDownloads
