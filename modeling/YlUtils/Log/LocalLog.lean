import Mathlib.Data.List.Chain
import YlUtils.Text.Decimal

/-! # The local log

Four streams are open at files that carry the date. The log remembers the day of
the month, and opens its files anew when a message comes on another one. So it
misses a change of the date to the same day of another month.
-/

namespace YlUtils

structure Tm where
  tm_year : ℤ
  tm_mon : ℤ
  tm_mday : ℤ
  deriving DecidableEq

namespace LocalLog

inductive Stream
  | debug
  | query
  | error
  | stat
  deriving DecidableEq

def Stream.tail : Stream → Bytes
  | debug => [46, 100, 101, 98, 117, 103, 46, 108, 111, 103]
  | query => [46, 113, 117, 101, 114, 121, 46, 108, 111, 103]
  | error => [46, 101, 114, 114, 111, 114, 46, 108, 111, 103]
  | stat => [46, 115, 116, 97, 116, 46, 108, 111, 103]

end LocalLog

/-- The log, with the path that each of its streams is open at. -/
structure LocalLog where
  mLogDir : Bytes
  mToday : ℤ
  stream : LocalLog.Stream → Option Bytes

namespace LocalLog

def getTodayLogFileName (mLogDir : Bytes) (now : Tm) (fntail : Bytes) : Bytes :=
  mLogDir ++ 47 :: (decimal (1900 + now.tm_year) ++ 95 :: (decimal (1 + now.tm_mon) ++
    95 :: (decimal now.tm_mday ++ fntail)))

def getToday (now : Tm) : ℤ := now.tm_mday

/-- The constructor. -/
def construct (logpath : Bytes) (now : Tm) : LocalLog := ⟨logpath, getToday now, fun _ => none⟩

/-- `fopen` to append, which succeeds, for each stream. -/
def openStreams (log : LocalLog) (now : Tm) : LocalLog :=
  { log with stream := fun st => some (getTodayLogFileName log.mLogDir now st.tail) }

def openAllStream (log : LocalLog) (now : Tm) : LocalLog := openStreams log now

def reOpenAllLog (log : LocalLog) (now : Tm) : Option LocalLog :=
  if log.mToday ≠ getToday now then
    if [Stream.debug, .query, .error, .stat].all fun st => (log.stream st).isSome then
      some { openStreams log now with mToday := getToday now }
    else none
  else some log

/-- The test for a new day with which each function begins. -/
def newDay (log : LocalLog) (now : Tm) : Option LocalLog :=
  if getToday now ≠ log.mToday then reOpenAllLog log now else some log

def append (st : Stream) (log : LocalLog) (logmsg : Bytes) (now : Tm) :
    Option (LocalLog × Bytes × Bytes) := do
  let log ← newDay log now
  let path ← log.stream st
  some (log, path, cstr logmsg ++ [10])

def appQueryLog : LocalLog → Bytes → Tm → Option (LocalLog × Bytes × Bytes) := append .query

def appDebugLog : LocalLog → Bytes → Tm → Option (LocalLog × Bytes × Bytes) := append .debug

def appStatLog : LocalLog → Bytes → Tm → Option (LocalLog × Bytes × Bytes) := append .stat

def appErrorLog : LocalLog → Bytes → Tm → Option (LocalLog × Bytes × Bytes) := append .error

structure Call where
  stream : Stream
  logmsg : Bytes
  now : Tm

def Call.run (c : Call) (log : LocalLog) : Option (LocalLog × Bytes × Bytes) :=
  match c.stream with
  | .debug => appDebugLog log c.logmsg c.now
  | .query => appQueryLog log c.logmsg c.now
  | .error => appErrorLog log c.logmsg c.now
  | .stat => appStatLog log c.logmsg c.now

/-- The calls one after the other: the paths and the texts that are written. -/
def runCalls (log : LocalLog) : List Call → Option (List (Bytes × Bytes))
  | [] => some []
  | c :: calls => do
    let (log, w) ← c.run log
    let ws ← runCalls log calls
    some (w :: ws)

/-- The message of the call in the file of the call's own date. -/
def Call.filed (mLogDir : Bytes) (c : Call) : Bytes × Bytes :=
  (getTodayLogFileName mLogDir c.now c.stream.tail, cstr c.logmsg ++ [10])

variable {dir tail : Bytes} {t t' : Tm} {calls : List Call} {log : LocalLog} {file : Tm}

theorem getTodayLogFileName_inj
    (h : getTodayLogFileName dir t tail = getTodayLogFileName dir t' tail) : t = t' := by
  have hsep : ∀ z, (95 : UInt8) ∉ decimal z := decimal_separator (by decide)
  have hdate := (List.cons.inj (List.append_cancel_left h)).2
  obtain ⟨hyear, hdate⟩ := append_separator_inj (hsep _) (hsep _) hdate
  obtain ⟨hmon, hdate⟩ := append_separator_inj (hsep _) (hsep _) hdate
  have hyear := decimal_injective hyear
  have hmon := decimal_injective hmon
  have hmday := decimal_injective (List.append_cancel_right hdate)
  obtain ⟨year, mon, mday⟩ := t
  obtain ⟨year', mon', mday'⟩ := t'
  simp only [Tm.mk.injEq]
  dsimp only at hyear hmon hmday
  exact ⟨by omega, by omega, hmday⟩

def OpenAt (log : LocalLog) (file : Tm) : Prop :=
  log.stream = fun st => some (getTodayLogFileName log.mLogDir file st.tail)

/-- The next call is on the date that the files carry, or on another day of the month than the one
that is remembered. -/
def Noticed (file : Tm) (mToday : ℤ) (calls : List Call) : Prop :=
  (∀ c ∈ calls.head?, c.now = file ∨ c.now.tm_mday ≠ mToday) ∧
    calls.IsChain fun c c' => c'.now = c.now ∨ c'.now.tm_mday ≠ c.now.tm_mday

theorem noticed_cons {c : Call} {m : ℤ} : Noticed file m (c :: calls) ↔
    (c.now = file ∨ c.now.tm_mday ≠ m) ∧ Noticed c.now c.now.tm_mday calls := by
  unfold Noticed
  cases calls with
  | nil => simp
  | cons c' calls => simp

theorem newDay_spec (h : OpenAt log file) (now : Tm) : ∃ log' file', newDay log now = some log' ∧
    log'.mLogDir = log.mLogDir ∧ OpenAt log' file' ∧ log'.mToday = now.tm_mday ∧
      (file' = now ↔ now = file ∨ now.tm_mday ≠ log.mToday) := by
  unfold newDay
  by_cases hday : now.tm_mday = log.mToday
  · refine ⟨log, file, if_neg (not_not.mpr hday), rfl, h, hday.symm, ?_⟩
    rw [or_iff_left (not_not.mpr hday)]
    exact eq_comm
  · refine ⟨{ openStreams log now with mToday := getToday now }, now, ?_, rfl, rfl, rfl, ?_⟩
    · have hopen : ([Stream.debug, .query, .error, .stat].all fun st => (log.stream st).isSome) =
          true := by
        rw [h]
        rfl
      rw [if_pos (show getToday now ≠ log.mToday from hday), reOpenAllLog,
        if_pos (show log.mToday ≠ getToday now from Ne.symm hday), if_pos hopen]
    · exact ⟨fun _ => .inr hday, fun _ => rfl⟩

theorem Call.run_eq (c : Call) (log : LocalLog) :
    c.run log = append c.stream log c.logmsg c.now := by
  cases hst : c.stream <;> rw [Call.run, hst] <;> rfl

/-- From any state of the log, the messages are filed by their dates exactly if no change of the
date goes unnoticed. -/
theorem runCalls_iff (h : OpenAt log file) (calls : List Call) :
    ∃ writes, runCalls log calls = some writes ∧
      (writes = calls.map (Call.filed log.mLogDir) ↔ Noticed file log.mToday calls) := by
  induction calls generalizing log file with
  | nil => exact ⟨[], rfl, by simp [Noticed]⟩
  | cons c calls ih =>
    obtain ⟨log', file', hday, hdir, hopen, htoday, hfile⟩ := newDay_spec h c.now
    obtain ⟨writes, hwrites, hiff⟩ := ih hopen
    have hrun : c.run log = some (log', getTodayLogFileName log.mLogDir file' c.stream.tail,
        cstr c.logmsg ++ [10]) := by
      rw [Call.run_eq, append, hday, Option.bind_eq_bind, Option.bind_some, hopen, hdir]
      rfl
    refine ⟨(getTodayLogFileName log.mLogDir file' c.stream.tail, cstr c.logmsg ++ [10]) :: writes,
      ?_, ?_⟩
    · simp only [runCalls, hrun, Option.bind_eq_bind, Option.bind_some, hwrites]
    · rw [List.map_cons, List.cons.injEq, ← hdir, hiff, htoday, noticed_cons, ← hfile]
      constructor
      · rintro ⟨hname, hnoticed⟩
        obtain rfl : file' = c.now := getTodayLogFileName_inj (Prod.mk.inj hname).1
        exact ⟨rfl, hnoticed⟩
      · rintro ⟨rfl, hnoticed⟩
        exact ⟨rfl, hnoticed⟩

/-- After `openAllStream` each message is written to the file of its own date exactly if each call
is on the date of the one before it, or on another day of the month; for the first call, on the
date of `openAllStream`, or on another day of the month than the constructor. -/
theorem runCalls_filed_iff (logpath : Bytes) (constructed opened : Tm) (calls : List Call) :
    ∃ writes, runCalls (openAllStream (construct logpath constructed) opened) calls =
        some writes ∧
      (writes = calls.map (Call.filed logpath) ↔
        (∀ c ∈ calls.head?, c.now = opened ∨ c.now.tm_mday ≠ constructed.tm_mday) ∧
          calls.IsChain fun c c' => c'.now = c.now ∨ c'.now.tm_mday ≠ c.now.tm_mday) :=
  runCalls_iff (show OpenAt (openAllStream (construct logpath constructed) opened) opened from rfl)
    calls

/-- A message on the fifth of February goes to the file of the fifth of January. -/
theorem runCalls_month_missed :
    runCalls (openAllStream (construct [46] ⟨106, 0, 5⟩) ⟨106, 0, 5⟩)
        [⟨.debug, [97], ⟨106, 1, 5⟩⟩] ≠
      some ([(⟨.debug, [97], ⟨106, 1, 5⟩⟩ : Call)].map (Call.filed [46])) := by
  decide

end LocalLog

end YlUtils
