import YlUtils.Maps.UniqueMap
import YlUtils.Text.Decimal

/-! # The log of a process and its threads

The process has an entry in the map, and each thread that logs has one. Whether the
process log is open is told by the name of the process, which is set before the file
is opened.
-/

namespace YlUtils

namespace SingleLog

/-- A `FILE`: one of the standard streams, one that the log opens, or one of the callers. -/
inductive File
  | stdout
  | stderr
  | own (n : ℕ)
  | passed (n : ℕ)
  deriving DecidableEq

def File.isOwn : File → Bool
  | own _ => true
  | _ => false

inductive ELogLevel
  | none
  | error
  | debug
  | warning
  | info

inductive ELogMode
  | processMode
  | threadMode
  | other
  deriving DecidableEq

structure TLogInfo where
  mFile : File
  mMode : ELogMode
  mFileName : Bytes
  mThreadName : Bytes

end SingleLog

structure SingleLog where
  mLogDir : Bytes
  mLogLevel : SingleLog.ELogLevel
  mProcessName : Bytes
  mLogMap : UniqueMap ℕ SingleLog.TLogInfo

namespace SingleLog

def new : SingleLog := ⟨[46, 47], .none, [], .empty⟩

def setLogDir (log : SingleLog) (logDir : Bytes) : SingleLog := { log with mLogDir := logDir }

def nameOrNull : Option Bytes → Bytes
  | none => [110, 117, 108, 108]
  | some name => cstr name

/-- The path of a log, whose file name begins with `P_` or `T_`. -/
def logPath (mLogDir start name : Bytes) (id : ℕ) : Bytes :=
  mLogDir ++ start ++ name ++ 95 :: (decimalNat id ++ [46, 108, 111, 103])

/-- The stream that is passed, or what comes of `fopen`: a stream, or the text of `errno`. -/
def openFile (out : Option File) (fopen : Except Bytes File) : Except Bytes File :=
  match out with
  | some f => .ok f
  | none => fopen

/-- What `openProcessLog` leaves and returns, what it writes to `cerr`, and the path that it tries
to open. -/
structure Opened where
  log : SingleLog
  ret : Bool
  cerr : Bytes
  tried : Option Bytes

def openProcessLog (log : SingleLog) (pid self : ℕ) (proname : Option Bytes) (level : ELogLevel)
    (out : Option File) (fopen : Except Bytes File) : Opened :=
  if log.mProcessName ≠ [] then ⟨log, true, [], none⟩
  else
    let log := { log with mProcessName := nameOrNull proname, mLogLevel := level }
    let path := logPath log.mLogDir [47, 80, 95] log.mProcessName pid
    let tried := if out = none then some (cstr path) else none
    match openFile out fopen with
    | .error e =>
      ⟨log, false, [111, 112, 101, 110, 32, 102, 105, 108, 101, 32] ++ path ++ [32, 58, 32] ++ e ++
        [10], tried⟩
    | .ok f =>
      let tLogInfo : TLogInfo := ⟨f, .processMode, path, log.mProcessName⟩
      ⟨{ log with mLogMap := (log.mLogMap.insert self tLogInfo).insert pid tLogInfo }, true, [],
        tried⟩

def openThreadLog (log : SingleLog) (pid self : ℕ) (threadName : Option Bytes) (mode : ELogMode)
    (out : Option File) (fopen : Except Bytes File) : SingleLog × Bool :=
  if (log.mLogMap.find self).isSome then (log, true)
  else
    match mode with
    | .processMode =>
      match log.mLogMap.find pid with
      | none => (log, false)
      | some info =>
        ({ log with mLogMap :=
            log.mLogMap.insert self { info with mThreadName := nameOrNull threadName } }, true)
    | .threadMode =>
      let path := logPath log.mLogDir [47, 84, 95] (nameOrNull threadName) self
      match openFile out fopen with
      | .error _ => (log, false)
      | .ok f =>
        ({ log with mLogMap :=
            log.mLogMap.insert self ⟨f, .threadMode, path, nameOrNull threadName⟩ }, true)
    | .other => (log, false)

/-- `closeThreadLog`, called by the thread `self`, and the stream that it closes. -/
def closeThreadLog (log : SingleLog) (self : ℕ) : SingleLog × List File :=
  match log.mLogMap.find self with
  | none => (log, [])
  | some info =>
    ({ log with mLogMap := log.mLogMap.erase self },
      if info.mMode = .threadMode ∧ info.mFile ≠ .stdout ∧ info.mFile ≠ .stderr then [info.mFile]
      else [])

/-- The body of the loop of the destructor, which remembers the streams it has closed. -/
def closeEntry (deleted : List File) (e : ℕ × TLogInfo) : List File :=
  if e.2.mFile = .stdout ∨ e.2.mFile = .stderr then deleted
  else if e.2.mFile ∉ deleted then deleted ++ [e.2.mFile]
  else deleted

def destroy (log : SingleLog) : List File := log.mLogMap.entries.foldl closeEntry []

structure Call where
  self : ℕ
  proname : Option Bytes
  level : ELogLevel
  out : Option File
  fopen : Except Bytes File

def Call.run (c : Call) (pid : ℕ) (log : SingleLog) : Opened :=
  log.openProcessLog pid c.self c.proname c.level c.out c.fopen

def Call.name (c : Call) : Bytes := nameOrNull c.proname

/-- A stream is passed, or can be opened. -/
def Call.opens (c : Call) : Bool := (openFile c.out c.fopen).isOk

def runCalls (pid : ℕ) (log : SingleLog) (calls : List Call) : SingleLog :=
  calls.foldl (fun log c => (c.run pid log).log) log

def Registered (pid : ℕ) (log : SingleLog) : Prop :=
  ∃ info, log.mLogMap.find pid = some info ∧ info.mMode = .processMode

/-- The call returns true only with an entry for the process, and after it has failed another one
tries to open the file. -/
def Honest (pid : ℕ) (log : SingleLog) (c : Call) : Prop :=
  ((c.run pid log).ret = true → Registered pid (c.run pid log).log) ∧
  ((c.run pid log).ret = false → ∀ d : Call, d.out = none →
    (d.run pid (c.run pid log).log).tried.isSome)

/-- The entries are those of processes, and if the name is set there is one for this process. -/
structure Good (pid : ℕ) (log : SingleLog) : Prop where
  processMode : ∀ e ∈ log.mLogMap.entries, e.2.mMode = .processMode
  registered : log.mProcessName ≠ [] → Registered pid log

section Calls

variable {pid : ℕ} {log : SingleLog} {c : Call}

theorem run_of_named (h : log.mProcessName ≠ []) : c.run pid log = ⟨log, true, [], none⟩ :=
  if_pos h

theorem run_of_unnamed (pid : ℕ) (h : log.mProcessName = []) :
    (c.run pid log).ret = c.opens ∧ (c.run pid log).log.mProcessName = c.name ∧
      (c.opens = false → (c.run pid log).log.mLogMap = log.mLogMap) ∧
      (c.opens = true → ∃ info : TLogInfo, info.mMode = .processMode ∧
        (c.run pid log).log.mLogMap = (log.mLogMap.insert c.self info).insert pid info) := by
  unfold Call.opens Call.run openProcessLog
  rw [if_neg (not_not.mpr h)]
  cases openFile c.out c.fopen with
  | error e => exact ⟨rfl, rfl, fun _ => rfl, fun ho => by cases ho⟩
  | ok f => exact ⟨rfl, rfl, fun ho => (by cases ho), fun _ => ⟨_, rfl, rfl⟩⟩

theorem tried_iff (hout : c.out = none) :
    (c.run pid log).tried.isSome = true ↔ log.mProcessName = [] := by
  by_cases h : log.mProcessName = []
  · unfold Call.run openProcessLog
    rw [if_neg (not_not.mpr h)]
    cases hf : openFile c.out c.fopen <;> simp [hout, h]
  · rw [run_of_named h]
    simp [h]

theorem good_of_opens (hG : Good pid log) (h : log.mProcessName = []) (ho : c.opens = true) :
    Good pid (c.run pid log).log ∧ Registered pid (c.run pid log).log := by
  obtain ⟨-, -, -, hentries⟩ := run_of_unnamed (c := c) pid h
  obtain ⟨info, hinfo, hmap⟩ := hentries ho
  have hmode : ∀ e ∈ (c.run pid log).log.mLogMap.entries, e.2.mMode = .processMode := by
    intro e he
    rw [hmap] at he
    rcases UniqueMap.mem_insert he with he | rfl
    · rcases UniqueMap.mem_insert he with he | rfl
      · exact hG.processMode e he
      · exact hinfo
    · exact hinfo
  have hfind : ((c.run pid log).log.mLogMap.find pid).isSome = true := by
    rw [hmap]
    exact UniqueMap.isSome_find_insert _ _ _
  obtain ⟨info', hinfo'⟩ := Option.isSome_iff_exists.mp hfind
  have hreg : Registered pid (c.run pid log).log :=
    ⟨info', hinfo', hmode (pid, info') (UniqueMap.find_eq_some_iff.mp hinfo')⟩
  exact ⟨⟨hmode, fun _ => hreg⟩, hreg⟩

theorem honest_iff (hG : Good pid log) :
    Honest pid log c ↔ (c.opens = false → c.name ≠ [] → log.mProcessName ≠ []) := by
  by_cases h : log.mProcessName = []
  · obtain ⟨hret, hname, -⟩ := run_of_unnamed (c := c) pid h
    unfold Honest
    rw [hret]
    cases ho : c.opens with
    | true =>
      refine iff_of_true ⟨fun _ => (good_of_opens hG h ho).2, ?_⟩ ?_
      · exact fun hfalse => by cases hfalse
      · exact fun hfalse => by cases hfalse
    | false =>
      constructor
      · rintro ⟨-, hagain⟩ - hne
        have htried := (tried_iff rfl).mp (hagain rfl ⟨0, none, .none, none, .error []⟩ rfl)
        rw [hname] at htried
        exact absurd htried hne
      · intro hnamed
        have hempty : c.name = [] := by
          by_contra hne
          exact hnamed rfl hne h
        refine ⟨fun htrue => ?_, fun _ d hd => ?_⟩
        · cases htrue
        · rw [tried_iff hd, hname, hempty]
  · constructor
    · exact fun _ _ _ => h
    · intro _
      unfold Honest
      rw [run_of_named h]
      refine ⟨fun _ => hG.registered h, fun hfalse => ?_⟩
      cases hfalse

theorem good_run (hG : Good pid log) (hc : Honest pid log c) : Good pid (c.run pid log).log ∧
    ((c.run pid log).log.mProcessName ≠ [] ↔
      log.mProcessName ≠ [] ∨ (c.opens = true ∧ c.name ≠ [])) := by
  by_cases h : log.mProcessName = []
  · obtain ⟨-, hname, hmap, -⟩ := run_of_unnamed (c := c) pid h
    cases ho : c.opens with
    | true =>
      refine ⟨(good_of_opens hG h ho).1, ?_⟩
      rw [hname]
      simp [h]
    | false =>
      have hempty : c.name = [] := by
        by_contra hne
        exact (honest_iff hG).mp hc ho hne h
      rw [hempty] at hname
      refine ⟨⟨?_, fun hne => absurd hname hne⟩, ?_⟩
      · rw [hmap ho]
        exact hG.processMode
      · simp [hname, h]
  · rw [run_of_named h]
    exact ⟨hG, by simp [h]⟩

end Calls

theorem forall_place_cons {α : Type} {P : List α → α → Prop} {x : α} {xs : List α} :
    (∀ l c, l ++ [c] <+: x :: xs → P l c) ↔ P [] x ∧ ∀ l c, l ++ [c] <+: xs → P (x :: l) c := by
  constructor
  · intro h
    refine ⟨h [] x (by simp), fun l c hl => h (x :: l) c ?_⟩
    exact List.cons_prefix_cons.mpr ⟨rfl, hl⟩
  · rintro ⟨hx, hxs⟩ l c hl
    cases l with
    | nil =>
      obtain ⟨rfl, -⟩ := List.cons_prefix_cons.mp hl
      exact hx
    | cons y l =>
      obtain ⟨rfl, hrest⟩ := List.cons_prefix_cons.mp hl
      exact hxs l c hrest

/-- The calls of a run are honest as long as none of them gives a name and fails to open the file
before another one has given a name and opened it. -/
theorem honest_runs_iff {pid : ℕ} {log : SingleLog} (hG : Good pid log) (calls : List Call) :
    (∀ l c, l ++ [c] <+: calls → Honest pid (runCalls pid log l) c) ↔
      ∀ l c, l ++ [c] <+: calls → c.opens = false → c.name ≠ [] →
        log.mProcessName ≠ [] ∨ ∃ d ∈ l, d.opens = true ∧ d.name ≠ [] := by
  induction calls generalizing log with
  | nil => simp
  | cons c calls ih =>
    rw [forall_place_cons, forall_place_cons]
    have hfirst : Honest pid (runCalls pid log []) c ↔ (c.opens = false → c.name ≠ [] →
        log.mProcessName ≠ [] ∨ ∃ d ∈ ([] : List Call), d.opens = true ∧ d.name ≠ []) := by
      rw [show runCalls pid log [] = log from rfl, honest_iff hG]
      simp
    rw [← hfirst]
    refine and_congr_right fun hc => ?_
    obtain ⟨hG', hname⟩ := good_run hG hc
    refine (ih hG').trans ?_
    simp only [hname, List.mem_cons, exists_eq_or_imp, or_assoc]

/-- From a log as it is constructed: all calls of a run are honest exactly if each that gives a name
and fails to open the file comes after one that gave a name and opened it. -/
theorem openProcessLog_honest_iff (pid : ℕ) (logDir : Bytes) (calls : List Call) :
    (∀ l c, l ++ [c] <+: calls → Honest pid (runCalls pid (new.setLogDir logDir) l) c) ↔
      ∀ l c, l ++ [c] <+: calls → c.opens = false → c.name ≠ [] →
        ∃ d ∈ l, d.opens = true ∧ d.name ≠ [] := by
  have hG : Good pid (new.setLogDir logDir) := ⟨fun e he => (by cases he), fun h => absurd rfl h⟩
  rw [honest_runs_iff hG]
  have hnot : ¬(new.setLogDir logDir).mProcessName ≠ [] := not_not.mpr rfl
  simp only [hnot, false_or]

def refusedTwice : List Call :=
  [⟨7, some [112], .info, none, .error []⟩, ⟨7, some [112], .info, none, .error []⟩]

theorem openProcessLog_dishonest :
    ¬ (∀ l c, l ++ [c] <+: refusedTwice → Honest 1 (runCalls 1 new l) c) ∧
    ∃ c d, refusedTwice = [c, d] ∧ (c.run 1 new).ret = false ∧
      (d.run 1 (runCalls 1 new [c])).ret = true ∧
      (d.run 1 (runCalls 1 new [c])).tried = none ∧
      (d.run 1 (runCalls 1 new [c])).log.mLogMap.entries = [] := by
  refine ⟨fun h => ?_, _, _, rfl, rfl, rfl, rfl, rfl⟩
  obtain ⟨info, hinfo, -⟩ := (h [_] _ (List.prefix_refl refusedTwice)).1 rfl
  cases hinfo

end SingleLog

end YlUtils
