import YlUtils.Concurrency.Schedule
import YlUtils.Log.SingleLog

/-! # The streams of the log

A thread that logs in its own mode closes its stream as it closes its log, whoever
else has it. So streams are closed once, and not while they are in use, as long as no
two entries share a stream that is closed in this way.
-/

namespace YlUtils.SingleLog

structure State where
  log : SingleLog
  opened : ℕ
  closed : List File

def start (logDir : Bytes) : State := ⟨new.setLogDir logDir, 0, []⟩

inductive Act
  | openProcessLog (self : ℕ) (proname : Option Bytes) (level : ELogLevel) (out : Option File)
      (fopen : Except Bytes Unit)
  | openThreadLog (self : ℕ) (threadName : Option Bytes) (mode : ELogMode) (out : Option File)
      (fopen : Except Bytes Unit)
  | closeThreadLog (self : ℕ)

/-- What is passed is a stream of the callers, and open. -/
def State.Passes (s : State) (out : Option File) : Prop :=
  ∀ f ∈ out, f.isOwn = false ∧ f ∉ s.closed

instance (s : State) (out : Option File) : Decidable (s.Passes out) :=
  inferInstanceAs (Decidable (∀ f ∈ out, _))

/-- A file that is opened gives a new stream. -/
def State.fopen (s : State) (r : Except Bytes Unit) : Except Bytes File :=
  r.map fun _ => .own s.opened

def step (pid : ℕ) (s : State) : Act → Outcome (State × List Empty)
  | .openProcessLog self proname level out r =>
    if s.Passes out then
      .ok (⟨(s.log.openProcessLog pid self proname level out (s.fopen r)).log, s.opened + 1,
        s.closed⟩, [])
    else .blocked
  | .openThreadLog self threadName mode out r =>
    if s.Passes out then
      .ok (⟨(s.log.openThreadLog pid self threadName mode out (s.fopen r)).1, s.opened + 1,
        s.closed⟩, [])
    else .blocked
  | .closeThreadLog self =>
    .ok (⟨(s.log.closeThreadLog self).1, s.opened, s.closed ++ (s.log.closeThreadLog self).2⟩, [])

/-- No entry refers to a stream that is closed, and no stream is closed twice, the destructor's
included. -/
def Safe (s : State) : Prop :=
  (∀ e ∈ s.log.mLogMap.entries, e.2.mFile ∉ s.closed) ∧ (s.closed ++ s.log.destroy).Nodup

/-- A thread log whose stream is closed with it does not share the stream with another entry. -/
def Unshared (s : State) : Act → Prop
  | .closeThreadLog self => ∀ info, s.log.mLogMap.find self = some info →
      info.mMode = .threadMode → info.mFile ≠ .stdout → info.mFile ≠ .stderr →
        ∀ e ∈ s.log.mLogMap.entries, e.1 ≠ self → e.2.mFile ≠ info.mFile
  | _ => True

def Numbered (s : State) : Prop :=
  (∀ e ∈ s.log.mLogMap.entries, ∀ n, e.2.mFile = .own n → n < s.opened) ∧
    ∀ n, .own n ∈ s.closed → n < s.opened

section Entries

variable {log : SingleLog} {pid self : ℕ} {out : Option File} {fopen : Except Bytes File}
  {deleted : List File} {e : ℕ × TLogInfo} {f : File} {entries : List (ℕ × TLogInfo)}

theorem closeEntry_nodup (h : deleted.Nodup) : (closeEntry deleted e).Nodup := by
  unfold closeEntry
  split
  · exact h
  · split
    · next hf =>
      rw [List.nodup_append_comm]
      exact List.nodup_cons.mpr ⟨hf, h⟩
    · exact h

theorem mem_closeEntry (h : f ∈ closeEntry deleted e) : f ∈ deleted ∨ e.2.mFile = f := by
  unfold closeEntry at h
  split at h
  · exact .inl h
  · split at h
    · rw [List.mem_append, List.mem_singleton] at h
      exact h.imp_right Eq.symm
    · exact .inl h

theorem foldl_closeEntry_nodup (h : deleted.Nodup) : (entries.foldl closeEntry deleted).Nodup := by
  induction entries generalizing deleted with
  | nil => exact h
  | cons e entries ih => exact ih (closeEntry_nodup h)

theorem mem_foldl_closeEntry (h : f ∈ entries.foldl closeEntry deleted) :
    f ∈ deleted ∨ ∃ e ∈ entries, e.2.mFile = f := by
  induction entries generalizing deleted with
  | nil => exact .inl h
  | cons e entries ih =>
    rcases ih h with hf | ⟨e', he', hf⟩
    · rcases mem_closeEntry hf with hf | hf
      · exact .inl hf
      · exact .inr ⟨e, List.mem_cons_self, hf⟩
    · exact .inr ⟨e', List.mem_cons_of_mem e he', hf⟩

theorem destroy_nodup : log.destroy.Nodup := foldl_closeEntry_nodup List.nodup_nil

theorem mem_destroy (h : f ∈ log.destroy) : ∃ e ∈ log.mLogMap.entries, e.2.mFile = f :=
  (mem_foldl_closeEntry h).resolve_left List.not_mem_nil

theorem mem_openProcessLog {proname : Option Bytes} {level : ELogLevel}
    (h : e ∈ (log.openProcessLog pid self proname level out fopen).log.mLogMap.entries) :
    e ∈ log.mLogMap.entries ∨ openFile out fopen = .ok e.2.mFile := by
  unfold openProcessLog at h
  split at h
  · exact .inl h
  · cases hf : openFile out fopen with
    | error r =>
      rw [hf] at h
      exact .inl h
    | ok f =>
      rw [hf] at h
      rcases UniqueMap.mem_insert h with h | rfl
      · rcases UniqueMap.mem_insert h with h | rfl
        · exact .inl h
        · exact .inr rfl
      · exact .inr rfl

theorem mem_openThreadLog {threadName : Option Bytes} {mode : ELogMode}
    (h : e ∈ (log.openThreadLog pid self threadName mode out fopen).1.mLogMap.entries) :
    (∃ e' ∈ log.mLogMap.entries, e'.2.mFile = e.2.mFile) ∨
      openFile out fopen = .ok e.2.mFile := by
  unfold openThreadLog at h
  split at h
  · exact .inl ⟨e, h, rfl⟩
  · cases mode with
    | processMode =>
      cases hp : log.mLogMap.find pid with
      | none =>
        simp only [hp] at h
        exact .inl ⟨e, h, rfl⟩
      | some info =>
        simp only [hp] at h
        rcases UniqueMap.mem_insert h with h | rfl
        · exact .inl ⟨e, h, rfl⟩
        · exact .inl ⟨(pid, info), UniqueMap.find_eq_some_iff.mp hp, rfl⟩
    | threadMode =>
      cases hf : openFile out fopen with
      | error r =>
        simp only [hf] at h
        exact .inl ⟨e, h, rfl⟩
      | ok f =>
        simp only [hf] at h
        rcases UniqueMap.mem_insert h with h | rfl
        · exact .inl ⟨e, h, rfl⟩
        · exact .inr rfl
    | other => exact .inl ⟨e, h, rfl⟩

end Entries

section Steps

variable {pid : ℕ} {s : State} {out : Option File} {r : Except Bytes Unit} {f : File}

theorem safe_iff : Safe s ↔
    (∀ e ∈ s.log.mLogMap.entries, e.2.mFile ∉ s.closed) ∧ s.closed.Nodup := by
  unfold Safe
  refine and_congr_right fun hopen => ?_
  rw [List.nodup_append]
  refine ⟨fun h => h.1, fun h => ⟨h, destroy_nodup, ?_⟩⟩
  rintro f hf g hg rfl
  obtain ⟨e, he, hef⟩ := mem_destroy hg
  exact hopen e he (hef ▸ hf)

theorem openFile_spec (hN : Numbered s) (hout : s.Passes out)
    (h : openFile out (s.fopen r) = .ok f) :
    f ∉ s.closed ∧ ∀ n, f = .own n → n < s.opened + 1 := by
  cases out with
  | some g =>
    obtain rfl : g = f := Except.ok.inj h
    obtain ⟨hown, hclosed⟩ := hout g rfl
    refine ⟨hclosed, ?_⟩
    rintro n rfl
    cases hown
  | none =>
    cases r with
    | error e => cases h
    | ok u =>
      obtain rfl : .own s.opened = f := Except.ok.inj h
      refine ⟨fun hclosed => Nat.lt_irrefl _ (hN.2 _ hclosed), ?_⟩
      rintro n ⟨⟩
      exact Nat.lt_succ_self _

/-- The entries of a log that was opened: each has the stream of another one, or the one that is
passed or opened. -/
def Taken (s : State) (out : Option File) (r : Except Bytes Unit) (log' : SingleLog) : Prop :=
  ∀ e ∈ log'.mLogMap.entries, (∃ e' ∈ s.log.mLogMap.entries, e'.2.mFile = e.2.mFile) ∨
    openFile out (s.fopen r) = .ok e.2.mFile

theorem opened_numbered {log' : SingleLog} (hN : Numbered s) (hout : s.Passes out)
    (hmem : Taken s out r log') : Numbered ⟨log', s.opened + 1, s.closed⟩ := by
  refine ⟨fun e he n hn => ?_, fun n hn => Nat.lt_succ_of_lt (hN.2 n hn)⟩
  rcases hmem e he with ⟨e', he', hf⟩ | hf
  · exact Nat.lt_succ_of_lt (hN.1 e' he' n (hf.trans hn))
  · exact (openFile_spec hN hout hf).2 n hn

theorem opened_safe {log' : SingleLog} (hS : Safe s) (hN : Numbered s) (hout : s.Passes out)
    (hmem : Taken s out r log') : Safe ⟨log', s.opened + 1, s.closed⟩ := by
  obtain ⟨hopen, hnodup⟩ := safe_iff.mp hS
  refine safe_iff.mpr ⟨fun e he => ?_, hnodup⟩
  rcases hmem e he with ⟨e', he', hf⟩ | hf
  · rw [← hf]
    exact hopen e' he'
  · exact (openFile_spec hN hout hf).1

theorem closeThreadLog_spec (log : SingleLog) (self : ℕ) :
    (∀ e, e ∈ (log.closeThreadLog self).1.mLogMap.entries ↔
      e ∈ log.mLogMap.entries ∧ e.1 ≠ self) ∧
    (log.closeThreadLog self).2.Nodup ∧
    ∀ f, f ∈ (log.closeThreadLog self).2 ↔ ∃ info, log.mLogMap.find self = some info ∧
      info.mMode = .threadMode ∧ info.mFile ≠ .stdout ∧ info.mFile ≠ .stderr ∧ f = info.mFile := by
  unfold closeThreadLog
  cases hfind : log.mLogMap.find self with
  | none =>
    refine ⟨fun e => ⟨fun he => ⟨he, ?_⟩, And.left⟩, List.nodup_nil, by simp⟩
    rintro rfl
    exact UniqueMap.find_eq_none_iff.mp hfind (List.mem_map_of_mem he)
  | some info =>
    refine ⟨fun e => UniqueMap.mem_erase, ?_, fun f => ?_⟩
    · dsimp only
      split
      · exact List.nodup_singleton _
      · exact List.nodup_nil
    · dsimp only
      split
      · next hc => simp [hc]
      · next hc =>
        refine iff_of_false List.not_mem_nil ?_
        rintro ⟨info', ⟨⟩, hmode, hout, herr, -⟩
        exact hc ⟨hmode, hout, herr⟩

theorem mem_closed {log : SingleLog} {self : ℕ} (hf : f ∈ (log.closeThreadLog self).2) :
    ∃ e ∈ log.mLogMap.entries, e.1 = self ∧ e.2.mFile = f := by
  obtain ⟨info, hfind, -, -, -, rfl⟩ := ((closeThreadLog_spec log self).2.2 f).mp hf
  exact ⟨(self, info), UniqueMap.find_eq_some_iff.mp hfind, rfl, rfl⟩

theorem closed_numbered (hN : Numbered s) (self : ℕ) :
    (step pid s (.closeThreadLog self)).Holds fun (s', _) => Numbered s' := by
  refine ⟨fun e he => ?_, fun n hn => ?_⟩
  · exact hN.1 e (((closeThreadLog_spec s.log self).1 e).mp he).1
  · rcases List.mem_append.mp hn with hn | hn
    · exact hN.2 n hn
    · obtain ⟨e, he, -, hef⟩ := mem_closed hn
      exact hN.1 e he n hef

/-- To close a log keeps the streams safe exactly if its stream is not shared. -/
theorem closed_safe_iff (hS : Safe s) (self : ℕ) :
    ((step pid s (.closeThreadLog self)).Holds fun (s', _) => Safe s') ↔
      Unshared s (.closeThreadLog self) := by
  obtain ⟨hfiles, hnodup⟩ := safe_iff.mp hS
  obtain ⟨hmem, hfs, hclosed⟩ := closeThreadLog_spec s.log self
  simp only [step, Outcome.holds_ok, safe_iff, Unshared]
  constructor
  · rintro ⟨hopen, -⟩ info hinfo hmode hout herr e he hne hshared
    refine hopen e ((hmem e).mpr ⟨he, hne⟩) (List.mem_append_right _ ?_)
    exact (hclosed _).mpr ⟨info, hinfo, hmode, hout, herr, hshared⟩
  · intro hunshared
    refine ⟨fun e he hin => ?_, List.nodup_append.mpr ⟨hnodup, hfs, ?_⟩⟩
    · obtain ⟨he, hne⟩ := (hmem e).mp he
      rcases List.mem_append.mp hin with hf | hf
      · exact hfiles e he hf
      · obtain ⟨info, hinfo, hmode, hout, herr, hshared⟩ := (hclosed _).mp hf
        exact hunshared info hinfo hmode hout herr e he hne hshared
    · rintro f hf g hg rfl
      obtain ⟨e, he, -, hef⟩ := mem_closed hg
      exact hfiles e he (hef ▸ hf)

theorem taken_openProcessLog {self : ℕ} {proname : Option Bytes} {level : ELogLevel} :
    Taken s out r (s.log.openProcessLog pid self proname level out (s.fopen r)).log :=
  fun e he => (mem_openProcessLog he).imp_left fun he => ⟨e, he, rfl⟩

theorem step_numbered (hN : Numbered s) (a : Act) :
    (step pid s a).Holds fun (s', _) => Numbered s' := by
  cases a with
  | openProcessLog self proname level out r =>
    by_cases hout : s.Passes out
    · simp only [step, if_pos hout]
      exact opened_numbered hN hout taken_openProcessLog
    · simp only [step, if_neg hout]
      trivial
  | openThreadLog self threadName mode out r =>
    by_cases hout : s.Passes out
    · simp only [step, if_pos hout]
      exact opened_numbered hN hout fun e he => mem_openThreadLog he
    · simp only [step, if_neg hout]
      trivial
  | closeThreadLog self => exact closed_numbered hN self

theorem step_safe_iff (pid : ℕ) (hS : Safe s) (hN : Numbered s) (a : Act) :
    ((step pid s a).Holds fun (s', _) => Safe s') ↔ Unshared s a := by
  cases a with
  | openProcessLog self proname level out r =>
    refine iff_of_true ?_ trivial
    by_cases hout : s.Passes out
    · simp only [step, if_pos hout]
      exact opened_safe hS hN hout taken_openProcessLog
    · simp only [step, if_neg hout]
      trivial
  | openThreadLog self threadName mode out r =>
    refine iff_of_true ?_ trivial
    by_cases hout : s.Passes out
    · simp only [step, if_pos hout]
      exact opened_safe hS hN hout fun e he => mem_openThreadLog he
    · simp only [step, if_neg hout]
      trivial
  | closeThreadLog self => exact closed_safe_iff hS self

theorem numbered_start (logDir : Bytes) : Numbered (start logDir) :=
  ⟨fun e he => (by cases he), fun n hn => (by cases hn)⟩

theorem safe_start (logDir : Bytes) : Safe (start logDir) :=
  ⟨fun e he => (by cases he), List.nodup_nil⟩

/-- In every interleaving of the calls of any threads, the streams are safe in every state exactly
if no thread log is closed with a stream that another entry has. -/
theorem run_safe_iff (pid : ℕ) (logDir : Bytes) (acts : List Act) :
    (∀ bs, bs <+: acts → (Schedule.run (step pid) (start logDir) bs).Holds fun (s, _) => Safe s) ↔
      Schedule.Meets (step pid) Unshared (start logDir) acts := by
  have hnumbered : ∀ bs, (Schedule.run (step pid) (start logDir) bs).Holds
      fun (s, _) => Numbered s := fun bs =>
    Schedule.run_holds (P := fun s _ => Numbered s) (fun s _ a hN => step_numbered hN a)
      (numbered_start logDir) bs
  have hstep : ∀ s (h : List Empty) a, Safe s ∧ Numbered s →
      (Unshared s a ↔ (step pid s a).Holds fun (s', _) => Safe s' ∧ Numbered s') := by
    rintro s - a ⟨hS, hN⟩
    rw [← step_safe_iff pid hS hN a]
    refine ⟨fun h => ?_, fun h => h.mono fun r hr => hr.1⟩
    exact h.and fun r hr => (step_numbered hN a).of_eq hr
  have hiff := Schedule.forall_prefix_holds_iff (P := fun s _ => Safe s ∧ Numbered s) hstep
    ⟨safe_start logDir, numbered_start logDir⟩ acts
  rw [← hiff]
  refine forall₂_congr fun bs _ => ⟨fun h => ?_, fun h => h.mono fun r hr => hr.1⟩
  exact h.and fun r hr => (hnumbered bs).of_eq hr

end Steps

def sharedStream : List Act :=
  [.openThreadLog 7 none .threadMode (some (.passed 0)) (.ok ()),
    .openThreadLog 8 none .threadMode (some (.passed 0)) (.ok ()),
    .closeThreadLog 7, .closeThreadLog 8]

/-- The first to close its log leaves the other a closed stream, which is closed again. -/
theorem run_closes_shared :
    ¬ (∀ bs, bs <+: sharedStream →
      (Schedule.run (step 1) (start []) bs).Holds fun (s, _) => Safe s) ∧
    (∃ s e, Schedule.run (step 1) (start []) (sharedStream.take 3) = .ok (s, []) ∧
      s.log.mLogMap.entries = [e] ∧ e.1 = 8 ∧ e.2.mFile ∈ s.closed) ∧
    ∃ s, Schedule.run (step 1) (start []) sharedStream = .ok (s, []) ∧
      s.closed = [.passed 0, .passed 0] := by
  have hrun : ∃ s, Schedule.run (step 1) (start []) sharedStream = .ok (s, []) ∧
      s.closed = [.passed 0, .passed 0] := ⟨_, rfl, rfl⟩
  refine ⟨fun h => ?_, ⟨_, _, rfl, rfl, rfl, List.mem_singleton.mpr rfl⟩, hrun⟩
  obtain ⟨s, hs, hclosed⟩ := hrun
  have hsafe := (h sharedStream (List.prefix_refl _)).of_eq hs
  have hnodup := (safe_iff.mp hsafe).2
  rw [hclosed] at hnodup
  exact absurd hnodup (by decide)

end YlUtils.SingleLog
