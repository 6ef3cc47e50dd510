import Mathlib.Data.Nat.Bitwise
import YlUtils.Net.ConnectReports

/-! # The flags of the socket

An attempt saves the file status flags and sets `O_NONBLOCK`, but restores them
only if it connects. Behind an attempt that has timed out the next one takes
`O_NONBLOCK` for a flag that the socket had before.
-/

namespace YlUtils

def Attempt.Connects (a : Attempt) : Prop :=
  a.restore = .ok () ∧ (a.Begins ∧ a.connect = .ok () ∨ a.Wakes ∧ a.getsockopt = .ok 0)

namespace Socket

def oNonblock : ℕ := 2048

/-- What `_connect` returns, `errno` behind it, and the file status flags it leaves. -/
structure Left where
  ret : ℤ
  errno : ℤ
  status : ℕ

def doneFlags (a : Attempt) (errno : ℤ) (flags status : ℕ) : Left :=
  match a.restore with
  | .error e => ⟨-1, e, status⟩
  | .ok _ => ⟨0, errno, flags⟩

def _connectFlags (a : Attempt) (sockfd errno : ℤ) (status : ℕ) : Left :=
  if sockfd = -1 then ⟨-1, errno, status⟩
  else match a.getfl with
    | .error e => ⟨-1, e, status⟩
    | .ok _ =>
      let flags := status
      match a.setfl with
      | .error e => ⟨-1, e, status⟩
      | .ok _ =>
        let status := flags ||| oNonblock
        match a.connect with
        | .ok _ => doneFlags a errno flags status
        | .error e =>
          if e ≠ einprogress then ⟨-1, e, status⟩
          else match a.select with
            | .ok 0 => ⟨-1, etimedout, status⟩
            | .error e => ⟨-1, e, status⟩
            | .ok (_ + 1) =>
              if a.isset then
                match a.getsockopt with
                | .error e => ⟨-1, e, status⟩
                | .ok error =>
                  if error ≠ 0 then ⟨-1, error, status⟩ else doneFlags a e flags status
              else ⟨-1, e, status⟩

def connectLoopFlags (w : Network) (mSocket : ℤ) : ℕ → ℕ → ℤ → ℕ → LoopEnd × ℕ
  | 0, _, errno, status => (⟨[], errno, -1, false⟩, status)
  | retry + 1, i, errno, status =>
    let r := _connectFlags (w.attempts i) mSocket errno status
    if r.ret = 0 then (⟨[(r.ret, r.errno)], r.errno, retry, false⟩, r.status)
    else if r.errno = etimedout then
      let (l, status) := connectLoopFlags w mSocket retry (i + 1) r.errno r.status
      ({ l with tried := (r.ret, r.errno) :: l.tried }, status)
    else (⟨[(r.ret, r.errno)], r.errno, retry, true⟩, r.status)

/-- If an attempt of the loop connects, the flags are those from before the first attempt. -/
def KeepsFlags (w : Network) (mSocket : ℤ) (retry : ℕ) (errno : ℤ) (status : ℕ) : Prop :=
  0 ∈ (connectLoopFlags w mSocket retry 0 errno status).1.tried.map Prod.fst →
    (connectLoopFlags w mSocket retry 0 errno status).2 = status

def ConnectsAt (w : Network) (retry i j : ℕ) : Prop :=
  j < retry ∧ (∀ k < j, (w.attempts (i + k)).TimesOut) ∧ (w.attempts (i + j)).Connects

/-- An attempt connects that follows one which had set `O_NONBLOCK` before it timed out. -/
def LateSuccess (w : Network) (mSocket : ℤ) (retry : ℕ) : Prop :=
  mSocket ≠ -1 ∧ ∃ j, ConnectsAt w retry 0 j ∧ ∃ k < j, (w.attempts k).Begins

section Attempts

variable {a : Attempt} {sockfd errno : ℤ} {status : ℕ}

theorem _connectFlags_eq (a : Attempt) (sockfd errno : ℤ) (status : ℕ) :
    ((_connectFlags a sockfd errno status).ret, (_connectFlags a sockfd errno status).errno) =
      _connect a sockfd errno := by
  have hdone : ∀ e flags status,
      ((doneFlags a e flags status).ret, (doneFlags a e flags status).errno) = done a e := by
    intro e flags status
    unfold doneFlags done
    cases a.restore <;> rfl
  unfold _connectFlags _connect
  split
  · rfl
  · cases a.getfl with
    | error e => rfl
    | ok _ =>
      cases a.setfl with
      | error e => rfl
      | ok _ =>
        cases a.connect with
        | ok _ => exact hdone _ _ _
        | error e =>
          dsimp only
          split
          · rfl
          · rcases a.select with e | - | n
            · rfl
            · rfl
            · dsimp only
              split
              · cases a.getsockopt with
                | error e => rfl
                | ok error =>
                  dsimp only
                  split
                  · rfl
                  · exact hdone _ _ _
              · rfl

/-- The flags behind an attempt: those from before it if it connects, else `O_NONBLOCK` is set
besides as soon as the attempt has begun. -/
inductive Leaves (a : Attempt) (status : ℕ) (r : Left) : Prop
  | connected : a.Connects → r.ret = 0 → r.status = status → Leaves a status r
  | failed : ¬ a.Connects → r.ret = -1 → (a.Begins → r.status = status ||| oNonblock) →
      (¬ a.Begins → r.status = status) → Leaves a status r

theorem doneFlags_leaves (hb : a.Begins)
    (hc : a.connect = .ok () ∨ a.Wakes ∧ a.getsockopt = .ok 0) (errno : ℤ) (status : ℕ) :
    Leaves a status (doneFlags a errno status (status ||| oNonblock)) := by
  unfold doneFlags
  cases hr : a.restore with
  | error e =>
    have hnot : ¬ a.Connects := fun h => absurd h.1 (by simp [hr])
    exact .failed hnot rfl (fun _ => rfl) fun h => absurd hb h
  | ok _ => exact .connected ⟨hr, hc.imp_left fun h => ⟨hb, h⟩⟩ rfl rfl

theorem leaves_of_begins (hb : a.Begins) (hnot : a.connect = .ok () → False)
    (hwait : a.Wakes → a.getsockopt = .ok 0 → False) (e : ℤ) :
    Leaves a status ⟨-1, e, status ||| oNonblock⟩ := by
  refine .failed ?_ rfl (fun _ => rfl) fun h => absurd hb h
  rintro ⟨-, ⟨-, hc⟩ | ⟨hw, hs⟩⟩
  · exact hnot hc
  · exact hwait hw hs

theorem _connectFlags_leaves (a : Attempt) (hfd : sockfd ≠ -1) (errno : ℤ) (status : ℕ) :
    Leaves a status (_connectFlags a sockfd errno status) := by
  have hearly : ∀ e, ¬ a.Begins → Leaves a status ⟨-1, e, status⟩ := by
    intro e hb
    refine .failed ?_ rfl (fun h => absurd h hb) fun _ => rfl
    rintro ⟨-, ⟨h, -⟩ | ⟨⟨h, -⟩, -⟩⟩
    · exact hb h
    · exact hb h.1
  unfold _connectFlags
  rw [if_neg hfd]
  cases hg : a.getfl with
  | error e => exact hearly e fun h => absurd h.1 (by simp [hg])
  | ok _ =>
    cases hs : a.setfl with
    | error e => exact hearly e fun h => absurd h.2 (by simp [hs])
    | ok _ =>
      have hb : a.Begins := ⟨hg, hs⟩
      cases hc : a.connect with
      | ok _ => exact doneFlags_leaves hb (.inl hc) errno status
      | error e =>
        have hnot : a.connect = .ok () → False := fun h => by simp [hc] at h
        dsimp only
        split
        · next he =>
          exact leaves_of_begins hb hnot (fun hw _ => he (by simpa [hc] using hw.1.2)) e
        · next he =>
          have hw : a.Waits := ⟨hb, by rw [hc, not_not.mp he]⟩
          rcases hsel : a.select with e' | - | n
          · exact leaves_of_begins hb hnot (fun h _ => absurd h.2.2 (by simp [hsel])) e'
          · exact leaves_of_begins hb hnot (fun h _ => absurd h.2.2 (by simp [hsel]))
              etimedout
          · dsimp only
            split
            · next hi =>
              cases hso : a.getsockopt with
              | error e' => exact leaves_of_begins hb hnot (fun _ h => by simp [hso] at h) e'
              | ok error =>
                dsimp only
                split
                · next h0 =>
                  exact leaves_of_begins hb hnot (fun _ h => h0 (by simpa [hso] using h)) error
                · next h0 =>
                  exact doneFlags_leaves hb (.inr ⟨⟨hw, hi, n, hsel⟩, by
                    rw [hso, not_not.mp h0]⟩) e status
            · next hi => exact leaves_of_begins hb hnot (fun h _ => hi h.2.1) e

end Attempts

section Loop

variable {w : Network} {mSocket errno : ℤ} {retry i j status : ℕ}

theorem connectLoopFlags_fst (w : Network) (mSocket : ℤ) (retry i : ℕ) (errno : ℤ) (status : ℕ) :
    (connectLoopFlags w mSocket retry i errno status).1 =
      connectLoop w mSocket retry i errno := by
  induction retry generalizing i errno status with
  | zero => rfl
  | succ retry ih =>
    rw [connectLoopFlags, connectLoop, ← _connectFlags_eq _ _ _ status]
    dsimp only
    split
    · rfl
    · split
      · rw [← ih]
      · rfl

theorem connectsAt_zero : ConnectsAt w (retry + 1) i 0 ↔ (w.attempts i).Connects := by
  simp [ConnectsAt]

theorem connectsAt_succ : ConnectsAt w (retry + 1) i (j + 1) ↔
    (w.attempts i).TimesOut ∧ ConnectsAt w retry (i + 1) j := by
  have hadd : ∀ k, i + 1 + k = i + (k + 1) := fun k => by omega
  unfold ConnectsAt
  rw [Nat.add_lt_add_iff_right, Nat.forall_lt_succ_left, hadd]
  simp only [hadd, Nat.add_zero]
  tauto

/-- Behind the attempts up to one that connects the flags are as before, or `O_NONBLOCK` is set
besides if one of those before it has begun. -/
theorem connectLoopFlags_connectsAt (hfd : mSocket ≠ -1) (h : ConnectsAt w retry i j)
    (errno : ℤ) (status : ℕ) :
    0 ∈ (connectLoopFlags w mSocket retry i errno status).1.tried.map Prod.fst ∧
      ((∀ k < j, ¬ (w.attempts (i + k)).Begins) →
        (connectLoopFlags w mSocket retry i errno status).2 = status) ∧
      ((∃ k < j, (w.attempts (i + k)).Begins) →
        (connectLoopFlags w mSocket retry i errno status).2 = status ||| oNonblock) := by
  induction retry generalizing i j errno status with
  | zero => exact absurd h.1 (Nat.not_lt_zero j)
  | succ retry ih =>
    have hleaves := _connectFlags_leaves (w.attempts i) hfd errno status
    rw [connectLoopFlags]
    rcases j with - | j
    · rw [connectsAt_zero] at h
      cases hleaves with
      | connected _ hret hstatus => simp [hret, hstatus]
      | failed hnot => exact absurd h hnot
    · obtain ⟨htime, hrest⟩ := connectsAt_succ.mp h
      have hcall := (_connectFlags_eq (w.attempts i) mSocket errno status).trans
        (_connect_timesOut htime hfd)
      obtain ⟨hret, herrno⟩ := Prod.mk.inj hcall
      have hne : (-1 : ℤ) ≠ 0 := by decide
      obtain ⟨hmem, hkept, hset⟩ := ih hrest etimedout
        (_connectFlags (w.attempts i) mSocket errno status).status
      have hadd : ∀ k, i + 1 + k = i + (k + 1) := fun k => by omega
      simp only [hadd] at hkept hset
      simp only [hret, herrno, if_neg hne, if_true]
      cases hleaves with
      | connected _ hzero => exact absurd (hret.symm.trans hzero) hne
      | failed _ _ hbegun hearly =>
        refine ⟨List.mem_cons_of_mem _ hmem, fun hk => ?_, fun hk => ?_⟩
        · rw [hkept fun k hlt => hk (k + 1) (by omega)]
          exact hearly (hk 0 (by omega))
        · by_cases hlater : ∃ k < j, (w.attempts (i + (k + 1))).Begins
          · rw [hset hlater]
            by_cases hfirst : (w.attempts i).Begins
            · rw [hbegun hfirst, Nat.or_assoc, Nat.or_self]
            · rw [hearly hfirst]
          · rw [hkept fun k hlt hb => hlater ⟨k, hlt, hb⟩]
            obtain ⟨- | k, hlt, hb⟩ := hk
            · exact hbegun hb
            · exact absurd ⟨k, by omega, hb⟩ hlater

theorem exists_connectsAt (hfd : mSocket ≠ -1)
    (h : 0 ∈ (connectLoop w mSocket retry i errno).tried.map Prod.fst) :
    ∃ j, ConnectsAt w retry i j := by
  induction retry generalizing i errno with
  | zero => exact absurd h (by simp [connectLoop])
  | succ retry ih =>
    have hleaves := _connectFlags_leaves (w.attempts i) hfd errno 0
    have hcall := _connectFlags_eq (w.attempts i) mSocket errno 0
    cases hleaves with
    | connected hat => exact ⟨0, connectsAt_zero.mpr hat⟩
    | failed _ hret =>
      rw [hret] at hcall
      rw [connectLoop, ← hcall] at h
      have hne : (0 : ℤ) ≠ -1 := by decide
      simp only [if_neg hne.symm] at h
      split at h
      · next he =>
        obtain ⟨j, hj⟩ := ih ((List.mem_cons.mp h).resolve_left hne)
        refine ⟨j + 1, connectsAt_succ.mpr ⟨?_, hj⟩⟩
        rw [he] at hcall
        rcases ends (w.attempts i) hfd errno with hat | hnow | htime | ⟨e, hother, hend⟩
        · rw [_connect_atOnce hat hfd] at hcall
          exact absurd (Prod.mk.inj hcall).1.symm hne
        · rw [hnow] at hcall
          exact absurd (Prod.mk.inj hcall).1.symm hne
        · exact htime
        · rw [hend] at hcall
          exact absurd (Prod.mk.inj hcall).2.symm hother
      · exact absurd (List.mem_singleton.mp h) hne

theorem or_oNonblock_eq_self : status ||| oNonblock = status ↔ status.testBit 11 = true := by
  constructor
  · intro h
    rw [← h, Nat.testBit_or]
    exact Bool.or_true _
  · intro h
    apply Nat.eq_of_testBit_eq
    intro k
    rw [Nat.testBit_or, show oNonblock = 2 ^ 11 from rfl, Nat.testBit_two_pow]
    by_cases hk : 11 = k
    · rw [← hk, h, Bool.true_or]
    · rw [decide_eq_false hk, Bool.or_false]

/-- The flags are those from before the first attempt unless the socket was blocking and an attempt
connects that follows one which had set `O_NONBLOCK` before it timed out. -/
theorem keepsFlags_iff (w : Network) (mSocket : ℤ) (retry : ℕ) (errno : ℤ) (status : ℕ) :
    KeepsFlags w mSocket retry errno status ↔
      status.testBit 11 = true ∨ ¬ LateSuccess w mSocket retry := by
  unfold KeepsFlags
  constructor
  · intro hkeeps
    rw [← or_oNonblock_eq_self, or_iff_not_imp_right, not_not]
    rintro ⟨hfd, j, hat, k, hk, hb⟩
    obtain ⟨hmem, -, hset⟩ := connectLoopFlags_connectsAt hfd hat errno status
    rw [← hset ⟨k, hk, by rwa [Nat.zero_add]⟩]
    exact hkeeps hmem
  · intro h hmem
    rw [connectLoopFlags_fst] at hmem
    have hfd : mSocket ≠ -1 := by
      rintro rfl
      exact connectLoop_closed w retry 0 errno hmem
    obtain ⟨j, hat⟩ := exists_connectsAt hfd hmem
    obtain ⟨-, hkept, hset⟩ := connectLoopFlags_connectsAt hfd hat errno status
    by_cases hbegun : ∃ k < j, (w.attempts (0 + k)).Begins
    · rw [hset hbegun, or_oNonblock_eq_self]
      simp only [Nat.zero_add] at hbegun
      exact h.resolve_right fun hlate => hlate ⟨hfd, j, hat, hbegun⟩
    · exact hkept fun k hk hb => hbegun ⟨k, hk, hb⟩

/-- Behind a timeout a blocking socket is left non-blocking. -/
theorem not_keepsFlags :
    ¬ KeepsFlags (network fun i => if i = 0 then inVain else atOnce) 3 2 0 2 := by
  intro h
  exact absurd (h (by decide)) (by decide)

end Loop

end Socket

end YlUtils
