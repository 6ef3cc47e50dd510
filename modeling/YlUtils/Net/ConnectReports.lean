import YlUtils.Net.Socket

/-! # What a connection reports

Whether the loop over the attempts was left by a success is told from `errno`
alone. An attempt that connects at once leaves `errno` as it finds it, and so it
is taken for a timeout when it follows one.
-/

namespace YlUtils

def Attempt.Begins (a : Attempt) : Prop := a.getfl = .ok () ∧ a.setfl = .ok ()

def Attempt.AtOnce (a : Attempt) : Prop :=
  a.Begins ∧ a.connect = .ok () ∧ a.restore = .ok ()

def Attempt.Waits (a : Attempt) : Prop := a.Begins ∧ a.connect = .error Socket.einprogress

def Attempt.Wakes (a : Attempt) : Prop :=
  a.Waits ∧ a.isset = true ∧ ∃ n, a.select = .ok (n + 1)

/-- The attempt fails by a timeout: that of `select`, or one that a call reports. -/
inductive Attempt.TimesOut (a : Attempt) : Prop where

  | getfl : a.getfl = .error Socket.etimedout → TimesOut a

  | setfl : a.getfl = .ok () → a.setfl = .error Socket.etimedout → TimesOut a

  | connect : a.Begins → a.connect = .error Socket.etimedout → TimesOut a

  | select : a.Waits → a.select = .error Socket.etimedout → TimesOut a

  | nothing : a.Waits → a.select = .ok 0 → TimesOut a

  | getsockopt : a.Wakes → a.getsockopt = .error Socket.etimedout → TimesOut a

  | error : a.Wakes → a.getsockopt = .ok Socket.etimedout → TimesOut a

  | restore : (a.Wakes ∧ a.getsockopt = .ok 0 ∨ a.Begins ∧ a.connect = .ok ()) →
      a.restore = .error Socket.etimedout → TimesOut a

namespace Socket

/-- The attempts from `i` on are calls of `_connect`, each of which finds the `errno` that the one
before it leaves. -/
def Made (w : Network) (mSocket : ℤ) : ℕ → ℤ → List (ℤ × ℤ) → Prop
  | _, _, [] => True
  | i, errno, t :: tried => t = _connect (w.attempts i) mSocket errno ∧
      Made w mSocket (i + 1) t.2 tried

/-- The attempts stop at the first one that does not fail by a timeout, and at `retry`. -/
structure Stops (retry : ℕ) (tried : List (ℤ × ℤ)) : Prop where
  length_le : tried.length ≤ retry
  timeouts : ∀ t ∈ tried.dropLast, t.1 ≠ 0 ∧ t.2 = etimedout
  last : tried.length < retry → ∃ t ∈ tried.getLast?, t.1 = 0 ∨ t.2 ≠ etimedout

/-- `connect` says what its attempts did: if one of them returned 0 it returns and the object is
connected, else it throws and the object is closed. -/
structure Reports (w : Network) (mSocket errno : ℤ) (retry : ℕ) (r : Result) : Prop where
  made : Made w mSocket 0 errno r.tried
  stops : Stops retry r.tried
  connected : 0 ∈ r.tried.map Prod.fst → r.thrown = none ∧ r.object.mBeConnected = true
  refused : 0 ∉ r.tried.map Prod.fst → r.thrown.isSome = true ∧ r.object.mSocket = -1 ∧
    r.object.mBeClosed = true ∧ r.object.mBeConnected = false

/-- Of `retry` attempts from `i` on, one connects at once behind timeouts only, and `errno` is that
of a timeout if it is the first. -/
def StaleSuccess (w : Network) (mSocket : ℤ) (retry i : ℕ) (errno : ℤ) : Prop :=
  mSocket ≠ -1 ∧ ∃ j < retry, (∀ k < j, (w.attempts (i + k)).TimesOut) ∧
    (w.attempts (i + j)).AtOnce ∧ (j = 0 → errno = etimedout)

section Attempts

variable {a : Attempt} {sockfd errno : ℤ}

theorem _connect_atOnce (h : a.AtOnce) (hfd : sockfd ≠ -1) :
    _connect a sockfd errno = (0, errno) := by
  obtain ⟨⟨hg, hs⟩, hc, hr⟩ := h
  simp only [_connect, if_neg hfd, hg, hs, hc, done, hr]

theorem _connect_timesOut (h : a.TimesOut) (hfd : sockfd ≠ -1) :
    _connect a sockfd errno = (-1, etimedout) := by
  have hne : etimedout ≠ einprogress := by decide
  cases h with
  | getfl h => simp only [_connect, if_neg hfd, h]
  | setfl hg h => simp only [_connect, if_neg hfd, hg, h]
  | connect hb h => simp only [_connect, if_neg hfd, hb.1, hb.2, h, if_pos hne]
  | select hw h =>
    simp only [_connect, if_neg hfd, hw.1.1, hw.1.2, hw.2, h, ne_eq, not_true_eq_false, if_false]
  | nothing hw h =>
    simp only [_connect, if_neg hfd, hw.1.1, hw.1.2, hw.2, h, ne_eq, not_true_eq_false, if_false]
  | getsockopt hw h =>
    obtain ⟨hw, hi, n, hn⟩ := hw
    simp only [_connect, if_neg hfd, hw.1.1, hw.1.2, hw.2, hn, hi, h, ne_eq, not_true_eq_false,
      if_false, if_true]
  | error hw h =>
    obtain ⟨hw, hi, n, hn⟩ := hw
    simp only [_connect, if_neg hfd, hw.1.1, hw.1.2, hw.2, hn, hi, h, ne_eq, not_true_eq_false,
      if_false, if_true]
    rfl
  | restore hw h =>
    rcases hw with ⟨⟨hw, hi, n, hn⟩, hs⟩ | ⟨hb, hc⟩
    · simp only [_connect, if_neg hfd, hw.1.1, hw.1.2, hw.2, hn, hi, hs, h, done, ne_eq,
        not_true_eq_false, if_false, if_true]
    · simp only [_connect, if_neg hfd, hb.1, hb.2, hc, done, h]

def Ends (a : Attempt) (sockfd errno : ℤ) : Prop :=
  a.AtOnce ∨ _connect a sockfd errno = (0, einprogress) ∨ a.TimesOut ∨
    ∃ e, e ≠ etimedout ∧ _connect a sockfd errno = (-1, e)

theorem ends_of_error {e : ℤ} (hret : _connect a sockfd errno = (-1, e))
    (htime : e = etimedout → a.TimesOut) : Ends a sockfd errno := by
  by_cases he : e = etimedout
  · exact .inr (.inr (.inl (htime he)))
  · exact .inr (.inr (.inr ⟨e, he, hret⟩))

theorem ends_of_waits (hfd : sockfd ≠ -1) (hw : a.Waits) (errno : ℤ) : Ends a sockfd errno := by
  obtain ⟨⟨hg, hs⟩, hc⟩ := id hw
  cases hsel : a.select with
  | error e =>
    exact ends_of_error (by simp [_connect, hfd, hg, hs, hc, hsel]) fun he => .select hw (he ▸ hsel)
  | ok n =>
    rcases n with - | n
    · exact .inr (.inr (.inl (.nothing hw hsel)))
    · cases hi : a.isset with
      | false =>
        have hcall : _connect a sockfd errno = (-1, einprogress) := by
          simp [_connect, hfd, hg, hs, hc, hsel, hi]
        exact .inr (.inr (.inr ⟨einprogress, by decide, hcall⟩))
      | true =>
        have hwakes : a.Wakes := ⟨hw, hi, n, hsel⟩
        cases hso : a.getsockopt with
        | error e =>
          exact ends_of_error (by simp [_connect, hfd, hg, hs, hc, hsel, hi, hso]) fun he =>
            .getsockopt hwakes (he ▸ hso)
        | ok error =>
          by_cases h0 : error = 0
          · subst h0
            cases hr : a.restore with
            | ok _ =>
              exact .inr (.inl (by simp [_connect, hfd, hg, hs, hc, hsel, hi, hso, done, hr]))
            | error e =>
              exact ends_of_error (by simp [_connect, hfd, hg, hs, hc, hsel, hi, hso, done, hr])
                fun he => .restore (.inl ⟨hwakes, hso⟩) (he ▸ hr)
          · exact ends_of_error (by simp [_connect, hfd, hg, hs, hc, hsel, hi, hso, h0]) fun he =>
              .error hwakes (he ▸ hso)

theorem ends (a : Attempt) (hfd : sockfd ≠ -1) (errno : ℤ) : Ends a sockfd errno := by
  cases hg : a.getfl with
  | error e => exact ends_of_error (by simp [_connect, hfd, hg]) fun he => .getfl (he ▸ hg)
  | ok _ =>
    cases hs : a.setfl with
    | error e =>
      exact ends_of_error (by simp [_connect, hfd, hg, hs]) fun he => .setfl hg (he ▸ hs)
    | ok _ =>
      have hb : a.Begins := ⟨hg, hs⟩
      cases hc : a.connect with
      | error e =>
        by_cases he : e = einprogress
        · exact ends_of_waits hfd ⟨hb, he ▸ hc⟩ errno
        · exact ends_of_error (by simp [_connect, hfd, hg, hs, hc, he]) fun ht =>
            .connect hb (ht ▸ hc)
      | ok _ =>
        cases hr : a.restore with
        | ok _ => exact .inl ⟨hb, hc, hr⟩
        | error e =>
          exact ends_of_error (by simp [_connect, hfd, hg, hs, hc, done, hr]) fun he =>
            .restore (.inr ⟨hb, hc⟩) (he ▸ hr)

theorem not_timesOut (hfd : sockfd ≠ -1) {r : ℤ × ℤ} (h : _connect a sockfd errno = r)
    (hr : r ≠ (-1, etimedout)) : ¬ a.TimesOut :=
  fun ht => hr (h.symm.trans (_connect_timesOut ht hfd))

theorem not_atOnce (hfd : sockfd ≠ -1) {r : ℤ × ℤ} (h : _connect a sockfd errno = r)
    (hr : r ≠ (0, errno)) : ¬ a.AtOnce :=
  fun hnow => hr (h.symm.trans (_connect_atOnce hnow hfd))

end Attempts

section Loop

variable {w : Network} {mSocket errno : ℤ} {retry i : ℕ}

theorem connectLoop_made (w : Network) (mSocket : ℤ) (retry i : ℕ) (errno : ℤ) :
    Made w mSocket i errno (connectLoop w mSocket retry i errno).tried := by
  induction retry generalizing i errno with
  | zero => trivial
  | succ retry ih =>
    rw [connectLoop]
    rcases hcall : _connect (w.attempts i) mSocket errno with ⟨ret, e⟩
    simp only
    split
    · exact ⟨hcall.symm, trivial⟩
    · split
      · exact ⟨hcall.symm, ih (i + 1) e⟩
      · exact ⟨hcall.symm, trivial⟩

theorem Stops.single {ret e : ℤ} (h : ret = 0 ∨ e ≠ etimedout) : Stops (retry + 1) [(ret, e)] :=
  ⟨by simp, by simp, fun _ => ⟨(ret, e), rfl, h⟩⟩

theorem Stops.cons {tried : List (ℤ × ℤ)} {ret : ℤ} (h : Stops retry tried) (hret : ret ≠ 0) :
    Stops (retry + 1) ((ret, etimedout) :: tried) := by
  refine ⟨Nat.succ_le_succ h.length_le, fun t ht => ?_, fun hlt => ?_⟩
  · cases tried with
    | nil => simp at ht
    | cons u tried =>
      rw [List.dropLast_cons_cons, List.mem_cons] at ht
      rcases ht with rfl | ht
      · exact ⟨hret, rfl⟩
      · exact h.timeouts t ht
  · obtain ⟨t, ht, hend⟩ := h.last (Nat.lt_of_succ_lt_succ hlt)
    refine ⟨t, ?_, hend⟩
    cases tried with
    | nil => simp at ht
    | cons u tried => rwa [List.getLast?_cons_cons]

theorem connectLoop_stops (w : Network) (mSocket : ℤ) (retry i : ℕ) (errno : ℤ) :
    Stops retry (connectLoop w mSocket retry i errno).tried := by
  induction retry generalizing i errno with
  | zero => exact ⟨Nat.le_refl 0, by simp [connectLoop], fun h => absurd h (Nat.not_lt_zero _)⟩
  | succ retry ih =>
    rw [connectLoop]
    rcases _connect (w.attempts i) mSocket errno with ⟨ret, e⟩
    simp only
    by_cases hret : ret = 0
    · rw [if_pos hret]
      exact .single (.inl hret)
    · rw [if_neg hret]
      by_cases he : e = etimedout
      · subst he
        rw [if_pos rfl]
        exact (ih (i + 1) etimedout).cons hret
      · rw [if_neg he]
        exact .single (.inr he)

/-- A success ends the loop without an error; without one it is left by an error, or `errno` is
that of a timeout unless there is no attempt. -/
theorem connectLoop_tried (w : Network) (mSocket : ℤ) (retry i : ℕ) (errno : ℤ) :
    let l := connectLoop w mSocket retry i errno
    (0 ∈ l.tried.map Prod.fst → l.failed = false) ∧
      (0 ∉ l.tried.map Prod.fst → l.failed = true ∨ if retry = 0 then l.errno = errno else
        l.errno = etimedout) := by
  induction retry generalizing i errno with
  | zero => simp [connectLoop]
  | succ retry ih =>
    rw [connectLoop]
    rcases _connect (w.attempts i) mSocket errno with ⟨ret, e⟩
    simp only
    by_cases hret : ret = 0
    · simp [hret]
    · rw [if_neg hret]
      by_cases he : e = etimedout
      · obtain ⟨hsome, hnone⟩ := ih (i + 1) e
        rw [if_pos he]
        simp only [List.map_cons, List.mem_cons, Ne.symm hret, false_or]
        refine ⟨hsome, fun h => ?_⟩
        rcases hnone h with hf | hn
        · exact .inl hf
        · right
          split at hn
          · rwa [if_neg (Nat.succ_ne_zero retry), hn]
          · rwa [if_neg (Nat.succ_ne_zero retry)]
      · rw [if_neg he]
        simp [Ne.symm hret]

theorem connectLoop_closed (w : Network) (retry i : ℕ) (errno : ℤ) :
    0 ∉ (connectLoop w (-1) retry i errno).tried.map Prod.fst := by
  induction retry generalizing i with
  | zero => simp [connectLoop]
  | succ retry ih =>
    rw [connectLoop, _connect, if_pos rfl]
    have hret : (-1 : ℤ) ≠ 0 := by decide
    by_cases he : errno = etimedout
    · simp only [if_neg hret, if_pos he, List.map_cons, List.mem_cons, not_or]
      exact ⟨hret.symm, ih (i + 1)⟩
    · simp only [if_neg hret, if_neg he, List.map_cons, List.map_nil, List.mem_singleton]
      exact hret.symm

theorem staleSuccess_succ : StaleSuccess w mSocket (retry + 1) i errno ↔ mSocket ≠ -1 ∧
    ((w.attempts i).AtOnce ∧ errno = etimedout ∨
      (w.attempts i).TimesOut ∧ StaleSuccess w mSocket retry (i + 1) etimedout) := by
  constructor
  · rintro ⟨hfd, j, hj, hbefore, hat, hfirst⟩
    rcases j with - | j
    · exact ⟨hfd, .inl ⟨hat, hfirst rfl⟩⟩
    · refine ⟨hfd, .inr ⟨hbefore 0 (by omega), hfd, j, by omega, fun k hk => ?_, ?_, fun _ => rfl⟩⟩
      · have hk := hbefore (k + 1) (by omega)
        rwa [← Nat.add_assoc, Nat.add_right_comm] at hk
      · rwa [← Nat.add_assoc, Nat.add_right_comm] at hat
  · rintro ⟨hfd, ⟨hat, he⟩ | ⟨htime, -, j, hj, hbefore, hat, -⟩⟩
    · exact ⟨hfd, 0, by omega, fun k hk => absurd hk (Nat.not_lt_zero k), hat, fun _ => he⟩
    · refine ⟨hfd, j + 1, by omega, fun k hk => ?_, ?_, fun h => absurd h (Nat.succ_ne_zero j)⟩
      · rcases k with - | k
        · exact htime
        · have hk := hbefore k (by omega)
          rwa [Nat.add_right_comm, Nat.add_assoc] at hk
      · rwa [Nat.add_right_comm, Nat.add_assoc] at hat

theorem connectLoop_stale_iff (w : Network) (mSocket : ℤ) (retry i : ℕ) (errno : ℤ) :
    (0 ∈ (connectLoop w mSocket retry i errno).tried.map Prod.fst ∧
      (connectLoop w mSocket retry i errno).errno = etimedout) ↔
        StaleSuccess w mSocket retry i errno := by
  by_cases hfd : mSocket = -1
  · subst hfd
    exact iff_of_false (fun h => connectLoop_closed w retry i errno h.1) fun h => h.1 rfl
  have hret : (-1 : ℤ) ≠ 0 := by decide
  induction retry generalizing i errno with
  | zero => simp [connectLoop, StaleSuccess]
  | succ retry ih =>
    rw [connectLoop, staleSuccess_succ]
    rcases ends (w.attempts i) hfd errno with h | h | h | ⟨e, he, h⟩
    · have hcall : _connect (w.attempts i) mSocket errno = (0, errno) := _connect_atOnce h hfd
      have hnot := not_timesOut hfd hcall (by simp)
      simp [hcall, h, hnot, hfd]
    · have hnot := not_timesOut hfd h (by simp)
      have hne : ¬ ((w.attempts i).AtOnce ∧ errno = etimedout) := fun ⟨hnow, he⟩ =>
        not_atOnce hfd h (by rw [he]; decide) hnow
      simp [h, hnot, hne, show einprogress ≠ etimedout by decide]
    · have hcall : _connect (w.attempts i) mSocket errno = (-1, etimedout) :=
        _connect_timesOut h hfd
      have hne := not_atOnce hfd hcall (by simp)
      simp only [hcall, if_neg hret, if_true, List.map_cons, List.mem_cons, hret.symm, false_or,
        hne, false_and, h, true_and, hfd, ne_eq, not_false_eq_true, ih]
    · have hnot := not_timesOut hfd h (by simp [he])
      have hne := not_atOnce hfd h (by simp)
      simp [h, he, hnot, hne]

end Loop

section Connect

variable {s : Socket} {w : Network} {remotehostip localhostip : String} {localport errno : ℤ}
  {sinAddr : UInt32} {addr : SockAddr}

theorem bind_congr (w : Network) (localport : ℤ) (localhostip : String) (errno : ℤ) {s' : Socket}
    (h : s'.mBeBound = s.mBeBound) :
    (s'.bind w localport localhostip errno).2 = (s.bind w localport localhostip errno).2 ∧
      (s'.bind w localport localhostip errno).1.mSocket = s'.mSocket := by
  unfold bind
  rw [h]
  split
  · exact ⟨rfl, rfl⟩
  · split
    · exact ⟨rfl, rfl⟩
    · split
      · exact ⟨rfl, rfl⟩
      · cases w.inetAton localhostip with
        | none => exact ⟨rfl, rfl⟩
        | some _ =>
          cases w.bind with
          | error e => exact ⟨rfl, rfl⟩
          | ok _ => exact ⟨rfl, rfl⟩

theorem connect_eq (port conntimeo : ℤ) (retry : ℕ)
    (hbind : (s.bind w localport localhostip errno).2 = none)
    (hremote : w.inetAton remotehostip = some sinAddr) (hname : w.getsockname = .ok addr) :
    let l := connectLoop w s.mSocket retry 0 errno
    ∃ (s' : Socket) (msg : String),
      s.connect w remotehostip port conntimeo retry localhostip localport errno =
        if l.failed = true ∨ l.errno = etimedout then ⟨s'.close, some msg, l.tried⟩
        else ⟨{ s' with mBeConnected := true }, none, l.tried⟩ := by
  intro l
  unfold connect
  extract_lets s₁ omsg
  have hbound : s₁.mBeBound = s.mBeBound := rfl
  obtain ⟨hmsg, hsocket⟩ := bind_congr w localport localhostip errno hbound
  rcases hb : s₁.bind w localport localhostip errno with ⟨s₂, m⟩
  rw [hb, hbind] at hmsg
  rw [hb] at hsocket
  obtain rfl : m = none := hmsg
  have hl : connectLoop w s₂.mSocket retry 0 errno = l := congrArg
    (connectLoop w · retry 0 errno) hsocket
  simp only [hremote, hname, hl]
  by_cases hfail : l.failed = true
  · exact ⟨_, _, by rw [if_pos hfail, if_pos (.inl hfail)]⟩
  · by_cases he : l.errno = etimedout
    · exact ⟨_, _, by rw [if_neg hfail, if_pos he, if_pos (.inr he)]⟩
    · refine ⟨{ s₂ with
        mRemoteSockAddr := ⟨htons port, sinAddr⟩
        mLocalSockAddr := addr }, "", ?_⟩
      rw [if_neg hfail, if_neg he, if_neg (not_or.mpr ⟨hfail, he⟩)]

/-- `connect` reports what its attempts did unless it makes none without an earlier timeout, or a
connection that is there at once follows a timeout. -/
theorem connect_reports_iff (port conntimeo : ℤ) (retry : ℕ)
    (hbind : (s.bind w localport localhostip errno).2 = none)
    (hremote : w.inetAton remotehostip = some sinAddr) (hname : w.getsockname = .ok addr) :
    Reports w s.mSocket errno retry
        (s.connect w remotehostip port conntimeo retry localhostip localport errno) ↔
      (retry = 0 → errno = etimedout) ∧ ¬ StaleSuccess w s.mSocket retry 0 errno := by
  obtain ⟨hsome, hnone⟩ := connectLoop_tried w s.mSocket retry 0 errno
  have hmade := connectLoop_made w s.mSocket retry 0 errno
  have hstops := connectLoop_stops w s.mSocket retry 0 errno
  have hstale := connectLoop_stale_iff w s.mSocket retry 0 errno
  obtain ⟨s', msg, hconnect⟩ := connect_eq port conntimeo retry hbind hremote hname
  rw [hconnect, ← hstale]
  by_cases hend : (connectLoop w s.mSocket retry 0 errno).failed = true ∨
      (connectLoop w s.mSocket retry 0 errno).errno = etimedout
  · rw [if_pos hend]
    constructor
    · intro h
      have hno : 0 ∉ (connectLoop w s.mSocket retry 0 errno).tried.map Prod.fst := fun hmem => by
        simpa using (h.connected hmem).1
      refine ⟨fun h0 => ?_, fun hs => hno hs.1⟩
      subst h0
      simpa [connectLoop] using hend
    · rintro ⟨-, h⟩
      have hno : 0 ∉ (connectLoop w s.mSocket retry 0 errno).tried.map Prod.fst := fun hmem => by
        rcases hend with hfail | he
        · rw [hsome hmem] at hfail
          exact absurd hfail (by decide)
        · exact h ⟨hmem, he⟩
      exact ⟨hmade, hstops, fun hmem => absurd hmem hno, fun _ => ⟨rfl, rfl, rfl, rfl⟩⟩
  · rw [if_neg hend]
    constructor
    · intro h
      have hmem : 0 ∈ (connectLoop w s.mSocket retry 0 errno).tried.map Prod.fst := by
        by_contra hno
        simpa using (h.refused hno).1
      refine ⟨fun h0 => ?_, fun hs => hend (.inr hs.2)⟩
      subst h0
      simp [connectLoop] at hmem
    · rintro ⟨h0, -⟩
      have hmem : 0 ∈ (connectLoop w s.mSocket retry 0 errno).tried.map Prod.fst := by
        by_contra hno
        rcases hnone hno with hfail | he
        · exact hend (.inl hfail)
        · split at he
          · next hr => exact hend (.inr (he.trans (h0 hr)))
          · exact hend (.inr he)
      exact ⟨hmade, hstops, fun _ => ⟨rfl, rfl⟩, fun hno => absurd hmem hno⟩

def inVain : Attempt := ⟨.ok (), .ok (), .error einprogress, .ok 0, false, .ok 0, .ok ()⟩

def atOnce : Attempt := ⟨.ok (), .ok (), .ok (), .ok 0, false, .ok 0, .ok ()⟩

def waited : Attempt := ⟨.ok (), .ok (), .error einprogress, .ok 1, true, .ok 0, .ok ()⟩

def opened : Socket := ⟨3, true, false, false, false, 0, 0, "127.0.0.1", 0, "", 0, ⟨0, 0⟩, ⟨0, 0⟩⟩

def network (attempts : ℕ → Attempt) : Network :=
  ⟨fun _ => "", fun _ => some 0x100007f, .ok (), attempts, .ok ⟨0, 0⟩⟩

/-- A first attempt that times out, and a second one that waits for its connection. -/
theorem connect_reports_iff_second :
    Reports (network fun i => if i = 0 then inVain else waited) opened.mSocket 0 3
        (opened.connect (network fun i => if i = 0 then inVain else waited) "127.0.0.1"
          80 15 3 "127.0.0.1" 0 0) ↔
      (3 = 0 → (0 : ℤ) = etimedout) ∧
        ¬ StaleSuccess (network fun i => if i = 0 then inVain else waited) opened.mSocket 3 0 0 :=
  connect_reports_iff 80 15 3 rfl rfl rfl

/-- Without an attempt the object is taken for connected, and behind a timeout a connection is
closed. -/
theorem not_connect_reports :
    ¬ Reports (network fun _ => atOnce) opened.mSocket 0 0
        (opened.connect (network fun _ => atOnce) "127.0.0.1" 80 15 0 "127.0.0.1" 0 0) ∧
      ¬ Reports (network fun i => if i = 0 then inVain else atOnce) opened.mSocket 0 2
        (opened.connect (network fun i => if i = 0 then inVain else atOnce) "127.0.0.1"
          80 15 2 "127.0.0.1" 0 0) := by
  constructor
  · intro h
    exact absurd (h.refused (by decide)).1 (by decide)
  · intro h
    exact absurd (h.connected (by decide)).1 (by decide)

end Connect

end Socket

end YlUtils
