import YlUtils.Concurrency.Schedule
import YlUtils.Net.Socket

/-! # The server socket

The object holds one descriptor. What its calls do with descriptors is recorded,
and `bind` accounts for the descriptor that it opens, but not for one that the
object holds before.
-/

namespace YlUtils

structure ServerSocket where
  mSocket : ℤ
  mReuseAddress : Bool
  mNoDelay : Bool
  mBound : Bool
  mClosed : Bool
  mSockAddr : SockAddr
  deriving DecidableEq, Repr

namespace ServerSocket

inductive Event
  | opened (fd : ℤ)
  | listening (fd : ℤ)
  | closed (fd : ℤ)
  deriving DecidableEq, Repr

/-- The outcomes of the system calls of one `bind`; an error is the `errno` it sets, and `errno` is
that from before the call. -/
structure Calls where
  strerror : ℤ → String
  errno : ℤ
  socket : Except ℤ ℕ
  noDelay : Except ℤ Unit
  inetAton : String → Option UInt32
  reuseAddress : Except ℤ Unit
  bind : Except ℤ Unit
  getsockname : Except ℤ SockAddr
  listen : ℤ → Except ℤ Unit

/-- How a call ends: the object, the message if it throws, and what happened to descriptors. -/
structure Result where
  object : ServerSocket
  thrown : Option String
  events : List Event

/-- The constructor, which leaves `mNoDelay` as the memory has it. -/
def init (mNoDelay : Bool) : ServerSocket := ⟨-1, false, mNoDelay, false, true, ⟨0, 0⟩⟩

def close (s : ServerSocket) (strerror : ℤ → String) (ret : Except ℤ Unit) : Result :=
  if s.mSocket ≠ -1 then
    match ret with
    | .error e => ⟨s, some ("ServerSocket::close() : error : " ++ strerror e), []⟩
    | .ok _ =>
      ⟨{ s with
        mSocket := -1
        mClosed := true
        mBound := false }, none, [.closed s.mSocket]⟩
  else ⟨s, none, []⟩

/-- An exit of `bind` that closes; the message is put together behind it. -/
def closeExit (s : ServerSocket) (c : Calls) (ret : Except ℤ Unit) (msg : ServerSocket → String) :
    Result :=
  let r := s.close c.strerror ret
  { r with thrown := some (r.thrown.getD (msg r.object)) }

def bindSocket (s : ServerSocket) (c : Calls) (ret : Except ℤ Unit) (hostname : String)
    (port backlog : ℤ) : Result :=
  let omsg := "ServerSocket::bind(" ++ hostname ++ "," ++ toString port ++ ") : "
  match if s.mNoDelay then c.noDelay else .ok () with
  | .error e => s.closeExit c ret fun s =>
      omsg ++ "setsockopt(" ++ toString s.mSocket ++ ") error : " ++ c.strerror e
  | .ok _ =>
    let s := { s with mSockAddr.sinPort := Socket.htons port }
    match c.inetAton hostname with
    | none => ⟨s, some (omsg ++ "inet_aton() error : " ++ c.strerror c.errno), []⟩
    | some sinAddr =>
      let s := { s with
        mSockAddr.sinAddr := sinAddr
        mClosed := false }
      match if s.mReuseAddress then c.reuseAddress else .ok () with
      | .error e => s.closeExit c ret fun s =>
          omsg ++ "setsockopt(" ++ toString s.mSocket ++ ") error : " ++ c.strerror e
      | .ok _ =>
        match c.bind with
        | .error e => s.closeExit c ret fun _ => omsg ++ "bind() error : " ++ c.strerror e
        | .ok _ =>
          match if port = 0 then c.getsockname else .ok s.mSockAddr with
          | .error e => s.closeExit c ret fun _ => omsg ++ "getsockname() error : " ++ c.strerror e
          | .ok addr =>
            let s := { s with mSockAddr := addr }
            match c.listen backlog with
            | .error e => s.closeExit c ret fun _ => omsg ++ "listen() error : " ++ c.strerror e
            | .ok _ => ⟨{ s with mBound := true }, none, [.listening s.mSocket]⟩

def bind (s : ServerSocket) (c : Calls) (ret : Except ℤ Unit) (hostname : String)
    (port backlog : ℤ) : Result :=
  match c.socket with
  | .error e => ⟨{ s with mSocket := -1 }, some ("ServerSocket::bind(" ++ hostname ++ "," ++
      toString port ++ ") : socket() error : " ++ c.strerror e), []⟩
  | .ok fd =>
    let r := { s with mSocket := fd }.bindSocket c ret hostname port backlog
    { r with events := .opened fd :: r.events }

def bindLocal (s : ServerSocket) (c : Calls) (ret : Except ℤ Unit) (port backlog : ℤ) : Result :=
  s.bind c ret "127.0.0.1" port backlog

def setReuseAddress (s : ServerSocket) (on : Bool) : Result :=
  ⟨{ s with mReuseAddress := on }, none, []⟩

def setNoDelay (s : ServerSocket) (on : Bool) : Result :=
  ⟨{ s with mNoDelay := on }, none, []⟩

inductive Act
  | close
  | bind (c : Calls) (hostname : String) (port backlog : ℤ)
  | bindLocal (c : Calls) (port backlog : ℤ)
  | setReuseAddress (on : Bool)
  | setNoDelay (on : Bool)

def call (s : ServerSocket) : Act → Result
  | .close => s.close (fun _ => "") (.ok ())
  | .bind c hostname port backlog => s.bind c (.ok ()) hostname port backlog
  | .bindLocal c port backlog => s.bindLocal c (.ok ()) port backlog
  | .setReuseAddress on => s.setReuseAddress on
  | .setNoDelay on => s.setNoDelay on

def step (s : ServerSocket) (a : Act) : Outcome (ServerSocket × List Event) :=
  .ok ((s.call a).object, (s.call a).events)

def listens (fd : ℤ) (h : List Event) : Prop :=
  (h.filter fun e => e = .opened fd ∨ e = .listening fd ∨ e = .closed fd).getLast? =
    some (.listening fd)

/-- Every descriptor that was opened is the one that is held or was closed once; a descriptor that
is opened again counts again. -/
def Accounts (mSocket : ℤ) (h : List Event) : Prop :=
  ∀ fd, fd ≠ -1 → h.count (.opened fd) = h.count (.closed fd) + if mSocket = fd then 1 else 0

/-- The object is closed exactly if it holds no descriptor, the descriptor of a bound object
listens, and none is lost. -/
structure Inv (s : ServerSocket) (h : List Event) : Prop where
  closed : s.mClosed = true ↔ s.mSocket = -1
  bound : s.mBound = true → s.mSocket ≠ -1 ∧ listens s.mSocket h
  accounts : Accounts s.mSocket h

/-- The exit of `bind` that does not close: there is a socket, but the host is no address. -/
def NoAddress (s : ServerSocket) (c : Calls) (hostname : String) : Prop :=
  (∃ fd, c.socket = .ok fd) ∧ (s.mNoDelay = true → c.noDelay = .ok ()) ∧
    c.inetAton hostname = none

/-- A call of `bind` finds no descriptor in the object and does not take the exit that does not
close. -/
def Tidy (s : ServerSocket) : Act → Prop
  | .bind c hostname _ _ => s.mSocket = -1 ∧ ¬ s.NoAddress c hostname
  | .bindLocal c _ _ => s.mSocket = -1 ∧ ¬ s.NoAddress c "127.0.0.1"
  | _ => True

section Bind

variable {s : ServerSocket} {c : Calls} {hostname : String} {port backlog : ℤ}

inductive Exits (s : ServerSocket) (c : Calls) (hostname : String) (r : Result) : Prop
  | noSocket : ¬ s.NoAddress c hostname → r.object = { s with mSocket := -1 } → r.events = [] →
      Exits s c hostname r
  | closes (fd : ℕ) : ¬ s.NoAddress c hostname → r.object.mSocket = -1 →
      r.object.mClosed = true → r.object.mBound = false → r.events = [.opened fd, .closed fd] →
      Exits s c hostname r
  | noAddress (fd : ℕ) : s.NoAddress c hostname → r.object.mSocket = fd →
      r.object.mClosed = s.mClosed → r.events = [.opened fd] → Exits s c hostname r
  | binds (fd : ℕ) : ¬ s.NoAddress c hostname → r.object.mSocket = fd →
      r.object.mClosed = false → r.object.mBound = true →
      r.events = [.opened fd, .listening fd] → Exits s c hostname r

theorem closeExit_exits {fd : ℕ} (hs : s.mSocket = fd) {s₀ : ServerSocket} {msg}
    (hno : ¬ s₀.NoAddress c hostname) :
    Exits s₀ c hostname { s.closeExit c (.ok ()) msg with
      events := .opened fd :: (s.closeExit c (.ok ()) msg).events } := by
  have hopen : s.mSocket ≠ -1 := by omega
  have hclose : s.close c.strerror (.ok ()) =
      ⟨{ s with mSocket := -1, mClosed := true, mBound := false }, none, [.closed s.mSocket]⟩ := by
    rw [close, if_pos hopen]
  have hobject : (s.closeExit c (.ok ()) msg).object =
      { s with mSocket := -1, mClosed := true, mBound := false } := by
    rw [closeExit, hclose]
  have hevents : (s.closeExit c (.ok ()) msg).events = [.closed fd] := by
    rw [closeExit, hclose, hs]
  refine .closes fd hno ?_ ?_ ?_ ?_
  · rw [hobject]
  · rw [hobject]
  · rw [hobject]
  · rw [hevents]

theorem bindSocket_exits {fd : ℕ} (hfd : c.socket = .ok fd) (hs : s.mSocket = fd)
    {s₀ : ServerSocket} (hdelay : s.mNoDelay = s₀.mNoDelay) (hclosed : s.mClosed = s₀.mClosed) :
    Exits s₀ c hostname { s.bindSocket c (.ok ()) hostname port backlog with
      events := .opened fd :: (s.bindSocket c (.ok ()) hostname port backlog).events } := by
  unfold bindSocket
  cases hd : (if s.mNoDelay then c.noDelay else .ok ()) with
  | error e =>
    refine closeExit_exits hs ?_
    rintro ⟨-, hok, -⟩
    cases hn : s.mNoDelay with
    | false => simp [hn] at hd
    | true => simp [hn, hok (hdelay ▸ hn)] at hd
  | ok _ =>
    have hok : s₀.mNoDelay = true → c.noDelay = .ok () := by
      intro hn
      rwa [hdelay, if_pos hn] at hd
    dsimp only
    cases ha : c.inetAton hostname with
    | none => exact .noAddress fd ⟨⟨fd, hfd⟩, hok, ha⟩ hs hclosed rfl
    | some sinAddr =>
      have hno : ¬ s₀.NoAddress c hostname := fun ⟨_, _, h⟩ => by simp [ha] at h
      dsimp only
      cases if s.mReuseAddress then c.reuseAddress else .ok () with
      | error e =>
        dsimp only
        refine closeExit_exits ?_ hno
        exact hs
      | ok _ =>
        dsimp only
        cases c.bind with
        | error e =>
          dsimp only
          refine closeExit_exits ?_ hno
          exact hs
        | ok _ =>
          dsimp only
          cases if port = 0 then c.getsockname else .ok ⟨Socket.htons port, sinAddr⟩ with
          | error e =>
            dsimp only
            refine closeExit_exits ?_ hno
            exact hs
          | ok addr =>
            dsimp only
            cases c.listen backlog with
            | error e =>
              dsimp only
              refine closeExit_exits ?_ hno
              exact hs
            | ok _ => exact .binds fd hno hs rfl rfl (by rw [hs])

theorem bind_exits (s : ServerSocket) (c : Calls) (hostname : String) (port backlog : ℤ) :
    Exits s c hostname (s.bind c (.ok ()) hostname port backlog) := by
  unfold bind
  cases hfd : c.socket with
  | error e => exact .noSocket (fun ⟨⟨fd, h⟩, _⟩ => by simp [hfd] at h) rfl rfl
  | ok fd => exact bindSocket_exits hfd rfl rfl rfl

end Bind

section Accounts

variable {m m' : ℤ} {h e : List Event}

theorem accounts_append_iff (hm : Accounts m h) (he : Accounts m' e) :
    Accounts m' (h ++ e) ↔ m = -1 := by
  constructor
  · intro happ
    by_contra hne
    have hold := hm m hne
    have hnew := he m hne
    have hboth := happ m hne
    rw [if_pos rfl] at hold
    rw [List.count_append, List.count_append] at hboth
    omega
  · rintro rfl fd hfd
    have hold := hm fd hfd
    have hnew := he fd hfd
    rw [if_neg (Ne.symm hfd)] at hold
    rw [List.count_append, List.count_append]
    omega

theorem accounts_closes (fd : ℤ) : Accounts (-1) [.opened fd, .closed fd] := by
  intro fd' hfd'
  simp [List.count_cons, Ne.symm hfd']

theorem accounts_binds (fd : ℤ) : Accounts fd [.opened fd, .listening fd] := by
  intro fd' _
  simp [List.count_cons]

theorem accounts_noAddress (fd : ℤ) : Accounts fd [.opened fd] := by
  intro fd' _
  simp [List.count_cons]

theorem accounts_close (hm : Accounts m h) : Accounts (-1) (h ++ [.closed m]) := by
  intro fd hfd
  have hold := hm fd hfd
  rw [if_neg (Ne.symm hfd), List.count_append, List.count_append]
  by_cases hfd' : m = fd
  · subst hfd'
    simp at hold ⊢
    omega
  · simp [hfd'] at hold ⊢
    omega

theorem Exits.accounts {s : ServerSocket} {c : Calls} {hostname : String} {r : Result}
    (hr : Exits s c hostname r) : Accounts r.object.mSocket r.events := by
  cases hr with
  | noSocket _ hobject hevents =>
    rw [hobject, hevents]
    intro fd hfd
    simp [Ne.symm hfd]
  | closes fd _ hm _ _ hevents =>
    rw [hm, hevents]
    exact accounts_closes fd
  | noAddress fd _ hm _ hevents =>
    rw [hm, hevents]
    exact accounts_noAddress fd
  | binds fd _ hm _ _ hevents =>
    rw [hm, hevents]
    exact accounts_binds fd

theorem listens_binds (fd : ℤ) (h : List Event) :
    listens fd (h ++ [.opened fd, .listening fd]) := by
  simp [listens, List.filter_append]

end Accounts

section Runs

variable {s : ServerSocket} {h : List Event} {c : Calls} {hostname : String} {r : Result}

theorem Inv.close (hinv : Inv s h) (strerror : ℤ → String) :
    Inv (s.close strerror (.ok ())).object (h ++ (s.close strerror (.ok ())).events) := by
  unfold ServerSocket.close
  by_cases hopen : s.mSocket ≠ -1
  · rw [if_pos hopen]
    exact ⟨by simp, by simp, accounts_close hinv.accounts⟩
  · rw [if_neg hopen]
    simpa using hinv

/-- Behind a `bind` the descriptors are as they should be exactly if the object held none before and
the host is an address. -/
theorem Exits.inv_iff (hr : Exits s c hostname r) (hinv : Inv s h) :
    Inv r.object (h ++ r.events) ↔ s.mSocket = -1 ∧ ¬ s.NoAddress c hostname := by
  have hacc := accounts_append_iff hinv.accounts hr.accounts
  have hwas : s.mSocket = -1 → s.mClosed = true ∧ s.mBound ≠ true := fun hs =>
    ⟨hinv.closed.mpr hs, fun hb => (hinv.bound hb).1 hs⟩
  constructor
  · intro hnew
    have hs := hacc.mp hnew.accounts
    refine ⟨hs, fun hno => ?_⟩
    cases hr with
    | noSocket hnot | closes _ hnot | binds _ hnot => exact hnot hno
    | noAddress fd _ hm hclosed _ =>
      have := hnew.closed.mp (hclosed.trans (hwas hs).1)
      omega
  · rintro ⟨hs, hnot⟩
    refine ⟨?_, ?_, hacc.mpr hs⟩
    · cases hr with
      | noSocket _ hobject _ => simp [hobject, hwas hs]
      | closes fd _ hm hclosed _ _ => simp [hm, hclosed]
      | noAddress fd hno _ _ _ => exact absurd hno hnot
      | binds fd _ hm hclosed _ _ =>
        have : (fd : ℤ) ≠ -1 := by omega
        simp [hm, hclosed, this]
    · cases hr with
      | noSocket _ hobject _ => simp [hobject, hwas hs]
      | closes fd _ hm _ hbound _ => simp [hbound]
      | noAddress fd hno _ _ _ => exact absurd hno hnot
      | binds fd _ hm _ _ hevents =>
        intro _
        rw [hm, hevents]
        exact ⟨by omega, listens_binds fd h⟩

theorem tidy_iff_step_inv (hinv : Inv s h) (a : Act) :
    Tidy s a ↔ (step s a).Holds fun (s', e) => Inv s' (h ++ e) := by
  cases a with
  | close => exact iff_of_true trivial (hinv.close fun _ => "")
  | bind c hostname port backlog =>
    exact ((bind_exits s c hostname port backlog).inv_iff hinv).symm
  | bindLocal c port backlog =>
    exact ((bind_exits s c "127.0.0.1" port backlog).inv_iff hinv).symm
  | setReuseAddress on =>
    have hinv' : Inv { s with mReuseAddress := on } h :=
      ⟨hinv.closed, hinv.bound, hinv.accounts⟩
    simpa [step, call, setReuseAddress, Tidy] using hinv'
  | setNoDelay on =>
    have hinv' : Inv { s with mNoDelay := on } h := ⟨hinv.closed, hinv.bound, hinv.accounts⟩
    simpa [step, call, setNoDelay, Tidy] using hinv'

theorem inv_init (mNoDelay : Bool) : Inv (init mNoDelay) [] := by
  refine ⟨by simp [init], by simp [init], ?_⟩
  intro fd hfd
  simp [init, Ne.symm hfd]

/-- The descriptors are as they should be behind every call exactly if every `bind` finds no
descriptor in the object and the host is an address. -/
theorem inv_iff_tidy (mNoDelay : Bool) (as : List Act) :
    (∀ bs, bs <+: as → (Schedule.run step (init mNoDelay) bs).Holds fun (s, h) => Inv s h) ↔
      Schedule.Meets step Tidy (init mNoDelay) as :=
  Schedule.forall_prefix_holds_iff (P := Inv) (fun _ _ a hinv => tidy_iff_step_inv hinv a)
    (inv_init mNoDelay) as

def namedHost : Calls where
  strerror _ := ""
  errno := 0
  socket := .ok 3
  noDelay := .ok ()
  inetAton _ := none
  reuseAddress := .ok ()
  bind := .ok ()
  getsockname := .ok ⟨0, 0⟩
  listen _ := .ok ()

/-- With a name for the host the socket stays open in an object that says that it is closed. -/
theorem not_inv : ¬ ∀ (mNoDelay : Bool) (as : List Act),
    (Schedule.run step (init mNoDelay) as).Holds fun (s, h) => Inv s h := by
  intro hinv
  have hfail : Inv { init false with
      mSocket := 3
      mSockAddr := ⟨Socket.htons 80, 0⟩ } [.opened 3] :=
    hinv false [.bind namedHost "localhost" 80 20]
  exact absurd (hfail.closed.mp rfl) (by decide)

end Runs

end ServerSocket

end YlUtils
