import YlUtils.Machine.Int

/-! # The client socket

A connection is attempted a number of times. The outcomes of all system calls are
given, and a call that succeeds leaves `errno` as it is. What the source throws
is a message; the object is returned with it.
-/

namespace YlUtils

structure SockAddr where
  sinPort : UInt16
  sinAddr : UInt32
  deriving DecidableEq, Repr

structure Socket where
  mSocket : ℤ
  mBeInitialized : Bool
  mBeBound : Bool
  mBeConnected : Bool
  mBeClosed : Bool
  mConnectTimeout : ℤ
  mRetry : ℤ
  mLocalHost : String
  mLocalPort : ℤ
  mRemoteHost : String
  mRemotePort : ℤ
  mLocalSockAddr : SockAddr
  mRemoteSockAddr : SockAddr
  deriving DecidableEq, Repr

/-- The outcomes of the system calls of one `_connect`; an error is the `errno` it sets. Those of
calls that are not made do not count. -/
structure Attempt where
  getfl : Except ℤ Unit
  setfl : Except ℤ Unit
  connect : Except ℤ Unit
  select : Except ℤ ℕ
  isset : Bool
  getsockopt : Except ℤ ℤ
  restore : Except ℤ Unit

structure Network where
  strerror : ℤ → String
  inetAton : String → Option UInt32
  bind : Except ℤ Unit
  attempts : ℕ → Attempt
  getsockname : Except ℤ SockAddr

namespace Socket

def einprogress : ℤ := 115

def etimedout : ℤ := 110

/-- `htons` on a host that stores the low byte first. -/
def htons (port : ℤ) : UInt16 := UInt16.ofInt port <<< 8 ||| UInt16.ofInt port >>> 8

def close (s : Socket) : Socket := { s with
  mSocket := -1
  mBeInitialized := false
  mBeBound := false
  mBeConnected := false
  mBeClosed := true }

def bind (s : Socket) (w : Network) (port : ℤ) (localhostip : String) (errno : ℤ) :
    Socket × Option String :=
  if port < 0 then
    (s, some ("Socket::bind(" ++ toString port ++ ", " ++ localhostip ++ ") : port<0!!!"))
  else if port = 0 then (s, none)
  else if s.mBeBound then
    (s, some ("Socket::bind(" ++ toString port ++ ", " ++ localhostip ++
      ") :  Socket::mBeBound == true, you have bound."))
  else
    let s := { s with mLocalSockAddr.sinPort := htons port }
    match w.inetAton localhostip with
    | none => (s, some ("Socket::bind(" ++ localhostip ++ "," ++ toString port ++
        ") : inet_aton() error : " ++ w.strerror errno))
    | some sinAddr =>
      let s := { s with mLocalSockAddr.sinAddr := sinAddr }
      match w.bind with
      | .error e => (s, some ("Socket::bind(" ++ localhostip ++ "," ++ toString port ++
          ") : bind() error : " ++ w.strerror e))
      | .ok _ => ({ s with
          mLocalHost := localhostip
          mLocalPort := port
          mBeBound := true }, none)

def done (a : Attempt) (errno : ℤ) : ℤ × ℤ :=
  match a.restore with
  | .error e => (-1, e)
  | .ok _ => (0, errno)

/-- `_connect`: what it returns, and `errno` behind it. -/
def _connect (a : Attempt) (sockfd errno : ℤ) : ℤ × ℤ :=
  if sockfd = -1 then (-1, errno)
  else match a.getfl with
    | .error e => (-1, e)
    | .ok _ => match a.setfl with
      | .error e => (-1, e)
      | .ok _ => match a.connect with
        | .ok _ => done a errno
        | .error e =>
          if e ≠ einprogress then (-1, e)
          else match a.select with
            | .ok 0 => (-1, etimedout)
            | .error e => (-1, e)
            | .ok (_ + 1) =>
              if a.isset then
                match a.getsockopt with
                | .error e => (-1, e)
                | .ok error => if error ≠ 0 then (-1, error) else done a e
              else (-1, e)

/-- Where the `while` loop of `connect` is left: what each attempt returned and `errno` behind it,
`errno`, `retry`, and whether it is left by an error. -/
structure LoopEnd where
  tried : List (ℤ × ℤ)
  errno : ℤ
  retry : ℤ
  failed : Bool

def connectLoop (w : Network) (mSocket : ℤ) : ℕ → ℕ → ℤ → LoopEnd
  | 0, _, errno => ⟨[], errno, -1, false⟩
  | retry + 1, i, errno =>
    let (ret, errno) := _connect (w.attempts i) mSocket errno
    if ret = 0 then ⟨[(ret, errno)], errno, retry, false⟩
    else if errno = etimedout then
      let l := connectLoop w mSocket retry (i + 1) errno
      { l with tried := (ret, errno) :: l.tried }
    else ⟨[(ret, errno)], errno, retry, true⟩

/-- How `connect` ends: the object, the message if it throws, and its attempts. -/
structure Result where
  object : Socket
  thrown : Option String
  tried : List (ℤ × ℤ)

/-- `connect`, for a `retry` that is not negative. -/
def connect (s : Socket) (w : Network) (remotehostip : String) (port conntimeo : ℤ) (retry : ℕ)
    (localhostip : String) (localport errno : ℤ) : Result :=
  let s := { s with
    mConnectTimeout := conntimeo
    mRetry := retry
    mRemoteHost := remotehostip
    mRemotePort := port }
  let omsg (retry : ℤ) : String := "Socket::connect(" ++ remotehostip ++ ", " ++ toString port ++
    ", " ++ toString conntimeo ++ ", " ++ toString retry ++ ", " ++ localhostip ++ ", " ++
    toString localport ++ ") : "
  match s.bind w localport localhostip errno with
  | (s, some msg) => ⟨s, some msg, []⟩
  | (s, none) =>
    let s := { s with mRemoteSockAddr.sinPort := htons port }
    match w.inetAton remotehostip with
    | none => ⟨s, some (omsg retry ++ "inet_aton() error : " ++ w.strerror errno), []⟩
    | some sinAddr =>
      let s := { s with mRemoteSockAddr.sinAddr := sinAddr }
      let l := connectLoop w s.mSocket retry 0 errno
      if l.failed then ⟨s.close, some (omsg l.retry ++ w.strerror l.errno), l.tried⟩
      else if l.errno = etimedout then
        ⟨s.close, some (omsg l.retry ++ w.strerror l.errno), l.tried⟩
      else
        let s := { s with mBeConnected := true }
        match w.getsockname with
        | .error e => ⟨s, some ("Socket::connect(" ++ remotehostip ++ ", " ++ toString port ++
            ", " ++ toString l.retry ++ ", " ++ localhostip ++ ", " ++ toString localport ++
            ") : getsockname() error : " ++ w.strerror e), l.tried⟩
        | .ok addr => ⟨{ s with mLocalSockAddr := addr }, none, l.tried⟩

end Socket

end YlUtils
