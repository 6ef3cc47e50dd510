import Mathlib.Logic.Function.Basic
import YlUtils.Machine.Int
import YlUtils.Sign.UlPrime

/-! # The cache manager

All slots of the cache lie in one array. A slot is on the free list or on the
busy list through its `link` fields, and a busy slot is also on the collision
chain of its bucket through its `hashlink` fields. An operation returns `none`
where the source would index an array out of its bounds, or would walk a chain
for longer than the array has slots.
-/

namespace YlUtils

/-- The successor and the predecessor of a slot, or the first and the last slot of a list. -/
structure TLink where
  next : ℤ
  prev : ℤ
  deriving DecidableEq, Repr

structure Item (T : Type) where
  value : T
  sign : TSign
  hashlink : TLink
  link : TLink

/-- The comparison of signatures in `CacheManager.h`, which compares the second
word of its second argument with itself. -/
def TSign.eq (sign1 sign2 : TSign) : Bool :=
  sign1.sign1 == sign2.sign1 && sign2.sign2 == sign2.sign2

/-- The bucket of a signature in a cache of the given size. -/
def TSign.bucket (sign : TSign) (size : UInt32) : ℤ := intOf ((sign.sign1 + sign.sign2) % size)

/-- A cache of `size` slots. The arrays are total here, and read and written
through the accessors below. -/
structure CacheManager (T : Type) where
  size : UInt32
  pvalue : ℤ → Item T
  pidx : ℤ → ℤ
  freeList : TLink
  busyList : TLink
  freeListSize : UInt32
  visitCnt : UInt32
  hitCnt : UInt32
  /-- The pairs of counters written to the statistics file. -/
  fstat : List (UInt32 × UInt32)

namespace CacheManager

variable {T : Type}

def InRange (c : CacheManager T) (k : ℤ) : Prop := 0 ≤ k ∧ k < c.size.toNat

instance (c : CacheManager T) (k : ℤ) : Decidable (c.InRange k) :=
  inferInstanceAs (Decidable (_ ∧ _))

def item (c : CacheManager T) (k : ℤ) : Option (Item T) :=
  if c.InRange k then some (c.pvalue k) else none

def modifyItem (c : CacheManager T) (k : ℤ) (f : Item T → Item T) : Option (CacheManager T) :=
  if c.InRange k then some { c with pvalue := Function.update c.pvalue k (f (c.pvalue k)) }
  else none

def bucket (c : CacheManager T) (i : ℤ) : Option ℤ :=
  if c.InRange i then some (c.pidx i) else none

def setBucket (c : CacheManager T) (i v : ℤ) : Option (CacheManager T) :=
  if c.InRange i then some { c with pidx := Function.update c.pidx i v } else none

/-- Reinitialise a cache for `s` slots. The values and signatures of the new
slots are what the new array happens to hold. -/
def init (c : CacheManager T) (s : UInt32) (fresh : ℤ → T × TSign) : Option (CacheManager T) := do
  let c := { c with
    size := s
    pidx := fun _ => -1
    pvalue := fun i => {
      value := (fresh i).1
      sign := (fresh i).2
      hashlink := ⟨-1, -1⟩
      link := ⟨intOf (UInt32.ofNat i.toNat + 1), intOf (UInt32.ofNat i.toNat - 1)⟩ }
    freeListSize := s
    freeList := ⟨0, intOf (s - 1)⟩
    busyList := ⟨-1, -1⟩ }
  let c ← c.modifyItem 0 fun it => { it with link.prev := -1 }
  c.modifyItem (s - 1).toNat fun it => { it with link.next := -1 }

def getFromFreeList (c : CacheManager T) : Option (ℤ × CacheManager T) := do
  let ret := c.freeList.next
  let it ← c.item ret
  let c ← (if it.link.next = -1 then some { c with freeList.prev := -1 }
    else c.modifyItem it.link.next fun n => { n with link.prev := -1 })
  let it ← c.item ret
  some (ret, { c with freeList.next := it.link.next, freeListSize := c.freeListSize - 1 })

def insertIntoFreeList (c : CacheManager T) (pos : ℤ) : Option (CacheManager T) := do
  let k := c.freeList.prev
  let c ← (if k = -1 then do
      let c := { c with freeList := ⟨pos, pos⟩ }
      c.modifyItem pos fun it => { it with link := ⟨-1, -1⟩ }
    else do
      let c := { c with freeList.prev := pos }
      let c ← c.modifyItem k fun it => { it with link.next := pos }
      c.modifyItem pos fun it => { it with link := ⟨-1, k⟩ })
  some { c with freeListSize := c.freeListSize + 1 }

def insertIntoBusyList (c : CacheManager T) (pos : ℤ) : Option (CacheManager T) := do
  let k := c.busyList.prev
  if k = -1 then do
    let c := { c with busyList := ⟨pos, pos⟩ }
    c.modifyItem pos fun it => { it with link := ⟨-1, -1⟩ }
  else do
    let c := { c with busyList.prev := pos }
    let c ← c.modifyItem k fun it => { it with link.next := pos }
    c.modifyItem pos fun it => { it with link := ⟨-1, k⟩ }

def delFromBusyList (c : CacheManager T) (pos : ℤ) : Option (CacheManager T) := do
  let it ← c.item pos
  let c ← (if it.link.prev = -1 then some { c with busyList.next := it.link.next }
    else c.modifyItem it.link.prev fun p => { p with link.next := it.link.next })
  let it ← c.item pos
  if it.link.next = -1 then some { c with busyList.prev := it.link.prev }
  else c.modifyItem it.link.next fun n => { n with link.prev := it.link.prev }

/-- Take a slot out of the chain of bucket `index`, as `reclaim` and `remove` do in place. -/
def delFromHashList (c : CacheManager T) (index k : ℤ) : Option (CacheManager T) := do
  let it ← c.item k
  let c ← (if it.hashlink.prev = -1 then c.setBucket index it.hashlink.next
    else c.modifyItem it.hashlink.prev fun p => { p with hashlink.next := it.hashlink.next })
  let it ← c.item k
  if it.hashlink.next = -1 then some c
  else c.modifyItem it.hashlink.next fun n => { n with hashlink.prev := it.hashlink.prev }

/-- One round of the loop of `reclaim`. -/
def reclaimOne (c : CacheManager T) : Option (CacheManager T) := do
  let k := c.busyList.next
  let c ← c.delFromBusyList k
  let it ← c.item k
  let c ← c.delFromHashList (it.sign.bucket c.size) k
  c.insertIntoFreeList k

def reclaimLoop : ℕ → CacheManager T → Option (CacheManager T)
  | 0, c => some c
  | n + 1, c => c.reclaimOne >>= reclaimLoop n

/-- Free the slots at the front of the busy list; `(u_int)(size * 0.1)` is the
integer part of a tenth of the size. -/
def reclaim (c : CacheManager T) : Option (CacheManager T) :=
  reclaimLoop (c.size / 10).toNat c

/-- The `do … while` loop over a chain, at most `fuel` slots long: the first
slot whose signature compares equal. -/
def walk (c : CacheManager T) (sign : TSign) : ℕ → ℤ → Option (Option ℤ)
  | 0, _ => none
  | fuel + 1, vi => do
    let it ← c.item vi
    if it.sign.eq sign then some (some vi)
    else if it.hashlink.next = -1 then some none
    else c.walk sign fuel it.hashlink.next

def search (c : CacheManager T) (sign : TSign) : Option (Option ℤ) := do
  let head ← c.bucket (sign.bucket c.size)
  if head = -1 then some none else c.walk sign c.size.toNat head

/-- The part of `insert` that stores a new entry, with the slot it took. -/
def insertNew (c : CacheManager T) (sign : TSign) (value : T) :
    Option (ℤ × CacheManager T) := do
  let index := sign.bucket c.size
  let (pos, c) ← c.getFromFreeList
  let head ← c.bucket index
  let c ← c.modifyItem pos fun it =>
    { it with value := value, sign := sign, hashlink := ⟨head, -1⟩ }
  let c ← (if head = -1 then some c
    else c.modifyItem head fun it => { it with hashlink.prev := pos })
  let c ← c.setBucket index pos
  let c ← c.insertIntoBusyList pos
  some (pos, c)

def makeRoom (c : CacheManager T) : Option (CacheManager T) :=
  if c.freeListSize = 0 then c.reclaim else some c

def insertSign (c : CacheManager T) (sign : TSign) (value : T) : Option (CacheManager T) := do
  let c ← c.makeRoom
  match ← c.search sign with
  | some vi => c.modifyItem vi fun it => { it with value := value }
  | none => (·.2) <$> c.insertNew sign value

def removeSign (c : CacheManager T) (sign : TSign) : Option (CacheManager T) := do
  let index := sign.bucket c.size
  match ← c.search sign with
  | some vi =>
    let c ← c.delFromBusyList vi
    let c ← c.insertIntoFreeList vi
    c.delFromHashList index vi
  | none => some c

/-- The counters and the statistics line at the end of `find`. -/
def recordVisit (c : CacheManager T) : CacheManager T :=
  if c.hitCnt > c.visitCnt then { c with hitCnt := 0, visitCnt := 0 }
  else if c.visitCnt % 500 = 0 then { c with fstat := c.fstat ++ [(c.visitCnt, c.hitCnt)] }
  else c

/-- `find` returns the value it stores through its reference argument on a hit. -/
def findSign (c : CacheManager T) (sign : TSign) : Option (CacheManager T × Option T) := do
  let c := { c with visitCnt := c.visitCnt + 1 }
  match ← c.search sign with
  | some vi =>
    let it ← c.item vi
    let c ← c.delFromBusyList vi
    let c ← c.insertIntoBusyList vi
    some ({ c with hitCnt := c.hitCnt + 1 }.recordVisit, some it.value)
  | none => some (c.recordVisit, none)

def insert (c : CacheManager T) (key : Bytes) (value : T) : Option (CacheManager T) := do
  let sign ← YeeSign.getSignCStr key
  c.insertSign sign value

def remove (c : CacheManager T) (key : Bytes) : Option (CacheManager T) := do
  let sign ← YeeSign.getSignCStr key
  c.removeSign sign

def find (c : CacheManager T) (key : Bytes) : Option (CacheManager T × Option T) := do
  let sign ← YeeSign.getSignCStr key
  c.findSign sign

inductive Call (T : Type) where
  | insert (key : Bytes) (value : T)
  | remove (key : Bytes)
  | find (key : Bytes)

def call (c : CacheManager T) : Call T → Option (CacheManager T × Option T)
  | .insert key value => (·, none) <$> c.insert key value
  | .remove key => (·, none) <$> c.remove key
  | .find key => c.find key

def run (c : CacheManager T) (calls : List (Call T)) : Option (CacheManager T) :=
  calls.foldlM (fun c e => (·.1) <$> c.call e) c

/-- The calls once the signature of the key is found. -/
inductive Op (T : Type) where
  | insert (sign : TSign) (value : T)
  | remove (sign : TSign)
  | find (sign : TSign)

def Op.sign : Op T → TSign
  | .insert sign _ => sign
  | .remove sign => sign
  | .find sign => sign

def Call.op : Call T → Option (Op T)
  | .insert key value => (YeeSign.getSignCStr key).map fun sign => .insert sign value
  | .remove key => (YeeSign.getSignCStr key).map .remove
  | .find key => (YeeSign.getSignCStr key).map .find

def callOp (c : CacheManager T) : Op T → Option (CacheManager T × Option T)
  | .insert sign value => (·, none) <$> c.insertSign sign value
  | .remove sign => (·, none) <$> c.removeSign sign
  | .find sign => c.findSign sign

def runOps (c : CacheManager T) (ops : List (Op T)) : Option (CacheManager T) :=
  ops.foldlM (fun c o => (·.1) <$> c.callOp o) c

def Call.key : Call T → Bytes
  | .insert key _ => key
  | .remove key => key
  | .find key => key

/-- The length of the key is an `int`. -/
def Call.Fits (e : Call T) : Prop := strlen e.key < 2 ^ 31

section Keys

variable {c : CacheManager T} {e : Call T} {calls : List (Call T)} {ops : List (Op T)}

theorem call_eq_bind (c : CacheManager T) (e : Call T) : c.call e = e.op.bind c.callOp := by
  cases e with
  | insert key value =>
    simp only [call, insert, Call.op]
    cases YeeSign.getSignCStr key <;> rfl
  | remove key =>
    simp only [call, remove, Call.op]
    cases YeeSign.getSignCStr key <;> rfl
  | find key =>
    simp only [call, find, Call.op]
    cases YeeSign.getSignCStr key <;> rfl

theorem run_eq_runOps (h : calls.map Call.op = ops.map some) : c.run calls = c.runOps ops := by
  induction calls generalizing c ops with
  | nil =>
    obtain rfl := List.map_eq_nil_iff.mp h.symm
    rfl
  | cons e calls ih =>
    obtain ⟨o, ops, rfl, ho, hops⟩ := List.map_eq_cons_iff.mp h.symm
    rw [run, runOps, List.foldlM_cons, List.foldlM_cons, call_eq_bind, ← ho, Option.bind_some]
    exact congrArg _ (funext fun d => ih (c := d) hops.symm)

theorem Call.op_insert {key : Bytes} {value : T} (h : strlen key < 2 ^ 31) :
    Call.op (.insert key value) = some (.insert (YeeSign.getSign key) value) :=
  congrArg (Option.map _) (YeeSign.getSignCStr_eq h)

theorem Call.op_remove {key : Bytes} (h : strlen key < 2 ^ 31) :
    Call.op (.remove key : Call T) = some (.remove (YeeSign.getSign key)) :=
  congrArg (Option.map _) (YeeSign.getSignCStr_eq h)

theorem Call.op_find {key : Bytes} (h : strlen key < 2 ^ 31) :
    Call.op (.find key : Call T) = some (.find (YeeSign.getSign key)) :=
  congrArg (Option.map _) (YeeSign.getSignCStr_eq h)

theorem Call.Fits.exists_op (h : e.Fits) : ∃ o, e.op = some o := by
  cases e with
  | insert key value => exact ⟨_, Call.op_insert h⟩
  | remove key => exact ⟨_, Call.op_remove h⟩
  | find key => exact ⟨_, Call.op_find h⟩

/-- The length of a key of `2 ^ 31` bytes is negative as an `int`. -/
theorem Call.op_long (value : T) : Call.op (.insert (List.replicate (2 ^ 31) 97) value) = none := by
  have hsign : YeeSign.getSignCStr (List.replicate (2 ^ 31) 97) = none :=
    YeeSign.getSignCStr_long (fun h => absurd (List.eq_of_mem_replicate h) (by decide))
      (List.length_replicate ▸ Nat.le_refl _) (by rw [List.length_replicate]; omega)
  rw [Call.op, hsign, Option.map_none]

theorem exists_ops (h : ∀ e ∈ calls, e.Fits) : ∃ ops : List (Op T),
    calls.map Call.op = ops.map some := by
  induction calls with
  | nil => exact ⟨[], rfl⟩
  | cons e calls ih =>
    obtain ⟨o, ho⟩ := (h e List.mem_cons_self).exists_op
    obtain ⟨ops, hops⟩ := ih fun e he => h e (List.mem_cons_of_mem _ he)
    exact ⟨o :: ops, by rw [List.map_cons, List.map_cons, ho, hops]⟩

end Keys

end CacheManager

end YlUtils
