import YlUtils.Cache.Manager
import YlUtils.Files.FileSystem
import YlUtils.Machine.Representation

/-! # Saving and loading the cache

The cache is kept in three files, as it lies in memory. The arrays of an object
are deleted before the files are read, and there are new ones once the size is
known. The caller's view of a cache is what its calls return and evict.
-/

namespace YlUtils

def TLink.representation : Representation TLink :=
  (Representation.int.prod .int).map (fun p => ⟨p.1, p.2⟩) (fun l => (l.next, l.prev)) fun _ => rfl

def TSign.representation : Representation TSign :=
  (Representation.word.prod .word).map (fun p => ⟨p.1, p.2⟩) (fun s => (s.sign1, s.sign2))
    fun _ => rfl

/-- The members after the value are aligned to 4 bytes, and the whole as the member that is aligned
most. -/
def Item.representation {T : Type} (R : PlainData T) : Representation (Item T) :=
  ((((R.align 4).prod TSign.representation).prod TLink.representation).prod
      TLink.representation).align (max 4 R.alignment) |>.map
    (fun p => ⟨p.1.1.1, p.1.1.2, p.1.2, p.2⟩)
    (fun it => (((it.value, it.sign), it.hashlink), it.link)) fun _ => rfl

namespace CacheManager

variable {T : Type}

/-- What `pidx` and `pvalue` point to. -/
inductive Arrays
  | null
  | held
  | freed
  deriving DecidableEq

/-- An object of the class. -/
structure Object (T : Type) where
  cache : CacheManager T
  arrays : Arrays
  /-- A path, without a zero byte. -/
  dataDir : Bytes

namespace Object

def setDataDir (o : Object T) (dir : Bytes) : Object T := { o with dataDir := dir }

def headPath (dir : Bytes) : Bytes := dir ++ [47, 99, 97, 99, 104, 101, 46, 104, 101, 97, 100]

def idx1Path (dir : Bytes) : Bytes := dir ++ [47, 99, 97, 99, 104, 101, 46, 105, 100, 120, 49]

def idx2Path (dir : Bytes) : Bytes := dir ++ [47, 99, 97, 99, 104, 101, 46, 105, 100, 120, 50]

/-- The `delete[]` of both arrays, unless the pointers are `NULL`. Arrays are not deleted twice. -/
def deleteArrays (o : Object T) : Option (Object T) :=
  match o.arrays with
  | .null => some o
  | .held => some { o with arrays := .freed }
  | .freed => none

def init (o : Object T) (s : UInt32) (fresh : ℤ → T × TSign) : Option (Object T) := do
  let o ← o.deleteArrays
  let c ← o.cache.init s fresh
  some { o with cache := c, arrays := .held }

/-- The fields that `load` takes from the head, and the arrays that it allocates. -/
def readHead (o : Object T) (buf newIdx : ℤ → ℤ) (newValue : ℤ → Item T) : Object T :=
  { o with
    cache := { o.cache with
      size := .ofInt (buf 0)
      freeListSize := .ofInt (buf 1)
      freeList := ⟨buf 2, buf 3⟩
      busyList := ⟨buf 4, buf 5⟩
      pidx := newIdx
      pvalue := newValue }
    arrays := .held }

/-- `load`, with what it returns. New arrays hold `newIdx` and `newValue`. -/
def load (R : PlainData T) (fs : Files) (newIdx : ℤ → ℤ) (newValue : ℤ → Item T) (o : Object T) :
    Option (Object T × Bool) := do
  let o ← o.deleteArrays
  let head := Representation.int.fread 6 (fs (headPath o.dataDir)) fun _ => 0
  if !head.2 then some (o, false)
  else
    let o := o.readHead head.1 newIdx newValue
    let idx := Representation.int.fread o.cache.size.toNat (fs (idx1Path o.dataDir)) o.cache.pidx
    let o := { o with cache.pidx := idx.1 }
    if !idx.2 then some (o, false)
    else
      let values := (Item.representation R).fread o.cache.size.toNat (fs (idx2Path o.dataDir))
        o.cache.pvalue
      some ({ o with cache.pvalue := values.1 }, values.2)

def writeFiles (R : PlainData T) (fs : Files) (o : Object T) : Files :=
  let c := o.cache
  let head := headPath o.dataDir
  let fs := fs.openWrite head
  let fs := fs.fwrite head (Representation.word.bytes c.size)
  let fs := fs.fwrite head (Representation.word.bytes c.freeListSize)
  let fs := fs.fwrite head (TLink.representation.bytes c.freeList)
  let fs := fs.fwrite head (TLink.representation.bytes c.busyList)
  let idx1 := idx1Path o.dataDir
  let fs := fs.openWrite idx1
  let fs := fs.fwrite idx1 (Representation.int.arrayBytes c.size.toNat c.pidx)
  let idx2 := idx2Path o.dataDir
  let fs := fs.openWrite idx2
  fs.fwrite idx2 ((Item.representation R).arrayBytes c.size.toNat c.pvalue)

/-- `save` of a cache that has its arrays, as it returns `true`. -/
def save (R : PlainData T) (fs : Files) (o : Object T) : Option Files :=
  if o.arrays = .held then some (o.writeFiles R fs) else none

def call (o : Object T) (e : Call T) : Option (Object T × Option T) :=
  if o.arrays = .held then do
    let r ← o.cache.call e
    some ({ o with cache := r.1 }, r.2)
  else none

/-- The state after a sequence of calls. -/
def run (o : Object T) (calls : List (Call T)) : Option (Object T) :=
  calls.foldlM (fun o e => (·.1) <$> o.call e) o

end Object

/-- The signatures and values that the rounds of `reclaim` take out, in their order. -/
def reclaimed : ℕ → CacheManager T → Option (List (TSign × T))
  | 0, _ => some []
  | n + 1, c => do
    let it ← c.item c.busyList.next
    let d ← c.reclaimOne
    let rest ← reclaimed n d
    some ((it.sign, it.value) :: rest)

def evictions (c : CacheManager T) : Call T → Option (List (TSign × T))
  | .insert _ _ => if c.freeListSize = 0 then reclaimed (c.size / 10).toNat c else some []
  | _ => some []

/-- What a sequence of calls returns and evicts, call by call. -/
def Object.observe (o : Object T) : List (Call T) → Option (List (Option T × List (TSign × T)))
  | [] => some []
  | e :: es => do
    let evicted ← o.cache.evictions e
    let r ← o.call e
    let rest ← r.1.observe es
    some ((r.2, evicted) :: rest)

end CacheManager

end YlUtils
