import YlUtils.Cache.Manager
import YlUtils.Lists.Linked
import YlUtils.Runs.Succeeds

/-! # Field views of the cache

The slot array is read as separate tables of list links, chain links and
entries. Each list operation of the cache manager becomes one update of such a
table, which is the form the theory of linked lists speaks about; everything
else a cache holds is seen to be unchanged.
-/

namespace YlUtils

open Linked

namespace CacheManager

variable {T : Type}

/-- The contents of a cache with the fields of its slots as separate tables. -/
@[ext] structure View (T : Type) where
  size : UInt32
  link : Links ℤ
  hash : Links ℤ
  entry : ℤ → TSign × T
  pidx : ℤ → ℤ
  freeList : TLink
  busyList : TLink
  freeListSize : UInt32

def view (c : CacheManager T) : View T where
  size := c.size
  link := ⟨fun k => (c.pvalue k).link.next, fun k => (c.pvalue k).link.prev⟩
  hash := ⟨fun k => (c.pvalue k).hashlink.next, fun k => (c.pvalue k).hashlink.prev⟩
  entry k := ((c.pvalue k).sign, (c.pvalue k).value)
  pidx := c.pidx
  freeList := c.freeList
  busyList := c.busyList
  freeListSize := c.freeListSize

def View.InRange (w : View T) (k : ℤ) : Prop := 0 ≤ k ∧ k < w.size.toNat

abbrev Yields (m : Option (CacheManager T)) (w : View T) : Prop := Succeeds m fun d => d.view = w

variable {c : CacheManager T} {w : View T} {k v : ℤ}

theorem view_update (c : CacheManager T) (k : ℤ) (it : Item T) :
    { c with pvalue := Function.update c.pvalue k it }.view = { c.view with
      link := (c.view.link.setNext k it.link.next).setPrev k it.link.prev
      hash := (c.view.hash.setNext k it.hashlink.next).setPrev k it.hashlink.prev
      entry := Function.update c.view.entry k (it.sign, it.value) } := by
  simp only [view, Links.setNext, Links.setPrev, View.mk.injEq, Links.mk.injEq, true_and, and_true]
  refine ⟨⟨?_, ?_⟩, ⟨?_, ?_⟩, ?_⟩ <;> funext i <;> by_cases hi : i = k <;> simp [hi]

theorem modifyItem_yields (hc : c.view = w) (hk : w.InRange k) (f : Item T → Item T) :
    Yields (c.modifyItem k f) { w with
      link := (w.link.setNext k (f (c.pvalue k)).link.next).setPrev k (f (c.pvalue k)).link.prev
      hash := (w.hash.setNext k (f (c.pvalue k)).hashlink.next).setPrev k
        (f (c.pvalue k)).hashlink.prev
      entry := Function.update w.entry k ((f (c.pvalue k)).sign, (f (c.pvalue k)).value) } := by
  subst hc
  exact ⟨_, if_pos hk, view_update c k _⟩

theorem item_of_inRange (hc : c.view = w) (hk : w.InRange k) : c.item k = some (c.pvalue k) := by
  subst hc
  exact if_pos hk

theorem setNext_self (L : Links ℤ) (k : ℤ) : L.setNext k (L.next k) = L := by
  simp [Links.setNext]

theorem setPrev_self (L : Links ℤ) (k : ℤ) : L.setPrev k (L.prev k) = L := by
  simp [Links.setPrev]

theorem setNext_setPrev_self (L : Links ℤ) (k v : ℤ) :
    (L.setNext k v).setPrev k (L.prev k) = L.setNext k v := setPrev_self _ k

theorem pvalue_linkNext : (c.pvalue k).link.next = c.view.link.next k := rfl
theorem pvalue_linkPrev : (c.pvalue k).link.prev = c.view.link.prev k := rfl
theorem pvalue_hashNext : (c.pvalue k).hashlink.next = c.view.hash.next k := rfl
theorem pvalue_hashPrev : (c.pvalue k).hashlink.prev = c.view.hash.prev k := rfl
theorem pvalue_sign : (c.pvalue k).sign = (c.view.entry k).1 := rfl
theorem pvalue_value : (c.pvalue k).value = (c.view.entry k).2 := rfl

section Writes

attribute [local simp] setNext_self setPrev_self setNext_setPrev_self pvalue_linkNext
  pvalue_linkPrev pvalue_hashNext pvalue_hashPrev pvalue_sign pvalue_value

variable (hc : c.view = w) (hk : w.InRange k)
include hc hk

theorem modifyItem_linkNext : Yields (c.modifyItem k fun it => { it with link.next := v })
    { w with link := w.link.setNext k v } := by
  refine (modifyItem_yields hc hk _).mono fun d hd => hd.trans ?_
  subst hc
  simp

theorem modifyItem_linkPrev : Yields (c.modifyItem k fun it => { it with link.prev := v })
    { w with link := w.link.setPrev k v } := by
  refine (modifyItem_yields hc hk _).mono fun d hd => hd.trans ?_
  subst hc
  simp

theorem modifyItem_link {l : TLink} : Yields (c.modifyItem k fun it => { it with link := l })
    { w with link := (w.link.setNext k l.next).setPrev k l.prev } := by
  refine (modifyItem_yields hc hk _).mono fun d hd => hd.trans ?_
  subst hc
  simp

theorem modifyItem_hashNext : Yields (c.modifyItem k fun it => { it with hashlink.next := v })
    { w with hash := w.hash.setNext k v } := by
  refine (modifyItem_yields hc hk _).mono fun d hd => hd.trans ?_
  subst hc
  simp

theorem modifyItem_hashPrev : Yields (c.modifyItem k fun it => { it with hashlink.prev := v })
    { w with hash := w.hash.setPrev k v } := by
  refine (modifyItem_yields hc hk _).mono fun d hd => hd.trans ?_
  subst hc
  simp

theorem modifyItem_value {x : T} : Yields (c.modifyItem k fun it => { it with value := x })
    { w with entry := Function.update w.entry k ((w.entry k).1, x) } := by
  refine (modifyItem_yields hc hk _).mono fun d hd => hd.trans ?_
  subst hc
  simp

theorem modifyItem_new {sign : TSign} {x : T} {l : TLink} :
    Yields (c.modifyItem k fun it => { it with value := x, sign := sign, hashlink := l })
    { w with
      hash := (w.hash.setNext k l.next).setPrev k l.prev
      entry := Function.update w.entry k (sign, x) } := by
  refine (modifyItem_yields hc hk _).mono fun d hd => hd.trans ?_
  subst hc
  simp

theorem setBucket_yields :
    Yields (c.setBucket k v) { w with pidx := Function.update w.pidx k v } := by
  subst hc
  exact ⟨_, if_pos hk, rfl⟩

end Writes

def unlinkEnds (L : Links ℤ) (ends : TLink) (k : ℤ) : TLink :=
  ⟨if L.prev k = -1 then L.next k else ends.next, if L.next k = -1 then L.prev k else ends.prev⟩

theorem delFromBusyList_yields (hc : c.view = w) (hk : w.InRange k)
    (hp : w.link.prev k ≠ -1 → w.InRange (w.link.prev k))
    (hn : w.link.next k ≠ -1 → w.InRange (w.link.next k)) (hne : w.link.prev k ≠ k) :
    Yields (c.delFromBusyList k)
      { w with link := w.link.unlink (-1) k, busyList := unlinkEnds w.link w.busyList k } := by
  unfold delFromBusyList
  rw [item_of_inRange hc hk]
  simp only [Option.bind_eq_bind, Option.bind_some, pvalue_linkNext, pvalue_linkPrev, hc]
  -- The successor of the slot before is written first.
  refine Succeeds.bind (P := fun d : CacheManager T => d.view = { w with
    link := if w.link.prev k = -1 then w.link else w.link.setNext (w.link.prev k) (w.link.next k)
    busyList.next := if w.link.prev k = -1 then w.link.next k else w.busyList.next }) ?_ ?_
  · split
    · next h => subst hc; simp [view]
    · next h => simpa [h] using modifyItem_linkNext hc (hp h)
  · intro d hd
    have hnext : d.view.link.next k = w.link.next k := by
      rw [hd]
      by_cases h : w.link.prev k = -1
      · simp [h]
      · simp [h, setNext_next_of_ne (Ne.symm hne)]
    have hprev : d.view.link.prev k = w.link.prev k := by
      rw [hd]
      by_cases h : w.link.prev k = -1 <;> simp [h]
    rw [item_of_inRange hd hk]
    simp only [Option.bind_some, pvalue_linkNext, pvalue_linkPrev, hnext, hprev]
    split
    · next h =>
      rw [succeeds_some]
      change ({ d.view with busyList := ⟨d.view.busyList.next, w.link.prev k⟩ } : View T) = _
      simp [hd, Links.unlink, unlinkEnds, h]
    · next h =>
      refine (modifyItem_linkPrev hd (hn h)).mono fun e he => he.trans ?_
      simp [Links.unlink, unlinkEnds, h]

/-- The first slot of a bucket after a slot is unlinked from its chain. -/
def unlinkHead (L : Links ℤ) (pidx : ℤ → ℤ) (index k : ℤ) : ℤ → ℤ :=
  if L.prev k = -1 then Function.update pidx index (L.next k) else pidx

theorem delFromHashList_yields {index : ℤ} (hc : c.view = w) (hk : w.InRange k)
    (hi : w.InRange index) (hp : w.hash.prev k ≠ -1 → w.InRange (w.hash.prev k))
    (hn : w.hash.next k ≠ -1 → w.InRange (w.hash.next k)) (hne : w.hash.prev k ≠ k) :
    Yields (c.delFromHashList index k)
      { w with hash := w.hash.unlink (-1) k, pidx := unlinkHead w.hash w.pidx index k } := by
  unfold delFromHashList
  rw [item_of_inRange hc hk]
  simp only [Option.bind_eq_bind, Option.bind_some, pvalue_hashNext, pvalue_hashPrev, hc]
  refine Succeeds.bind (P := fun d : CacheManager T => d.view = { w with
    hash := if w.hash.prev k = -1 then w.hash else w.hash.setNext (w.hash.prev k) (w.hash.next k)
    pidx := unlinkHead w.hash w.pidx index k }) ?_ ?_
  · unfold unlinkHead
    split
    · next h => simpa [h] using setBucket_yields hc hi
    · next h => simpa [h] using modifyItem_hashNext hc (hp h)
  · intro d hd
    have hnext : d.view.hash.next k = w.hash.next k := by
      rw [hd]
      by_cases h : w.hash.prev k = -1
      · simp [h]
      · simp [h, setNext_next_of_ne (Ne.symm hne)]
    have hprev : d.view.hash.prev k = w.hash.prev k := by
      rw [hd]
      by_cases h : w.hash.prev k = -1 <;> simp [h]
    rw [item_of_inRange hd hk]
    simp only [Option.bind_some, pvalue_hashNext, pvalue_hashPrev, hnext, hprev]
    split
    · next h =>
      rw [succeeds_some, hd]
      simp [Links.unlink, h]
    · next h =>
      refine (modifyItem_hashPrev hd (hn h)).mono fun e he => he.trans ?_
      simp [Links.unlink, h]

def pushEnds (ends : TLink) (k : ℤ) : TLink := ⟨if ends.prev = -1 then k else ends.next, k⟩

theorem insertIntoBusyList_yields (hc : c.view = w) (hk : w.InRange k)
    (ht : w.busyList.prev ≠ -1 → w.InRange w.busyList.prev) :
    Yields (c.insertIntoBusyList k)
      { w with
        link := w.link.pushBack (-1) w.busyList.prev k
        busyList := pushEnds w.busyList k } := by
  have hb : c.busyList = w.busyList := by rw [← hc]; rfl
  unfold insertIntoBusyList
  simp only [hb, Option.bind_eq_bind]
  by_cases h : w.busyList.prev = -1
  · have hv : { c with busyList := ⟨k, k⟩ }.view = { w with busyList := ⟨k, k⟩ } := by
      subst hc; rfl
    simpa [h, pushEnds, Links.pushBack] using modifyItem_link (l := ⟨-1, -1⟩) hv hk
  · have hv : { c with busyList := ⟨w.busyList.next, k⟩ }.view =
        { w with busyList := ⟨w.busyList.next, k⟩ } := by
      subst hc; rfl
    rw [if_neg h]
    refine (modifyItem_linkNext (v := k) hv (ht h)).bind fun d hd => ?_
    simpa [h, pushEnds, Links.pushBack] using
      modifyItem_link (l := ⟨-1, w.busyList.prev⟩) hd hk

theorem insertIntoFreeList_yields (hc : c.view = w) (hk : w.InRange k)
    (ht : w.freeList.prev ≠ -1 → w.InRange w.freeList.prev) :
    Yields (c.insertIntoFreeList k)
      { w with
        link := w.link.pushBack (-1) w.freeList.prev k
        freeList := pushEnds w.freeList k
        freeListSize := w.freeListSize + 1 } := by
  have hb : c.freeList = w.freeList := by rw [← hc]; rfl
  unfold insertIntoFreeList
  simp only [hb, Option.bind_eq_bind]
  refine Succeeds.bind (P := fun d : CacheManager T => d.view = { w with
    link := w.link.pushBack (-1) w.freeList.prev k, freeList := pushEnds w.freeList k }) ?_ ?_
  · by_cases h : w.freeList.prev = -1
    · have hv : { c with freeList := ⟨k, k⟩ }.view = { w with freeList := ⟨k, k⟩ } := by
        subst hc; rfl
      simpa [h, pushEnds, Links.pushBack] using modifyItem_link (l := ⟨-1, -1⟩) hv hk
    · have hv : { c with freeList := ⟨w.freeList.next, k⟩ }.view =
          { w with freeList := ⟨w.freeList.next, k⟩ } := by
        subst hc; rfl
      rw [if_neg h]
      refine (modifyItem_linkNext (v := k) hv (ht h)).bind fun d hd => ?_
      simpa [h, pushEnds, Links.pushBack] using
        modifyItem_link (l := ⟨-1, w.freeList.prev⟩) hd hk
  · intro d hd
    rw [succeeds_some]
    change ({ d.view with freeListSize := d.view.freeListSize + 1 } : View T) = _
    rw [hd]

theorem getFromFreeList_yields (hc : c.view = w) (hk : w.InRange w.freeList.next)
    (hn : w.link.next w.freeList.next ≠ -1 → w.InRange (w.link.next w.freeList.next))
    (hp : w.link.prev w.freeList.next = -1) :
    Succeeds c.getFromFreeList fun r => r.1 = w.freeList.next ∧ r.2.view = { w with
      link := w.link.unlink (-1) w.freeList.next
      freeList := unlinkEnds w.link w.freeList w.freeList.next
      freeListSize := w.freeListSize - 1 } := by
  have hf : c.freeList = w.freeList := by rw [← hc]; rfl
  unfold getFromFreeList
  simp only [hf]
  rw [item_of_inRange hc hk]
  simp only [Option.bind_eq_bind, Option.bind_some, pvalue_linkNext, hc]
  set k := w.freeList.next
  refine Succeeds.bind (P := fun d : CacheManager T => d.view = { w with
    link := w.link.unlink (-1) k
    freeList.prev := if w.link.next k = -1 then -1 else w.freeList.prev }) ?_ ?_
  · by_cases h : w.link.next k = -1
    · have hu : w.link.unlink (-1) k = w.link := by simp [Links.unlink, h, hp]
      rw [if_pos h, if_pos h, succeeds_some, hu]
      change ({ c.view with freeList := ⟨w.freeList.next, -1⟩ } : View T) = _
      rw [hc]
    · rw [if_neg h]
      simpa [h, Links.unlink, hp] using modifyItem_linkPrev hc (hn h)
  · intro d hd
    have hnext : d.view.link.next k = w.link.next k := by
      rw [hd]
      by_cases h : w.link.next k = -1 <;> simp [h, Links.unlink, hp]
    rw [item_of_inRange hd hk]
    simp only [Option.bind_some, pvalue_linkNext, hnext, succeeds_some, true_and]
    change ({ d.view with
      freeList := ⟨w.link.next k, d.view.freeList.prev⟩
      freeListSize := d.view.freeListSize - 1 } : View T) = _
    simp [hd, unlinkEnds, hp]

end CacheManager

end YlUtils
