import YlUtils.Cache.Persistence
import YlUtils.Runs.Related

/-! # Caches that cannot be told apart

Two caches are twins if they agree in all that an operation looks at: the size,
the lists, and the arrays as far as they go. The operations keep twins, and keep
their numbers within `int`.
-/

namespace YlUtils

def Item.Fits {T : Type} (it : Item T) : Prop :=
  TLink.representation.Fits it.hashlink ∧ TLink.representation.Fits it.link

namespace CacheManager

variable {T : Type}

/-- The same cache, apart from the statistics and from what lies outside the arrays. -/
structure Twin (c d : CacheManager T) : Prop where
  size : d.size = c.size
  freeListSize : d.freeListSize = c.freeListSize
  freeList : d.freeList = c.freeList
  busyList : d.busyList = c.busyList
  pvalue : ∀ k, c.InRange k → d.pvalue k = c.pvalue k
  pidx : ∀ k, c.InRange k → d.pidx k = c.pidx k
  freeList_fits : TLink.representation.Fits c.freeList
  busyList_fits : TLink.representation.Fits c.busyList
  pvalue_fits : ∀ k, c.InRange k → (c.pvalue k).Fits
  pidx_fits : ∀ k, c.InRange k → Representation.int.Fits (c.pidx k)

theorem fits_neg_one : Representation.int.Fits (-1) := by
  constructor <;> decide

theorem fits_intOf (n : UInt32) : Representation.int.Fits (intOf n) := by
  constructor
  · exact BitVec.le_toInt _
  · exact BitVec.toInt_lt

namespace Twin

variable {c d : CacheManager T} {k i v : ℤ} {l l' : TLink} {n n' : UInt32} {f : Item T → Item T}
  {s : TSign} {x : T}

theorem inRange (h : Twin c d) : d.InRange k ↔ c.InRange k := by
  unfold InRange
  rw [h.size]

theorem withFreeList (h : Twin c d) (hl : TLink.representation.Fits l) (hl' : l' = l)
    (hn : n' = n) : Twin { c with freeList := l, freeListSize := n }
      { d with freeList := l', freeListSize := n' } :=
  { h with
    freeList := hl'
    freeListSize := hn
    freeList_fits := hl }

theorem withBusyList (h : Twin c d) (hl : TLink.representation.Fits l) (hl' : l' = l) :
    Twin { c with busyList := l } { d with busyList := l' } :=
  { h with
    busyList := hl'
    busyList_fits := hl }

theorem withStatistics {a a' b b' : UInt32} {st st' : List (UInt32 × UInt32)} (h : Twin c d) :
    Twin { c with visitCnt := a, hitCnt := b, fstat := st }
      { d with visitCnt := a', hitCnt := b', fstat := st' } :=
  { h with }

theorem item (h : Twin c d) (k : ℤ) :
    Option.Rel (fun it jt => jt = it ∧ it.Fits) (c.item k) (d.item k) := by
  unfold CacheManager.item
  simp only [h.inRange]
  exact rel_ite (fun hk => .some ⟨h.pvalue k hk, h.pvalue_fits k hk⟩) fun _ => .none

theorem modifyItem (h : Twin c d) (k : ℤ) (hf : ∀ it, it.Fits → (f it).Fits) :
    Option.Rel Twin (c.modifyItem k f) (d.modifyItem k f) := by
  unfold CacheManager.modifyItem
  simp only [h.inRange]
  refine rel_ite (fun hk => .some { h with pvalue := ?_, pvalue_fits := ?_ }) fun _ => .none
  · intro j hj
    by_cases hjk : j = k
    · subst hjk
      simp only [Function.update_self, h.pvalue j hk]
    · simp only [Function.update_of_ne hjk]
      exact h.pvalue j hj
  · intro j hj
    by_cases hjk : j = k
    · subst hjk
      simp only [Function.update_self]
      exact hf _ (h.pvalue_fits j hk)
    · simp only [Function.update_of_ne hjk]
      exact h.pvalue_fits j hj

theorem bucket (h : Twin c d) (i : ℤ) :
    Option.Rel (fun a b => b = a ∧ Representation.int.Fits a) (c.bucket i) (d.bucket i) := by
  unfold CacheManager.bucket
  simp only [h.inRange]
  exact rel_ite (fun hi => .some ⟨h.pidx i hi, h.pidx_fits i hi⟩) fun _ => .none

theorem setBucket (h : Twin c d) (i : ℤ) (hv : Representation.int.Fits v) :
    Option.Rel Twin (c.setBucket i v) (d.setBucket i v) := by
  unfold CacheManager.setBucket
  simp only [h.inRange]
  refine rel_ite (fun hi => .some { h with pidx := ?_, pidx_fits := ?_ }) fun _ => .none
  · intro j hj
    by_cases hji : j = i
    · simp only [hji, Function.update_self]
    · simp only [Function.update_of_ne hji]
      exact h.pidx j hj
  · intro j hj
    by_cases hji : j = i
    · simp only [hji, Function.update_self]
      exact hv
    · simp only [Function.update_of_ne hji]
      exact h.pidx_fits j hj

theorem getFromFreeList (h : Twin c d) :
    Option.Rel (fun r t => t.1 = r.1 ∧ Representation.int.Fits r.1 ∧ Twin r.2 t.2)
      c.getFromFreeList d.getFromFreeList := by
  unfold CacheManager.getFromFreeList
  simp only [Option.bind_eq_bind, h.freeList]
  apply rel_bind (h.item _)
  rintro _ it ⟨rfl, hit⟩
  refine rel_bind (R := Twin) ?_ ?_
  · apply rel_ite
    · intro _
      exact .some (h.withFreeList ⟨h.freeList_fits.1, fits_neg_one⟩ rfl h.freeListSize)
    · intro _
      exact h.modifyItem _ fun n hn => ⟨hn.1, hn.2.1, fits_neg_one⟩
  · intro c' d' h'
    apply rel_bind (h'.item _)
    rintro _ it' ⟨rfl, hit'⟩
    refine .some ⟨rfl, h.freeList_fits.1, h'.withFreeList ⟨hit'.2.1, h'.freeList_fits.2⟩ ?_ ?_⟩
    · rw [h'.freeList]
    · rw [h'.freeListSize]

theorem insertIntoFreeList (h : Twin c d) (hk : Representation.int.Fits k) :
    Option.Rel Twin (c.insertIntoFreeList k) (d.insertIntoFreeList k) := by
  unfold CacheManager.insertIntoFreeList
  simp only [Option.bind_eq_bind, h.freeList]
  refine rel_bind (R := Twin) ?_ ?_
  · apply rel_ite
    · intro _
      exact (h.withFreeList ⟨hk, hk⟩ rfl h.freeListSize).modifyItem k fun it hit =>
        ⟨hit.1, fits_neg_one, fits_neg_one⟩
    · intro _
      have hback := h.withFreeList (l := ⟨c.freeList.next, k⟩) ⟨h.freeList_fits.1, hk⟩ rfl
        h.freeListSize
      refine rel_bind (hback.modifyItem _ fun it hit => ⟨hit.1, hk, hit.2.2⟩) ?_
      intro c' d' h'
      exact h'.modifyItem k fun it hit => ⟨hit.1, fits_neg_one, h.freeList_fits.2⟩
  · intro c' d' h'
    exact .some (h'.withFreeList h'.freeList_fits h'.freeList (by rw [h'.freeListSize]))

theorem insertIntoBusyList (h : Twin c d) (hk : Representation.int.Fits k) :
    Option.Rel Twin (c.insertIntoBusyList k) (d.insertIntoBusyList k) := by
  unfold CacheManager.insertIntoBusyList
  simp only [Option.bind_eq_bind, h.busyList]
  apply rel_ite
  · intro _
    exact (h.withBusyList ⟨hk, hk⟩ rfl).modifyItem k fun it hit =>
      ⟨hit.1, fits_neg_one, fits_neg_one⟩
  · intro _
    have hback := h.withBusyList (l := ⟨c.busyList.next, k⟩) ⟨h.busyList_fits.1, hk⟩ rfl
    refine rel_bind (hback.modifyItem _ fun it hit => ⟨hit.1, hk, hit.2.2⟩) ?_
    intro c' d' h'
    exact h'.modifyItem k fun it hit => ⟨hit.1, fits_neg_one, h.busyList_fits.2⟩

theorem delFromBusyList (h : Twin c d) (k : ℤ) :
    Option.Rel Twin (c.delFromBusyList k) (d.delFromBusyList k) := by
  unfold CacheManager.delFromBusyList
  simp only [Option.bind_eq_bind]
  apply rel_bind (h.item k)
  rintro _ it ⟨rfl, hit⟩
  refine rel_bind (R := Twin) ?_ ?_
  · apply rel_ite
    · intro _
      exact .some (h.withBusyList ⟨hit.2.1, h.busyList_fits.2⟩ (by rw [h.busyList]))
    · intro _
      exact h.modifyItem _ fun p hp => ⟨hp.1, hit.2.1, hp.2.2⟩
  · intro c' d' h'
    apply rel_bind (h'.item k)
    rintro _ it' ⟨rfl, hit'⟩
    apply rel_ite
    · intro _
      exact .some (h'.withBusyList ⟨h'.busyList_fits.1, hit'.2.2⟩ (by rw [h'.busyList]))
    · intro _
      exact h'.modifyItem _ fun n hn => ⟨hn.1, hn.2.1, hit'.2.2⟩

theorem delFromHashList (h : Twin c d) (i k : ℤ) :
    Option.Rel Twin (c.delFromHashList i k) (d.delFromHashList i k) := by
  unfold CacheManager.delFromHashList
  simp only [Option.bind_eq_bind]
  apply rel_bind (h.item k)
  rintro _ it ⟨rfl, hit⟩
  refine rel_bind (R := Twin) ?_ ?_
  · apply rel_ite
    · intro _
      exact h.setBucket i hit.1.1
    · intro _
      exact h.modifyItem _ fun p hp => ⟨⟨hit.1.1, hp.1.2⟩, hp.2⟩
  · intro c' d' h'
    apply rel_bind (h'.item k)
    rintro _ it' ⟨rfl, hit'⟩
    apply rel_ite
    · intro _
      exact .some h'
    · intro _
      exact h'.modifyItem _ fun n hn => ⟨⟨hn.1.1, hit'.1.2⟩, hn.2⟩

theorem reclaimOne (h : Twin c d) : Option.Rel Twin c.reclaimOne d.reclaimOne := by
  unfold CacheManager.reclaimOne
  simp only [Option.bind_eq_bind, h.busyList]
  apply rel_bind (h.delFromBusyList _)
  intro c₁ d₁ h₁
  apply rel_bind (h₁.item _)
  rintro _ it ⟨rfl, hit⟩
  rw [h₁.size]
  apply rel_bind (h₁.delFromHashList _ _)
  intro c₂ d₂ h₂
  exact h₂.insertIntoFreeList h.busyList_fits.1

theorem reclaimLoop (h : Twin c d) (m : ℕ) :
    Option.Rel Twin (CacheManager.reclaimLoop m c) (CacheManager.reclaimLoop m d) := by
  induction m generalizing c d with
  | zero => exact .some h
  | succ m ih => exact rel_bind h.reclaimOne fun _ _ h' => ih h'

theorem makeRoom (h : Twin c d) : Option.Rel Twin c.makeRoom d.makeRoom := by
  unfold CacheManager.makeRoom CacheManager.reclaim
  rw [h.freeListSize, h.size]
  exact rel_ite (fun _ => h.reclaimLoop _) fun _ => .some h

theorem walk (h : Twin c d) (s : TSign) (fuel : ℕ) (hv : Representation.int.Fits v) :
    Option.Rel (fun r t => t = r ∧ ∀ k ∈ r, Representation.int.Fits k) (c.walk s fuel v)
      (d.walk s fuel v) := by
  induction fuel generalizing v with
  | zero => exact .none
  | succ fuel ih =>
    unfold CacheManager.walk
    simp only [Option.bind_eq_bind]
    apply rel_bind (h.item v)
    rintro _ it ⟨rfl, hit⟩
    apply rel_ite
    · intro _
      exact .some ⟨rfl, fun k hk => Option.some.inj hk ▸ hv⟩
    · intro _
      exact rel_ite (fun _ => .some ⟨rfl, fun k hk => absurd hk (Option.not_mem_none k)⟩)
        fun _ => ih hit.1.1

theorem search (h : Twin c d) (s : TSign) :
    Option.Rel (fun r t => t = r ∧ ∀ k ∈ r, Representation.int.Fits k) (c.search s)
      (d.search s) := by
  unfold CacheManager.search
  simp only [Option.bind_eq_bind, h.size]
  apply rel_bind (h.bucket _)
  rintro _ i ⟨rfl, hi⟩
  exact rel_ite (fun _ => .some ⟨rfl, fun k hk => absurd hk (Option.not_mem_none k)⟩)
    fun _ => h.walk s _ hi

theorem insertNew (h : Twin c d) (s : TSign) (x : T) :
    Option.Rel (fun r t => t.1 = r.1 ∧ Twin r.2 t.2) (c.insertNew s x) (d.insertNew s x) := by
  unfold CacheManager.insertNew
  simp only [Option.bind_eq_bind, h.size]
  apply rel_bind h.getFromFreeList
  rintro ⟨pos, c₁⟩ ⟨_, d₁⟩ ⟨rfl, hpos, h₁⟩
  apply rel_bind (h₁.bucket _)
  rintro _ head ⟨rfl, hhead⟩
  refine rel_bind (h₁.modifyItem _ fun it hit => ⟨⟨hhead, fits_neg_one⟩, hit.2⟩) ?_
  intro c₂ d₂ h₂
  refine rel_bind (R := Twin) ?_ ?_
  · apply rel_ite
    · intro _
      exact .some h₂
    · intro _
      exact h₂.modifyItem _ fun it hit => ⟨⟨hit.1.1, hpos⟩, hit.2⟩
  · intro c₃ d₃ h₃
    apply rel_bind (h₃.setBucket _ hpos)
    intro c₄ d₄ h₄
    exact rel_bind (h₄.insertIntoBusyList hpos) fun _ _ h₅ => .some ⟨rfl, h₅⟩

theorem insertSign (h : Twin c d) (s : TSign) (x : T) :
    Option.Rel Twin (c.insertSign s x) (d.insertSign s x) := by
  unfold CacheManager.insertSign
  simp only [Option.bind_eq_bind]
  apply rel_bind h.makeRoom
  intro c₁ d₁ h₁
  apply rel_bind (h₁.search s)
  rintro _ r ⟨rfl, hr⟩
  cases r with
  | some k => exact h₁.modifyItem k fun it hit => hit
  | none => exact rel_map (h₁.insertNew s x) fun _ _ h₂ => h₂.2

theorem removeSign (h : Twin c d) (s : TSign) :
    Option.Rel Twin (c.removeSign s) (d.removeSign s) := by
  unfold CacheManager.removeSign
  simp only [Option.bind_eq_bind, h.size]
  apply rel_bind (h.search s)
  rintro _ r ⟨rfl, hr⟩
  cases r with
  | some k =>
    apply rel_bind (h.delFromBusyList k)
    intro c₁ d₁ h₁
    apply rel_bind (h₁.insertIntoFreeList (hr k rfl))
    intro c₂ d₂ h₂
    exact h₂.delFromHashList _ k
  | none => exact .some h

theorem recordVisit (h : Twin c d) : Twin c.recordVisit d.recordVisit := by
  unfold CacheManager.recordVisit
  split_ifs <;> exact h.withStatistics

theorem findSign (h : Twin c d) (s : TSign) :
    Option.Rel (fun r t => Twin r.1 t.1 ∧ t.2 = r.2) (c.findSign s) (d.findSign s) := by
  unfold CacheManager.findSign
  simp only [Option.bind_eq_bind]
  have h₀ : Twin { c with visitCnt := c.visitCnt + 1 } { d with visitCnt := d.visitCnt + 1 } :=
    h.withStatistics
  apply rel_bind (h₀.search s)
  rintro _ r ⟨rfl, hr⟩
  cases r with
  | some k =>
    apply rel_bind (h₀.item k)
    rintro _ it ⟨rfl, hit⟩
    apply rel_bind (h₀.delFromBusyList k)
    intro c₁ d₁ h₁
    apply rel_bind (h₁.insertIntoBusyList (hr k rfl))
    intro c₂ d₂ h₂
    exact .some ⟨h₂.withStatistics.recordVisit, rfl⟩
  | none => exact .some ⟨h₀.recordVisit, rfl⟩

theorem call (h : Twin c d) (e : Call T) :
    Option.Rel (fun r t => Twin r.1 t.1 ∧ t.2 = r.2) (c.call e) (d.call e) := by
  rw [call_eq_bind, call_eq_bind]
  apply rel_bind_same
  intro o
  cases o with
  | insert sign value => exact rel_map (h.insertSign sign value) fun _ _ h' => ⟨h', rfl⟩
  | remove sign => exact rel_map (h.removeSign sign) fun _ _ h' => ⟨h', rfl⟩
  | find sign => exact h.findSign sign

theorem reclaimed (h : Twin c d) (m : ℕ) :
    CacheManager.reclaimed m d = CacheManager.reclaimed m c := by
  apply eq_of_rel
  induction m generalizing c d with
  | zero => exact .some rfl
  | succ m ih =>
    unfold CacheManager.reclaimed
    simp only [Option.bind_eq_bind, h.busyList]
    apply rel_bind (h.item _)
    rintro _ it ⟨rfl, -⟩
    apply rel_bind h.reclaimOne
    intro c₁ d₁ h₁
    apply rel_bind (ih h₁)
    rintro _ rest rfl
    exact .some rfl

theorem evictions (h : Twin c d) (e : Call T) : d.evictions e = c.evictions e := by
  cases e with
  | insert key value =>
    change (if _ then _ else _) = if _ then _ else _
    rw [h.freeListSize, h.size, h.reclaimed]
  | remove key => rfl
  | find key => rfl

end Twin

end CacheManager

end YlUtils
