import Mathlib.Data.List.Nodup
import Mathlib.Logic.Function.Basic

/-! # Intrusive doubly linked lists

Cells are named by an index type and carry their own successor and predecessor
fields. A list of cells is described by a segment predicate, which composes
along concatenation; unlinking a cell and linking a cell at either end of a
list are the field updates that the segment predicate follows.
-/

namespace YlUtils.Linked

variable {ι : Type*}

@[ext] structure Links (ι : Type*) where
  next : ι → ι
  prev : ι → ι

/-- The cells of `l` are chained in order, between the neighbours `p` and `q`. -/
def Seg (L : Links ι) : ι → List ι → ι → Prop
  | _, [], _ => True
  | p, x :: l, q => L.prev x = p ∧ L.next x = l.headD q ∧ Seg L x l q

section Segments

variable {L L' : Links ι} {p q x y : ι} {a b l : List ι}

@[simp] theorem seg_nil : Seg L p [] q := trivial

@[simp] theorem seg_cons :
    Seg L p (x :: l) q ↔ L.prev x = p ∧ L.next x = l.headD q ∧ Seg L x l q := Iff.rfl

theorem headD_append (a b : List ι) (q : ι) : (a ++ b).headD q = a.headD (b.headD q) := by
  cases a <;> rfl

theorem getLastD_append_cons (a b : List ι) (x p : ι) :
    (a ++ x :: b).getLastD p = b.getLastD x := by
  induction a generalizing p with
  | nil => rw [List.nil_append, List.getLastD_cons]
  | cons y a ih => rw [List.cons_append, List.getLastD_cons, ih]

theorem seg_append : Seg L p (a ++ b) q ↔ Seg L p a (b.headD q) ∧ Seg L (a.getLastD p) b q := by
  induction a generalizing p with
  | nil => simp
  | cons x a ih =>
    rw [List.cons_append, seg_cons, seg_cons, ih, headD_append, List.getLastD_cons]
    tauto

theorem Seg.congr (h : ∀ x ∈ l, L'.next x = L.next x ∧ L'.prev x = L.prev x)
    (hs : Seg L p l q) : Seg L' p l q := by
  induction l generalizing p with
  | nil => trivial
  | cons x l ih =>
    obtain ⟨hn, hp⟩ := h x List.mem_cons_self
    obtain ⟨h₁, h₂, h₃⟩ := hs
    exact ⟨hp.trans h₁, hn.trans h₂, ih (fun y hy => h y (List.mem_cons_of_mem _ hy)) h₃⟩

variable {nil : ι}

theorem seg_neighbours (h : Seg L nil (a ++ x :: b) nil) :
    L.prev x = a.getLastD nil ∧ L.next x = b.headD nil := by
  rw [seg_append] at h
  exact ⟨h.2.1, h.2.2.1⟩

theorem getLastD_eq_nil (hn : nil ∉ a) : a.getLastD nil = nil ↔ a = [] := by
  rcases List.eq_nil_or_concat a with rfl | ⟨a', y, rfl⟩
  · simp
  · simp only [List.concat_eq_append, getLastD_append_cons, List.getLastD_nil]
    simp only [List.concat_eq_append, List.mem_append, List.mem_singleton, not_or] at hn
    simp [Ne.symm hn.2]

theorem headD_eq_nil (hn : nil ∉ b) : b.headD nil = nil ↔ b = [] := by
  cases b with
  | nil => simp
  | cons y b => simpa using fun h => hn (by simp [h])

theorem getLastD_eq_or_mem (a : List ι) (q : ι) : a.getLastD q = q ∨ a.getLastD q ∈ a := by
  rcases List.eq_nil_or_concat a with rfl | ⟨a', y, rfl⟩
  · exact .inl rfl
  · right
    rw [List.concat_eq_append, getLastD_append_cons]
    simp

theorem headD_eq_or_mem (b : List ι) (q : ι) : b.headD q = q ∨ b.headD q ∈ b := by
  cases b <;> simp

theorem prev_eq_nil_or_mem (h : Seg L nil (a ++ x :: b) nil) : L.prev x = nil ∨ L.prev x ∈ a := by
  rw [(seg_neighbours h).1]
  exact getLastD_eq_or_mem a nil

theorem next_eq_nil_or_mem (h : Seg L nil (a ++ x :: b) nil) : L.next x = nil ∨ L.next x ∈ b := by
  rw [(seg_neighbours h).2]
  exact headD_eq_or_mem b nil

theorem prev_ne_self (h : Seg L nil (a ++ x :: b) nil) (hn : (a ++ x :: b).Nodup)
    (hnil : nil ∉ a ++ x :: b) : L.prev x ≠ x := by
  intro he
  rcases prev_eq_nil_or_mem h with hp | hp
  · exact hnil (by simp [← hp, he])
  · exact (List.nodup_append.mp hn).2.2 _ hp x (by simp) he

end Segments

section Updates

variable [DecidableEq ι] {L : Links ι} {p q r x y : ι} {a b l : List ι}

/-- Write the successor field of one cell. -/
def Links.setNext (L : Links ι) (x y : ι) : Links ι := { L with next := Function.update L.next x y }

def Links.setPrev (L : Links ι) (x y : ι) : Links ι := { L with prev := Function.update L.prev x y }

@[simp] theorem setNext_prev : (L.setNext x y).prev = L.prev := rfl
@[simp] theorem setPrev_next : (L.setPrev x y).next = L.next := rfl
@[simp] theorem setNext_next_self : (L.setNext x y).next x = y := by simp [Links.setNext]
@[simp] theorem setPrev_prev_self : (L.setPrev x y).prev x = y := by simp [Links.setPrev]

theorem setNext_next_of_ne (h : r ≠ x) : (L.setNext x y).next r = L.next r := by
  simp [Links.setNext, h]

theorem setPrev_prev_of_ne (h : r ≠ x) : (L.setPrev x y).prev r = L.prev r := by
  simp [Links.setPrev, h]

theorem Seg.setNext (hx : x ∉ l) (h : Seg L p l q) : Seg (L.setNext x y) p l q :=
  Seg.congr (L := L) (fun r hr => ⟨setNext_next_of_ne fun he : r = x => hx (he ▸ hr), rfl⟩) h

theorem Seg.setPrev (hx : x ∉ l) (h : Seg L p l q) : Seg (L.setPrev x y) p l q :=
  Seg.congr (L := L) (fun r hr => ⟨rfl, setPrev_prev_of_ne fun he : r = x => hx (he ▸ hr)⟩) h

theorem Seg.setNext_last (hn : (l ++ [x]).Nodup) (h : Seg L p (l ++ [x]) q) :
    Seg (L.setNext x r) p (l ++ [x]) r := by
  rw [seg_append] at h ⊢
  obtain ⟨hl, hp, -, -⟩ := h
  have hx : x ∉ l := fun hm => (List.nodup_append.mp hn).2.2 x hm x (by simp) rfl
  exact ⟨hl.setNext hx, hp, by simp, trivial⟩

theorem Seg.setPrev_head (hn : (x :: l).Nodup) (h : Seg L p (x :: l) q) :
    Seg (L.setPrev x r) r (x :: l) q := by
  obtain ⟨-, hx, hl⟩ := h
  exact ⟨by simp, hx, hl.setPrev (List.nodup_cons.mp hn).1⟩

variable (nil : ι)

/-- Join the neighbours of a cell, skipping a neighbour that is `nil`. -/
def Links.unlink (L : Links ι) (x : ι) : Links ι :=
  let M := if L.prev x = nil then L else L.setNext (L.prev x) (L.next x)
  if L.next x = nil then M else M.setPrev (L.next x) (L.prev x)

def Links.pushBack (L : Links ι) (tail x : ι) : Links ι :=
  ((if tail = nil then L else L.setNext tail x).setNext x nil).setPrev x tail

def Links.pushFront (L : Links ι) (head x : ι) : Links ι :=
  let M := (L.setNext x head).setPrev x nil
  if head = nil then M else M.setPrev head x

variable {nil}

/-- Unlinking a cell leaves a segment of the remaining cells. -/
theorem Seg.unlink (hn : (a ++ x :: b).Nodup) (hnil : nil ∉ a ++ x :: b)
    (h : Seg L nil (a ++ x :: b) nil) : Seg (L.unlink nil x) nil (a ++ b) nil := by
  obtain ⟨hp, hq⟩ := seg_neighbours h
  rw [seg_append] at h
  obtain ⟨ha, -, -, hb⟩ := h
  obtain ⟨na, nb, nab⟩ := List.nodup_append.mp hn
  have nilA : nil ∉ a := fun hm => hnil (by simp [hm])
  have nilB : nil ∉ b := fun hm => hnil (by simp [hm])
  have disj : ∀ y ∈ a, y ∉ b := fun y hy hb' => nab y hy y (by simp [hb']) rfl
  -- The successor of the last cell of `a` is moved first, then the predecessor of the head of `b`.
  have hstep : Seg (if L.prev x = nil then L else L.setNext (L.prev x) (L.next x)) nil a
        (b.headD nil) ∧
      Seg (if L.prev x = nil then L else L.setNext (L.prev x) (L.next x)) x b nil := by
    rw [hp, hq]
    rcases List.eq_nil_or_concat a with rfl | ⟨a', y, rfl⟩
    · simpa using hb
    · rw [List.concat_eq_append] at *
      have hy : y ≠ nil := fun he => nilA (by simp [he])
      have hyb : y ∉ b := disj y (by simp)
      simp only [getLastD_append_cons, List.getLastD_nil, hy, if_false]
      exact ⟨ha.setNext_last na, hb.setNext hyb⟩
  unfold Links.unlink
  rw [seg_append]
  cases b with
  | nil => simpa [hq] using hstep.1
  | cons z b =>
    have hz : z ≠ nil := fun he => nilB (by simp [he])
    have hza : z ∉ a := fun hm => disj z hm (by simp)
    simp only [hq, List.headD_cons, hz, if_false] at hstep ⊢
    refine ⟨hstep.1.setPrev hza, ?_⟩
    rw [hp]
    exact (hp ▸ hstep.2).setPrev_head (List.nodup_cons.mp nb).2

theorem Seg.unlink_headD (hnil : nil ∉ a ++ x :: b) (h : Seg L nil (a ++ x :: b) nil) :
    (if L.prev x = nil then L.next x else (a ++ x :: b).headD nil) = (a ++ b).headD nil := by
  have nilA : nil ∉ a := fun hm => hnil (by simp [hm])
  obtain ⟨hp, hq⟩ := seg_neighbours h
  rw [hp, hq, headD_append, headD_append]
  simp only [getLastD_eq_nil nilA]
  cases a <;> simp

theorem unlink_head (hp : L.prev x = nil) (hn : L.next x = y) (hy : y ≠ nil) :
    L.unlink nil x = L.setPrev y nil := by
  unfold Links.unlink
  simp only [hp, hn, if_true, if_neg hy]

theorem Seg.pushBack (hn : l.Nodup) (hnil : nil ∉ l) (hx : x ∉ l)
    (h : Seg L nil l nil) : Seg (L.pushBack nil (l.getLastD nil) x) nil (l ++ [x]) nil := by
  unfold Links.pushBack
  rw [seg_append]
  refine ⟨Seg.setPrev hx (Seg.setNext hx ?_), by simp, by simp, trivial⟩
  rcases List.eq_nil_or_concat l with rfl | ⟨l', y, rfl⟩
  · trivial
  · rw [List.concat_eq_append] at *
    have hy : y ≠ nil := fun he => hnil (by simp [he])
    simp only [getLastD_append_cons, List.getLastD_nil, hy, if_false]
    exact h.setNext_last hn

theorem Seg.pushFront (hn : l.Nodup) (hnil : nil ∉ l) (hx : x ∉ l)
    (h : Seg L nil l nil) : Seg (L.pushFront nil (l.headD nil) x) nil (x :: l) nil := by
  unfold Links.pushFront
  have hl : Seg ((L.setNext x (l.headD nil)).setPrev x nil) nil l nil := (h.setNext hx).setPrev hx
  cases l with
  | nil => simp
  | cons y l =>
    have hy : y ≠ nil := fun he => hnil (by simp [he])
    have hxy : x ≠ y := fun he => hx (by simp [he])
    simp only [List.headD_cons, hy, if_false] at hl ⊢
    exact ⟨by rw [setPrev_prev_of_ne hxy]; simp, by simp, hl.setPrev_head hn⟩

theorem Seg.unlink_frame {l' : List ι} (h : Seg L nil (a ++ x :: b) nil)
    (hd : ∀ y ∈ a ++ x :: b, y ∉ l') (hn : nil ∉ l') (h' : Seg L p l' q) :
    Seg (L.unlink nil x) p l' q := by
  obtain ⟨hp, hq⟩ := seg_neighbours h
  have hpl : L.prev x ∉ l' := by
    rcases List.eq_nil_or_concat a with rfl | ⟨a', y, rfl⟩
    · simpa [hp] using hn
    · rw [hp, List.concat_eq_append, getLastD_append_cons]
      exact hd y (by simp)
  have hql : L.next x ∉ l' := by
    cases b with
    | nil => simpa [hq] using hn
    | cons y b =>
      rw [hq]
      exact hd y (by simp)
  unfold Links.unlink
  have hM : Seg (if L.prev x = nil then L else L.setNext (L.prev x) (L.next x)) p l' q := by
    split
    · exact h'
    · exact h'.setNext hpl
  by_cases hnx : L.next x = nil
  · simpa only [hnx, if_true] using hM
  · simpa only [hnx, if_false] using hM.setPrev hql

theorem Seg.pushBack_frame {l' : List ι} {tail : ι} (hx : x ∉ l') (ht : tail ∉ l')
    (h' : Seg L p l' q) : Seg (L.pushBack nil tail x) p l' q := by
  unfold Links.pushBack
  refine Seg.setPrev hx (Seg.setNext hx ?_)
  split
  · exact h'
  · exact h'.setNext ht

theorem Seg.pushFront_frame {l' : List ι} {head : ι} (hx : x ∉ l') (hh : head ∉ l')
    (h' : Seg L p l' q) : Seg (L.pushFront nil head x) p l' q := by
  unfold Links.pushFront
  have hM : Seg ((L.setNext x head).setPrev x nil) p l' q := (h'.setNext hx).setPrev hx
  split
  · exact hM
  · exact hM.setPrev hh

end Updates

def follow [DecidableEq ι] (nil : ι) (next : ι → ι) : ℕ → ι → List ι
  | 0, _ => []
  | n + 1, x => if x = nil then [] else x :: follow nil next n (next x)

theorem Seg.follow_eq [DecidableEq ι] {L : Links ι} {nil p : ι} {l : List ι}
    (h : Seg L p l nil) (hnil : nil ∉ l) {n : ℕ} (hn : l.length ≤ n) :
    follow nil L.next n (l.headD nil) = l := by
  induction n generalizing p l with
  | zero => rw [List.length_eq_zero_iff.mp (Nat.le_zero.mp hn), follow]
  | succ n ih =>
    cases l with
    | nil => simp [follow]
    | cons x l =>
      obtain ⟨-, hx, hl⟩ := h
      have hne : x ≠ nil := fun he => hnil (by simp [he])
      rw [List.headD_cons, follow, if_neg hne, hx,
        ih hl (fun hm => hnil (List.mem_cons_of_mem _ hm)) (by simpa using hn)]

structure DList (nil : ι) (L : Links ι) (head tail : ι) (l : List ι) : Prop where
  seg : Seg L nil l nil
  nodup : l.Nodup
  nil_notMem : nil ∉ l
  head_eq : head = l.headD nil
  tail_eq : tail = l.getLastD nil

namespace DList

variable {nil head tail x : ι} {L L' : Links ι} {a b l : List ι}

theorem tail_notMem {l' : List ι} (h : DList nil L head tail l) (hd : ∀ y ∈ l, y ∉ l')
    (hn : nil ∉ l') : tail ∉ l' := by
  rw [h.tail_eq]
  rcases List.eq_nil_or_concat l with rfl | ⟨m, y, rfl⟩
  · exact hn
  · rw [List.concat_eq_append, getLastD_append_cons]
    exact hd y (by simp)

variable [DecidableEq ι]

theorem unlink (h : DList nil L head tail (a ++ x :: b)) :
    DList nil (L.unlink nil x) (if L.prev x = nil then L.next x else head)
      (if L.next x = nil then L.prev x else tail) (a ++ b) where
  seg := h.seg.unlink h.nodup h.nil_notMem
  nodup := h.nodup.sublist (by simp)
  nil_notMem := fun hm => h.nil_notMem (by simp at hm ⊢; tauto)
  head_eq := by rw [h.head_eq, h.seg.unlink_headD h.nil_notMem]
  tail_eq := by
    have nilB : nil ∉ b := fun hm => h.nil_notMem (by simp [hm])
    obtain ⟨hp, hq⟩ := seg_neighbours h.seg
    rw [hp, hq, h.tail_eq, getLastD_append_cons]
    simp only [headD_eq_nil nilB]
    cases b with
    | nil => simp
    | cons y b => simp only [reduceCtorEq, if_false, getLastD_append_cons, List.getLastD_cons]

theorem pushBack (h : DList nil L head tail l) (hx : x ∉ l) (hxn : x ≠ nil) :
    DList nil (L.pushBack nil tail x) (if tail = nil then x else head) x (l ++ [x]) where
  seg := by rw [h.tail_eq]; exact h.seg.pushBack h.nodup h.nil_notMem hx
  nodup := by simpa [List.nodup_append] using ⟨h.nodup, fun y hy he => hx (he ▸ hy)⟩
  nil_notMem := by simpa using ⟨h.nil_notMem, Ne.symm hxn⟩
  head_eq := by
    rw [h.tail_eq, headD_append, h.head_eq]
    simp only [getLastD_eq_nil h.nil_notMem]
    cases l <;> simp
  tail_eq := by rw [getLastD_append_cons, List.getLastD_nil]

theorem unlink_frame {head' tail' : ι} {l' : List ι} (h : DList nil L head tail (a ++ x :: b))
    (h' : DList nil L head' tail' l') (hd : ∀ y ∈ a ++ x :: b, y ∉ l') :
    DList nil (L.unlink nil x) head' tail' l' :=
  { h' with seg := h.seg.unlink_frame hd h'.nil_notMem h'.seg }

theorem pushBack_frame {head' tail' : ι} {l' : List ι} (h : DList nil L head tail l)
    (h' : DList nil L head' tail' l') (hd : ∀ y ∈ l, y ∉ l') (hx : x ∉ l') :
    DList nil (L.pushBack nil tail x) head' tail' l' :=
  { h' with seg := h'.seg.pushBack_frame hx (h.tail_notMem hd h'.nil_notMem) }

end DList

end YlUtils.Linked
