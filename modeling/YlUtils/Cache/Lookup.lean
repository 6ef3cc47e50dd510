import YlUtils.Cache.Oversized

/-! # The cache as a map of signatures

The comparison of signatures ignores their second words, so a cache behaves as
a map keyed by whole signatures as long as no call meets an entry that agrees
with its key in the bucket and in the first word only. This condition is exact:
the first call that meets such an entry acts on it.
-/

namespace YlUtils.CacheManager

open Linked

variable {T : Type} {size : UInt32} {fresh : ℤ → T × TSign}

/-- The signatures evicted by the reclaim of a call. -/
def evicted (c : CacheManager T) : Op T → List TSign
  | .insert _ _ =>
    match c.makeRoom with
    | some d => (c.busySlots.filter (· ∉ d.busySlots)).map fun k => (c.pvalue k).sign
    | none => []
  | _ => []

def forget (M : TSign → Option T) (evicted : List TSign) : TSign → Option T := fun s =>
  if s ∈ evicted then none else M s

/-- What is remembered after a call: the value last inserted for each signature
that was since neither removed nor evicted. -/
def remember (M : TSign → Option T) (evicted : List TSign) : Op T → TSign → Option T
  | .insert sign value => Function.update (forget M evicted) sign (some value)
  | .remove sign => Function.update M sign none
  | .find _ => M

def walked (c : CacheManager T) : Op T → Option (CacheManager T)
  | .insert _ _ => c.makeRoom
  | _ => some c

/-- The signature stored in the slot that a call acts on. -/
def acted (c : CacheManager T) (e : Op T) : Option TSign := do
  let d ← c.walked e
  let k ← (d.search e.sign).join
  some (d.pvalue k).sign

/-- A cache that holds what is remembered, and answers and acts accordingly. -/
structure Exact (c : CacheManager T) (M : TSign → Option T) (e : Op T) : Prop where
  inRange : (c.callOp e).isSome
  stored : ∀ s v, M s = some v ↔
    ∃ k ∈ c.busySlots, (c.pvalue k).sign = s ∧ (c.pvalue k).value = v
  found : ∀ sign, e = .find sign → Succeeds (c.callOp e) fun r => r.2 = M sign
  acts : ∀ s, c.acted e = some s → s = e.sign

def kept (c : CacheManager T) : Op T → List ℤ
  | .insert _ _ =>
    if c.freeListSize = 0 then c.busySlots.drop (c.size.toNat / 10) else c.busySlots
  | _ => c.busySlots

/-- No entry in the bucket of the key agrees with it in the first word alone. -/
def Unambiguous (c : CacheManager T) (e : Op T) : Prop :=
  ∀ k ∈ c.kept e, (c.pvalue k).sign.bucket c.size = e.sign.bucket c.size →
    (c.pvalue k).sign.sign1 = e.sign.sign1 → (c.pvalue k).sign.sign2 = e.sign.sign2

/-- A property of every call of a run, and of the state it is made in; every key
has a signature. -/
def EveryCall (P : CacheManager T → (TSign → Option T) → Op T → Prop) :
    CacheManager T → (TSign → Option T) → List (Call T) → Prop
  | _, _, [] => True
  | c, M, e :: es => Succeeds e.op fun o => P c M o ∧
    ∀ r, c.callOp o = some r → EveryCall P r.1 (remember M (c.evicted o) o) es

section Slots

variable {A : Slots T} {M : TSign → Option T} {s : TSign} {k : ℤ}

/-- Entries of a bucket have different first words, and are what `M` remembers. -/
structure Remembers (A : Slots T) (size : UInt32) (M : TSign → Option T) : Prop where
  separated : ∀ k ∈ A.busy, ∀ l ∈ A.busy,
    (A.entry k).1.bucket size = (A.entry l).1.bucket size →
    (A.entry k).1.sign1 = (A.entry l).1.sign1 → k = l
  stored : ∀ s v, M s = some v ↔ ∃ k ∈ A.busy, A.entry k = (s, v)

/-- No busy entry agrees with `s` in the bucket and the first word alone. -/
def Clear (A : Slots T) (size : UInt32) (s : TSign) : Prop :=
  ∀ k ∈ A.busy, (A.entry k).1.bucket size = s.bucket size → (A.entry k).1.sign1 = s.sign1 →
    (A.entry k).1.sign2 = s.sign2

theorem eq_iff {s t : TSign} : s.eq t = true ↔ s.sign1 = t.sign1 := by
  simp [TSign.eq]

theorem Remembers.evict {B : Slots T} (hM : Remembers A size M) (hsub : B.busy.Sublist A.busy)
    (hent : B.entry = A.entry) :
    Remembers B size (forget M ((A.busy.filter (· ∉ B.busy)).map fun k => (A.entry k).1)) := by
  constructor
  · intro k hk l hl
    rw [hent]
    exact hM.separated k (hsub.subset hk) l (hsub.subset hl)
  · intro s v
    rw [hent]
    have hev : s ∈ (A.busy.filter (· ∉ B.busy)).map (fun k => (A.entry k).1) ↔
        ∃ k ∈ A.busy, k ∉ B.busy ∧ (A.entry k).1 = s := by simp [and_assoc]
    simp only [forget, hev]
    split
    · next hs =>
      obtain ⟨k, hk, hkB, rfl⟩ := hs
      refine ⟨fun hn => by simp at hn, ?_⟩
      rintro ⟨l, hl, he⟩
      have := hM.separated k hk l (hsub.subset hl) (by rw [he]) (by rw [he])
      exact absurd (this ▸ hl) hkB
    · next hs =>
      rw [hM.stored]
      constructor
      · rintro ⟨k, hk, he⟩
        refine ⟨k, ?_, he⟩
        by_contra hkB
        exact hs ⟨k, hk, hkB, by rw [he]⟩
      · rintro ⟨k, hk, he⟩
        exact ⟨k, hsub.subset hk, he⟩

theorem Remembers.put {B : Slots T} {v : T} (hM : Remembers A size M)
    (hmem : ∀ x, x ∈ B.busy ↔ x ∈ A.busy ∨ x = k)
    (hent : B.entry = Function.update A.entry k (s, v))
    (hk : k ∈ A.busy → (A.entry k).1 = s)
    (hother : ∀ x ∈ A.busy, x ≠ k → (A.entry x).1.bucket size = s.bucket size →
      (A.entry x).1.sign1 ≠ s.sign1) :
    Remembers B size (Function.update M s (some v)) := by
  have hself : B.entry k = (s, v) := by rw [hent, Function.update_self]
  have hne : ∀ x, x ≠ k → B.entry x = A.entry x := fun x hx => by
    rw [hent, Function.update_of_ne hx]
  have hold : ∀ x ∈ B.busy, x ≠ k → x ∈ A.busy := fun x hx hxk =>
    ((hmem x).mp hx).resolve_right hxk
  constructor
  · intro x hx y hy hb h₁
    by_cases hxk : x = k
    · by_cases hyk : y = k
      · rw [hxk, hyk]
      · rw [hxk, hself, hne y hyk] at hb h₁
        exact absurd h₁.symm (hother y (hold y hy hyk) hyk hb.symm)
    · by_cases hyk : y = k
      · rw [hyk, hself, hne x hxk] at hb h₁
        exact absurd h₁ (hother x (hold x hx hxk) hxk hb)
      · rw [hne x hxk, hne y hyk] at hb h₁
        exact hM.separated x (hold x hx hxk) y (hold y hy hyk) hb h₁
  · intro t u
    by_cases ht : t = s
    · subst ht
      rw [Function.update_self, Option.some_inj]
      constructor
      · rintro rfl
        exact ⟨k, (hmem k).mpr (.inr rfl), hself⟩
      · rintro ⟨x, hx, he⟩
        by_cases hxk : x = k
        · rw [hxk, hself] at he
          exact congrArg Prod.snd he
        · rw [hne x hxk] at he
          exact absurd (by rw [he]) (hother x (hold x hx hxk) hxk (by rw [he]))
    · rw [Function.update_of_ne ht, hM.stored]
      constructor
      · rintro ⟨x, hx, he⟩
        have hxk : x ≠ k := by
          rintro rfl
          exact ht (by rw [← hk hx, he])
        exact ⟨x, (hmem x).mpr (.inl hx), by rw [hne x hxk, he]⟩
      · rintro ⟨x, hx, he⟩
        have hxk : x ≠ k := by
          rintro rfl
          exact ht (congrArg Prod.fst (he.symm.trans hself))
        exact ⟨x, hold x hx hxk, by rw [← hne x hxk, he]⟩

theorem Remembers.release (hM : Remembers A size M) (hnd : A.busy.Nodup) (hk : k ∈ A.busy)
    (hs : (A.entry k).1 = s) :
    Remembers (A.release size k) size (Function.update M s none) := by
  have hmem : ∀ x, x ∈ (A.release size k).busy ↔ x ≠ k ∧ x ∈ A.busy := fun x =>
    hnd.mem_erase_iff
  constructor
  · intro x hx y hy
    exact hM.separated x ((hmem x).mp hx).2 y ((hmem y).mp hy).2
  · intro t u
    by_cases ht : t = s
    · rw [ht, Function.update_self]
      constructor
      · intro hn
        exact absurd hn (by simp)
      · rintro ⟨x, hx, he⟩
        have he' : (A.entry x).1 = s := congrArg Prod.fst he
        have hxk := hM.separated x ((hmem x).mp hx).2 k hk (by rw [he', hs]) (by rw [he', hs])
        exact absurd hxk ((hmem x).mp hx).1
    · rw [Function.update_of_ne ht, hM.stored]
      constructor
      · rintro ⟨x, hx, he⟩
        have hxk : x ≠ k := by
          rintro rfl
          exact ht (by rw [← hs, he])
        exact ⟨x, (hmem x).mpr ⟨hxk, hx⟩, he⟩
      · rintro ⟨x, hx, he⟩
        exact ⟨x, ((hmem x).mp hx).2, he⟩

end Slots

namespace Entries

variable {c : CacheManager T} {w : View T} {A : Slots T} {M : TSign → Option T} {s : TSign} {k : ℤ}

theorem hit_some (h : Entries w A) (hi : w.InRange (s.bucket w.size))
    (hh : A.hit w.size s = some k) :
    k ∈ A.busy ∧ (A.entry k).1.bucket w.size = s.bucket w.size ∧ (A.entry k).1.sign1 = s.sign1 := by
  obtain ⟨hb, hs⟩ := (h.mem_chain _ hi k).mp (List.mem_of_find?_eq_some hh)
  exact ⟨hb, hs, eq_iff.mp (by simpa using List.find?_some hh)⟩

theorem hit_none (h : Entries w A) (hi : w.InRange (s.bucket w.size))
    (hh : A.hit w.size s = none) (hk : k ∈ A.busy)
    (hb : (A.entry k).1.bucket w.size = s.bucket w.size) : (A.entry k).1.sign1 ≠ s.sign1 := by
  intro he
  have hm := (h.mem_chain _ hi k).mpr ⟨hk, hb⟩
  have := List.find?_eq_none.mp hh k hm
  exact this (eq_iff.mpr he)

theorem entry_of_hit (h : Entries w A) (hi : w.InRange (s.bucket w.size))
    (hcl : Clear A w.size s) (hh : A.hit w.size s = some k) :
    A.entry k = (s, (A.entry k).2) := by
  obtain ⟨hk, hb, h₁⟩ := h.hit_some hi hh
  have h₂ := hcl k hk hb h₁
  have hs : (A.entry k).1 = s := by
    cases hs : (A.entry k).1
    cases s
    simp_all
  rw [← hs]

theorem forgotten_of_hit_none (h : Entries w A) (hi : w.InRange (s.bucket w.size))
    (hM : Remembers A w.size M) (hh : A.hit w.size s = none) : M s = none := by
  cases hm : M s with
  | none => rfl
  | some v =>
    obtain ⟨k, hk, he⟩ := (hM.stored s v).mp hm
    exact absurd (by rw [he]) (h.hit_none hi hh hk (by rw [he]))

theorem find_eq (h : Entries w A) (hi : w.InRange (s.bucket w.size)) (hM : Remembers A w.size M)
    (hcl : Clear A w.size s) :
    (A.find w.size s).2 = M s := by
  unfold Slots.find
  cases hh : A.hit w.size s with
  | some k => exact ((hM.stored s _).mpr ⟨k, (h.hit_some hi hh).1, h.entry_of_hit hi hcl hh⟩).symm
  | none => exact (h.forgotten_of_hit_none hi hM hh).symm

theorem insert_remembers {v : T} (h : Entries w A) (hi : w.InRange (s.bucket w.size))
    (hM : Remembers A w.size M) (hcl : Clear A w.size s) (hf : A.free ≠ []) :
    Remembers (match A.hit w.size s with | some k => A.assign k v | none => A.store w.size s v)
      w.size (Function.update M s (some v)) := by
  cases hh : A.hit w.size s with
  | some k =>
    obtain ⟨hk, hb, h₁⟩ := h.hit_some hi hh
    have he : (A.entry k).1 = s := by rw [h.entry_of_hit hi hcl hh]
    have hbusy : (A.assign k v).busy = A.busy := rfl
    refine hM.put (fun x => ?_) (by rw [← he]; rfl) (fun _ => he) fun x hx hxk hxb hx₁ => ?_
    · rw [hbusy]
      constructor
      · exact .inl
      · rintro (hx | rfl)
        · exact hx
        · exact hk
    · exact hxk (hM.separated x hx k hk (hxb.trans hb.symm) (hx₁.trans h₁.symm))
  | none =>
    obtain ⟨k, free, hf⟩ := List.exists_cons_of_ne_nil hf
    have hk : k ∉ A.busy := h.free_notMem_busy (by simp [hf])
    refine hM.put (k := k) (fun x => ?_) (by simp [Slots.store, hf]) (absurd · hk)
      fun x hx _ hb => h.hit_none hi hh hx hb
    simp [Slots.store, hf]

theorem remove_remembers (h : Entries w A) (hi : w.InRange (s.bucket w.size))
    (hM : Remembers A w.size M) (hcl : Clear A w.size s) :
    Remembers (A.remove w.size s) w.size (Function.update M s none) := by
  unfold Slots.remove
  cases hh : A.hit w.size s with
  | some k =>
    exact hM.release h.busy.nodup (h.hit_some hi hh).1 (by rw [h.entry_of_hit hi hcl hh])
  | none =>
    have hn := h.forgotten_of_hit_none hi hM hh
    rwa [Function.update_eq_self_iff.mpr hn.symm]

theorem find_remembers (h : Entries w A) (hi : w.InRange (s.bucket w.size))
    (hM : Remembers A w.size M) : Remembers (A.find w.size s).1 w.size M := by
  unfold Slots.find
  cases hh : A.hit w.size s with
  | none => exact hM
  | some k =>
    have hk := (h.hit_some hi hh).1
    have hp : (A.refresh k).busy.Perm A.busy :=
      (List.perm_append_singleton _ _).trans (List.perm_cons_erase hk).symm
    constructor
    · intro x hx y hy
      exact hM.separated x (hp.mem_iff.mp hx) y (hp.mem_iff.mp hy)
    · intro t u
      simp only [hM.stored, hp.mem_iff]
      rfl

end Entries

namespace Laid

variable {c : CacheManager T} {w : View T} {A : Slots T} {M : TSign → Option T} {s : TSign} {k : ℤ}

def walkedSlots (A : Slots T) (size : UInt32) : Op T → Slots T
  | .insert _ _ => A.makeRoom size
  | _ => A

theorem walked_succeeds (h : Laid w A) (hc : c.view = w) (e : Op T) :
    Succeeds (c.walked e) fun d =>
      d.view.size = w.size ∧ Laid d.view (walkedSlots A w.size e) := by
  cases e with
  | insert sign value => exact h.makeRoom_succeeds hc
  | remove sign => exact succeeds_some.mpr (by rw [hc]; exact ⟨rfl, h⟩)
  | find sign => exact succeeds_some.mpr (by rw [hc]; exact ⟨rfl, h⟩)

theorem evicted_eq (h : Laid w A) (hc : c.view = w) (e : Op T) :
    c.evicted e = (A.busy.filter (· ∉ (walkedSlots A w.size e).busy)).map
      fun k => (A.entry k).1 := by
  have hent : ∀ k, (c.pvalue k).sign = (A.entry k).1 := fun k => by
    rw [pvalue_sign, hc, h.entries.entry_eq]
  cases e with
  | insert sign value =>
    obtain ⟨d, hd, -, hB⟩ := h.makeRoom_succeeds hc
    simp only [evicted, hd, hent]
    rw [h.entries.busySlots_eq hc, hB.entries.busySlots_eq rfl]
    rfl
  | remove sign =>
    change [] = (A.busy.filter (· ∉ A.busy)).map _
    simp
  | find sign =>
    change [] = (A.busy.filter (· ∉ A.busy)).map _
    simp

theorem walkedSlots_busy_sublist (A : Slots T) (size : UInt32) (e : Op T) :
    (walkedSlots A size e).busy.Sublist A.busy := by
  cases e with
  | insert sign value => exact A.makeRoom_busy_sublist size
  | remove sign => exact List.Sublist.refl _
  | find sign => exact List.Sublist.refl _

theorem walkedSlots_entry (A : Slots T) (size : UInt32) (e : Op T) :
    (walkedSlots A size e).entry = A.entry := by
  cases e with
  | insert sign value => exact A.makeRoom_entry size
  | remove sign => rfl
  | find sign => rfl

theorem walked_remembers (h : Laid w A) (hc : c.view = w) (hM : Remembers A w.size M)
    (e : Op T) : Remembers (walkedSlots A w.size e) w.size (forget M (c.evicted e)) := by
  rw [h.evicted_eq hc]
  exact hM.evict (walkedSlots_busy_sublist A _ e) (walkedSlots_entry A _ e)

theorem call_remembers (h : Laid w A) (hc : c.view = w) (hs : 10 ≤ w.size.toNat)
    (hM : Remembers A w.size M) {e : Op T} (hi : w.InRange (e.sign.bucket w.size))
    (hcl : Clear (walkedSlots A w.size e) w.size e.sign) :
    Remembers (A.call w.size e).1 w.size (remember M (c.evicted e) e) := by
  cases e with
  | insert sign value =>
    obtain ⟨d, -, hsize, hB⟩ := h.makeRoom_succeeds hc
    have hM' := h.walked_remembers hc hM (.insert sign value)
    have hf : (A.makeRoom w.size).free ≠ [] := h.makeRoom_free_ne_nil hs
    have hi' : d.view.InRange (sign.bucket d.view.size) := by
      rw [View.InRange, hsize]
      exact hi
    rw [← hsize] at hM' hcl hB hf
    have hinsert := hB.entries.insert_remembers (v := value) hi' hM' hcl hf
    rw [hsize] at hinsert
    exact hinsert
  | remove sign => exact h.entries.remove_remembers hi hM hcl
  | find sign => exact h.entries.find_remembers hi hM

theorem acted_eq (h : Laid w A) (hc : c.view = w) {e : Op T}
    (hi : w.InRange (e.sign.bucket w.size)) :
    c.acted e = ((walkedSlots A w.size e).hit w.size e.sign).map
      fun k => ((walkedSlots A w.size e).entry k).1 := by
  obtain ⟨d, hd, hsize, hB⟩ := h.walked_succeeds hc e
  have hent : ∀ k, (d.pvalue k).sign = ((walkedSlots A w.size e).entry k).1 := fun k => by
    rw [pvalue_sign, hB.entries.entry_eq]
  have hi' : d.view.InRange (e.sign.bucket d.view.size) := by
    rw [View.InRange, hsize]
    exact hi
  simp only [acted, hd, hB.entries.search_eq rfl hi', hsize, Option.bind_eq_bind,
    Option.bind_some, hent]
  cases (walkedSlots A w.size e).hit w.size e.sign <;> rfl

theorem kept_eq (h : Laid w A) (hc : c.view = w) (e : Op T) :
    c.kept e = (walkedSlots A w.size e).busy := by
  have hbusy := h.entries.busySlots_eq hc
  cases e with
  | insert sign value =>
    have hsize : c.size = w.size := congrArg View.size hc
    unfold kept walkedSlots Slots.makeRoom
    simp only [hbusy, hsize]
    by_cases hf : A.free = []
    · rw [if_pos ((h.freeListSize_eq_zero_iff hc).mpr hf), if_pos hf, A.reclaim_busy]
    · rw [if_neg (mt (h.freeListSize_eq_zero_iff hc).mp hf), if_neg hf]
  | remove sign => exact hbusy
  | find sign => exact hbusy

theorem unambiguous_iff (h : Laid w A) (hc : c.view = w) (e : Op T) :
    c.Unambiguous e ↔ Clear (walkedSlots A w.size e) w.size e.sign := by
  have hent : ∀ k, (c.pvalue k).sign = ((walkedSlots A w.size e).entry k).1 := fun k => by
    rw [pvalue_sign, hc, h.entries.entry_eq, walkedSlots_entry]
  have hsize : c.size = w.size := congrArg View.size hc
  unfold Unambiguous Clear
  rw [h.kept_eq hc]
  simp only [hent, hsize]

/-- A call acts on nothing but its own signature exactly if its walk is unambiguous. -/
theorem acts_iff (h : Laid w A) (hc : c.view = w) (hM : Remembers A w.size M) {e : Op T}
    (hi : w.InRange (e.sign.bucket w.size)) :
    (∀ s, c.acted e = some s → s = e.sign) ↔
      Clear (walkedSlots A w.size e) w.size e.sign := by
  obtain ⟨d, -, hsize, hB⟩ := h.walked_succeeds hc e
  have hM' := h.walked_remembers hc hM e
  have hi' : d.view.InRange (e.sign.bucket d.view.size) := by
    rw [View.InRange, hsize]
    exact hi
  rw [h.acted_eq hc hi]
  rw [← hsize] at hM' hB ⊢
  constructor
  · intro hacts k hk hb h₁
    cases hh : (walkedSlots A d.view.size e).hit d.view.size e.sign with
    | none => exact absurd h₁ (hB.entries.hit_none hi' hh hk hb)
    | some l =>
      obtain ⟨hl, hlb, hl₁⟩ := hB.entries.hit_some hi' hh
      obtain rfl := hM'.separated l hl k hk (hlb.trans hb.symm) (hl₁.trans h₁.symm)
      have hs := hacts ((walkedSlots A d.view.size e).entry l).1 (by rw [hh]; rfl)
      rw [hs]
  · intro hcl s hs
    cases hh : (walkedSlots A d.view.size e).hit d.view.size e.sign with
    | none => simp [hh] at hs
    | some l =>
      rw [hh, Option.map_some, Option.some_inj] at hs
      rw [← hs, hB.entries.entry_of_hit hi' hcl hh]

theorem exact_iff (h : Laid w A) (hc : c.view = w) (hs : 10 ≤ w.size.toNat)
    (hM : Remembers A w.size M) (e : Op T) :
    c.Exact M e ↔ c.Numbered e ∧ c.Unambiguous e := by
  rw [h.unambiguous_iff hc]
  constructor
  · intro hx
    have hn := h.numbered_of_isSome hc hx.inRange
    exact ⟨hn, (h.acts_iff hc hM (h.inRange_bucket hc hn)).mp hx.acts⟩
  · rintro ⟨hn, hcl⟩
    have hi := h.inRange_bucket hc hn
    refine ⟨?_, fun s v => ?_, ?_, (h.acts_iff hc hM hi).mpr hcl⟩
    · obtain ⟨r, hr, -⟩ := h.call_succeeds hc hs hn
      rw [hr]
      rfl
    · rw [hM.stored, h.entries.busySlots_eq hc]
      simp only [pvalue_sign, pvalue_value, hc, h.entries.entry_eq, Prod.ext_iff]
    · rintro sign rfl
      refine (h.call_succeeds hc hs hn).mono fun r hr => ?_
      rw [hr.2.2]
      exact h.entries.find_eq hi hM hcl

theorem everyCall_iff (h : Laid w A) (hc : c.view = w) (hs : 10 ≤ w.size.toNat)
    (hM : Remembers A w.size M) (calls : List (Call T)) :
    EveryCall Exact c M calls ↔
      EveryCall (fun c _ o => c.Numbered o ∧ c.Unambiguous o) c M calls := by
  induction calls generalizing c w A M with
  | nil => exact Iff.rfl
  | cons e es ih =>
    refine exists_congr fun o => and_congr_right fun _ => ?_
    change c.Exact M o ∧ _ ↔ (c.Numbered o ∧ c.Unambiguous o) ∧ _
    rw [h.exact_iff hc hs hM o]
    refine and_congr_right fun hu => forall_congr' fun r => imp_congr_right fun hr => ?_
    obtain ⟨hsize, hA, -⟩ := (h.call_succeeds hc hs hu.1).of_eq hr
    have hM' := h.call_remembers hc hs hM (h.inRange_bucket hc hu.1)
      ((h.unambiguous_iff hc o).mp hu.2)
    rw [← hsize] at hM' hs hA
    exact ih hA rfl hs hM'

end Laid

/-- From an empty memory, a cache of ten slots or more is a map keyed by whole
signatures if and only if every call gets by with the numbered slots and meets no
ambiguous entry. -/
theorem init_everyCall_exact_iff (c : CacheManager T) (size : UInt32) (fresh : ℤ → T × TSign)
    (h : 10 ≤ size.toNat) (calls : List (Call T)) :
    Succeeds (c.init size fresh) fun d =>
      (EveryCall Exact d (fun _ => none) calls ↔
        EveryCall (fun c _ o => c.Numbered o ∧ c.Unambiguous o) d (fun _ => none) calls) := by
  refine (init_laid c (by omega)).mono ?_
  rintro d ⟨rfl, A, hA, hbusy⟩
  refine hA.everyCall_iff rfl h ?_ calls
  constructor <;> simp [hbusy]

theorem init_everyCall_exact_iff_ten :
    Succeeds (blank.init 10 fun _ => (0, ⟨0, 0⟩)) fun d =>
      (EveryCall Exact d (fun _ => none) [.insert [97] 1, .find [97]] ↔
        EveryCall (fun c _ o => c.Numbered o ∧ c.Unambiguous o) d (fun _ => none)
          [.insert [97] 1, .find [97]]) :=
  init_everyCall_exact_iff blank 10 _ (by decide) _

/-- The keys `aaaab` and `aaaal` share a bucket and the first word of their
signatures: with the first one inserted, `find` succeeds on the second one. -/
theorem collision_not_exact :
    ¬ Succeeds (blank.init 10 fun _ => (0, ⟨0, 0⟩)) fun d =>
      EveryCall Exact d (fun _ => none)
        [.insert [97, 97, 97, 97, 98] 1, .find [97, 97, 97, 97, 108]] := by
  rintro ⟨d, hd, o, ho, hfirst, hrest⟩
  obtain ⟨r, hr⟩ := Option.isSome_iff_exists.mp hfirst.inRange
  obtain ⟨o', ho', hsecond, -⟩ := hrest r hr
  obtain rfl := Option.some_inj.mp (ho.symm.trans (Call.op_insert (by decide)))
  obtain rfl := Option.some_inj.mp (ho'.symm.trans (Call.op_find (by decide)))
  obtain ⟨r', hr', hM⟩ := hsecond.found _ rfl
  have hsome : (do
      let d ← blank.init 10 fun _ => (0, ⟨0, 0⟩)
      let r ← d.callOp (.insert (YeeSign.getSign [97, 97, 97, 97, 98]) 1)
      let r' ← r.1.callOp (.find (YeeSign.getSign [97, 97, 97, 97, 108]))
      some r'.2 : Option (Option ℕ)) = some (some 1) := by decide +kernel
  simp only [hd, hr, hr', Option.bind_eq_bind, Option.bind_some, Option.some_inj] at hsome
  have hne : YeeSign.getSign [97, 97, 97, 97, 108] ≠ YeeSign.getSign [97, 97, 97, 97, 98] := by
    decide +kernel
  rw [hsome, remember, Function.update_of_ne hne, forget] at hM
  split at hM <;> simp at hM

end YlUtils.CacheManager
