import YlUtils.Segment.Sbtmodel

/-! # The best tags of a span

The graph is a trellis, whose paths choose one tag for each word. `D_project`
solves it: the weight of a node is the greatest weight of all paths to it, where
the products are rounded as the program computes them from left to right.
-/

namespace YlUtils

section Project

variable {W : Type} [LinearOrder W] (P : TagStatistics W) (word : ℤ → Bytes) (WFlag : Bool)
  (g : List (List (GRAPHELM W)))

def nodeAt (c b : ℕ) : GRAPHELM W := (g.getD c []).getD b (.zero P)

/-- The paths of tags, and the products that weigh them. -/
def tagTrellis : Trellis W where
  width c := (g.getD c []).length
  start := P.one
  ext c w a b :=
    let e := nodeAt P g (c + 1) b
    let r := P.mul w (P.ConcurP (nodeAt P g c a).singletag e.singletag)
    if WFlag then P.mul r (P.WtagP (word e.wordpos) e.singletag) else r
  mono c a b := by
    intro w w' h
    have hr := P.mul_mono (P.ConcurP (nodeAt P g c a).singletag (nodeAt P g (c + 1) b).singletag) h
    dsimp only
    split
    · exact P.mul_mono _ hr
    · exact hr

variable {P word WFlag g} {c b : ℕ}

theorem bestForward_spec {forward : List (GRAPHELM W)} (tag : Bytes) (h : forward ≠ []) :
    ∃ f, forward[(bestForward P forward tag).1]? = some f ∧
      (bestForward P forward tag).2 = P.mul f.opwt (P.ConcurP f.singletag tag) ∧
      ∀ f' ∈ forward,
        P.mul f'.opwt (P.ConcurP f'.singletag tag) ≤ (bestForward P forward tag).2 := by
  obtain ⟨e, es, rfl⟩ := List.exists_cons_of_ne_nil h
  have hget := firstMax_get (P.mul e.opwt (P.ConcurP e.singletag tag))
    (es.map fun f => P.mul f.opwt (P.ConcurP f.singletag tag))
  rw [← List.map_cons (f := fun f : GRAPHELM W => P.mul f.opwt (P.ConcurP f.singletag tag)),
    List.getElem?_map, Option.map_eq_some_iff] at hget
  obtain ⟨f, hf, hw⟩ := hget
  refine ⟨f, hf, hw.symm, fun f' hf' => le_firstMax ?_⟩
  rw [← List.map_cons (f := fun f : GRAPHELM W => P.mul f.opwt (P.ConcurP f.singletag tag))]
  exact List.mem_map_of_mem hf'

theorem projectFrom_getD (forward : List (GRAPHELM W)) (cols : List (List (GRAPHELM W))) (c : ℕ) :
    (projectFrom P word WFlag forward cols).getD c [] =
      (cols.getD c []).map (projectNode P word WFlag
        ((forward :: projectFrom P word WFlag forward cols).getD c [])) := by
  induction cols generalizing forward c with
  | nil => simp [projectFrom]
  | cons col cols ih =>
    cases c with
    | zero => rfl
    | succ c => exact ih _ c

theorem dproject_getD_succ (c : ℕ) : (D_project P word WFlag g).getD (c + 1) [] =
    (g.getD (c + 1) []).map
      (projectNode P word WFlag ((D_project P word WFlag g).getD c [])) := by
  cases g with
  | nil => rfl
  | cons col cols => exact projectFrom_getD _ cols c

theorem dproject_getD_zero : (D_project P word WFlag g).getD 0 [] =
    (g.getD 0 []).map fun e => { e with pathpt := -1, opwt := P.one } := by
  cases g <;> rfl

theorem length_projectFrom (forward : List (GRAPHELM W)) (cols : List (List (GRAPHELM W))) :
    (projectFrom P word WFlag forward cols).length = cols.length := by
  induction cols generalizing forward with
  | nil => rfl
  | cons col cols ih => simp [projectFrom, ih]

@[simp] theorem length_dproject : (D_project P word WFlag g).length = g.length := by
  cases g <;> simp [D_project, length_projectFrom]

variable (P word WFlag g) in
theorem length_column_dproject (c : ℕ) :
    ((D_project P word WFlag g).getD c []).length = (g.getD c []).length := by
  cases c with
  | zero => rw [dproject_getD_zero, List.length_map]
  | succ c => rw [dproject_getD_succ, List.length_map]

theorem getD_map_of_lt {α β : Type*} {f : α → β} {l : List α} (h : b < l.length) (x : α) (y : β) :
    (l.map f).getD b y = f (l.getD b x) := by
  simp [List.getD_eq_getElem?_getD, h]

theorem nodeAt_dproject_zero (hb : b < (g.getD 0 []).length) :
    nodeAt P (D_project P word WFlag g) 0 b =
      { nodeAt P g 0 b with pathpt := -1, opwt := P.one } := by
  rw [nodeAt, dproject_getD_zero, getD_map_of_lt hb (.zero P)]
  rfl

theorem nodeAt_dproject_succ (hb : b < (g.getD (c + 1) []).length) :
    nodeAt P (D_project P word WFlag g) (c + 1) b =
      projectNode P word WFlag ((D_project P word WFlag g).getD c []) (nodeAt P g (c + 1) b) := by
  rw [nodeAt, dproject_getD_succ, getD_map_of_lt hb (.zero P)]
  rfl

variable (P word WFlag) in
theorem nodeAt_dproject (hb : b < (g.getD c []).length) :
    (nodeAt P (D_project P word WFlag g) c b).singletag = (nodeAt P g c b).singletag ∧
      (nodeAt P (D_project P word WFlag g) c b).wordpos = (nodeAt P g c b).wordpos := by
  cases c with
  | zero => simp [nodeAt_dproject_zero hb]
  | succ c => simp [nodeAt_dproject_succ hb, projectNode]

variable (P word WFlag g) in
def tagBack (c b : ℕ) : ℕ := (nodeAt P (D_project P word WFlag g) c b).pathpt.toNat

theorem pathpt_dproject_succ (hb : b < (g.getD (c + 1) []).length) :
    (nodeAt P (D_project P word WFlag g) (c + 1) b).pathpt = tagBack P word WFlag g (c + 1) b := by
  simp [tagBack, nodeAt_dproject_succ hb, projectNode]

theorem getD_mem_of_lt {α : Type*} {l : List α} (h : b < l.length) (x : α) : l.getD b x ∈ l := by
  rw [List.getD_eq_getElem?_getD, List.getElem?_eq_getElem h]
  exact List.getElem_mem h

variable (P word WFlag) in
/-- `D_project` solves the trellis if every word has a tag. -/
theorem dproject_solves (hg : ∀ col ∈ g, col ≠ []) :
    (tagTrellis P word WFlag g).Solves
      (fun c b => (nodeAt P (D_project P word WFlag g) c b).opwt) (tagBack P word WFlag g)
      (g.length - 1) := by
  have hforward : ∀ c < g.length - 1, (D_project P word WFlag g).getD c [] ≠ [] := by
    intro c hc hnil
    have hlen := length_column_dproject P word WFlag g c
    have hlt : c < g.length := by omega
    rw [hnil, List.getD_eq_getElem?_getD, List.getElem?_eq_getElem hlt] at hlen
    exact hg _ (List.getElem_mem hlt) (List.eq_nil_of_length_eq_zero hlen.symm)
  refine ⟨fun b hb => ?_, fun c hc b hb => ?_, fun c hc b hb => ?_, fun c hc b hb a ha => ?_⟩
  · rw [nodeAt_dproject_zero hb]
    rfl
  · obtain ⟨f, hf, -⟩ := bestForward_spec (P := P) (nodeAt P g (c + 1) b).singletag
      (hforward c hc)
    rw [tagBack, nodeAt_dproject_succ hb]
    have hlt := (List.getElem?_eq_some_iff.mp hf).1
    rw [length_column_dproject] at hlt
    exact hlt
  · obtain ⟨f, hf, hw, -⟩ := bestForward_spec (P := P) (nodeAt P g (c + 1) b).singletag
      (hforward c hc)
    have hback : tagBack P word WFlag g (c + 1) b =
        (bestForward P ((D_project P word WFlag g).getD c [])
          (nodeAt P g (c + 1) b).singletag).1 := by
      rw [tagBack, nodeAt_dproject_succ hb]
      rfl
    have hlt := (List.getElem?_eq_some_iff.mp hf).1
    rw [length_column_dproject, ← hback] at hlt
    have hnode : nodeAt P (D_project P word WFlag g) c (tagBack P word WFlag g (c + 1) b) = f := by
      rw [nodeAt, hback, List.getD_eq_getElem?_getD, hf]
      rfl
    dsimp only [tagTrellis]
    rw [← (nodeAt_dproject P word WFlag hlt).1, hnode, ← hw,
      nodeAt_dproject_succ hb]
    rfl
  · obtain ⟨f, hf, hw, hmax⟩ := bestForward_spec (P := P) (nodeAt P g (c + 1) b).singletag
      (hforward c hc)
    have ha' : a < ((D_project P word WFlag g).getD c []).length := by
      rw [length_column_dproject]
      exact ha
    have hle := hmax _ (getD_mem_of_lt ha' (.zero P))
    dsimp only [tagTrellis]
    rw [nodeAt_dproject_succ hb, ← (nodeAt_dproject P word WFlag ha).1]
    dsimp only [projectNode]
    split
    · exact P.mul_mono _ hle
    · exact hle

theorem dproject_isGreatest (hg : ∀ col ∈ g, col ≠ []) (hc : c < g.length)
    (hb : b < (g.getD c []).length) :
    IsGreatest ((tagTrellis P word WFlag g).weights c b)
      (nodeAt P (D_project P word WFlag g) c b).opwt :=
  (dproject_solves P word WFlag hg).isGreatest (by omega) hb

end Project

end YlUtils
