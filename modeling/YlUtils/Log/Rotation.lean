import YlUtils.Log.Logger

/-! # What a rotation does to the old files

The file of each number comes to the next one, the last is dropped, and the log
is empty. With a count of one there is no file but the log, and nothing is done
to it.
-/

namespace YlUtils

namespace Rotation

def filePath (log_dir log_filename : Bytes) (i : ℕ) : Bytes :=
  if 0 < i then archivePath log_dir log_filename i else activePath log_dir log_filename

/-- The first `n` files are shifted by one, from the files `before` to the files `after`. -/
structure ShiftsByOne (log_dir log_filename : Bytes) (n : ℕ) (before after : Files) : Prop where
  moved : ∀ i, 1 ≤ i → i < n →
    after (filePath log_dir log_filename i) = before (filePath log_dir log_filename (i - 1))
  kept : ∀ i, n ≤ i →
    after (filePath log_dir log_filename i) = before (filePath log_dir log_filename i)
  fresh : after (filePath log_dir log_filename 0) = some []

variable {dir name : Bytes} {pathLen n k : ℕ} {fs : Files}

theorem snprintf_of_lt {s : Bytes} (h : s.length < pathLen) : snprintf pathLen s = s :=
  List.take_of_length_le (by omega)

theorem activePath_ne_archivePath {i : ℤ} : activePath dir name ≠ archivePath dir name i := by
  intro h
  have hname := List.append_cancel_left (List.append_cancel_left h : [47] ++ name = _ :: _)
  have hlen := congrArg List.length hname
  simp at hlen

theorem archivePath_injective : Function.Injective (archivePath dir name) := by
  intro i j h
  have hname := (List.cons.inj (List.append_cancel_left h)).2
  exact decimal_injective (List.cons.inj (List.append_cancel_left hname)).2

theorem filePath_inj {i j : ℕ} : filePath dir name i = filePath dir name j ↔ i = j := by
  constructor
  · intro h
    unfold filePath at h
    split at h <;> split at h
    · exact_mod_cast archivePath_injective h
    · exact absurd h.symm activePath_ne_archivePath
    · exact absurd h activePath_ne_archivePath
    · omega
  · rintro rfl
    rfl

theorem filePath_ne {i j : ℕ} (h : i ≠ j) : filePath dir name i ≠ filePath dir name j :=
  mt filePath_inj.mp h

theorem filePath_succ (i : ℕ) : filePath dir name (i + 1) = archivePath dir name (i + 1 : ℕ) :=
  if_pos i.succ_pos

theorem length_filePath_le (i : ℕ) :
    (filePath dir name i).length ≤ (archivePath dir name i).length := by
  unfold filePath
  split
  · exact le_rfl
  · simp only [activePath, archivePath, List.length_append, List.length_cons]
    omega

theorem moveLoop_succ (hsrc : (filePath dir name k).length < pathLen)
    (hdst : (filePath dir name (k + 1)).length < pathLen) :
    moveLoop pathLen dir name (k + 1) fs = moveLoop pathLen dir name k
      (if fs.access (filePath dir name k) then
        fs.rename (filePath dir name k) (filePath dir name (k + 1)) else fs) := by
  have hsrc' : snprintf pathLen (if k > 0 then archivePath dir name k else activePath dir name) =
      filePath dir name k := snprintf_of_lt hsrc
  have hdst' : snprintf pathLen (archivePath dir name (k + 1)) = filePath dir name (k + 1) :=
    (snprintf_of_lt (filePath_succ k ▸ hdst)).trans (filePath_succ k).symm
  rw [moveLoop, hsrc', hdst']

/-- If there is no file `k`, the loop moves the files below it up by one. -/
theorem moveLoop_spec (hlen : ∀ i ≤ k, (filePath dir name i).length < pathLen)
    (hnone : 0 < k → fs (filePath dir name k) = none) :
    (∀ i, 1 ≤ i → i ≤ k → moveLoop pathLen dir name k fs (filePath dir name i) =
        fs (filePath dir name (i - 1))) ∧
      (∀ i, k < i → moveLoop pathLen dir name k fs (filePath dir name i) =
        fs (filePath dir name i)) ∧
      moveLoop pathLen dir name k fs (filePath dir name 0) =
        if 0 < k then none else fs (filePath dir name 0) := by
  induction k generalizing fs with
  | zero =>
    refine ⟨?_, fun _ _ => rfl, rfl⟩
    intro i h1 h0
    omega
  | succ k ih =>
    rw [moveLoop_succ (hlen k k.le_succ) (hlen _ le_rfl)]
    have hsrc := Files.ite_rename_src fs (@filePath_ne dir name _ _ k.lt_succ_self.ne)
    have hdst := Files.ite_rename_dst fs (filePath_ne k.lt_succ_self.ne) (hnone k.succ_pos)
    have hother : ∀ i, i ≠ k → i ≠ k + 1 → _ := fun i hk hk' =>
      Files.ite_rename_of_ne fs (@filePath_ne dir name _ _ hk) (filePath_ne hk')
    obtain ⟨hmoved, hkept, hzero⟩ := ih (fun i hi => hlen i (hi.trans k.le_succ)) fun _ => hsrc
    refine ⟨?_, ?_, ?_⟩
    · intro i h1 hi
      rcases Nat.lt_succ_iff_lt_or_eq.mp (Nat.lt_succ_of_le hi) with hlt | rfl
      · rw [hmoved i h1 (by omega)]
        exact hother (i - 1) (by omega) (by omega)
      · rw [hkept (k + 1) k.lt_succ_self]
        exact hdst
    · intro i hi
      rw [hkept i (by omega)]
      exact hother i (by omega) (by omega)
    · rw [hzero, if_pos k.succ_pos]
      split
      · rfl
      · next hk =>
        obtain rfl : k = 0 := by omega
        exact hsrc

theorem rotateFiles_succ (fs : Files)
    (hlen : ∀ i < k + 1, (archivePath dir name i).length < pathLen) :
    rotateFiles pathLen dir name (k + 1 : ℕ) fs =
      (moveLoop pathLen dir name k (if fs.access (archivePath dir name k) then
        fs.remove (archivePath dir name k) else fs)).openAppend (filePath dir name 0) := by
  have hcount : ((k + 1 : ℕ) : ℤ) - 1 = k := by omega
  have hactive := (length_filePath_le 0).trans_lt (hlen 0 k.succ_pos)
  rw [rotateFiles, hcount, Int.toNat_natCast, snprintf_of_lt (hlen k k.lt_succ_self),
    snprintf_of_lt (s := activePath dir name) hactive]
  rfl

theorem rotateFiles_shifts (hlen : ∀ i < k + 2, (archivePath dir name i).length < pathLen) :
    ShiftsByOne dir name (k + 2) fs (rotateFiles pathLen dir name (k + 2 : ℕ) fs) := by
  have hlen' : ∀ i ≤ k + 1, (filePath dir name i).length < pathLen :=
    fun i hi => (length_filePath_le i).trans_lt (hlen i (by omega))
  obtain ⟨hmoved, hkept, hzero⟩ := moveLoop_spec hlen' fun _ => Files.ite_remove_self fs
  rw [rotateFiles_succ fs hlen, ← filePath_succ]
  constructor
  · intro i h1 hi
    rw [Files.openAppend_of_ne _ (filePath_ne (by omega)), hmoved i h1 (by omega)]
    exact Files.ite_remove_of_ne fs (filePath_ne (by omega))
  · intro i hi
    rw [Files.openAppend_of_ne _ (filePath_ne (by omega)), hkept i (by omega)]
    exact Files.ite_remove_of_ne fs (filePath_ne (by omega))
  · rw [Files.openAppend_self, hzero, if_pos k.succ_pos]
    rfl

theorem rotateFiles_one (fs : Files) (hlen : (archivePath dir name 0).length < pathLen) :
    rotateFiles pathLen dir name (1 : ℕ) fs (filePath dir name 0) =
        some ((fs (activePath dir name)).getD []) ∧
      ∀ i, 1 ≤ i → rotateFiles pathLen dir name (1 : ℕ) fs (filePath dir name i) =
        fs (filePath dir name i) := by
  rw [rotateFiles_succ fs fun i hi => by rwa [Nat.lt_one_iff.mp hi]]
  constructor
  · exact (Files.openAppend_self _).trans
      (congrArg (some <| ·.getD []) (Files.ite_remove_of_ne fs activePath_ne_archivePath))
  · intro i hi
    have harchive : filePath dir name i ≠ archivePath dir name (0 : ℕ) := by
      rw [filePath, if_pos (Nat.pos_of_ne_zero (by omega))]
      exact archivePath_injective.ne (by omega)
    exact (Files.openAppend_of_ne _ (filePath_ne (by omega))).trans
      (Files.ite_remove_of_ne fs harchive)

/-- A rotation shifts the files by one exactly if the count is above one or there is nothing in
the log. -/
theorem rotateFiles_shifts_iff (hn : 1 ≤ n)
    (hlen : ∀ i < n, (archivePath dir name i).length < pathLen) :
    ShiftsByOne dir name n fs (rotateFiles pathLen dir name n fs) ↔
      2 ≤ n ∨ (fs (activePath dir name)).getD [] = [] := by
  obtain ⟨k, rfl⟩ := Nat.exists_eq_add_of_le' hn
  cases k with
  | zero =>
    obtain ⟨hzero, hkept⟩ := rotateFiles_one fs (hlen 0 one_pos)
    constructor
    · intro h
      exact .inr (Option.some.inj (hzero.symm.trans h.fresh))
    · rintro (h | h)
      · omega
      · exact ⟨fun i h1 hi => by omega, hkept, hzero.trans (congrArg some h)⟩
  | succ k => exact iff_of_true (rotateFiles_shifts hlen) (.inl (by omega))

end Rotation

open Rotation

theorem Logger.rotate_log_files {l : Logger} {pos now : ℤ} (h : l.needRotate pos now = true)
    (beginning : ℤ) (fs : Files) : (l.rotate_log pos now beginning fs).2 =
      rotateFiles Logger.logPathLen l.log_dir l.log_filename l.log_rotate_count fs := by
  rw [Logger.rotate_log, if_pos h]

theorem YlLog.rotate_log_files {l : YlLog} {pos now : ℤ} (h : l.needRotate pos now = true)
    (beginning : ℤ) (fs : Files) : (l.rotate_log pos now beginning fs).2 =
      rotateFiles YlLog.logPathLen l.log_dir l.log_filename l.log_rotate_count fs := by
  rw [YlLog.rotate_log, if_pos h]

theorem YlLog.log_start_count_pos (dir filename : Bytes) (rotate_count rotate_type beginning : ℤ)
    (fs : Files) :
    1 ≤ (log_start dir filename rotate_count rotate_type beginning fs).1.log_rotate_count := by
  change 1 ≤ if rotate_count ≤ 0 then rotateCnt else rotate_count
  split
  · decide
  · omega

/-- Once either log is to be rotated, its files are shifted by one exactly if its count is above
one or there is nothing in the log. -/
theorem rotate_log_shifts_iff (n : ℕ) (hn : 1 ≤ n) (pos now beginning : ℤ) (fs : Files) :
    (∀ l : Logger, l.log_rotate_count = n → l.needRotate pos now = true →
      (∀ i < n, (archivePath l.log_dir l.log_filename i).length < Logger.logPathLen) →
      (ShiftsByOne l.log_dir l.log_filename n fs (l.rotate_log pos now beginning fs).2 ↔
        2 ≤ n ∨ (fs (activePath l.log_dir l.log_filename)).getD [] = [])) ∧
    (∀ l : YlLog, l.log_rotate_count = n → l.needRotate pos now = true →
      (∀ i < n, (archivePath l.log_dir l.log_filename i).length < YlLog.logPathLen) →
      (ShiftsByOne l.log_dir l.log_filename n fs (l.rotate_log pos now beginning fs).2 ↔
        2 ≤ n ∨ (fs (activePath l.log_dir l.log_filename)).getD [] = [])) := by
  constructor
  · intro l hcount hneed hlen
    rw [l.rotate_log_files hneed, hcount]
    exact rotateFiles_shifts_iff hn hlen
  · intro l hcount hneed hlen
    rw [l.rotate_log_files hneed, hcount]
    exact rotateFiles_shifts_iff hn hlen

/-- Logs that are rotated by the day and keep two files, with one byte in the log. -/
theorem rotate_log_shifts_two :
    ShiftsByOne [46] [108] 2 (fun p => if p = activePath [46] [108] then some [97] else none)
        (Logger.rotate_log ⟨[46], [108], 1, 2, 64000000, 86400, 0⟩ 1 86400 86400 fun p =>
          if p = activePath [46] [108] then some [97] else none).2 ∧
      ShiftsByOne [46] [108] 2 (fun p => if p = activePath [46] [108] then some [97] else none)
        (YlLog.rotate_log ⟨[46], [108], 2, 1, 0⟩ 1 86400 86400 fun p =>
          if p = activePath [46] [108] then some [97] else none).2 := by
  obtain ⟨hlogger, hyl⟩ := rotate_log_shifts_iff 2 (by decide) 1 86400 86400 fun p =>
    if p = activePath [46] [108] then some [97] else none
  have hlen : ∀ i : ℕ, i < 2 → (archivePath [46] [108] i).length < 6 := by decide
  constructor
  · exact (hlogger ⟨[46], [108], 1, 2, 64000000, 86400, 0⟩ rfl (by decide) fun i hi =>
      (hlen i hi).trans (by decide)).mpr (.inl le_rfl)
  · exact (hyl ⟨[46], [108], 2, 1, 0⟩ rfl (by decide) fun i hi =>
      (hlen i hi).trans (by decide)).mpr (.inl le_rfl)

/-- With a count of one the byte in the log stays. -/
theorem rotate_log_one_kept :
    ¬ShiftsByOne [46] [108] 1 (fun p => if p = activePath [46] [108] then some [97] else none)
      (((⟨[46], [108], 1, 6, 64000000, 86400, 0⟩ : Logger).set_rotate_count 1).rotate_log
        1 86400 86400 fun p => if p = activePath [46] [108] then some [97] else none).2 := by
  intro h
  exact absurd h.fresh (by decide)

end YlUtils
