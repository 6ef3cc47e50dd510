import Mathlib.Logic.Function.Basic
import YlUtils.Text.CString

/-! # Files by path

The operations on whole files, as they succeed. What a path other than those of an
operation leads to does not change.
-/

namespace YlUtils

abbrev Files := Bytes → Option Bytes

namespace Files

def access (fs : Files) (path : Bytes) : Bool := (fs path).isSome

def remove (fs : Files) (path : Bytes) : Files := Function.update fs path none

/-- A file that exists is renamed; a file at the new path is replaced. -/
def rename (fs : Files) (src dst : Bytes) : Files :=
  if src = dst then fs else Function.update (Function.update fs src none) dst (fs src)

def openAppend (fs : Files) (path : Bytes) : Files :=
  if fs.access path then fs else Function.update fs path (some [])

def openWrite (fs : Files) (path : Bytes) : Files := Function.update fs path (some [])

def fwrite (fs : Files) (path b : Bytes) : Files :=
  Function.update fs path (some ((fs path).getD [] ++ b))

variable (fs : Files) {path src dst p : Bytes}

theorem ite_remove_self :
    (if fs.access path then fs.remove path else fs) path = none := by
  by_cases h : fs.access path = true
  · rw [if_pos h]
    exact Function.update_self _ _ _
  · rw [if_neg h]
    simpa [access] using h

theorem ite_remove_of_ne (h : p ≠ path) :
    (if fs.access path then fs.remove path else fs) p = fs p := by
  split
  · exact Function.update_of_ne h _ _
  · rfl

theorem ite_rename_dst (hne : src ≠ dst) (hdst : fs dst = none) :
    (if fs.access src then fs.rename src dst else fs) dst = fs src := by
  by_cases h : fs.access src = true
  · rw [if_pos h, rename, if_neg hne, Function.update_self]
  · rw [if_neg h, hdst]
    exact (Option.not_isSome_iff_eq_none.mp h).symm

theorem ite_rename_src (hne : src ≠ dst) :
    (if fs.access src then fs.rename src dst else fs) src = none := by
  by_cases h : fs.access src = true
  · rw [if_pos h, rename, if_neg hne, Function.update_of_ne hne, Function.update_self]
  · rw [if_neg h]
    exact Option.not_isSome_iff_eq_none.mp h

theorem ite_rename_of_ne (hsrc : p ≠ src) (hdst : p ≠ dst) :
    (if fs.access src then fs.rename src dst else fs) p = fs p := by
  unfold rename
  split_ifs
  · rfl
  · rw [Function.update_of_ne hdst, Function.update_of_ne hsrc]
  · rfl

theorem openAppend_self : fs.openAppend path path = some ((fs path).getD []) := by
  unfold openAppend access
  cases h : fs path with
  | none => simp
  | some s => simp [h]

theorem openAppend_of_ne (h : p ≠ path) : fs.openAppend path p = fs p := by
  unfold openAppend
  split
  · rfl
  · exact Function.update_of_ne h _ _

@[simp] theorem openWrite_self : fs.openWrite path path = some [] := Function.update_self _ _ _

@[simp] theorem openWrite_of_ne (h : p ≠ path) : fs.openWrite path p = fs p :=
  Function.update_of_ne h _ _

@[simp] theorem fwrite_self (b : Bytes) :
    fs.fwrite path b path = some ((fs path).getD [] ++ b) := Function.update_self _ _ _

@[simp] theorem fwrite_of_ne (h : p ≠ path) (b : Bytes) : fs.fwrite path b p = fs p :=
  Function.update_of_ne h _ _

end Files

end YlUtils
