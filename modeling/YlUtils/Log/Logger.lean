import YlUtils.Files.FileSystem
import YlUtils.Text.Decimal

/-! # Rotating logs

Both logs keep their old files under numbers: each number is one more after a
rotation, and the log begins anew.
-/

namespace YlUtils

def snprintf (size : ℕ) (s : Bytes) : Bytes := s.take (size - 1)

namespace Rotation

def activePath (log_dir log_filename : Bytes) : Bytes := log_dir ++ 47 :: log_filename

def archivePath (log_dir log_filename : Bytes) (i : ℤ) : Bytes :=
  log_dir ++ 47 :: (log_filename ++ 46 :: decimal i)

/-- The loop that moves the files, with `i + 1` the number that it has come down to. -/
def moveLoop (pathLen : ℕ) (log_dir log_filename : Bytes) : ℕ → Files → Files
  | 0, fs => fs
  | i + 1, fs =>
    let src := snprintf pathLen
      (if i > 0 then archivePath log_dir log_filename i else activePath log_dir log_filename)
    let dst := snprintf pathLen (archivePath log_dir log_filename (i + 1))
    moveLoop pathLen log_dir log_filename i (if fs.access src then fs.rename src dst else fs)

/-- What is done to the files as the log is rotated: the oldest is removed, the others are moved,
and the log is opened. -/
def rotateFiles (pathLen : ℕ) (log_dir log_filename : Bytes) (log_rotate_count : ℤ) (fs : Files) :
    Files :=
  let src := snprintf pathLen (archivePath log_dir log_filename (log_rotate_count - 1))
  let fs := if fs.access src then fs.remove src else fs
  let fs := moveLoop pathLen log_dir log_filename (log_rotate_count - 1).toNat fs
  fs.openAppend (snprintf pathLen (activePath log_dir log_filename))

end Rotation

structure Logger where
  log_dir : Bytes
  log_filename : Bytes
  log_rotate_type : ℤ
  log_rotate_count : ℤ
  log_rotate_fsize : ℤ
  log_rotate_interval : ℤ
  today : ℤ

namespace Logger

def logPathLen : ℕ := 256

def set_rotate_count (l : Logger) (count : ℤ) : Logger := { l with log_rotate_count := count }

/-- Whether the log is to be rotated, at the position `pos` of the file and the time `now`. -/
def needRotate (l : Logger) (pos now : ℤ) : Bool :=
  if l.log_rotate_type = 0 then l.log_rotate_fsize < pos
  else l.log_rotate_interval ≤ now - l.today

def rotate_log (l : Logger) (pos now beginning : ℤ) (fs : Files) : Logger × Files :=
  if l.needRotate pos now then
    (if l.log_rotate_type = 0 then l else { l with today := beginning },
      Rotation.rotateFiles logPathLen l.log_dir l.log_filename l.log_rotate_count fs)
  else (l, fs)

end Logger

structure YlLog where
  log_dir : Bytes
  log_filename : Bytes
  log_rotate_count : ℤ
  log_rotate_type : ℤ
  today : ℤ

namespace YlLog

def logPathLen : ℕ := 128

def rotateCnt : ℤ := 6

def rotateFsize : ℤ := 64000000

def rotateInterval : ℤ := 86400

def log_start (dir filename : Bytes) (rotate_count rotate_type beginning : ℤ) (fs : Files) :
    YlLog × Files :=
  (⟨snprintf logPathLen dir, snprintf logPathLen filename,
      if rotate_count ≤ 0 then rotateCnt else rotate_count, rotate_type, beginning⟩,
    fs.openAppend (snprintf logPathLen (Rotation.activePath dir filename)))

def needRotate (l : YlLog) (pos now : ℤ) : Bool :=
  if l.log_rotate_type = 0 then rotateFsize < pos else rotateInterval ≤ now - l.today

def rotate_log (l : YlLog) (pos now beginning : ℤ) (fs : Files) : YlLog × Files :=
  if l.needRotate pos now then
    (if l.log_rotate_type = 0 then l else { l with today := beginning },
      Rotation.rotateFiles logPathLen l.log_dir l.log_filename l.log_rotate_count fs)
  else (l, fs)

end YlLog

end YlUtils
