import YlUtils.Runs.Loop
import YlUtils.Runs.Succeeds
import YlUtils.Text.CString
import YlUtils.Text.DoubleByte

/-! # Chinese encodings

A text in Big5 or GBK is converted to GB2312 in its own buffer: every pair of
bytes that the encoding takes for a character is replaced by the entry of a
table, if there is one. The tables have an entry for each of the pairs; what
matters of them is that their entries are pairs of GBK and that the entries of
the second one are its own entries.
-/

namespace YlUtils

def isBig5 (c1 c2 : UInt8) : Bool :=
  0xA1 ≤ c1 && c1 ≤ 0xF9 && ((0x40 ≤ c2 && c2 ≤ 0x7E) || (0xA1 ≤ c2 && c2 ≤ 0xFE))

def isCommonBig5 (c1 c2 : UInt8) : Bool :=
  (0xA4 ≤ c1 && c1 ≤ 0xC5 && 0x40 ≤ c2 && c2 ≤ 0xFE) || (c1 == 0xC6 && 0x40 ≤ c2 && c2 ≤ 0x7E)

def isCommonGBK (c1 c2 : UInt8) : Bool :=
  0xB0 ≤ c1 && c1 ≤ 0xD7 && 0xA1 ≤ c2 && c2 ≤ 0xFE

def isGBK (c1 c2 : UInt8) : Bool :=
  0x81 ≤ c1 && c1 ≤ 0xFE && 0x40 ≤ c2 && c2 ≤ 0xFE && c2 != 0x7F

def pairCode (c1 c2 : UInt8) : UInt16 := c1.toUInt16 ||| c2.toUInt16 <<< 8

/-- What `*(u_short *)p` becomes: the entry of the table, unless it is zero. -/
def convPair (table : UInt16 → UInt16) (c1 c2 : UInt8) : UInt8 × UInt8 :=
  if table (pairCode c1 c2) ≠ 0 then
    ((table (pairCode c1 c2)).toUInt8, (table (pairCode c1 c2) >>> 8).toUInt8)
  else (c1, c2)

structure CodeTables where
  mBig5GB2312 : UInt16 → UInt16
  mGBKGB2312 : UInt16 → UInt16
  isGBK_big5 : ∀ c1 c2, isBig5 c1 c2 = true →
    isGBK (convPair mBig5GB2312 c1 c2).1 (convPair mBig5GB2312 c1 c2).2 = true
  isGBK_gbk : ∀ c1 c2, isGBK c1 c2 = true →
    isGBK (convPair mGBKGB2312 c1 c2).1 (convPair mGBKGB2312 c1 c2).2 = true
  gbk_stable : ∀ c1 c2, isGBK c1 c2 = true →
    convPair mGBKGB2312 (convPair mGBKGB2312 c1 c2).1 (convPair mGBKGB2312 c1 c2).2 =
      convPair mGBKGB2312 c1 c2

def writePair (buf : Bytes) (p : ℕ) (v : UInt8 × UInt8) : Bytes := (buf.set p v.1).set (p + 1) v.2

/-- A round of the loop at position `p`. A read behind the buffer has no result. -/
def convRound (isPair : UInt8 → UInt8 → Bool) (table : UInt16 → UInt16) (x : Bytes × ℕ) :
    Round (Bytes × ℕ) (Option Bytes) :=
  match x.1[x.2]?, x.1[x.2 + 1]? with
  | some c1, c2 =>
    if c1 = 0 then .leave (some x.1)
    else
      match c2 with
      | some c2 =>
        if isPair c1 c2 then .again (writePair x.1 x.2 (convPair table c1 c2), x.2 + 2)
        else .again (x.1, x.2 + 1)
      | none => .leave none
  | none, _ => .leave none

def convBuf (isPair : UInt8 → UInt8 → Bool) (table : UInt16 → UInt16) (buf : Bytes) :
    Option Bytes :=
  (loop (convRound isPair table) (buf.length + 1) (buf, 0)).join

def big52gb (tables : CodeTables) (buf : Bytes) : Option Bytes :=
  convBuf isBig5 tables.mBig5GB2312 buf

def gbk2gb (tables : CodeTables) (buf : Bytes) : Option Bytes :=
  convBuf isGBK tables.mGBKGB2312 buf

/-- A converter on a string, whose bytes a zero follows. -/
def convString (conv : Bytes → Option Bytes) (buf : Bytes) : Option Bytes :=
  (conv (buf ++ [0])).map (·.take buf.length)

def gbk2gb_string (tables : CodeTables) : Bytes → Option Bytes := convString (gbk2gb tables)

inductive E_CodeType
  | E_UTF8
  | E_GB2312
  | E_GBK
  | E_BIG5
  | E_UNKOWN
  deriving DecidableEq

def codeCounts : Bytes → ℕ → ℕ → Option (ℕ × ℕ)
  | c1 :: c2 :: src, big5num, gbknum =>
    if c1 = 0 then some (big5num, gbknum)
    else
      let big5num := if isCommonBig5 c1 c2 then big5num + 1 else big5num
      let gbknum := if isCommonGBK c1 c2 then gbknum + 1 else gbknum
      if isGBK c1 c2 || isBig5 c1 c2 then codeCounts src big5num gbknum
      else codeCounts (c2 :: src) big5num gbknum
  | [c1], big5num, gbknum => if c1 = 0 then some (big5num, gbknum) else none
  | [], _, _ => none

def codeDetect (src : Bytes) : Option E_CodeType :=
  (codeCounts src 0 0).map fun (big5num, gbknum) =>
    if big5num = gbknum ∧ gbknum = 0 then .E_GBK
    else if gbknum ≤ big5num then .E_BIG5
    else .E_GBK

open DoubleByte

section Conversion

variable {isPair : UInt8 → UInt8 → Bool} {table : UInt16 → UInt16}

theorem convRound_end (isPair : UInt8 → UInt8 → Bool) (table : UInt16 → UInt16)
    (done rest : Bytes) :
    convRound isPair table (done ++ 0 :: rest, done.length) =
      .leave (some (done ++ 0 :: rest)) := by
  simp [convRound]

theorem convRound_single {b c : UInt8} (done rest : Bytes) (hb : b ≠ 0) (hp : isPair b c = false) :
    convRound isPair table (done ++ b :: c :: rest, done.length) =
      .again (done ++ b :: c :: rest, done.length + 1) := by
  simp [convRound, hb, hp]

theorem writePair_append (done rest : Bytes) (b c : UInt8) (v : UInt8 × UInt8) :
    writePair (done ++ b :: c :: rest) done.length v = done ++ v.1 :: v.2 :: rest := by
  simp [writePair]

theorem convRound_pair {b c : UInt8} (done rest : Bytes) (hb : b ≠ 0) (hp : isPair b c = true) :
    convRound isPair table (done ++ b :: c :: rest, done.length) =
      .again (done ++ (convPair table b c).1 :: (convPair table b c).2 :: rest,
        done.length + 2) := by
  simp [convRound, hb, hp, writePair_append]

/-- The characters of a buffer with the entries of the table. -/
def convChars (isPair : UInt8 → UInt8 → Bool) (table : UInt16 → UInt16) (s : Bytes) :
    List (DoubleByte UInt8) :=
  (chars isPair s).map (mapPair (convPair table))

/-- From a position on, the loop replaces the characters before the zero, and nothing else. -/
theorem loop_convRound (table : UInt16 → UInt16) (hzero : ∀ b, isPair b 0 = false) {s : Bytes}
    (hs : 0 ∉ s) (done rest : Bytes) {n : ℕ} (hn : s.length < n) :
    loop (convRound isPair table) n (done ++ s ++ 0 :: rest, done.length) =
      some (some (done ++ text (convChars isPair table s) ++ 0 :: rest)) := by
  induction s using chars.induct isPair generalizing done n with
  | case1 =>
    obtain ⟨n, rfl⟩ := Nat.exists_eq_add_of_lt hn
    rw [List.append_nil, loop_leave (convRound_end isPair table done rest)]
    simp [convChars, chars]
  | case2 b =>
    obtain ⟨n, rfl⟩ : ∃ m, n = m + 2 := ⟨n - 2, by simp at hn; omega⟩
    have hb : b ≠ 0 := by
      rintro rfl
      exact hs List.mem_cons_self
    have hend := convRound_end isPair table (done ++ [b]) rest
    rw [List.length_append, List.length_singleton] at hend
    rw [List.append_assoc, List.singleton_append,
      loop_again (convRound_single done rest hb (hzero b)), List.append_cons, loop_leave hend]
    simp [convChars, chars, mapPair, bytes]
  | case3 b c s hp ih =>
    obtain ⟨n, rfl⟩ : ∃ m, n = m + 1 := ⟨n - 1, by omega⟩
    have hb : b ≠ 0 := by
      rintro rfl
      exact hs List.mem_cons_self
    have hrest := ih (fun h => hs (List.mem_cons_of_mem b (List.mem_cons_of_mem c h)))
      (done ++ [(convPair table b c).1, (convPair table b c).2]) (show s.length < n by
        simp only [List.length_cons] at hn
        omega)
    rw [List.length_append, List.length_cons, List.length_singleton, List.append_assoc,
      List.append_assoc] at hrest
    rw [List.append_assoc, List.cons_append, List.cons_append,
      loop_again (convRound_pair done (s ++ 0 :: rest) hb hp)]
    simpa [convChars, chars, hp, mapPair, bytes] using hrest
  | case4 b c s hp ih =>
    obtain ⟨n, rfl⟩ : ∃ m, n = m + 1 := ⟨n - 1, by omega⟩
    have hb : b ≠ 0 := by
      rintro rfl
      exact hs List.mem_cons_self
    have hp' : isPair b c = false := Bool.eq_false_iff.mpr hp
    have hrest := ih (fun h => hs (List.mem_cons_of_mem b h)) (done ++ [b])
      (show (c :: s).length < n by
        simp only [List.length_cons] at hn ⊢
        omega)
    rw [List.length_append, List.length_singleton] at hrest
    rw [List.append_assoc, List.cons_append, List.cons_append,
      loop_again (convRound_single done (s ++ 0 :: rest) hb hp')]
    simpa [convChars, chars, hp', mapPair, bytes] using hrest

theorem convBuf_eq (hzero : ∀ b, isPair b 0 = false) {s : Bytes} (hs : 0 ∉ s) (rest : Bytes) :
    convBuf isPair table (s ++ 0 :: rest) =
      some (text (convChars isPair table s) ++ 0 :: rest) := by
  have h := loop_convRound table hzero hs [] rest
    (n := (s ++ 0 :: rest).length + 1) (by rw [List.length_append, List.length_cons]; omega)
  rw [List.nil_append, List.length_nil, List.nil_append] at h
  rw [convBuf, h, Option.join_some]

theorem length_convChars (isPair : UInt8 → UInt8 → Bool) (table : UInt16 → UInt16) (s : Bytes) :
    (text (convChars isPair table s)).length = s.length := by
  rw [convChars, length_text_map, text_chars]

theorem convString_eq (table : UInt16 → UInt16) (hzero : ∀ b, isPair b 0 = false) (buf : Bytes) :
    convString (convBuf isPair table) buf =
      some (text (convChars isPair table (cstr buf)) ++ buf.drop (strlen buf)) := by
  have hsplit : cstr buf ++ buf.drop (strlen buf) = buf := by
    rw [← take_strlen, List.take_append_drop]
  have hlen := length_convChars isPair table (cstr buf)
  obtain ⟨rest, hrest⟩ := drop_strlen buf
  have hbuf : buf ++ [0] = cstr buf ++ 0 :: rest := by
    rw [← hrest, ← List.append_assoc, hsplit]
  rw [convString, hbuf, convBuf_eq hzero (zero_notMem_cstr buf), Option.map_some, ← hrest,
    ← List.append_assoc, List.take_left']
  rw [List.length_append, hlen, ← List.length_append, hsplit]

end Conversion

/-! ## The characters of both encodings -/

section Characters

variable {a b c : UInt8}

theorem isBig5_zero (b : UInt8) : isBig5 b 0 = false := by
  simp [isBig5]

theorem isGBK_zero (b : UInt8) : isGBK b 0 = false := by
  simp [isGBK]

theorem isGBK_of_isBig5 (h : isBig5 b c = true) : isGBK b c = true := by
  simp only [isBig5, isGBK, Bool.and_eq_true, Bool.or_eq_true, decide_eq_true_eq, bne_iff_ne, ne_eq,
    UInt8.le_iff_toNat_le, ← UInt8.toNat_inj] at h ⊢
  simp at h ⊢
  omega

theorem isGBK_first (h : isGBK b c = true) (a : UInt8) :
    isGBK a b = (0x81 ≤ a && a ≤ 0xFE) := by
  have hb : 0x81 ≤ b.toNat ∧ b.toNat ≤ 0xFE := by
    simp only [isGBK, Bool.and_eq_true, decide_eq_true_eq, UInt8.le_iff_toNat_le] at h
    exact h.1.1.1
  rw [Bool.eq_iff_iff]
  simp only [isGBK, Bool.and_eq_true, decide_eq_true_eq, bne_iff_ne, ne_eq,
    UInt8.le_iff_toNat_le, ← UInt8.toNat_inj]
  simp
  omega

theorem recodes_of_isGBK {isPair : UInt8 → UInt8 → Bool} {table : UInt16 → UInt16}
    (hpair : ∀ b c, isPair b c = true → isGBK b c = true)
    (himage : ∀ b c, isPair b c = true →
      isGBK (convPair table b c).1 (convPair table b c).2 = true) :
    Recodes isPair isGBK (convPair table) where
  pair := hpair
  image := himage
  first a b c h := by rw [isGBK_first (himage b c h), isGBK_first (hpair b c h)]

theorem CodeTables.recodes_big5 (tables : CodeTables) :
    Recodes isBig5 isGBK (convPair tables.mBig5GB2312) :=
  recodes_of_isGBK (fun _ _ => isGBK_of_isBig5) tables.isGBK_big5

theorem CodeTables.recodes_gbk (tables : CodeTables) :
    Recodes isGBK isGBK (convPair tables.mGBKGB2312) :=
  recodes_of_isGBK (fun _ _ h => h) tables.isGBK_gbk

theorem zero_notMem_bytes {x : DoubleByte UInt8} (hx : x.Fits isGBK) (h : x ≠ one 0) :
    0 ∉ x.bytes := by
  cases x with
  | one b =>
    rintro hb
    exact h (by rw [List.mem_singleton.mp hb])
  | two b c =>
    intro hmem
    change isGBK b c = true at hx
    rcases List.mem_cons.mp hmem with rfl | hmem
    · simp [isGBK] at hx
    · rw [← List.mem_singleton.mp hmem, isGBK_zero] at hx
      cases hx

end Characters

theorem convPair_single (k v : UInt16) (b c : UInt8) :
    convPair (fun i => if i = k then v else 0) b c =
      if pairCode b c = k ∧ v ≠ 0 then (v.toUInt8, (v >>> 8).toUInt8) else (b, c) := by
  unfold convPair
  by_cases hk : pairCode b c = k <;> by_cases hv : v = 0 <;> simp [hk, hv]

def zhongGuo : CodeTables where
  mBig5GB2312 i := if i = 0xA4A4 then 0xD0D6 else 0
  mGBKGB2312 i := if i = 0xF887 then 0xFAB9 else 0
  isGBK_big5 b c h := by
    rw [convPair_single]
    split
    · decide
    · exact isGBK_of_isBig5 h
  isGBK_gbk b c h := by
    rw [convPair_single]
    split
    · decide
    · exact h
  gbk_stable b c _ := by
    rw [convPair_single _ _ b c]
    split
    · decide
    · rename_i hne
      rw [convPair_single, if_neg hne]

section Texts

variable (tables : CodeTables) {isPair : UInt8 → UInt8 → Bool} {table : UInt16 → UInt16} {s : Bytes}

theorem zero_notMem_convChars (h : Recodes isPair isGBK (convPair table)) (hs : 0 ∉ s) :
    0 ∉ text (convChars isPair table s) := by
  intro hmem
  obtain ⟨x, hx, h0⟩ := List.mem_flatMap.mp hmem
  obtain ⟨y, hy, rfl⟩ := List.mem_map.mp hx
  refine zero_notMem_bytes (h.fits_mapPair ((reads_chars isPair s).fits y hy)) ?_ h0
  intro hone
  cases y with
  | two b c => cases hone
  | one b =>
    obtain rfl : b = 0 := by injection hone
    apply hs
    rw [← text_chars isPair s]
    exact List.mem_flatMap.mpr ⟨_, hy, List.mem_singleton_self 0⟩

/-- The table of GBK has nothing more to replace in a text that it has converted. -/
theorem CodeTables.convChars_gbk_idem (s : Bytes) :
    convChars isGBK tables.mGBKGB2312 (text (convChars isGBK tables.mGBKGB2312 s)) =
      convChars isGBK tables.mGBKGB2312 s := by
  have hchars : chars isGBK (text (convChars isGBK tables.mGBKGB2312 s)) =
      convChars isGBK tables.mGBKGB2312 s := (tables.recodes_gbk.chars_text_map_iff s).mpr rfl
  rw [convChars, hchars, convChars, List.map_map]
  refine List.map_congr_left fun x hx => ?_
  rw [Function.comp_apply, mapPair_mapPair]
  cases x with
  | one b => rfl
  | two b c =>
    have hstable := tables.gbk_stable b c ((reads_chars isGBK s).fits _ hx)
    simp only [mapPair, hstable]

/-- `gbk2gb` replaces the characters of a text and keeps where they begin, and a second conversion
changes nothing. -/
theorem gbk2gb_stable (hs : 0 ∉ s) (rest : Bytes) :
    Succeeds (gbk2gb tables (s ++ 0 :: rest)) fun buf =>
      strlen buf = s.length ∧ buf.drop s.length = 0 :: rest ∧
        chars isGBK (cstr buf) = convChars isGBK tables.mGBKGB2312 s ∧
        gbk2gb tables buf = some buf := by
  have hnew := zero_notMem_convChars tables.recodes_gbk hs
  have hlen := length_convChars isGBK tables.mGBKGB2312 s
  refine ⟨_, convBuf_eq isGBK_zero hs rest, ?_, ?_, ?_, ?_⟩
  · rw [strlen_append_zero hnew, hlen]
  · exact List.drop_left' hlen
  · rw [cstr_append_zero hnew]
    exact (tables.recodes_gbk.chars_text_map_iff s).mpr rfl
  · rw [gbk2gb, convBuf_eq isGBK_zero hnew, tables.convChars_gbk_idem]

theorem gbk2gb_stable_zhongGuo : Succeeds (gbk2gb zhongGuo ([0x87, 0xF8, 65] ++ [0])) fun buf =>
    strlen buf = 3 ∧ buf.drop 3 = [0] ∧
      chars isGBK (cstr buf) = convChars isGBK zhongGuo.mGBKGB2312 [0x87, 0xF8, 65] ∧
      gbk2gb zhongGuo buf = some buf :=
  gbk2gb_stable zhongGuo (by decide) []

theorem gbk2gb_string_stable (buf : Bytes) :
    Succeeds (gbk2gb_string tables buf) fun r =>
      r.length = buf.length ∧ gbk2gb_string tables r = some r := by
  have hs := zero_notMem_cstr buf
  have hnew := zero_notMem_convChars tables.recodes_gbk hs
  have hlen := length_convChars isGBK tables.mGBKGB2312 (cstr buf)
  refine ⟨_, convString_eq tables.mGBKGB2312 isGBK_zero buf, ?_, ?_⟩
  · have hle := strlen_le buf
    rw [List.length_append, hlen, List.length_drop, ← strlen]
    omega
  · cases hback : buf.drop (strlen buf) with
    | nil =>
      have h := convString_eq tables.mGBKGB2312 isGBK_zero
        (text (convChars isGBK tables.mGBKGB2312 (cstr buf)))
      rw [cstr_eq_self hnew, strlen, cstr_eq_self hnew, List.drop_length,
        tables.convChars_gbk_idem] at h
      rw [List.append_nil]
      rwa [List.append_nil] at h
    | cons x rest =>
      obtain ⟨rest', hrest⟩ := drop_strlen buf
      rw [hback] at hrest
      obtain rfl : x = 0 := (List.cons.inj hrest).1
      have h := convString_eq tables.mGBKGB2312 isGBK_zero
        (text (convChars isGBK tables.mGBKGB2312 (cstr buf)) ++ 0 :: rest)
      rwa [cstr_append_zero hnew, strlen_append_zero hnew, List.drop_left,
        tables.convChars_gbk_idem] at h

/-- The converted text, read as GBK, has the characters of the table one by one, exactly if the text
had the same characters in Big5 and in GBK. -/
theorem big52gb_reads_iff (hs : 0 ∉ s) (rest : Bytes) :
    Succeeds (big52gb tables (s ++ 0 :: rest)) fun buf =>
      strlen buf = s.length ∧ buf.drop s.length = 0 :: rest ∧
        (chars isGBK (cstr buf) = convChars isBig5 tables.mBig5GB2312 s ↔
          chars isGBK s = chars isBig5 s) := by
  have hnew := zero_notMem_convChars tables.recodes_big5 hs
  have hlen := length_convChars isBig5 tables.mBig5GB2312 s
  refine ⟨_, convBuf_eq isBig5_zero hs rest, ?_, ?_, ?_⟩
  · rw [strlen_append_zero hnew, hlen]
  · exact List.drop_left' hlen
  · rw [cstr_append_zero hnew]
    exact tables.recodes_big5.chars_text_map_iff s

theorem big52gb_reads_zhongGuo : Succeeds (big52gb zhongGuo ([0x81, 0xA4, 0xA4] ++ [0])) fun buf =>
    strlen buf = 3 ∧ buf.drop 3 = [0] ∧
      (chars isGBK (cstr buf) = convChars isBig5 zhongGuo.mBig5GB2312 [0x81, 0xA4, 0xA4] ↔
        chars isGBK [0x81, 0xA4, 0xA4] = chars isBig5 [0x81, 0xA4, 0xA4]) :=
  big52gb_reads_iff zhongGuo (by decide) []

end Texts

/-! ## The guess of the encoding -/

def heads : Bytes → List (UInt8 × UInt8)
  | [] => []
  | [b] => [(b, 0)]
  | b :: c :: s => (b, c) :: if isGBK b c then heads s else heads (c :: s)

section Detect

variable {s : Bytes}

theorem isGBK_or_isBig5 (b c : UInt8) : (isGBK b c || isBig5 b c) = isGBK b c := by
  cases h : isBig5 b c with
  | false => rw [Bool.or_false]
  | true => rw [isGBK_of_isBig5 h, Bool.or_true]

theorem codeCounts_eq (hs : 0 ∉ s) (rest : Bytes) (m n : ℕ) :
    codeCounts (s ++ 0 :: rest) m n = some (m + (heads s).countP (fun x => isCommonBig5 x.1 x.2),
      n + (heads s).countP fun x => isCommonGBK x.1 x.2) := by
  induction s using chars.induct isGBK generalizing m n with
  | case1 =>
    rw [List.nil_append]
    cases rest <;> simp [codeCounts, heads]
  | case2 b =>
    have hb : b ≠ 0 := by
      rintro rfl
      exact hs List.mem_cons_self
    have hbig5 : isCommonBig5 b 0 = false := by simp [isCommonBig5]
    have hgbk : isCommonGBK b 0 = false := by simp [isCommonGBK]
    rw [List.singleton_append, codeCounts, if_neg hb, isGBK_or_isBig5, isGBK_zero]
    cases rest <;> simp [codeCounts, heads, hbig5, hgbk]
  | case3 b c s hp ih =>
    have hb : b ≠ 0 := by
      rintro rfl
      exact hs List.mem_cons_self
    have hrest := ih fun h => hs (List.mem_cons_of_mem b (List.mem_cons_of_mem c h))
    rw [List.cons_append, List.cons_append, codeCounts, if_neg hb, isGBK_or_isBig5]
    simp only [if_pos hp, hrest, heads, List.countP_cons, Option.some.injEq, Prod.mk.injEq]
    constructor <;> split <;> omega
  | case4 b c s hp ih =>
    have hb : b ≠ 0 := by
      rintro rfl
      exact hs List.mem_cons_self
    have hrest := ih fun h => hs (List.mem_cons_of_mem b h)
    rw [List.cons_append] at hrest
    rw [List.cons_append, List.cons_append, codeCounts, if_neg hb, isGBK_or_isBig5]
    simp only [if_neg hp, hrest, heads, List.countP_cons, Option.some.injEq, Prod.mk.injEq]
    constructor <;> split <;> omega

theorem countP_add_countP_and_not {α : Type*} (p q : α → Bool) (l : List α) :
    l.countP p + l.countP (fun x => q x && !p x) = l.countP q + l.countP fun x => p x && !q x := by
  induction l with
  | nil => rfl
  | cons x l ih =>
    simp only [List.countP_cons]
    cases p x <;> cases q x <;> simp <;> omega

theorem codeDetect_eq_big5_iff (hs : 0 ∉ s) (rest : Bytes) :
    codeDetect (s ++ 0 :: rest) = some .E_BIG5 ↔
      (∃ x ∈ heads s, isCommonBig5 x.1 x.2 = true ∨ isCommonGBK x.1 x.2 = true) ∧
      (heads s).countP (fun x => isCommonGBK x.1 x.2 && !isCommonBig5 x.1 x.2) ≤
        (heads s).countP fun x => isCommonBig5 x.1 x.2 && !isCommonGBK x.1 x.2 := by
  have hcounts := codeCounts_eq hs rest 0 0
  have hsum := countP_add_countP_and_not (fun x : UInt8 × UInt8 => isCommonBig5 x.1 x.2)
    (fun x => isCommonGBK x.1 x.2) (heads s)
  have hnone : (∃ x ∈ heads s, isCommonBig5 x.1 x.2 = true ∨ isCommonGBK x.1 x.2 = true) ↔
      ¬ ((heads s).countP (fun x => isCommonBig5 x.1 x.2) = 0 ∧
        (heads s).countP (fun x => isCommonGBK x.1 x.2) = 0) := by
    simp only [List.countP_eq_zero]
    grind
  rw [hnone, codeDetect, hcounts]
  simp only [Nat.zero_add, Option.map_some, Option.some.injEq]
  split
  · rename_i h
    simp only [reduceCtorEq, false_iff]
    exact fun hbig5 => hbig5.1 ⟨h.1.trans h.2, h.2⟩
  · rename_i h
    split
    · simp only [true_iff]
      exact ⟨fun hnum => h ⟨hnum.1.trans hnum.2.symm, hnum.2⟩, by omega⟩
    · simp only [reduceCtorEq, false_iff, not_and]
      omega

end Detect

end YlUtils
