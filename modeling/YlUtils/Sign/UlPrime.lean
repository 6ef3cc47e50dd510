import YlUtils.Sign.Sign
import YlUtils.Machine.Int

/-! # The old signatures

The older functions sum a string up to its terminating zero or over a given
length, against tables of their own. For a string and its length they find the
signature of the newer ones.
-/

namespace YlUtils

namespace UlPrime

def modPrimeList1 : Array UInt32 := #[
    256, 65536, 3, 768, 196608, 9, 2304, 589824, 27, 6912, 1769472, 81, 20736, 5308416, 243, 62208,
    15925248, 729, 186624, 14221318, 2187, 559872, 9109528, 6561, 1679616, 10551371, 19683, 5038848,
    14876900, 59049, 15116544, 11076274, 177147, 11795206, 16451609, 531441, 1831192, 15800401,
    1594323, 5493576, 13846777, 4782969, 16480728, 7985905, 14348907, 15887758, 7180502, 9492295,
    14108848, 4764293, 11699672, 8772118, 14292879, 1544590, 9539141, 9324211, 4633770, 11840210,
    11195420, 13901310, 1966204, 31834, 8149504, 5898612, 95502, 7671299, 918623, 286506, 6236684,
    2755869, 859518, 1932839, 8267607, 2578554, 5798517, 8025608, 7735662, 618338, 7299611, 6429773,
    1855014, 5121620, 2512106, 5565042, 15364860, 7536318, 16695126, 12540154, 5831741, 16530952,
    4066036, 718010, 16038430, 12198108, 2154030, 14560864, 3039898, 6462090, 10128166, 9119694,
    2609057, 13607285, 10581869, 7827171, 7267429, 14968394, 6704300, 5025074, 11350756, 3335687,
    15075222, 497842, 10007061, 11671240, 1493526, 13243970, 1459294, 4480578, 6177484, 4377882,
    13441734, 1755239, 13133646, 6770776, 5265717, 5846512, 3535115, 15797151, 762323, 10605345,
    13837027, 2286969, 15038822, 7956655, 6860907, 11562040, 7092752, 3805508, 1131694, 4501043,
    11416524, 3395082, 13503129, 695146, 10185246, 6954961, 2085438, 13778525, 4087670, 6256314,
    7781149, 12263010, 1991729, 6566234, 3234604, 5975187, 2921489, 9703812, 1148348, 8764467,
    12334223, 3445044, 9516188, 3448243, 10335132, 11771351, 10344729, 14228183, 1759627, 14256974,
    9130123, 5278881, 9216496, 10613156, 15836643, 10872275, 15062255, 13955503, 15839612, 11632339,
    8312083, 13964410, 1342591, 8159036, 8338804, 4027773, 7699895, 8239199, 12083319, 6322472,
    7940384, 2695531, 2190203, 7043939, 8086593, 6570609, 4354604, 7482566, 2934614, 13063812,
    5670485, 8803842, 5637010, 234242, 9634313, 133817, 702726, 12125726, 401451, 2108178, 2822752,
    1204353, 6324534, 8468256, 3613059, 2196389, 8627555, 10839177, 6589167, 9105452, 15740318,
    2990288, 10539143, 13666528, 8970864, 14840216, 7445158, 10135379, 10966222, 5558261, 13628924,
    16121453, 16674783, 7332346, 14809933, 16469923, 5219825, 10875373, 15855343, 15659475,
    15848906, 14011603, 13423999, 13992292, 8480383, 6717571, 8422450, 8663936, 3375500, 8490137,
    9214595, 10126500, 8693198, 10866572, 13602287, 9302381]

def modPrimeList2 : Array UInt32 := #[
    15824477, 7761153, 7145686, 580925, 14499208, 4036269, 9875725, 11605750, 1507777, 115335,
    12748561, 8855010, 1960695, 15399149, 16317578, 16554616, 10127548, 8963642, 12993288, 4396326,
    1387123, 2782309, 7628746, 6803892, 13744855, 12248289, 15002970, 15558948, 6894525, 3392505,
    12844131, 16543731, 7340988, 246640, 12808243, 7356403, 4192880, 16413743, 7618458, 4170164,
    10598447, 12073393, 3783992, 12401609, 3921293, 13996267, 9500965, 16330384, 3055753, 10521614,
    9181344, 1616204, 11095448, 5088057, 10698269, 4073427, 2610974, 14098583, 2139463, 10832160,
    4795125, 2816473, 16374730, 14408329, 14325643, 9935226, 10060807, 8655145, 1126852, 3261729,
    12919873, 2379285, 5117796, 1534254, 6893447, 3116537, 9305119, 16525405, 2649532, 7192232,
    12496701, 11487646, 4827551, 11117529, 10740793, 14959571, 4448804, 14821491, 2654722, 8520872,
    307362, 11575876, 10637232, 5225154, 12240703, 13060954, 4941623, 6765563, 3932631, 121596,
    14351377, 16523130, 2067132, 9092623, 12458026, 1586846, 3579800, 10460054, 10199183, 10525003,
    10048928, 5614121, 11153061, 3059786, 11554062, 5052848, 1684765, 11869865, 2012421, 11863806,
    461317, 656759, 358314, 7842389, 11164903, 6091338, 15880220, 5254162, 2889552, 1528556,
    5434759, 15567986, 9208253, 8504908, 12997777, 5545510, 10365844, 2858622, 10387675, 8447358,
    15042176, 8818485, 9387494, 4059007, 15696653, 8592607, 1894323, 15185116, 11856727, 15426292,
    6488987, 237971, 10588979, 9649585, 4045507, 12240653, 13048154, 1664823, 6764713, 3715031,
    11524792, 14336927, 12823930, 11372275, 8846973, 16680422, 8779486, 16180949, 15131990,
    15033670, 6640949, 5585845, 3914405, 12232939, 11073370, 16213288, 6633575, 3698101, 7190712,
    12107581, 12536120, 4801711, 4502489, 11787652, 14520291, 9433517, 15840895, 11964161, 9374998,
    860031, 2064349, 8380175, 14620527, 1539535, 8245383, 13668173, 9394896, 5953919, 14255354,
    8718441, 553429, 7460232, 13995905, 9408293, 9383551, 3049599, 8946190, 8525576, 1511586,
    1090439, 10717200, 8919763, 1760264, 14420410, 641180, 13147289, 10266184, 10900060, 5400326,
    6753138, 751831, 7919547, 14140152, 12781127, 414707, 5501798, 15952771, 7050019, 9644571,
    2761923, 2409930, 12962916, 13398293, 7414412, 2265985, 9667394, 8604611, 4967347, 13350907,
    12060795, 558904, 8861832, 3707127, 9501368, 16433552, 12689562, 10528465, 10935200, 14396166,
    11211915, 1349211, 9854036, 6053366, 6159388, 16523821, 2244028]

/-- The loop over a string up to its zero, in a memory that ends with the list. -/
def sumToZero (table : Array UInt32) : Bytes → ℕ → UInt32 → Option UInt32
  | [], _, _ => none
  | c :: str, i, itemp =>
    if c ≠ 0 then sumToZero table str (i + 1) (c.toUInt32 * table[0xFF &&& i]! + itemp)
    else some itemp

def sumCounted (table : Array UInt32) : ℕ → Bytes → ℕ → UInt32 → Option UInt32
  | 0, _, _, itemp => some itemp
  | _ + 1, [], _, _ => none
  | n + 1, c :: str, i, itemp =>
    sumCounted table n str (i + 1) (c.toUInt32 * table[0xFF &&& i]! + itemp)

def getsign24_1 (str : Bytes) : Option UInt32 := sumToZero modPrimeList1 str 0 0

def getsign24_2 (str : Bytes) : Option UInt32 := sumToZero modPrimeList2 str 0 0

def getsigns24_1 (str : Bytes) (slen : ℤ) : Option UInt32 :=
  sumCounted modPrimeList1 slen.toNat str 0 0

def getsigns24_2 (str : Bytes) (slen : ℤ) : Option UInt32 :=
  sumCounted modPrimeList2 slen.toNat str 0 0

end UlPrime

namespace YeeSign

open UlPrime (sumToZero sumCounted getsign24_1 getsign24_2 getsigns24_1 getsigns24_2)

/-- `memcpy` of `n` bytes to a word that is zero; a negative `n` is a huge `size_t`. -/
def memcpyIn (mem : Bytes) (n : ℤ) : Option UInt32 :=
  if 0 ≤ n ∧ n ≤ 4 ∧ n ≤ mem.length then some (memcpyWord (mem.take n.toNat)) else none

/-- The branches for short strings, and the sums of a long one. -/
def signatureIn (mem : Bytes) (slen : ℤ) (sum1 sum2 : Option UInt32) : Option TSign :=
  if slen ≤ 4 then do
    let sign1 ← memcpyIn mem slen
    some ⟨sign1, 0⟩
  else if slen ≤ 8 then do
    let sign1 ← memcpyIn mem 4
    let sign2 ← memcpyIn (mem.drop 4) (slen - 4)
    some ⟨sign1, sign2⟩
  else do
    let sign1 ← sum1
    let sign2 ← sum2
    some ⟨sign1, sign2⟩

/-- `creat_sign_f64`; the assertion compares the length as `u_int` with `strlen`. -/
def creatSignF64 (psrc : Bytes) (slen : ℤ) : Option TSign := do
  let n ← strlenIn psrc
  if (n : ℤ) = slen % 2 ^ 32 then signatureIn psrc slen (getsign24_1 psrc) (getsign24_2 psrc)
  else none

def creatSignFs64 (psrc : Bytes) (slen : ℤ) : Option TSign := do
  let n ← strlenIn psrc
  if (n : ℤ) = slen % 2 ^ 32 then
    signatureIn psrc slen (getsigns24_1 psrc slen) (getsigns24_2 psrc slen)
  else none

/-- `tLen`, the length that counts. -/
def tLen (src : Bytes) (len : ℤ) : Option ℤ :=
  if len = -1 then (strlenIn src).map fun n : ℕ => wrapInt n else some len

def getSign1Of (src : Bytes) (len : ℤ) : Option UInt32 := do
  let n ← tLen src len
  sumCounted modPrimeList1 n.toNat src 0 0

def getSign2Of (src : Bytes) (len : ℤ) : Option UInt32 := do
  let n ← tLen src len
  sumCounted modPrimeList2 n.toNat src 0 0

/-- `getSign` of a length, which is taken with `strlen` if it is `-1`. -/
def getSignOf (src : Bytes) (len : ℤ) : Option TSign := do
  let n ← tLen src len
  signatureIn src n (getSign1Of src len) (getSign2Of src len)

def getSignCStr (key : Bytes) : Option TSign := getSignOf (key ++ [0]) (-1)

theorem oldTables : UlPrime.modPrimeList1 = modPrimeList1 ∧ UlPrime.modPrimeList2 = modPrimeList2 :=
  ⟨rfl, rfl⟩

section Loops

variable {s : Bytes} (table : Array UInt32) (i : ℕ) (itemp : UInt32) (rest : Bytes)

def sumFrom (s : Bytes) : UInt32 :=
  (s.zipIdx i).foldl (fun tRet bi => tRet + bi.1.toUInt32 * table[0xFF &&& bi.2]!) itemp

theorem sumFrom_cons (c : UInt8) : sumFrom table i itemp (c :: s) =
    sumFrom table (i + 1) (c.toUInt32 * table[0xFF &&& i]! + itemp) s := by
  unfold sumFrom
  rw [List.zipIdx_cons, List.foldl_cons, UInt32.add_comm]

theorem sumToZero_eq (hz : 0 ∉ s) :
    sumToZero table (s ++ 0 :: rest) i itemp = some (sumFrom table i itemp s) := by
  induction s generalizing i itemp with
  | nil => rfl
  | cons c s ih =>
    rw [List.mem_cons, not_or] at hz
    rw [List.cons_append, sumToZero, if_pos (Ne.symm hz.1), ih _ _ hz.2, sumFrom_cons]

theorem sumCounted_eq :
    sumCounted table s.length (s ++ rest) i itemp = some (sumFrom table i itemp s) := by
  induction s generalizing i itemp with
  | nil => rfl
  | cons c s ih => rw [List.length_cons, List.cons_append, sumCounted, ih, sumFrom_cons]

end Loops

section Agreement

variable {s : Bytes}

theorem memcpyIn_eq {mem : Bytes} (h : s.length ≤ 4) (rest : Bytes) (hm : mem = s ++ rest) :
    memcpyIn mem s.length = some (memcpyWord s) := by
  subst hm
  rw [memcpyIn, if_pos, Int.toNat_natCast, List.take_left]
  rw [List.length_append]
  omega

theorem signatureIn_eq (hz : 0 ∉ s) (rest : Bytes) {sum1 sum2 : Option UInt32}
    (h₁ : sum1 = some (sumFrom modPrimeList1 0 0 s))
    (h₂ : sum2 = some (sumFrom modPrimeList2 0 0 s)) :
    signatureIn (s ++ 0 :: rest) s.length sum1 sum2 = some (getSign (s ++ 0 :: rest)) := by
  unfold signatureIn getSign
  simp only [getSign1, getSign2, cstr_append_zero hz]
  by_cases h4 : s.length ≤ 4
  · rw [if_pos (by omega), if_pos h4, memcpyIn_eq h4 _ rfl]
    rfl
  · rw [if_neg (by omega), if_neg h4]
    by_cases h8 : s.length ≤ 8
    · have htake : ((s.take 4).length : ℤ) = 4 := by rw [List.length_take]; omega
      have hdrop : ((s.drop 4).length : ℤ) = s.length - 4 := by rw [List.length_drop]; omega
      rw [if_pos (by omega), if_pos h8, ← htake, memcpyIn_eq (by omega) (s.drop 4 ++ 0 :: rest)
        (by rw [← List.append_assoc, List.take_append_drop]), htake, ← hdrop,
        memcpyIn_eq (by omega) (0 :: rest) (List.drop_append_of_le_length (by omega))]
      rfl
    · rw [if_neg (by omega), if_neg h8, h₁, h₂]
      rfl

theorem tLen_strlen (hz : 0 ∉ s) (rest : Bytes) :
    tLen (s ++ 0 :: rest) (-1) = some (wrapInt s.length) := by
  rw [tLen, if_pos rfl, strlenIn_eq hz, Option.map_some]

theorem getSignOf_eq (hz : 0 ∉ s) (rest : Bytes) {len : ℤ}
    (h : tLen (s ++ 0 :: rest) len = some (s.length : ℤ)) :
    getSignOf (s ++ 0 :: rest) len = some (getSign (s ++ 0 :: rest)) := by
  have hsum := fun table => sumCounted_eq (s := s) table 0 0 (0 :: rest)
  unfold getSignOf
  rw [h]
  apply signatureIn_eq hz rest
  · unfold getSign1Of
    rw [h]
    exact hsum modPrimeList1
  · unfold getSign2Of
    rw [h]
    exact hsum modPrimeList2

theorem getSignOf_long (hz : 0 ∉ s) (hlen : 2 ^ 31 ≤ s.length) (hlt : s.length < 2 ^ 32)
    (rest : Bytes) : getSignOf (s ++ 0 :: rest) (-1) = none := by
  have hneg : wrapInt s.length = (s.length : ℤ) - 2 ^ 32 := by
    unfold wrapInt
    rw [Int.bmod_def]
    omega
  have hcopy : ∀ mem n, n < 0 → memcpyIn mem n = none := fun mem n hn => if_neg (by omega)
  unfold getSignOf
  rw [tLen_strlen hz, hneg]
  change signatureIn _ _ _ _ = none
  unfold signatureIn
  rw [if_pos (by omega), hcopy _ _ (by omega)]
  rfl

theorem getSignCStr_long {key : Bytes} (hz : 0 ∉ key) (h : 2 ^ 31 ≤ key.length)
    (hlt : key.length < 2 ^ 32) : getSignCStr key = none := getSignOf_long hz h hlt []

theorem getSignCStr_eq {key : Bytes} (h : strlen key < 2 ^ 31) :
    getSignCStr key = some (getSign key) := by
  obtain ⟨rest, hrest⟩ := exists_append_zero key
  have hz := zero_notMem_cstr key
  have hget : getSign (cstr key ++ 0 :: rest) = getSign key := by
    simp only [getSign, getSign1, getSign2, cstr_append_zero hz]
  rw [getSignCStr, hrest, getSignOf_eq hz rest, hget]
  rw [tLen_strlen hz, wrapInt_of_lt (by omega) (by exact_mod_cast h)]

/-- A string has one signature, whichever function finds it. -/
theorem signatures_agree (hz : 0 ∉ s) (hlen : s.length < 2 ^ 31) (rest : Bytes) :
    getSignOf (s ++ 0 :: rest) (-1) = some (getSign (s ++ 0 :: rest)) ∧
      getSignOf (s ++ 0 :: rest) s.length = some (getSign (s ++ 0 :: rest)) ∧
      creatSignF64 (s ++ 0 :: rest) s.length = some (getSign (s ++ 0 :: rest)) ∧
      creatSignFs64 (s ++ 0 :: rest) s.length = some (getSign (s ++ 0 :: rest)) := by
  have hstr := strlenIn_eq hz rest
  have hassert : (s.length : ℤ) = (s.length : ℤ) % 2 ^ 32 := by omega
  have hsum := fun table => sumCounted_eq (s := s) table 0 0 (0 :: rest)
  refine ⟨getSignOf_eq hz rest ?_, getSignOf_eq hz rest ?_, ?_, ?_⟩
  · rw [tLen_strlen hz, wrapInt_of_lt (by omega) (by omega)]
  · rw [tLen, if_neg (by omega)]
  · unfold creatSignF64
    rw [hstr, Option.bind_eq_bind, Option.bind_some, if_pos hassert]
    apply signatureIn_eq hz rest
    · rw [getsign24_1, oldTables.1, sumToZero_eq _ 0 0 rest hz]
    · rw [getsign24_2, oldTables.2, sumToZero_eq _ 0 0 rest hz]
  · unfold creatSignFs64
    rw [hstr, Option.bind_eq_bind, Option.bind_some, if_pos hassert]
    apply signatureIn_eq hz rest
    · rw [getsigns24_1, oldTables.1, Int.toNat_natCast, hsum]
    · rw [getsigns24_2, oldTables.2, Int.toNat_natCast, hsum]

/-- Nine letters, which are summed. -/
theorem signatures_agree_letters :
    getSignOf (List.replicate 9 97 ++ [0]) (-1) = some (getSign (List.replicate 9 97 ++ [0])) ∧
      getSignOf (List.replicate 9 97 ++ [0]) (9 : ℕ) =
        some (getSign (List.replicate 9 97 ++ [0])) ∧
      creatSignF64 (List.replicate 9 97 ++ [0]) (9 : ℕ) =
        some (getSign (List.replicate 9 97 ++ [0])) ∧
      creatSignFs64 (List.replicate 9 97 ++ [0]) (9 : ℕ) =
        some (getSign (List.replicate 9 97 ++ [0])) :=
  signatures_agree (s := List.replicate 9 97) (by decide) (by decide) []

end Agreement

end YeeSign

end YlUtils
