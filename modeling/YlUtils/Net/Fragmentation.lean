import YlUtils.Net.HttpRequest

/-! # Requests in pieces

The argument is looked for in all that has been read as the end of the head is
there, which may be more than the head. How much more is up to the network.
-/

namespace YlUtils.StdSocket

open Program Search

/-- The number of bytes that the system transfers at most in one call. -/
def maxRwCount : ℕ := 0x7ffff000

/-- The replies deliver a part of the stream in positive pieces. -/
structure Splits (s : Bytes) (rs : List Reply) : Prop where
  stream : received rs <+: s
  positive : ∀ r ∈ rs, Positive r
  limit : ∀ b e, .got b e ∈ rs → b.length ≤ maxRwCount

/-- The argument string at the offset that is returned. -/
def argument (r : ℤ × Bytes) : Bytes := cstr (r.2.drop r.1.toNat)

/-- Both calls throw, or both return the same offset and the same argument. -/
inductive SameOutcome : Program (ℤ × Bytes) → Program (ℤ × Bytes) → Prop
  | throws (msg msg' : String) : SameOutcome (.throw msg) (.throw msg')
  | returns (r r' : ℤ × Bytes) : r.1 = r'.1 → argument r = argument r' →
      SameOutcome (.ret r) (.ret r')

/-- Calls that have ended have the same outcome, however the network delivers the stream. -/
def Independent (mSocket : ℤ) (isPoll : Bool) (mem s : Bytes) : Prop :=
  ∀ rs rs' t t' q q', Splits s rs → Splits s rs' →
    (safeReadHttpRequest mSocket mem mem.length isPoll).run rs = some (t, q) →
    (safeReadHttpRequest mSocket mem mem.length isPoll).run rs' = some (t', q') →
    ¬ q.Calls → ¬ q'.Calls → SameOutcome q q'

/-- The first question mark is followed by a blank. -/
def HasArg (s : Bytes) : Prop := ∃ a r, s = a ++ 63 :: r ∧ 63 ∉ a ∧ 32 ∈ r

section Arguments

variable {mSocket : ℤ} {s t rest a b c : Bytes}

theorem HasArg.mono (h : HasArg s) (hst : s <+: t) : HasArg t := by
  obtain ⟨a, r, rfl, ha, hr⟩ := h
  obtain ⟨u, rfl⟩ := hst
  exact ⟨a, r ++ u, by simp, ha, List.mem_append_left u hr⟩

theorem httpArg_throw (hs : 0 ∉ s) (h : ¬ HasArg s) (rest : Bytes) :
    ∃ msg, httpArg mSocket (s ++ 0 :: rest) = .throw msg := by
  unfold httpArg
  rw [cstr_append_zero hs]
  cases hq : find [63] s with
  | none => exact ⟨_, rfl⟩
  | some i =>
    obtain ⟨a, r, rfl, ha, rfl⟩ := exists_of_find_char hq
    have hr : 32 ∉ r := fun hr => h ⟨a, r, rfl, ha, hr⟩
    have hdrop : (a ++ 63 :: r ++ 0 :: rest).drop (a.length + 1) = r ++ 0 :: rest := by
      rw [List.append_assoc, ← List.drop_drop, List.drop_left]
      rfl
    have hzero : 0 ∉ r := fun h0 => hs (by simp [h0])
    dsimp only
    rw [hdrop, cstr_append_zero hzero, find_char_eq_none_iff.mpr hr]
    exact ⟨_, rfl⟩

theorem httpArg_ret (hs : 0 ∉ a ++ 63 :: (b ++ 32 :: c)) (ha : 63 ∉ a) (hb : 32 ∉ b)
    (rest : Bytes) : httpArg mSocket (a ++ 63 :: (b ++ 32 :: c) ++ 0 :: rest) =
      .ret (wrapInt (a.length + 1 : ℕ), a ++ 63 :: b ++ 0 :: (c ++ 0 :: rest)) := by
  have hdrop : (a ++ 63 :: (b ++ 32 :: c) ++ 0 :: rest).drop (a.length + 1) =
      b ++ 32 :: c ++ 0 :: rest := by
    rw [List.append_assoc, ← List.drop_drop, List.drop_left]
    rfl
  have hzero : 0 ∉ b ++ 32 :: c := fun h0 => hs (by simp [h0])
  unfold httpArg
  rw [cstr_append_zero hs, find_char ha]
  dsimp only
  rw [hdrop, cstr_append_zero hzero, find_char hb]
  dsimp only
  congr 2
  have hsplit : a ++ 63 :: (b ++ 32 :: c) ++ 0 :: rest =
      (a ++ 63 :: b) ++ 32 :: (c ++ 0 :: rest) := by simp
  rw [hsplit, List.set_append_right _ _ (by simp; omega)]
  congr 1
  have hpos : a.length + 1 + b.length - (a ++ 63 :: b).length = 0 := by simp; omega
  rw [hpos]
  rfl

theorem exists_httpArg_ret (hs : 0 ∉ s) (h : HasArg s) (rest : Bytes) :
    ∃ r, httpArg mSocket (s ++ 0 :: rest) = .ret r := by
  obtain ⟨a, r, rfl, ha, hr⟩ := h
  obtain ⟨b, c, rfl, hb⟩ := List.eq_append_cons_of_mem hr
  exact ⟨_, httpArg_ret hs ha hb rest⟩

theorem argument_httpArg (hs : 0 ∉ a ++ 63 :: b) (rest : Bytes) :
    argument (wrapInt (a.length + 1 : ℕ), a ++ 63 :: b ++ 0 :: rest) =
      (a ++ 63 :: b).drop (wrapInt (a.length + 1 : ℕ)).toNat := by
  have hle := wrapInt_le (Int.natCast_nonneg (a.length + 1))
  have hdrop : (wrapInt (a.length + 1 : ℕ)).toNat ≤ (a ++ 63 :: b).length := by
    rw [List.length_append, List.length_cons]
    omega
  rw [argument, List.drop_append_of_le_length hdrop, cstr_append_zero]
  exact fun h0 => hs (List.mem_of_mem_drop h0)

theorem sameOutcome_of_hasArg (hs : 0 ∉ s) (h : HasArg s) {u u' rest rest' : Bytes}
    (hu : 0 ∉ u) (hu' : 0 ∉ u') :
    SameOutcome (httpArg mSocket (s ++ u ++ 0 :: rest))
      (httpArg mSocket (s ++ u' ++ 0 :: rest')) := by
  obtain ⟨a, r, rfl, ha, hr⟩ := h
  obtain ⟨b, c, rfl, hb⟩ := List.eq_append_cons_of_mem hr
  have hfull : ∀ u : Bytes, 0 ∉ u → 0 ∉ a ++ 63 :: (b ++ 32 :: (c ++ u)) := by
    intro u hu h0
    simp only [List.mem_append, List.mem_cons] at h0 hs
    tauto
  have heq : ∀ u : Bytes, a ++ 63 :: (b ++ 32 :: c) ++ u = a ++ 63 :: (b ++ 32 :: (c ++ u)) :=
    fun u => by simp
  have hab : 0 ∉ a ++ 63 :: b := fun h0 => by
    simp only [List.mem_append, List.mem_cons] at h0 hs
    tauto
  rw [heq, heq, httpArg_ret (hfull u hu) ha hb, httpArg_ret (hfull u' hu') ha hb]
  exact .returns _ _ rfl (by rw [argument_httpArg hab, argument_httpArg hab])

end Arguments

section Loop

variable {mSocket count : ℤ} {isPoll : Bool} {mem s t u v b : Bytes} {pos fuel : ℕ}
  {rs : List Reply} {q : Program (ℤ × Bytes)}

def Holds (mem : Bytes) (pos : ℕ) (u : Bytes) : Prop := pos = u.length ∧ u <+: mem

theorem Holds.take (h : Holds mem pos u) : mem.take pos = u := by
  rw [h.1]
  exact (List.prefix_iff_eq_take.mp h.2).symm

theorem Holds.terminated (h : Holds mem pos u) (b : Bytes) :
    ∃ rest, terminated (mem.take pos ++ b ++ mem.drop (pos + b.length)) (pos + b.length) =
        u ++ b ++ 0 :: rest ∧
      Holds (StdSocket.terminated (mem.take pos ++ b ++ mem.drop (pos + b.length))
        (pos + b.length)) (pos + b.length) (u ++ b) := by
  have hlen : pos + b.length = (u ++ b).length := by rw [List.length_append, h.1]
  have heq : StdSocket.terminated (mem.take pos ++ b ++ mem.drop (pos + b.length))
      (pos + b.length) = u ++ b ++ 0 :: (u ++ b ++ mem.drop (pos + b.length)).drop
        (pos + b.length + 1) := by
    rw [h.take, StdSocket.terminated, List.take_append_of_le_length (by omega),
      List.take_of_length_le (by omega)]
    simp
  exact ⟨_, heq, hlen, heq ▸ List.prefix_append _ _⟩

/-- What a call comes to that has read the text `u`, the last piece of it behind some `v`. -/
structure Ends (mSocket : ℤ) (mem u : Bytes) (q : Program (ℤ × Bytes)) : Prop where
  piece : ∃ v, v <+: u ∧ find headEnd v = none ∧ u.length ≤ v.length + maxRwCount
  outcome : u.length = mem.length ∧ q = .undefined ∨
    u.length < mem.length ∧ (find headEnd u).isSome ∧ ∃ rest, q = httpArg mSocket (u ++ 0 :: rest)

theorem loop_ends (hu : Holds mem pos u) (hnone : find headEnd u = none)
    (hcount : pos + count = mem.length) (hpos : 0 < count) (hzero : 0 ∉ u ++ received rs)
    (hpositive : ∀ r ∈ rs, Positive r) (hlimit : ∀ b e, .got b e ∈ rs → b.length ≤ maxRwCount)
    (h : (safeReadHttpRequestLoop mSocket isPoll fuel mem pos count).run rs = some (t, q))
    (hf : count < fuel) (hq : ¬ q.Calls) : Ends mSocket mem (u ++ received rs) q := by
  induction fuel generalizing mem pos count rs t u with
  | zero => omega
  | succ fuel ih =>
    cases safeReadHttpRequestLoop_reads (by omega) h with
    | ends _ hend _ =>
      obtain hcalls | ⟨r, hr, hneg⟩ := hend
      · exact absurd hcalls hq
      · exact absurd (hpositive r hr) hneg
    | reads b rs' hb hgot hreceived _ hsub hmem hrun =>
      obtain ⟨e, he⟩ := hmem
      have hsmall := hlimit b e he
      have hint : wrapInt b.length = b.length := wrapInt_natCast (by
        unfold maxRwCount at hsmall
        omega)
      have hlen : (mem.take pos ++ b ++ mem.drop (pos + b.length)).length = mem.length :=
        length_store (store_eq (by omega))
      have hpiece : ∃ v, v <+: u ++ b ∧ find headEnd v = none ∧
          (u ++ b).length ≤ v.length + maxRwCount :=
        ⟨u, List.prefix_append _ _, hnone, by rw [List.length_append]; omega⟩
      rw [hint] at hgot hrun
      rw [Int.toNat_natCast] at hrun
      rw [hreceived, ← List.append_assoc] at hzero ⊢
      rcases Nat.lt_or_ge (pos + b.length) mem.length with hroom | hfull
      · rw [behindRead_room (by omega)] at hrun
        obtain ⟨rest, heq, hholds⟩ := hu.terminated b
        have hzero' : 0 ∉ u ++ b := fun h0 => hzero (List.mem_append_left _ h0)
        rw [heq, cstr_append_zero hzero'] at hrun
        split at hrun
        · next hsome =>
          obtain ⟨rfl, -, rfl⟩ := run_of_not_calls (not_calls_httpArg mSocket _) hrun
          rw [received_nil, List.append_nil]
          refine ⟨hpiece, .inr ⟨?_, hsome, rest, rfl⟩⟩
          rw [List.length_append, ← hu.1]
          exact hroom
        · next hno =>
          rw [heq] at hholds
          have hlen' : (u ++ b ++ 0 :: rest).length = mem.length := by
            rw [← heq, length_terminated (by omega), hlen]
          have hend := ih hholds (by simpa using hno) (by omega) (by omega) hzero
            (fun r hr => hpositive r (hsub r hr)) (fun b e hb => hlimit b e (hsub _ hb)) hrun
            (by omega)
          exact ⟨hend.piece, hlen' ▸ hend.outcome⟩
      · rw [behindRead_full (by omega)] at hrun
        obtain ⟨rfl, -, rfl⟩ := run_of_not_calls (by simp [Calls]) hrun
        rw [received_nil, List.append_nil]
        refine ⟨hpiece, .inl ⟨?_, rfl⟩⟩
        rw [List.length_append, ← hu.1]
        omega

theorem run_got_cons (hpos : 0 < b.length) (hb : b.length ≤ maxRwCount)
    (hin : pos + b.length ≤ mem.length) (hle : b.length ≤ count) (e : Errno) :
    (safeReadHttpRequestLoop mSocket isPoll (fuel + 1) mem pos count).run
        (.ready 1 e :: .got b e :: rs) =
      (behindRead mSocket (mem.take pos ++ b ++ mem.drop (pos + b.length)) (pos + b.length)
        fun mem => safeReadHttpRequestLoop mSocket isPoll fuel mem (pos + b.length)
          (count - b.length)).run rs := by
  have hint : wrapInt b.length = b.length := wrapInt_natCast (by
    unfold maxRwCount at hb
    omega)
  rw [safeReadHttpRequestLoop, run_ready, if_neg (by decide), run_got (by omega), store_eq hin]
  dsimp only
  rw [hint, if_neg (by omega), if_neg (by omega), Int.toNat_natCast]

theorem exists_run (hu : Holds mem pos u) (hcount : pos + count = mem.length) (hf : count < fuel)
    (hnone : find headEnd (u ++ v) = none) (hsome : (find headEnd (u ++ v ++ b)).isSome)
    (hpos : 0 < b.length) (hb : b.length ≤ maxRwCount) (hzero : 0 ∉ u ++ v ++ b)
    (hfit : pos + v.length + b.length ≤ mem.length) :
    ∃ rs q, received rs = v ++ b ∧ (∀ r ∈ rs, Positive r) ∧
      (∀ b e, .got b e ∈ rs → b.length ≤ maxRwCount) ∧
      (safeReadHttpRequestLoop mSocket isPoll fuel mem pos count).run rs = some ([], q) ∧
      ¬ q.Calls := by
  have hgot : ∀ {c : Bytes}, 0 < c.length → c.length ≤ maxRwCount → 0 < wrapInt c.length := by
    intro c h0 hc
    unfold maxRwCount at hc
    rw [wrapInt_natCast (by omega)]
    omega
  have e : Errno := ⟨false, ""⟩
  induction v generalizing mem pos count fuel u with
  | nil =>
    rw [List.append_nil] at hsome hzero
    obtain ⟨fuel, rfl⟩ : ∃ k, fuel = k + 1 := ⟨fuel - 1, by omega⟩
    rw [List.length_nil, Nat.add_zero] at hfit
    have hlen : (mem.take pos ++ b ++ mem.drop (pos + b.length)).length = mem.length :=
      length_store (store_eq hfit)
    have hend : ∃ q, (safeReadHttpRequestLoop mSocket isPoll (fuel + 1) mem pos count).run
        [.ready 1 e, .got b e] = some ([], q) ∧ ¬ q.Calls := by
      rw [run_got_cons hpos hb hfit (by omega)]
      rcases Nat.lt_or_ge (pos + b.length) mem.length with hroom | hfull
      · obtain ⟨rest, heq, -⟩ := hu.terminated b
        rw [behindRead_room (by omega), heq, cstr_append_zero hzero, if_pos hsome]
        exact ⟨_, rfl, not_calls_httpArg mSocket _⟩
      · rw [behindRead_full (by omega)]
        exact ⟨_, rfl, by simp [Calls]⟩
    obtain ⟨q, hrun, hq⟩ := hend
    exact ⟨_, q, by simp, by simp [Positive, hgot hpos hb], by simpa using hb, hrun, hq⟩
  | cons c v ih =>
    obtain ⟨fuel, rfl⟩ : ∃ k, fuel = k + 1 := ⟨fuel - 1, by omega⟩
    rw [List.length_cons] at hfit
    have hcons : ∀ w : Bytes, u ++ c :: w = u ++ [c] ++ w := fun w => by simp
    rw [hcons] at hnone hsome hzero
    have hno : find headEnd (u ++ [c]) = none := by
      cases hfound : find headEnd (u ++ [c]) with
      | none => rfl
      | some i => exact absurd (hnone.symm.trans (find_append hfound v)) (by simp)
    have hzero' : 0 ∉ u ++ [c] := fun h0 =>
      hzero (List.mem_append_left _ (List.mem_append_left _ h0))
    have hlen : (mem.take pos ++ [c] ++ mem.drop (pos + [c].length)).length = mem.length :=
      length_store (store_eq (by rw [List.length_singleton]; omega))
    have hroom : pos + [c].length <
        (mem.take pos ++ [c] ++ mem.drop (pos + [c].length)).length := by
      rw [hlen, List.length_singleton]
      omega
    obtain ⟨rest, heq, hholds⟩ := hu.terminated [c]
    have hlen' := length_terminated hroom
    have hone : [c].length = 1 := rfl
    have hmax : [c].length ≤ maxRwCount := by
      rw [hone]
      decide
    rw [hone] at hroom heq hholds hlen' hlen
    obtain ⟨rs, q, hrs, hpositive, hlimit, hrun, hq⟩ := @ih (count - (1 : ℕ)) _ _ _ fuel hholds
      (by omega) (by omega) hnone hsome hzero (by omega)
    refine ⟨.ready 1 e :: .got [c] e :: rs, q, by simp [hrs], ?_, ?_, ?_, hq⟩
    · intro r hr
      rcases List.mem_cons.mp hr with rfl | hr
      · exact Int.one_pos
      · rcases List.mem_cons.mp hr with rfl | hr
        · exact hgot (by rw [hone]; exact Nat.one_pos) hmax
        · exact hpositive r hr
    · intro b' e' hmem
      simp only [List.mem_cons, reduceCtorEq, Reply.got.injEq, false_or] at hmem
      rcases hmem with ⟨rfl, -⟩ | hmem
      · exact hmax
      · exact hlimit b' e' hmem
    · rw [run_got_cons (by rw [hone]; exact Nat.one_pos) hmax (by rw [hone]; omega)
        (by rw [hone]; omega), hone, behindRead_room hroom, heq, cstr_append_zero hzero', hno]
      rw [← heq]
      exact hrun

end Loop

section Streams

variable {mSocket : ℤ} {isPoll : Bool} {mem s t u v : Bytes} {i n : ℕ} {rs : List Reply}
  {q : Program (ℤ × Bytes)}

theorem holds_nil (mem : Bytes) : Holds mem 0 [] := ⟨rfl, List.nil_prefix⟩

theorem find_take_eq_none (hi : find headEnd s = some i) (hn : n < i + 4) :
    find headEnd (s.take n) = none := by
  cases hj : find headEnd (s.take n) with
  | none => rfl
  | some j =>
    have happ := find_append hj (s.drop n)
    rw [List.take_append_drop, hi] at happ
    obtain rfl := Option.some.inj happ
    have hle := find_add_le hj
    have hlen : (s.take n).length ≤ n := List.length_take_le n s
    have hhead : headEnd.length = 4 := rfl
    omega

theorem find_take_isSome (hi : find headEnd s = some i) (hn : i + 4 ≤ n) :
    (find headEnd (s.take n)).isSome := by
  have hle := find_add_le hi
  have hhead : headEnd.length = 4 := rfl
  rw [← List.take_append_drop n s] at hi
  rw [find_of_append hi (by rw [List.length_take]; omega)]
  rfl

/-- Of a stream as much can be read before the call ends as one piece brings behind the head. -/
theorem exists_ended (hs : 0 ∉ s) (hi : find headEnd s = some i) (hn : i + 4 ≤ n)
    (hns : n ≤ s.length) (hmax : n ≤ i + 3 + maxRwCount) (hfit : n ≤ mem.length) :
    ∃ rs q, Splits s rs ∧ received rs = s.take n ∧
      (safeReadHttpRequest mSocket mem mem.length isPoll).run rs = some ([], q) ∧ ¬ q.Calls := by
  have htake : (s.take n).take (i + 3) = s.take (i + 3) := by
    rw [List.take_take, Nat.min_eq_left (by omega)]
  have hsplit : [] ++ s.take (i + 3) ++ (s.take n).drop (i + 3) = s.take n := by
    rw [List.nil_append, ← htake, List.take_append_drop]
  have hlen : ((s.take n).drop (i + 3)).length = n - (i + 3) := by
    rw [List.length_drop, List.length_take_of_le hns]
  have hvlen : (s.take (i + 3)).length = i + 3 := List.length_take_of_le (by omega)
  obtain ⟨rs, q, hrs, hpositive, hlimit, hrun, hq⟩ := @exists_run mSocket mem.length isPoll mem []
    (s.take (i + 3)) ((s.take n).drop (i + 3)) 0 (mem.length + 1) (holds_nil mem) (by omega)
    (by omega) (find_take_eq_none hi (by omega))
    (by
      rw [hsplit]
      exact find_take_isSome hi hn)
    (by omega) (by omega) (by rw [hsplit]; exact fun h0 => hs (List.mem_of_mem_take h0)) (by omega)
  have hrs' : received rs = s.take n := by rw [hrs, ← List.nil_append (s.take (i + 3)), hsplit]
  exact ⟨rs, q, ⟨hrs' ▸ List.take_prefix n s, hpositive, hlimit⟩, hrs', hrun, hq⟩

theorem ended_cases (hs : 0 ∉ s) (hi : find headEnd s = some i) (hmem : 1 ≤ mem.length)
    (hrs : Splits s rs)
    (h : (safeReadHttpRequest mSocket mem mem.length isPoll).run rs = some (t, q))
    (hq : ¬ q.Calls) :
    received rs <+: s.take (i + 3 + maxRwCount) ∧
      ((received rs).length = mem.length ∧ q = .undefined ∨
        (received rs).length < mem.length ∧ s.take (i + 4) <+: received rs ∧
          ∃ rest, q = httpArg mSocket (received rs ++ 0 :: rest)) := by
  have hzero : 0 ∉ received rs := fun h0 => hs (hrs.stream.subset h0)
  have hend := @loop_ends mSocket mem.length isPoll mem t [] 0 (mem.length + 1) rs q
    (holds_nil mem) rfl (by omega) (by omega) hzero hrs.positive hrs.limit h (by omega) hq
  rw [List.nil_append] at hend
  obtain ⟨⟨v, hv, hnone, hle⟩, houtcome⟩ := hend
  have hreceived : received rs = s.take (received rs).length :=
    List.prefix_iff_eq_take.mp hrs.stream
  have hvshort : v.length < i + 4 := by
    by_contra hlong
    have hvs : v = s.take v.length := List.prefix_iff_eq_take.mp (hv.trans hrs.stream)
    have hvsome := find_take_isSome hi (show i + 4 ≤ v.length by omega)
    rw [← hvs, hnone] at hvsome
    exact absurd hvsome (by simp)
  constructor
  · rw [hreceived]
    exact List.take_prefix_take_left (by omega)
  · refine houtcome.imp_right fun ⟨hlt, hsome, hrest⟩ => ⟨hlt, ?_, hrest⟩
    have hhead : i + 4 ≤ (received rs).length := by
      by_contra hshort
      rw [hreceived, find_take_eq_none hi (by omega)] at hsome
      exact absurd hsome (by simp)
    rw [hreceived]
    exact List.take_prefix_take_left hhead

theorem ended_head (hs : 0 ∉ s) (hi : find headEnd s = some i)
    (hroom : (s.take (i + 3 + maxRwCount)).length < mem.length) (hrs : Splits s rs)
    (h : (safeReadHttpRequest mSocket mem mem.length isPoll).run rs = some (t, q))
    (hq : ¬ q.Calls) :
    received rs <+: s.take (i + 3 + maxRwCount) ∧ s.take (i + 4) <+: received rs ∧
      0 ∉ received rs ∧ ∃ rest, q = httpArg mSocket (received rs ++ 0 :: rest) := by
  obtain ⟨hread, ⟨hfull, -⟩ | ⟨-, hhead, hrest⟩⟩ := ended_cases hs hi (by omega) hrs h hq
  · have hle := hread.length_le
    omega
  · exact ⟨hread, hhead, fun h0 => hs (hrs.stream.subset h0), hrest⟩

/-- Where one piece may fill the buffer, a call is undefined that could have ended before. -/
theorem Independent.room (hind : Independent mSocket isPoll mem s) (hs : 0 ∉ s)
    (hi : find headEnd s = some i) (hfit : i + 4 ≤ mem.length) :
    (s.take (i + 3 + maxRwCount)).length < mem.length := by
  have hlen : (s.take (i + 3 + maxRwCount)).length = min (i + 3 + maxRwCount) s.length :=
    List.length_take
  by_contra hfull
  obtain ⟨rs, q, hrs, hread, hrun, hq⟩ := @exists_ended mSocket isPoll mem s i mem.length hs hi
    hfit (by omega) (by omega) (Nat.le_refl _)
  have hsame := hind rs rs [] [] q q hrs hrs hrun hrun hq hq
  rcases ended_cases hs hi (by omega) hrs hrun hq with ⟨-, ⟨-, rfl⟩ | ⟨hlt, -⟩⟩
  · cases hsame
  · rw [hread, List.length_take] at hlt
    omega

theorem Independent.hasArg (hind : Independent mSocket isPoll mem s) (hs : 0 ∉ s)
    (hi : find headEnd s = some i) (hfit : i + 4 ≤ mem.length)
    (hyes : HasArg (s.take (i + 3 + maxRwCount))) : HasArg (s.take (i + 4)) := by
  have hhead : i + 4 ≤ s.length := find_add_le hi
  have hmax : 1 ≤ maxRwCount := by decide
  have hlen : (s.take (i + 3 + maxRwCount)).length = min (i + 3 + maxRwCount) s.length :=
    List.length_take
  have hall : s.take (s.take (i + 3 + maxRwCount)).length = s.take (i + 3 + maxRwCount) :=
    (List.prefix_iff_eq_take.mp (List.take_prefix _ s)).symm
  have hroom := hind.room hs hi hfit
  obtain ⟨rs, q, hrs, hread, hrun, hq⟩ := @exists_ended mSocket isPoll mem s i (i + 4) hs hi
    (Nat.le_refl _) hhead (by omega) hfit
  obtain ⟨rs', q', hrs', hread', hrun', hq'⟩ := @exists_ended mSocket isPoll mem s i
    (s.take (i + 3 + maxRwCount)).length hs hi (by omega) (by omega) (by omega) (by omega)
  have hsame := hind rs rs' [] [] q q' hrs hrs' hrun hrun' hq hq'
  obtain ⟨-, -, h0, rest, rfl⟩ := ended_head hs hi hroom hrs hrun hq
  obtain ⟨-, -, h0', rest', rfl⟩ := ended_head hs hi hroom hrs' hrun' hq'
  by_contra hno
  rw [← hread] at hno
  rw [← hall, ← hread'] at hyes
  obtain ⟨msg, hmsg⟩ := @httpArg_throw mSocket _ h0 hno rest
  obtain ⟨r, hr⟩ := @exists_httpArg_ret mSocket _ h0' hyes rest'
  rw [hmsg, hr] at hsame
  cases hsame

/-- The outcome does not depend on the pieces exactly if the buffer is not filled by all that may
have been read, and the argument is in the head or not there at all. -/
theorem independent_iff (hs : 0 ∉ s) (hi : find headEnd s = some i) (hfit : i + 4 ≤ mem.length) :
    Independent mSocket isPoll mem s ↔
      (s.take (i + 3 + maxRwCount)).length < mem.length ∧
        (HasArg (s.take (i + 4)) ∨ ¬ HasArg (s.take (i + 3 + maxRwCount))) := by
  constructor
  · intro hind
    refine ⟨hind.room hs hi hfit, ?_⟩
    by_cases hyes : HasArg (s.take (i + 3 + maxRwCount))
    · exact .inl (hind.hasArg hs hi hfit hyes)
    · exact .inr hyes
  · rintro ⟨hroom, harg⟩ rs rs' t t' q q' hrs hrs' hrun hrun' hq hq'
    obtain ⟨hread, ⟨u, hu⟩, h0, rest, rfl⟩ := ended_head hs hi hroom hrs hrun hq
    obtain ⟨hread', ⟨u', hu'⟩, h0', rest', rfl⟩ := ended_head hs hi hroom hrs' hrun' hq'
    rcases harg with hyes | hno
    · have hzero : 0 ∉ s.take (i + 4) := fun h0 => hs (List.mem_of_mem_take h0)
      rw [← hu, ← hu']
      exact sameOutcome_of_hasArg hzero hyes (fun h => h0 (hu ▸ List.mem_append_right _ h))
        fun h => h0' (hu' ▸ List.mem_append_right _ h)
    · obtain ⟨msg, hmsg⟩ := @httpArg_throw mSocket _ h0 (fun h => hno (h.mono hread)) rest
      obtain ⟨msg', hmsg'⟩ := @httpArg_throw mSocket _ h0' (fun h => hno (h.mono hread')) rest'
      rw [hmsg, hmsg']
      exact .throws msg msg'

end Streams

/-- A request whose argument is in its head. -/
theorem independent_iff_head :
    Independent 3 false (List.replicate 16 0) [63, 97, 32, 13, 10, 13, 10] ↔
      (([63, 97, 32, 13, 10, 13, 10] : Bytes).take (3 + 3 + maxRwCount)).length <
          (List.replicate 16 (0 : UInt8)).length ∧
        (HasArg (([63, 97, 32, 13, 10, 13, 10] : Bytes).take (3 + 4)) ∨
          ¬ HasArg (([63, 97, 32, 13, 10, 13, 10] : Bytes).take (3 + 3 + maxRwCount))) :=
  independent_iff (by decide) (by decide) (by decide)

/-- A question mark and a blank behind the head are found only if they come with it. -/
theorem not_independent :
    ¬ Independent 3 false (List.replicate 16 0) [13, 10, 13, 10, 63, 32] := by
  intro h
  let e : Errno := ⟨false, ""⟩
  have halone : Splits [13, 10, 13, 10, 63, 32] [.ready 1 e, .got [13, 10, 13, 10] e] :=
    ⟨by decide, by simp [Positive, wrapInt], by simp [maxRwCount]⟩
  have htogether :
      Splits [13, 10, 13, 10, 63, 32] [.ready 1 e, .got [13, 10, 13, 10, 63, 32] e] :=
    ⟨by decide, by simp [Positive, wrapInt], by simp [maxRwCount]⟩
  have hsame := h _ _ [] [] (.throw _) (.ret _) halone htogether rfl rfl (by simp [Calls])
    (by simp [Calls])
  cases hsame

end YlUtils.StdSocket
