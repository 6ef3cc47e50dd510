import YlUtils.Http.Unescape

/-! # The decoder of URLs

The decoder unescapes a copy of its argument in place. What it returns is the
text with its escapes replaced, of which there is none that denotes a zero.
-/

namespace YlUtils

namespace URLDecoder

def unescape (buf : Bytes) : Option Bytes := HttpQuery.unescape buf 0

/-- Of the buffer only the bytes up to the zero that `strcpy` writes are read. -/
def decode (url : Bytes) : Option Bytes := do
  let buf ← unescape (cstr url ++ 0 :: List.replicate (url.length - strlen url) 0)
  some (cstr buf)

/-- A text with its escapes replaced from left to right and every other byte read by `copy`. -/
def replacedWith (copy : UInt8 → UInt8) : Bytes → Bytes
  | a :: b :: c :: s =>
    match (if a = 37 then HttpQuery.hexByte b c else none) with
    | some x => x :: replacedWith copy s
    | none => copy a :: replacedWith copy (b :: c :: s)
  | a :: s => copy a :: replacedWith copy s
  | [] => []

/-- A text with its escapes replaced and every other byte kept. -/
def replaced (s : Bytes) : Bytes := replacedWith id s

theorem unescaped_eq (s : Bytes) : HttpQuery.unescaped s = replacedWith HttpQuery.plain s := by
  induction s using HttpQuery.unescaped.induct with
  | case1 a b c s x hx ih => simp only [HttpQuery.unescaped, replacedWith, hx, ih]
  | case2 a b c s hx ih => simp only [HttpQuery.unescaped, replacedWith, hx, ih]
  | case3 a s hn ih =>
    rw [HttpQuery.unescaped, replacedWith, ih]
    · exact hn
    · exact hn
  | case4 => rfl

theorem replacedWith_cons {copy : UInt8 → UInt8} {a : UInt8} {s : Bytes}
    (h : ∀ b c t, s = b :: c :: t → a = 37 → HttpQuery.hexByte b c = none) :
    replacedWith copy (a :: s) = copy a :: replacedWith copy s := by
  rcases s with - | ⟨b, - | ⟨c, t⟩⟩
  · rfl
  · rfl
  · have hx : (if a = 37 then HttpQuery.hexByte b c else none) = none := by
      split
      · next ha => exact h b c t rfl ha
      · rfl
    rw [replacedWith, hx]

theorem decode_eq (url : Bytes) : decode url = some (HttpQuery.unescaped (cstr url)) := by
  have hz := zero_notMem_cstr url
  obtain ⟨buf, hbuf, j, rfl, -⟩ := HttpQuery.unescape_succeeds hz []
    (List.replicate (url.length - strlen url) 0)
  unfold decode unescape
  rw [← List.nil_append (cstr url ++ _)]
  change (HttpQuery.unescape _ ([] : Bytes).length).bind _ = _
  rw [hbuf, Option.bind_some, List.nil_append, List.append_assoc, List.cons_append,
    cstr_append_zero (HttpQuery.zero_notMem_unescaped hz)]

end URLDecoder

end YlUtils
