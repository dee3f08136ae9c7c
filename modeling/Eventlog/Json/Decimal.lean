import Eventlog.Json.RoundTrip

/-!
# Eventlog.Json.Decimal

How `serde_json` reads a decimal when its `float_roundtrip` feature is off.

The digits are taken as one integer, the integer is rounded to binary64, and a single
multiplication or division by a power of ten places the point, rounding again.  Two
roundings can miss the value whose text was read: `readDecimal_written`.

Values are finite and rounded half to even.  A significand that does not fit in 64 bits
takes another path in the library, which is not modelled: the shortest text of a binary64
value has at most 17 digits.
-/

namespace Float64

/-! ## Rounding -/

/-- A quotient rounded to the nearest integer, half to even. -/
def roundDiv (n d : Nat) : Nat :=
  let q := n / d
  let r := n % d
  if 2 * r < d ∨ (2 * r = d ∧ q % 2 = 0) then q else q + 1

/-- The value with these bits, unless it is not finite. -/
def ofBits (bits : Nat) : Option Float64 :=
  if h : (UInt64.ofNat bits).toNat / 2 ^ 52 % 2 ^ 11 ≠ 2047 then some ⟨.ofNat bits, h⟩ else none

/-- The non-negative value nearest to `n / d`; none on overflow. -/
def ofRatio (n d : Nat) : Option Float64 :=
  if n = 0 then ofBits 0 else
  let shifted (k : Int) : Nat × Nat := (n * 2 ^ k.toNat, d * 2 ^ (-k).toNat)
  -- the significand `n / d * 2 ^ k` has 53 bits, or fewer at the bottom of the range
  let guess : Int := 52 + d.log2 - n.log2
  let (n₁, d₁) := shifted guess
  let k := min (if n₁ < 2 ^ 52 * d₁ then guess + 1 else guess) 1074
  let (n₂, d₂) := shifted k
  let bits := (1074 - k).toNat * 2 ^ 52 + roundDiv n₂ d₂
  if bits < 2047 * 2 ^ 52 then ofBits bits else none

/-- The magnitude of a value, over `2 ^ 1075`. -/
def magnitude (x : Float64) : Nat :=
  let exponent := x.bits.toNat / 2 ^ 52 % 2 ^ 11
  let fraction := x.bits.toNat % 2 ^ 52
  if exponent = 0 then fraction * 2 else (2 ^ 52 + fraction) * 2 ^ exponent

/-- `f * g` of non-negative values. -/
def mul (x y : Float64) : Option Float64 :=
  ofRatio (x.magnitude * y.magnitude) (2 ^ 1075 * 2 ^ 1075)

/-- `f / g` of non-negative values. -/
def div (x y : Float64) : Option Float64 :=
  ofRatio x.magnitude y.magnitude

/-- The value with its sign bit set. -/
def negate (x : Float64) : Option Float64 :=
  ofBits (2 ^ 63 + x.bits.toNat)

end Float64

namespace Json

/-! ## Reading a decimal -/

/-- `POW10`, up to `1e308`. -/
def pow10 (k : Nat) : Option Float64 :=
  Float64.ofRatio (10 ^ k) 1

/-- The loop of `f64_from_parts` for a negative exponent. -/
def divPow10 : Nat → Float64 → Nat → Option Float64
  | 0, _, _ => none
  | fuel + 1, f, k =>
      if k ≤ 308 then do f.div (← pow10 k)
      else if f.magnitude = 0 then some f
      else do divPow10 fuel (← f.div (← pow10 308)) (k - 308)

/-- `f64_from_parts`. -/
def fromParts (positive : Bool) (significand : Nat) (exponent : Int) : Option Float64 := do
  let f ← Float64.ofRatio significand 1
  let f ←
    if exponent < 0 then divPow10 (exponent.natAbs + 1) f exponent.natAbs
    else if exponent ≤ 308 then f.mul (← pow10 exponent.toNat)
    else if f.magnitude = 0 then some f
    else none
  if positive then some f else f.negate

/-- The exponent of a decimal, without its `e`. -/
def readExponent : List Char → Option Int
  | '-' :: cs => if cs ≠ [] ∧ cs.all Char.isDigit then some (-(Nat.ofDigitChars 10 cs 0 : Nat)) else none
  | '+' :: cs => if cs ≠ [] ∧ cs.all Char.isDigit then some (Nat.ofDigitChars 10 cs 0 : Nat) else none
  | cs => if cs ≠ [] ∧ cs.all Char.isDigit then some (Nat.ofDigitChars 10 cs 0 : Nat) else none

/-- An unsigned decimal: integer digits, fraction digits, exponent. -/
def splitDecimal (cs : List Char) : Option (List Char × List Char × Int) :=
  let whole := cs.takeWhile Char.isDigit
  let rest := cs.dropWhile Char.isDigit
  let (fraction, rest) := match rest with
    | '.' :: rest => (rest.takeWhile Char.isDigit, rest.dropWhile Char.isDigit)
    | _ => ([], rest)
  match rest with
  | [] => some (whole, fraction, 0)
  | c :: rest =>
      if c = 'e' ∨ c = 'E' then (readExponent rest).map fun e => (whole, fraction, e) else none

/-- A number token with a fraction or an exponent. -/
def readDecimal (cs : List Char) : Option Float64 := do
  let positive := cs.head? ≠ some '-'
  let (whole, fraction, exponent) ← splitDecimal (if positive then cs else cs.tail)
  let significand := Nat.ofDigitChars 10 (whole ++ fraction) 0
  if whole ≠ [] ∧ significand < 2 ^ 64 then
    fromParts positive significand (exponent - fraction.length)
  else none

/-! ## Text that does not survive -/

/-- The value whose shortest text is `950.5250979473323`. -/
def written : Float64 := ⟨0x408db433668d77e9, by decide⟩

/-- Its successor, `950.5250979473324`. -/
def successor : Float64 := ⟨0x408db433668d77ea, by decide⟩

/-- A text with a digit first, an `e` or a `.` in it and number characters only. -/
structure FloatShape (cs : List Char) : Prop where
  start : ∃ c rest, cs = c :: rest ∧ c.isDigit
  chars : ∀ c ∈ cs, isNumberChar c
  mark : ∃ c ∈ cs, c.isDigit = false

theorem FloatShape.not_int (h : FloatShape cs) : readInt cs = none := by
  obtain ⟨c, rest, rfl, hc⟩ := h.start
  obtain ⟨x, hx, hmark⟩ := h.mark
  have hne : c ≠ '-' := by rintro rfl; contradiction
  have hall : ¬ (c :: rest).all Char.isDigit := by
    rw [List.all_eq_true]
    intro hdigits
    rw [hdigits x hx] at hmark
    contradiction
  rw [readInt_of_head_ne hne, readDigits, if_neg fun hdigits => hall hdigits.2.1]
  rfl

/-- Every value by its bits: a stand-in for the shortest decimals, told apart from the
    texts of `written` and `successor` by having no point. -/
def bitsText (x : Float64) : List Char :=
  Nat.toDigits 10 x.bits.toNat ++ ['e', '0']

theorem bitsText_shape (x : Float64) : FloatShape (bitsText x) where
  start := by
    cases hd : Nat.toDigits 10 x.bits.toNat with
    | nil => exact absurd hd Nat.toDigits_ne_nil
    | cons c cs =>
        refine ⟨c, cs ++ ['e', '0'], by rw [bitsText, hd]; rfl, ?_⟩
        exact Nat.isDigit_of_mem_toDigits (b := 10) (n := x.bits.toNat) (by decide) (by decide)
          (by simp [hd])
  chars := by
    intro c hc
    rcases List.mem_append.mp hc with hdigit | hmark
    · have := List.all_eq_true.mp (all_isDigit_toDigits x.bits.toNat) c hdigit
      simp [isNumberChar, this]
    · have hmarks : ∀ c ∈ ['e', '0'], isNumberChar c := List.all_eq_true.mp (by decide)
      exact hmarks c hmark
  mark := ⟨'e', by simp [bitsText], by decide⟩

theorem bitsText_injective : Function.Injective bitsText := by
  intro x y h
  have hdigits := List.append_cancel_right h
  have hbits := congrArg readDigits hdigits
  rw [readDigits_toDigits, readDigits_toDigits] at hbits
  cases x
  cases y
  congr
  exact UInt64.toNat_inj.mp (Option.some.inj hbits)

/-- A text without a point. -/
theorem bitsText_ne (x : Float64) {cs : List Char} (h : '.' ∈ cs) : bitsText x ≠ cs := by
  rintro rfl
  rcases List.mem_append.mp h with hdigit | hmark
  · have := List.all_eq_true.mp (all_isDigit_toDigits x.bits.toNat) '.' hdigit
    contradiction
  · simp at hmark

/-- A printer that writes `written` and `successor` as their shortest decimals. -/
def sampleText (x : Float64) : List Char :=
  if x = written then "950.5250979473323".toList
  else if x = successor then "950.5250979473324".toList
  else bitsText x

theorem sampleText_shape (x : Float64) : FloatShape (sampleText x) := by
  unfold sampleText
  split_ifs
  · exact ⟨⟨'9', _, rfl, by decide⟩, List.all_eq_true.mp (by decide), ⟨'.', by decide, by decide⟩⟩
  · exact ⟨⟨'9', _, rfl, by decide⟩, List.all_eq_true.mp (by decide), ⟨'.', by decide, by decide⟩⟩
  · exact bitsText_shape x

theorem sampleText_injective : Function.Injective sampleText := by
  intro x y h
  unfold sampleText at h
  split_ifs at h with h1 h2 h3 h4 h5 h6 h7
  all_goals first
    | (subst_vars; rfl)
    | exact absurd h (by decide)
    | exact absurd h (bitsText_ne _ (by decide))
    | exact absurd h.symm (bitsText_ne _ (by decide))
    | exact bitsText_injective h

/-- `sampleText` as it is printed, `readDecimal` as it is read. -/
def sampleFloats : FloatText where
  print := sampleText
  parse := readDecimal
  print_start x := by
    obtain ⟨c, cs, heq, hc⟩ := (sampleText_shape x).start
    exact ⟨c, cs, heq, by simp [isNumberStart, hc]⟩
  print_chars x := (sampleText_shape x).chars
  print_not_int x := (sampleText_shape x).not_int
  print_injective := sampleText_injective

/-- Two roundings miss: what is read back is the next value, and it is written differently. -/
theorem readDecimal_written :
    sampleFloats.parse (sampleFloats.print written) = some successor ∧
      sampleFloats.print successor ≠ sampleFloats.print written := by
  constructor
  · decide +kernel
  · decide

end Json
