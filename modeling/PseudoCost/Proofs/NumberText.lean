import PseudoCost.Number.Numeral
import PseudoCost.Proofs.CanonicalText
import PseudoCost.Proofs.JsonReading

/-!
# The text of a number

A number literal is printed as a decimal, which is digits with at most one point among them, or in
the scientific layout, which is a decimal with an exponent (`Exact.literalText_cases`). Only a
decimal is one word of the dialect: an exponent is read as a name, a sign and another number.

The values in question are those of number tokens. These are spelled as decimals, so they are
finite and not negative (`Numeral.exists_finite_of_read`). Whole numbers below ten to the fifteenth
are printed with all their digits, and these give the number back (`Numeral.read_ofNat`).
-/

namespace PseudoCost

namespace Text

/-! ## Decimals -/

/-- One or more decimal digits. -/
structure Digits (t : Text) : Prop where
  ne_nil : t ≠ []
  all : ∀ b ∈ t, isDigit b = true

/-- Digits, or digits with a point among them. -/
inductive Decimal : Text → Prop
  | whole {t : Text} : Digits t → Decimal t
  | fraction {t u : Text} : Digits t → Digits u → Decimal (t ++ "." ++ u)

theorem digits_ofNat (n : Nat) : Digits (ofNat n) := by
  obtain ⟨b, t, ht, -⟩ := JsonReader.exists_digit_ofNat n
  exact ⟨by rw [ht]; exact List.cons_ne_nil b t, JsonReader.isDigit_of_mem_ofNat n⟩

theorem Digits.padded {t : Text} (h : Digits t) (n : Nat) :
    Digits (List.replicate n (byte '0') ++ t) := by
  refine ⟨by simp [h.ne_nil], fun b hb => ?_⟩
  rcases List.mem_append.mp hb with hb | hb
  · rw [List.eq_of_mem_replicate hb]
    rfl
  · exact h.all b hb

theorem Digits.exists_cons {t : Text} (h : Digits t) :
    ∃ b u, t = b :: u ∧ isDigit b = true ∧ ∀ c ∈ u, isDigit c = true := by
  cases t with
  | nil => exact absurd rfl h.ne_nil
  | cons b u =>
      obtain ⟨hb, hu⟩ := List.forall_mem_cons.mp h.all
      exact ⟨b, u, rfl, hb, hu⟩

theorem Decimal.exists_cons {t : Text} (h : Decimal t) :
    ∃ b u, t = b :: u ∧ isDigit b = true ∧ ∀ c ∈ u, isDigit c = true ∨ c = byte '.' := by
  cases h with
  | whole ht =>
      obtain ⟨b, u, rfl, hb, hu⟩ := ht.exists_cons
      exact ⟨b, u, rfl, hb, fun c hc => .inl (hu c hc)⟩
  | @fraction t v ht hv =>
      obtain ⟨b, u, rfl, hb, hu⟩ := ht.exists_cons
      refine ⟨b, u ++ "." ++ v, rfl, hb, fun c hc => ?_⟩
      simp only [List.mem_append] at hc
      rcases hc with (hc | hc) | hc
      · exact .inl (hu c hc)
      · exact .inr (List.mem_singleton.mp hc)
      · exact .inl (hv.all c hc)

end Text

open Text (Digits Decimal)

namespace Exact

/-! ## Layouts -/

/-- With no places there is no point, and otherwise digits on both sides of it. -/
theorem withPoint_cases (places n : Nat) :
    places = 0 ∧ Digits (withPoint places n)
      ∨ 0 < places ∧ ∃ t u, Digits t ∧ Digits u ∧ withPoint places n = t ++ "." ++ u := by
  have hpadded := (Text.digits_ofNat n).padded (places + 1 - (Text.ofNat n).length)
  have hlength : places < (List.replicate (places + 1 - (Text.ofNat n).length) (Text.byte '0')
      ++ Text.ofNat n).length := by
    rw [List.length_append, List.length_replicate]
    omega
  simp only [withPoint]
  generalize List.replicate _ (Text.byte '0') ++ Text.ofNat n = padded at hpadded hlength ⊢
  split
  next hzero => exact .inl ⟨hzero, hpadded⟩
  next hne =>
    refine .inr ⟨Nat.pos_of_ne_zero hne, padded.take (padded.length - places),
      padded.drop (padded.length - places), ⟨?_, ?_⟩, ⟨?_, ?_⟩, rfl⟩
    · exact List.ne_nil_of_length_pos (by rw [List.length_take]; omega)
    · exact fun b hb => hpadded.all b (List.mem_of_mem_take hb)
    · exact List.ne_nil_of_length_pos (by rw [List.length_drop]; omega)
    · exact fun b hb => hpadded.all b (List.mem_of_mem_drop hb)

theorem decimal_dropZeros {t u : Text} (ht : Digits t) (hu : Digits u) :
    Decimal (dropZeros (t ++ "." ++ u)) := by
  have hpoint : ("." : Text) = [Text.byte '.'] := rfl
  have hsplit : (t ++ "." ++ u).reverse = u.reverse ++ Text.byte '.' :: t.reverse := by
    simp [hpoint]
  -- What is left of the fraction: `v` in reverse.
  generalize hv : u.reverse.dropWhile (· == Text.byte '0') = v
  have hcut : (t ++ "." ++ u).reverse.dropWhile (· == Text.byte '0')
      = v ++ Text.byte '.' :: t.reverse := by
    rw [hsplit, List.dropWhile_append, hv]
    cases v with
    | nil => rfl
    | cons b v => rfl
  have hmem : ∀ b ∈ v, Text.isDigit b = true := fun b hb =>
    hu.all b (List.mem_reverse.mp ((hv ▸ List.dropWhile_sublist _ : v.Sublist u.reverse).subset hb))
  rw [dropZeros, hcut]
  cases v with
  | nil =>
      rw [List.nil_append, List.head?_cons, if_pos rfl, List.tail_cons, List.reverse_reverse]
      exact .whole ht
  | cons b v =>
      have hb : b ≠ Text.byte '.' := by
        rintro rfl
        exact absurd (hmem _ List.mem_cons_self) (by decide)
      rw [List.cons_append, List.head?_cons, if_neg (by simpa using hb)]
      have heq : (b :: (v ++ Text.byte '.' :: t.reverse)).reverse
          = t ++ "." ++ (b :: v).reverse := by
        simp [hpoint]
      rw [heq]
      exact .fraction ht ⟨by simp, fun c hc => hmem c (List.mem_reverse.mp hc)⟩

theorem decimal_mantissa (places n : Nat) :
    Decimal (if places = 0 then withPoint places n else dropZeros (withPoint places n)) := by
  rcases withPoint_cases places n with ⟨hzero, h⟩ | ⟨hpos, t, u, ht, hu, heq⟩
  · rw [if_pos hzero]
    exact .whole h
  · rw [if_neg (by omega), heq]
    exact decimal_dropZeros ht hu

/-- Kept digits are laid out around the place of the first one, or with an exponent. -/
theorem layout_cases (digits n : Nat) (x : Int) {t : Text}
    (ht : t = if x < -4 || Int.ofNat digits ≤ x then
        (if digits ≤ 1 then withPoint (digits - 1) n else dropZeros (withPoint (digits - 1) n))
          ++ exponentText x
      else if (Int.ofNat digits - 1 - x).toNat = 0 then
        withPoint (Int.ofNat digits - 1 - x).toNat n
      else dropZeros (withPoint (Int.ofNat digits - 1 - x).toNat n)) :
    Decimal t ∨ ∃ m x, Decimal m ∧ t = m ++ exponentText x := by
  split at ht
  · have hiff : digits ≤ 1 ↔ digits - 1 = 0 := by omega
    simp only [hiff] at ht
    exact .inr ⟨_, x, decimal_mantissa (digits - 1) n, ht⟩
  · exact .inl (ht ▸ decimal_mantissa _ n)

theorem significantRatio_cases (digits num den : Nat) :
    Decimal (significantRatio digits num den)
      ∨ ∃ m x, Decimal m ∧ significantRatio digits num den = m ++ exponentText x := by
  simp only [significantRatio]
  split <;> exact layout_cases digits _ _ rfl

/-- A literal that is not negative is printed as a decimal or in the scientific layout. -/
theorem literalText_cases (num den : Nat) :
    Decimal (Exact.finite false num den).literalText
      ∨ ∃ m x, Decimal m ∧ (Exact.finite false num den).literalText = m ++ exponentText x := by
  rw [literalText]
  split
  · exact .inl (.whole (Text.digits_ofNat _))
  · rw [significant, signed, if_neg Bool.false_ne_true]
    split
    · exact .inl (.whole (Text.digits_ofNat 0))
    · exact significantRatio_cases 6 num den

/-- An exponent: its mark, a sign and digits. -/
theorem exponentText_eq (x : Int) : ∃ ds, Digits ds
    ∧ (exponentText x = "e" ++ "+" ++ ds ∨ exponentText x = "e" ++ "-" ++ ds) := by
  have hdigits := Text.digits_ofNat x.natAbs
  have hpadded : Digits ("0" ++ Text.ofNat x.natAbs) := hdigits.padded 1
  have hboth : Digits (if (Text.ofNat x.natAbs).length < 2 then "0" ++ Text.ofNat x.natAbs
      else Text.ofNat x.natAbs) := by
    split
    · exact hpadded
    · exact hdigits
  refine ⟨_, hboth, ?_⟩
  simp only [exponentText]
  split
  · exact .inr rfl
  · exact .inl rfl

/-- A decimal has no exponent. -/
theorem not_mem_of_decimal {t : Text} (h : Decimal t) : Text.byte 'e' ∉ t := by
  obtain ⟨b, u, rfl, hb, hu⟩ := h.exists_cons
  intro hmem
  rcases List.mem_cons.mp hmem with rfl | hmem
  · exact absurd hb (by decide)
  · rcases hu _ hmem with h | h <;> exact absurd h (by decide)

end Exact

/-! ## Values of number tokens -/

namespace Numeral

/-- What starts with a digit and goes on with digits and points is read as a decimal number. -/
theorem leading?_of_decimal {t : Text} (h : Decimal t) : leading? t = decimal? false t := by
  obtain ⟨b, u, rfl, hb, hu⟩ := h.exists_cons
  have hsmall : ∀ c ∈ Text.lower (b :: u), Text.isDigit c = true ∨ c = Text.byte '.' := by
    have hlower : ∀ c : UInt8,
        Text.isDigit c = true ∨ c = Text.byte '.' → Text.lowerByte c = c := by decide +kernel
    intro c hc
    obtain ⟨d, hd, rfl⟩ := List.mem_map.mp hc
    have hd' : Text.isDigit d = true ∨ d = Text.byte '.' := by
      rcases List.mem_cons.mp hd with rfl | hd
      · exact .inl hb
      · exact hu d hd
    rwa [hlower d hd']
  have hword : ∀ word : Text, (∃ c ∈ word, ¬ (Text.isDigit c = true ∨ c = Text.byte '.')) →
      word.isPrefixOf (Text.lower (b :: u)) = false := by
    rintro word ⟨c, hc, hnone⟩
    rw [Bool.eq_false_iff, ne_eq, List.isPrefixOf_iff_prefix]
    exact fun hstart => hnone (hsmall c (hstart.subset hc))
  have hhex := hword "0x" ⟨Text.byte 'x', by decide⟩
  have hinf := hword "inf" ⟨Text.byte 'i', by decide⟩
  have hnan := hword "nan" ⟨Text.byte 'n', by decide⟩
  simp only [leading?, start_of_isDigit hb, hhex, hinf, hnan, Bool.false_and, Bool.false_eq_true,
    if_false]

/-- The value of a decimal is finite and not negative. -/
theorem exists_finite_of_read {t : Text} (h : Decimal t) {value : Exact}
    (hread : read t = .ok value) : ∃ num den, value = .finite false num den := by
  obtain ⟨b, u, rfl, hb, -⟩ := h.exists_cons
  rw [read, leading?_of_decimal h] at hread
  simp only [decimal?, List.isEmpty_eq_false_iff.mpr (takeDigits_ne_nil hb u), Bool.false_and,
    Bool.false_eq_true, if_false] at hread
  split at hread
  · cases hread
  · cases hread
    have hratio : ∀ num den,
        ∃ num' den', Rounding.ratio false num den = .finite false num' den' := by
      intro num den
      simp only [Rounding.ratio]
      split
      · exact ⟨_, _, rfl⟩
      · split <;> exact ⟨_, _, rfl⟩
    exact hratio _ _

end Numeral

/-! ## Whole numbers -/

theorem Exact.literalText_whole {n : Nat} (h : n < 10 ^ 15) :
    (Exact.finite false n 1).literalText = Text.ofNat n := by
  have hlimit : n < Nat.pow 10 15 * 1 := h
  rw [literalText, Nat.mod_one, decide_eq_true hlimit]
  exact congrArg Text.ofNat (Nat.div_one n)

namespace Rounding

/-- Of a whole number 53 binary digits are kept. -/
theorem lastPlace_whole {n k : Nat} (hn : n ≠ 0) (hk : n.log2 + k = 52) :
    lastPlace n 1 = -Int.ofNat k := by
  have hone : Nat.log2 1 = 0 := by decide
  have hguess : Int.ofNat n.log2 - Int.ofNat (Nat.log2 1) - 53 = -Int.ofNat (k + 1) := by
    rw [hone]
    simp
    omega
  have hkept : Nat.pow 2 53 ≤ n * Nat.pow 2 (k + 1) :=
    calc 2 ^ 53 = 2 ^ n.log2 * 2 ^ (k + 1) := by rw [← Nat.pow_add]; congr 1; omega
      _ ≤ n * 2 ^ (k + 1) := Nat.mul_le_mul_right _ (Nat.log2_self_le hn)
  have hneg : ¬ 0 ≤ -Int.ofNat (k + 1) := by simp; omega
  have hshift : (-(-Int.ofNat (k + 1))).toNat = k + 1 := by simp
  simp only [lastPlace, hguess, if_neg hneg, hshift, Nat.div_one, if_pos hkept]
  simp
  omega

/-- A whole number with no more binary digits is not changed by rounding. -/
theorem round_whole {n : Nat} (h : n < 2 ^ 53) :
    round (.finite false n 1) = .finite false n 1 := by
  have hdiv : ∀ m, Exact.roundDiv m 1 = m := fun m => by simp [Exact.roundDiv, Nat.mod_one]
  rw [round, ratio]
  split
  next hzero => rw [hzero]
  next hzero =>
    have hlog := (Nat.log2_lt hzero).mpr h
    obtain ⟨k, hk⟩ : ∃ k, n.log2 + k = 52 := ⟨52 - n.log2, by omega⟩
    have hround : roundAt n 1 (-Int.ofNat k) = n * Nat.pow 2 k := by
      rw [roundAt]
      split
      next hpos =>
        obtain rfl : k = 0 := by simp at hpos; omega
        simp [hdiv]
      next => simp [hdiv]
    simp only [lastPlace_whole hzero hk, hround]
    split
    next hpos =>
      obtain rfl : k = 0 := by simp at hpos; omega
      simp
    next => simp [Exact.ratio, Nat.two_pow_pos k]

end Rounding

namespace Numeral

theorem decimal?_ofNat (n : Nat) : decimal? false (Text.ofNat n) = some (.finite false n 0) := by
  have hdigits := Text.digits_ofNat n
  have htake : (Text.ofNat n).takeWhile Text.isDigit = Text.ofNat n :=
    List.takeWhile_eq_self_iff.mpr hdigits.all
  have hdrop : (Text.ofNat n).dropWhile Text.isDigit = [] :=
    List.dropWhile_eq_nil_iff.mpr hdigits.all
  simp only [decimal?, takeDigits, htake, hdrop]
  simp [hdigits.ne_nil, JsonReader.digitsValue_ofNat, power]

/-- A whole number that is printed in digits is in the range of double precision. -/
theorem isOutOfRange_whole {n : Nat} (h : n < 10 ^ 15) : isOutOfRange n 0 = false := by
  have hcount : Exact.digitCount n ≤ 15 :=
    (Nat.length_toDigits_le_iff (by decide) (by decide)).mpr h
  have hover : overflows n 1 = false := by
    have hlimit : 10 ^ 15 ≤ (Nat.pow 2 1024 - Nat.pow 2 970) * 1 := by decide +kernel
    rw [overflows, decide_eq_false_iff_not]
    omega
  have hunder : underflows n 1 = false := by
    rw [underflows, Nat.mod_one]
    exact Bool.and_false _
  simp only [isOutOfRange]
  split
  next => rfl
  next hzero =>
    rw [if_neg (by simp; omega)]
    simp [exact, hzero, Exact.scale10, hover, hunder]

theorem read_ofNat {n : Nat} (h : n < 10 ^ 15) : read (Text.ofNat n) = .ok (.finite false n 1) := by
  have hexact : (Numeral.finite false n 0).exact = .finite false n 1 := by
    by_cases hzero : n = 0 <;> simp [exact, hzero, Exact.scale10]
  rw [read, leading?_of_decimal (.whole (Text.digits_ofNat n)), decimal?_ofNat]
  dsimp only
  rw [isOutOfRange_whole h, if_neg Bool.false_ne_true, hexact,
    Rounding.round_whole (h.trans (by decide))]

end Numeral

end PseudoCost
