import PseudoCost.Proofs.Glyphs

/-!
# Characters and their bytes

Encoding a character and reading its bytes gives the character back, with nothing left open: a text
that begins with the encoding of a character begins with that character's glyph, whatever follows
(`Text.glyphs_encode_append`). So a text made of characters is read as those characters.

The lead byte says how many bytes follow and carries the high bits. The reader's ranges for the byte
after it exclude overlong forms, surrogates and everything above the last code point; they never
exclude the second byte of a character.
-/

namespace PseudoCost

namespace Glyph

/-- The glyph of a character. -/
def ofChar (c : Char) : Glyph := ⟨some c, String.utf8EncodeChar c⟩

/-! ## Lead and continuation bytes -/

/-- After the byte, a character is open whose code begins with `code`, and the next byte may have
the value `second`. -/
def Step.Opens (b : UInt8) (code more second : Nat) : Prop :=
  ∃ low high, Step.first b = ⟨[], some ⟨[b], code, more, low, high⟩⟩
    ∧ low.toNat ≤ second ∧ second ≤ high.toNat

section Bytes

variable {b : UInt8} {n : Nat} (second : Nat)

theorem Step.opens_two (hb : b.toNat = n + 192) (hleast : 2 ≤ n) (hn : n < 32)
    (hsecond : 128 ≤ second) (hsecond' : second < 192) : Step.Opens b n 0 second := by
  refine ⟨0x80, 0xBF, ?_, hsecond, Nat.le_of_lt_succ hsecond'⟩
  simp only [Step.first, UInt8.lt_iff_toNat_lt, ← UInt8.toNat_inj, hb]
  simp
  grind

theorem Step.opens_three (hb : b.toNat = n + 224) (hn : n < 16) (hsecond : 128 ≤ second)
    (hsecond' : second < 192) (hoverlong : n = 0 → 160 ≤ second)
    (hsurrogate : n = 13 → second < 160) : Step.Opens b n 1 second := by
  refine ⟨if n = 0 then 0xA0 else 0x80, if n = 13 then 0x9F else 0xBF, ?_, ?_, ?_⟩
  · simp only [Step.first, UInt8.lt_iff_toNat_lt, ← UInt8.toNat_inj, hb]
    simp
    grind
  · split <;> simp <;> omega
  · split <;> simp <;> omega

theorem Step.opens_four (hb : b.toNat = n + 240) (hn : n < 5) (hsecond : 128 ≤ second)
    (hsecond' : second < 192) (hoverlong : n = 0 → 144 ≤ second)
    (hlast : n = 4 → second < 144) : Step.Opens b n 2 second := by
  refine ⟨if n = 0 then 0x90 else 0x80, if n = 4 then 0x8F else 0xBF, ?_, ?_, ?_⟩
  · simp only [Step.first, UInt8.lt_iff_toNat_lt, ← UInt8.toNat_inj, hb]
    simp
    grind
  · split <;> simp <;> omega
  · split <;> simp <;> omega

theorem readFrom_last {read : Text} {code : Nat} {low high : UInt8} (hlow : low.toNat ≤ b.toNat)
    (hhigh : b.toNat ≤ high.toNat) (t : Text) :
    readFrom (some ⟨read, code, 0, low, high⟩) (b :: t)
      = ⟨some (Char.ofNat (64 * code + (b.toNat - 0x80))), read ++ [b]⟩ :: readFrom none t := by
  rw [readFrom_cons, Step.take, Option.elim, Step.next, if_pos ⟨hlow, hhigh⟩]
  rfl

theorem readFrom_more {read : Text} {code more : Nat} {low high : UInt8}
    (hlow : low.toNat ≤ b.toNat) (hhigh : b.toNat ≤ high.toNat) (t : Text) :
    readFrom (some ⟨read, code, more + 1, low, high⟩) (b :: t)
      = readFrom (some ⟨read ++ [b], 64 * code + (b.toNat - 0x80), more, 0x80, 0xBF⟩) t := by
  rw [readFrom_cons, Step.take, Option.elim, Step.next, if_pos ⟨hlow, hhigh⟩]
  rfl

theorem readFrom_opens {code more second : Nat} (h : Step.Opens b code more second) :
    ∃ low high, low.toNat ≤ second ∧ second ≤ high.toNat ∧ ∀ t : Text,
      readFrom none (b :: t) = readFrom (some ⟨[b], code, more, low, high⟩) t := by
  obtain ⟨low, high, hfirst, hlow, hhigh⟩ := h
  refine ⟨low, high, hlow, hhigh, fun t => ?_⟩
  rw [readFrom_cons, Step.take, Option.elim, hfirst]
  rfl

end Bytes

end Glyph

/-! ## Characters -/

namespace Text

open Glyph

theorem toNat_continuation (n : Nat) : (UInt8.ofNat (n % 64 + 128)).toNat = n % 64 + 128 :=
  UInt8.toNat_ofNat_of_lt (by simp [UInt8.size]; omega)

theorem le_continuation (n : Nat) :
    (0x80 : UInt8).toNat ≤ (UInt8.ofNat (n % 64 + 128)).toNat := by
  rw [toNat_continuation]
  exact Nat.le_add_left 128 _

theorem continuation_le (n : Nat) :
    (UInt8.ofNat (n % 64 + 128)).toNat ≤ (0xBF : UInt8).toNat := by
  rw [toNat_continuation]
  exact Nat.add_le_add_right (Nat.le_of_lt_succ (Nat.mod_lt n (by decide))) 128

/-- A character is read from its encoding, whatever follows. -/
theorem glyphs_encode_append (c : Char) (t : Text) :
    glyphs (String.utf8EncodeChar c ++ t) = .ofChar c :: t.glyphs := by
  have hvalid : c.toNat < 0xD800 ∨ 0xDFFF < c.toNat ∧ c.toNat < 0x110000 := c.valid
  have hchar : Char.ofNat c.toNat = c := Char.ofNat_toNat c
  have hlead : ∀ m, m < 256 → (UInt8.ofNat m).toNat = m := fun m hm => UInt8.toNat_ofNat_of_lt hm
  rw [ofChar]
  unfold String.utf8EncodeChar
  change readFrom none _ = _
  extract_lets v
  have hv : v = c.toNat := rfl
  clear_value v
  rw [← hv] at hvalid hchar
  -- One case for each number of bytes: the lead byte, its continuation bytes, and the code they add
  -- up to.
  split
  next hone =>
    have hb : (UInt8.ofNat v).toNat = v := hlead v (by omega)
    have hfirst : Step.first (UInt8.ofNat v) = ⟨[⟨some c, [UInt8.ofNat v]⟩], none⟩ := by
      have hascii : UInt8.ofNat v < 0x80 := by
        rw [UInt8.lt_iff_toNat_lt, hb]
        exact Nat.lt_succ_of_le hone
      rw [Step.first, if_pos hascii, hb, hchar]
    rw [List.singleton_append, readFrom_cons, Step.take, Option.elim, hfirst]
    rfl
  split
  next htwo =>
    obtain ⟨low, high, hlow, hhigh, hread⟩ := readFrom_opens
      (Step.opens_two (v % 64 + 128) (hlead (v / 64 % 32 + 192) (by omega)) (by omega) (by omega)
        (by omega) (by omega))
    have hcode : 64 * (v / 64 % 32) + (v % 64 + 128 - 0x80) = v := by omega
    rw [List.cons_append, List.cons_append, List.nil_append, hread,
      readFrom_last (by rwa [toNat_continuation]) (by rwa [toNat_continuation]), toNat_continuation,
      hcode, hchar]
    rfl
  split
  next hthree =>
    obtain ⟨low, high, hlow, hhigh, hread⟩ := readFrom_opens
      (Step.opens_three (v / 64 % 64 + 128) (hlead (v / 4096 % 16 + 224) (by omega)) (by omega)
        (by omega) (by omega) (by omega) (by omega))
    have hcode : 64 * (64 * (v / 4096 % 16) + (v / 64 % 64 + 128 - 0x80)) + (v % 64 + 128 - 0x80)
        = v := by omega
    rw [List.cons_append, List.cons_append, List.cons_append, List.nil_append, hread,
      readFrom_more (by rwa [toNat_continuation]) (by rwa [toNat_continuation]),
      readFrom_last (le_continuation _) (continuation_le _),
      toNat_continuation, toNat_continuation, hcode, hchar]
    rfl
  next hfour =>
    obtain ⟨low, high, hlow, hhigh, hread⟩ := readFrom_opens
      (Step.opens_four (v / 4096 % 64 + 128) (hlead (v / 262144 % 8 + 240) (by omega)) (by omega)
        (by omega) (by omega) (by omega) (by omega))
    have hcode : 64 * (64 * (64 * (v / 262144 % 8) + (v / 4096 % 64 + 128 - 0x80))
        + (v / 64 % 64 + 128 - 0x80)) + (v % 64 + 128 - 0x80) = v := by omega
    rw [List.cons_append, List.cons_append, List.cons_append, List.cons_append, List.nil_append,
      hread, readFrom_more (by rwa [toNat_continuation]) (by rwa [toNat_continuation]),
      readFrom_more (le_continuation _) (continuation_le _),
      readFrom_last (le_continuation _) (continuation_le _),
      toNat_continuation, toNat_continuation, toNat_continuation, hcode, hchar]
    rfl

/-- The bytes of some characters. -/
def ofChars (cs : List Char) : Text := cs.flatMap String.utf8EncodeChar

theorem ofChars_toList (s : String) : ofChars s.toList = s := by
  rw [ofChars, ofString, String.toUTF8, ← String.utf8Encode_toList, List.utf8Encode]
  simp

@[simp] theorem glyphs_ofChars (cs : List Char) : (ofChars cs).glyphs = cs.map Glyph.ofChar := by
  induction cs with
  | nil => rfl
  | cons c cs ih =>
      rw [ofChars, List.flatMap_cons, glyphs_encode_append]
      exact congrArg _ ih

end Text

end PseudoCost
