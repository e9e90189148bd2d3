import PseudoCost.Token.Lexer
import PseudoCost.Proofs.Composing

/-!
# Folded letters

What the tables say of letters, as far as a folded word depends on it. Folding is done once and for
all: what a letter folds to, folds to itself and continues a word (`folded_of_mem_fold`), and if the
letter starts a word, so does the first of what it folds to (`start_of_fold`). And the characters
that start a word, the digits and the white space are kept apart by their code points.

A character folds in one of three ways (`fold_cases`), and the two that change it are finite: a
table of letters, and the capitals of a few ranges.
-/

namespace PseudoCost.Letter

open PseudoCost.Composition (Settled)

/-! ## Ranges -/

theorem inRanges_iff {ranges : List (Nat × Nat)} {c : Char} :
    inRanges ranges c = true ↔ ∃ r ∈ ranges, r.1 ≤ c.toNat ∧ c.toNat ≤ r.2 := by
  simp [inRanges]

/-- No code point lies in two lists of ranges that are apart. -/
theorem inRanges_of_apart {ranges others : List (Nat × Nat)} {c : Char}
    (hapart : ∀ r ∈ ranges, ∀ s ∈ others, r.2 < s.1 ∨ s.2 < r.1) (hc : inRanges ranges c = true) :
    inRanges others c = false := by
  rw [Bool.eq_false_iff]
  intro hother
  obtain ⟨r, hr, hlow, hhigh⟩ := inRanges_iff.mp hc
  obtain ⟨s, hs, hlow', hhigh'⟩ := inRanges_iff.mp hother
  rcases hapart r hr s hs with h | h <;> omega

/-- The letters and the underscore. -/
def wordStarts : List (Nat × Nat) := (0x5F, 0x5F) :: startRanges

/-- White space with the newline, and the sign of a comment. -/
def gapStarts : List (Nat × Nat) := (0x25BA, 0x25BA) :: blankRanges

theorem isStart_iff {c : Char} : isStart c = true ↔ inRanges wordStarts c = true := by
  have hunderscore : c = '_' ↔ 0x5F ≤ c.toNat ∧ c.toNat ≤ 0x5F := by
    refine ⟨fun h => h ▸ by decide, fun h => Char.toNat_inj.mp ?_⟩
    exact Nat.le_antisymm h.2 h.1
  rw [isStart, Bool.or_eq_true, beq_iff_eq, hunderscore, inRanges_iff, inRanges_iff, wordStarts]
  simp

theorem of_not_gapStarts {c : Char} (hc : inRanges gapStarts c = false) :
    c ≠ '\n' ∧ isBlank c = false ∧ c ≠ Token.commentSign := by
  have hblank : isBlank c = false := by
    rw [inRanges, gapStarts, List.any_cons, Bool.or_eq_false_iff] at hc
    exact hc.2
  refine ⟨?_, hblank, ?_⟩ <;> rintro rfl <;> exact absurd hc (by decide)

theorem of_isStart {c : Char} (hc : isStart c = true) :
    c ≠ '\n' ∧ isBlank c = false ∧ c ≠ Token.commentSign :=
  of_not_gapStarts (inRanges_of_apart (by decide) (isStart_iff.mp hc))

theorem of_isDigit {c : Char} (hc : c.isDigit = true) :
    (c ≠ '\n' ∧ isBlank c = false ∧ c ≠ Token.commentSign) ∧ isStart c = false := by
  have hdigits : inRanges [(0x30, 0x39)] c = true := by
    simpa [Char.isDigit, inRanges, UInt32.le_iff_toNat_le] using hc
  refine ⟨of_not_gapStarts (inRanges_of_apart (by decide) hdigits), ?_⟩
  rw [Bool.eq_false_iff, ne_eq, isStart_iff, inRanges_of_apart (by decide) hdigits]
  exact Bool.false_ne_true

/-! ## Folding -/

theorem fold_cases (c : Char) :
    (c, fold c) ∈ specialFolds
      ∨ inRanges capitalRanges c = true ∧ fold c = [Char.ofNat (c.toNat + 32)] ∨ fold c = [c] := by
  rw [fold]
  split
  next folded hlookup => exact .inl (Token.mem_of_lookup hlookup)
  next =>
    split
    next hcapital => exact .inr (.inl ⟨hcapital, rfl⟩)
    next => exact .inr (.inr rfl)

/-- A letter as folding leaves it. -/
def Folded (c : Char) : Prop := fold c = [c] ∧ isPart c = true ∧ Settled c

instance (c : Char) : Decidable (Folded c) := inferInstanceAs (Decidable (_ ∧ _ ∧ _))

theorem folded_of_special {entry : Char × List Char} (hentry : entry ∈ specialFolds) :
    ∀ d ∈ entry.2, Folded d := by
  have hall : ∀ entry ∈ specialFolds, (entry.2.all fun d => Folded d) = true := by decide +kernel
  exact fun d hd => of_decide_eq_true (List.all_eq_true.mp (hall entry hentry) d hd)

theorem folded_of_capital : ∀ r ∈ capitalRanges, ∀ n < r.2 + 1, r.1 ≤ n →
    Folded (Char.ofNat (n + 32)) ∧ isStart (Char.ofNat (n + 32)) = true := by decide +kernel

theorem start_of_special : ∀ entry ∈ specialFolds, entry.2.head?.any isStart = true := by decide

theorem of_capital {c : Char} (hc : inRanges capitalRanges c = true) :
    Folded (Char.ofNat (c.toNat + 32)) ∧ isStart (Char.ofNat (c.toNat + 32)) = true := by
  obtain ⟨r, hr, hlow, hhigh⟩ := inRanges_iff.mp hc
  exact folded_of_capital r hr _ (Nat.lt_succ_of_le hhigh) hlow

/-- Letters are folded once and for all. -/
theorem folded_of_mem_fold {c d : Char} (hpart : isPart c = true) (hsettled : Settled c)
    (hd : d ∈ fold c) : Folded d := by
  rcases fold_cases c with h | ⟨hcapital, h⟩ | h
  · exact folded_of_special h d hd
  · rw [h, List.mem_singleton] at hd
    exact hd ▸ (of_capital hcapital).1
  · have heq : d = c := by rwa [h, List.mem_singleton] at hd
    exact heq ▸ ⟨h, hpart, hsettled⟩

theorem start_of_fold {c : Char} (hc : isStart c = true) : (fold c).head?.any isStart = true := by
  rcases fold_cases c with h | ⟨hcapital, h⟩ | h
  · exact start_of_special _ h
  · rw [h]
    exact (of_capital hcapital).2
  · rw [h]
    exact hc

end PseudoCost.Letter
