import PseudoCost.Proofs.Tiling
import PseudoCost.Proofs.Utf8

/-!
# Composing texts

Composition works on characters: a valid text is composed as the list of its characters is
(`Text.composed_ofChars`). A character that is neither base nor mark of a pair separates what
stands before it from what stands after it, and a newline is one; where no character is a mark, no
two of them compose.
-/

namespace PseudoCost

/-! ## Texts and characters -/

namespace Text

theorem ofChars_append (cs ds : List Char) : ofChars (cs ++ ds) = ofChars cs ++ ofChars ds :=
  List.flatMap_append

theorem ofChars_newline (cs ds : List Char) :
    ofChars (cs ++ '\n' :: ds) = ofChars cs ++ newline :: ofChars ds :=
  ofChars_append cs ('\n' :: ds)

/-- A newline is the only character with a newline byte. -/
theorem count_newline_ofChars (cs : List Char) : (ofChars cs).count newline = cs.count '\n' := by
  induction cs with
  | nil => rfl
  | cons c cs ih =>
      have hproper : (Glyph.ofChar c).Proper := by
        refine proper_of_mem_glyphs (t := ofChars [c]) ?_
        rw [glyphs_ofChars]
        exact List.mem_singleton_self _
      rw [ofChars, List.flatMap_cons, List.count_append, List.count_cons]
      rw [ofChars] at ih
      rcases hproper.newline with ⟨hc, hbytes⟩ | ⟨hc, hbytes⟩
      · have heq : (c == '\n') = true := hc
        have hencode : String.utf8EncodeChar c = [newline] := hbytes
        rw [hencode, ih, if_pos heq]
        simp [Nat.add_comm]
      · have hne : (c == '\n') = false := hc
        have hnone : (String.utf8EncodeChar c).count newline = 0 :=
          List.count_eq_zero_of_not_mem hbytes
        rw [hnone, ih, if_neg (by simp [hne]), Nat.zero_add, Nat.add_zero]

theorem composed_ofChars (cs : List Char) :
    (ofChars cs).composed = ofChars (Composition.ofChars cs) := by
  have hchars : (cs.map Glyph.ofChar).mapM Glyph.char? = some cs := by
    induction cs with
    | nil => rfl
    | cons c cs ih =>
        rw [List.map_cons, List.mapM_cons, ih]
        rfl
  rw [composed, glyphs_ofChars, hchars]
  rfl

end Text

/-! ## Pairs -/

namespace Composition

theorem mem_of_pair? {base mark c : Char} (h : pair? base mark = some c) :
    ∃ bases results, marks.lookup mark.toNat = some (bases, results)
      ∧ (base, c) ∈ bases.toList.zip results.toList := by
  rw [pair?] at h
  split at h
  next bases results hlookup =>
    exact ⟨bases, results, hlookup, Token.mem_of_lookup h⟩
  next => cases h

theorem ne_newline_of_pair? {base mark c : Char} (h : pair? base mark = some c) :
    base ≠ '\n' ∧ mark ≠ '\n' ∧ c ≠ '\n' := by
  obtain ⟨bases, results, hlookup, hmem⟩ := mem_of_pair? h
  have hentries : ∀ entry ∈ marks, ∀ p ∈ entry.2.1.toList.zip entry.2.2.toList,
      p.1 ≠ '\n' ∧ p.2 ≠ '\n' := by decide +kernel
  have hpair := hentries _ (Token.mem_of_lookup hlookup) _ hmem
  refine ⟨hpair.1, ?_, hpair.2⟩
  rintro rfl
  have hnone : marks.lookup '\n'.toNat = none := by decide
  rw [hnone] at hlookup
  cases hlookup

/-- A newline separates what is composed before it from what is composed after it. -/
theorem compose_newline (cs ds : List Char) :
    compose (cs ++ '\n' :: ds) = compose cs ++ '\n' :: compose ds := by
  have hafter : compose ('\n' :: ds) = '\n' :: compose ds := by
    cases ds with
    | nil => rfl
    | cons d ds =>
        have hnone : pair? '\n' d = none :=
          Option.eq_none_iff_forall_ne_some.mpr fun c h => (ne_newline_of_pair? h).1 rfl
        rw [compose, hnone]
  induction cs using compose.induct with
  | case1 base mark rest c hpair ih =>
      rw [List.cons_append, List.cons_append, compose, compose, hpair, ih]
      rfl
  | case2 base mark rest hpair ih =>
      rw [List.cons_append, List.cons_append, compose, compose, hpair]
      exact congrArg _ ih
  | case3 short hshort =>
      rcases short with _ | ⟨b, _ | ⟨d, rest⟩⟩
      · exact hafter
      · have hnone : pair? b '\n' = none :=
          Option.eq_none_iff_forall_ne_some.mpr fun c h => (ne_newline_of_pair? h).2.1 rfl
        rw [List.singleton_append, compose, hnone, hafter]
        rfl
      · exact absurd rfl (hshort b d rest)

theorem count_newline_compose (cs : List Char) : (compose cs).count '\n' = cs.count '\n' := by
  induction cs using compose.induct with
  | case1 base mark rest c hpair ih =>
      obtain ⟨hbase, hmark, hc⟩ := ne_newline_of_pair? hpair
      rw [compose, hpair]
      simp [ih, hbase, hmark, hc]
  | case2 base mark rest hpair ih =>
      rw [compose, hpair, List.count_cons, List.count_cons, ih]
  | case3 short hshort => rw [compose]; exact hshort

/-- The character that a symbol is another spelling of. -/
def standsFor (c : Char) : Char := (singletons.lookup c).getD c

theorem standsFor_cases (c : Char) : standsFor c = c ∨ (c, standsFor c) ∈ singletons := by
  rw [standsFor]
  cases hlookup : singletons.lookup c with
  | none => exact .inl rfl
  | some d => exact .inr (Token.mem_of_lookup hlookup)

theorem standsFor_eq_newline_iff (c : Char) : standsFor c = '\n' ↔ c = '\n' := by
  have hne : ∀ entry ∈ singletons, entry.1 ≠ '\n' ∧ entry.2 ≠ '\n' := by decide
  rcases standsFor_cases c with h | h
  · rw [h]
  · exact iff_of_false (hne _ h).2 (hne _ h).1

theorem ofChars_eq (cs : List Char) : ofChars cs = compose (cs.map standsFor) := rfl

theorem ofChars_newline (cs ds : List Char) :
    ofChars (cs ++ '\n' :: ds) = ofChars cs ++ '\n' :: ofChars ds := by
  rw [ofChars_eq, List.map_append]
  exact compose_newline _ _

theorem count_newline_ofChars (cs : List Char) : (ofChars cs).count '\n' = cs.count '\n' := by
  rw [ofChars_eq, count_newline_compose, List.count_eq_countP, List.count_eq_countP,
    List.countP_map]
  refine List.countP_congr fun c _ => ?_
  simpa using standsFor_eq_newline_iff c

/-! ## Texts without marks -/

/-- Whether a character composes with the one before it. -/
def isMark (c : Char) : Bool := (marks.lookup c.toNat).isSome

/-- The character is not a mark and stands for itself, so that composing leaves it as it is. -/
def Settled (c : Char) : Prop := isMark c = false ∧ standsFor c = c

instance (c : Char) : Decidable (Settled c) := inferInstanceAs (Decidable (_ ∧ _))

theorem settled_standsFor {c : Char} (hc : isMark c = false) : Settled (standsFor c) := by
  have hsettled : ∀ entry ∈ singletons, Settled entry.2 := by decide
  rcases standsFor_cases c with h | h
  · exact ⟨h.symm ▸ hc, by rw [h, h]⟩
  · exact hsettled _ h

theorem compose_of_isMark {cs : List Char} (hcs : ∀ c ∈ cs, isMark c = false) :
    compose cs = cs := by
  induction cs using compose.induct with
  | case1 base mark rest c hpair ih =>
      obtain ⟨bases, results, hlookup, -⟩ := mem_of_pair? hpair
      have hmark : isMark mark = true := by rw [isMark, hlookup]; rfl
      exact absurd hmark (by simp [hcs mark (by simp)])
  | case2 base mark rest hpair ih =>
      rw [compose, hpair]
      exact congrArg _ (ih fun c hc => hcs c (List.mem_cons_of_mem _ hc))
  | case3 short hshort => rw [compose]; exact hshort

theorem ofChars_of_isMark {cs : List Char} (hcs : ∀ c ∈ cs, isMark c = false) :
    ofChars cs = cs.map standsFor := by
  rw [ofChars_eq]
  refine compose_of_isMark fun c hc => ?_
  obtain ⟨d, hd, rfl⟩ := List.mem_map.mp hc
  exact (settled_standsFor (hcs d hd)).1

theorem ofChars_of_settled {cs : List Char} (hcs : ∀ c ∈ cs, Settled c) : ofChars cs = cs := by
  rw [ofChars_of_isMark fun c hc => (hcs c hc).1]
  exact (List.map_congr_left fun c hc => (hcs c hc).2).trans (List.map_id cs)

end Composition

end PseudoCost
