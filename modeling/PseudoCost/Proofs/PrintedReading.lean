import PseudoCost.Proofs.Concatenation
import PseudoCost.Proofs.PhraseParts
import PseudoCost.Proofs.PrintedTokens

/-!
# Reading printed expressions back

The printer puts parentheses around an operand if the operand's operator binds more loosely, by a
table of its own. This is not always what the grammar needs. `Expr.isFaithful` says that it is:
where the printer leaves an operand without parentheses, the operand is on the level the grammar
asks for there. Apart from this, a number has to be printed with all of its digits, as whole numbers
below ten to the fifteenth are (`Exact.isPlain_whole`), and `swap` is not a name where an expression
may stand.

The text of a faithful expression is read back as the same expression, and the text of any other is
not (`Expr.roundTrips_iff`). For the second part it has to be shown that the tokens of the printed
text, taken as a phrase for the expression, fall apart in the only way the printer put them
together. Tokens are weighed for that: parentheses weigh nothing, and all phrases for an expression
have the same weight (`Phrase.measured`). So an operator that has the weight of its left operand in
front of it is the operator in question.
-/

namespace PseudoCost

/-! ## Faithful expressions -/

/-- Whether a number is printed without an exponent and with all digits that count. -/
def Exact.isPlain (value : Exact) : Bool :=
  Text.byte 'e' ∉ value.literalText ∧ Numeral.read value.literalText = .ok value

theorem Exact.isPlain_whole {n : Nat} (h : n < 10 ^ 15) :
    (Exact.finite false n 1).isPlain = true := by
  rw [isPlain, literalText_whole h, decide_eq_true_eq]
  exact ⟨not_mem_of_decimal (.whole (Text.digits_ofNat n)), Numeral.read_ofNat h⟩

namespace Expr

/-- Whether an expression may stand where the grammar asks for a level: it does in parentheses. -/
def fits (level : Nat) (wrapped : Bool) (e : Expr) : Bool := wrapped || level ≤ e.tightness

mutual

/-- Whether the printed text says what the expression is. -/
def isFaithful : Expr → Bool
  | .number _ value => value.isPlain
  | .string .. | .bool .. | .null _ | .name .. => true
  | .call _ callee _ args => callee ≠ "swap" && areFaithful args
  | .index _ base subscript => base.fits 9 false && base.isFaithful && subscript.isFaithful
  | .field _ base _ => base.fits 9 false && base.isFaithful
  | .range _ low high =>
    low.fits 1 false && low.isFaithful && (high.fits 1 false && high.isFaithful)
  | .binary _ op lhs rhs =>
    lhs.fits op.leftLevel (lhs.isLooser op.precedence false) && lhs.isFaithful
      && (rhs.fits op.rightLevel (rhs.isLooser op.precedence true) && rhs.isFaithful)
  | .unary _ op operand =>
    (op.isRounding || operand.fits 7 (operand.applies fun _ => true)) && operand.isFaithful

def areFaithful : List Expr → Bool
  | [] => true
  | e :: es => e.isFaithful && areFaithful es

end

/-! ## Faithful texts are phrases -/

/-- The only word read as a keyword is the keyword itself. -/
theorem mem_keywords {text : Text} {k : Token.Kind} (hk : k ≠ .ident)
    (h : Token.Kind.ofWord text = k) : (text, k) ∈ Token.keywords := by
  rw [Token.Kind.ofWord] at h
  cases hlookup : Token.keywords.lookup text with
  | none => rw [hlookup] at h; exact absurd h.symm hk
  | some found =>
      rw [hlookup] at h
      cases h
      exact Token.mem_of_lookup hlookup

theorem eq_length {text : Text} (h : Token.Kind.ofWord text = .lengthWord) : text = "length" := by
  have hall : ∀ e ∈ Token.keywords, e.2 = .lengthWord → e.1 = "length" := by decide
  exact hall _ (mem_keywords (by decide) h) rfl

theorem eq_swap {text : Text} (h : Token.Kind.ofWord text = .swapWord) : text = "swap" := by
  have hall : ∀ e ∈ Token.keywords, e.2 = .swapWord → e.1 = "swap" := by decide
  exact hall _ (mem_keywords (by decide) h) rfl

theorem ItemsFor.exists_arguments {ts : List Token} {es : List Expr} {o c : Token}
    (h : ItemsFor ts es) (ho : o.kind = .lparen) (hc : c.kind = .rparen) :
    ∃ es', Arguments (o :: (ts ++ [c])) es' ∧ unmarkedList es' = unmarkedList es := by
  obtain ⟨es', hitems | ⟨rfl, rfl⟩, heq⟩ := h
  · exact ⟨es', .some ho hitems hc, heq⟩
  · exact ⟨[], .none ho hc, heq⟩

mutual

theorem Printed.phraseFor : ∀ {ts : List Token} {e : Expr}, Printed ts e → e.isFaithful = true →
    PhraseFor e.tightness ts e
  | _, _, @Printed.decimal t _ value _ hkind htext, h => by
      simp only [isFaithful, Exact.isPlain, decide_eq_true_eq] at h
      exact ⟨_, .number hkind (htext ▸ h.2), rfl⟩
  | _, _, .scientific hmem _ _ _ _, h => by
      simp only [isFaithful, Exact.isPlain, decide_eq_true_eq] at h
      exact absurd hmem h.1
  | _, _, .string ht, _ => ⟨_, .string ht, rfl⟩
  | _, _, .trueWord ht, _ => ⟨_, .trueWord ht, rfl⟩
  | _, _, .falseWord ht, _ => ⟨_, .falseWord ht, rfl⟩
  | _, _, .null ht, _ => ⟨_, .null ht, rfl⟩
  | _, _, .name ht, _ => ⟨_, .name ht, rfl⟩
  | _, _, @Printed.call us t o c _ _ args hword hkind ho hitems hc, h => by
      simp only [isFaithful, Bool.and_eq_true, decide_eq_true_eq] at h
      obtain ⟨args', hargs, heq⟩ := (hitems.itemsFor h.2).exists_arguments ho hc
      simp only [List.mem_cons, List.not_mem_nil, or_false] at hkind
      rcases hkind with ht | ht | ht
      · exact ⟨_, .call ht hargs, by rw [unmarked, unmarked, heq]⟩
      · have hname := eq_length (hword.symm.trans ht)
        exact ⟨_, .length ht hargs, by rw [unmarked, unmarked, heq, hname]⟩
      · exact absurd (eq_swap (hword.symm.trans ht)) h.1
  | _, _, .index hbase ho hsubscript hc, h => by
      simp only [isFaithful, fits, Bool.false_or, Bool.and_eq_true, decide_eq_true_eq] at h
      obtain ⟨base, hbase, heq⟩ := (hbase.phraseFor h.1.2).mono h.1.1
      obtain ⟨subscript, hsubscript, heq'⟩ := (hsubscript.phraseFor h.2).mono (Nat.zero_le _)
      exact ⟨_, .index hbase ho (.last hsubscript) hc, by simp [unmarked, heq, heq']⟩
  | _, _, .field hbase ht hf, h => by
      simp only [isFaithful, fits, Bool.false_or, Bool.and_eq_true, decide_eq_true_eq] at h
      obtain ⟨base, hbase, heq⟩ := (hbase.phraseFor h.2).mono h.1
      exact ⟨_, .field hbase ht hf, by rw [unmarked, unmarked, heq]⟩
  | _, _, .range hlow ht hhigh, h => by
      simp only [isFaithful, fits, Bool.false_or, Bool.and_eq_true, decide_eq_true_eq] at h
      obtain ⟨low, hlow, heq⟩ := (hlow.phraseFor h.1.2).mono h.1.1
      obtain ⟨high, hhigh, heq'⟩ := (hhigh.phraseFor h.2.2).mono h.2.1
      exact ⟨_, .range hlow ht hhigh, by rw [unmarked, unmarked, heq, heq']⟩
  | _, _, @Printed.binary us vs t _ op lhs rhs hlhs ht hrhs, h => by
      simp only [isFaithful, Bool.and_eq_true] at h
      have hleft : op.leftLevel ≤ 10 := by cases op <;> decide
      have hright : op.rightLevel ≤ 10 := by cases op <;> decide
      obtain ⟨lhs', hlhs, heq⟩ := hlhs.phraseFor h.1.2 h.1.1 hleft
      obtain ⟨rhs', hrhs, heq'⟩ := hrhs.phraseFor h.2.2 h.2.1 hright
      refine ⟨.binary t.pos op lhs' rhs', ?_, by rw [unmarked, unmarked, heq, heq']⟩
      by_cases hop : op = .pow
      · subst hop
        exact .power hlhs ht hrhs
      · rw [BinaryOp.leftLevel, if_neg hop] at hlhs
        rw [BinaryOp.rightLevel, if_neg hop] at hrhs
        exact .binary hop hlhs ht hrhs
  | _, _, @Printed.sign us t _ op operand ht hoperand, h => by
      have hop : op.isRounding = false := by
        revert ht
        cases t.kind <;> rintro ⟨⟩ <;> rfl
      simp only [isFaithful, hop, Bool.false_or, Bool.and_eq_true] at h
      obtain ⟨operand', hoperand, heq⟩ := hoperand.phraseFor h.2 h.1 (by decide)
      rw [tightness, if_neg (by simp [hop])]
      exact ⟨_, .sign ht hoperand, by rw [unmarked, unmarked, heq]⟩
  | _, _, .ceil ho hoperand hc, h => by
      simp only [isFaithful, UnaryOp.isRounding, Bool.true_or, Bool.true_and] at h
      obtain ⟨operand, hoperand, heq⟩ := (hoperand.phraseFor h).mono (Nat.zero_le _)
      exact ⟨_, .ceil ho hoperand hc, by rw [unmarked, unmarked, heq]⟩
  | _, _, .floor ho hoperand hc, h => by
      simp only [isFaithful, UnaryOp.isRounding, Bool.true_or, Bool.true_and] at h
      obtain ⟨operand, hoperand, heq⟩ := (hoperand.phraseFor h).mono (Nat.zero_le _)
      exact ⟨_, .floor ho hoperand hc, by rw [unmarked, unmarked, heq]⟩

theorem PrintedOperand.phraseFor : ∀ {wrapped : Bool} {ts : List Token} {e : Expr} {k : Nat},
    PrintedOperand wrapped ts e → e.isFaithful = true → e.fits k wrapped = true → k ≤ 10 →
    PhraseFor k ts e
  | _, _, _, _, .bare he, h, hfits, _ => by
      simp only [fits, Bool.false_or, decide_eq_true_eq] at hfits
      exact (he.phraseFor h).mono hfits
  | _, _, _, _, .wrapped ho he hc, h, _, hk => by
      obtain ⟨e', he, heq⟩ := (he.phraseFor h).mono (Nat.zero_le _)
      exact ⟨e', (Phrase.parens ho he hc).mono hk, heq⟩

theorem PrintedItems.itemsFor : ∀ {ts : List Token} {es : List Expr}, PrintedItems ts es →
    areFaithful es = true → ItemsFor ts es
  | _, _, .none, _ => ⟨[], .inr ⟨rfl, rfl⟩, rfl⟩
  | _, _, .last he, h => by
      rw [areFaithful, Bool.and_eq_true] at h
      obtain ⟨e', he, heq⟩ := (he.phraseFor h.1).mono (Nat.zero_le _)
      exact ⟨[e'], .inl (.last he), by rw [unmarkedList, heq]; rfl⟩
  | _, _, .cons he ht hes, h => by
      rw [areFaithful, Bool.and_eq_true] at h
      obtain ⟨e', he, heq⟩ := (he.phraseFor h.1).mono (Nat.zero_le _)
      obtain ⟨es', hes | ⟨-, rfl⟩, heq'⟩ := hes.itemsFor h.2
      · exact ⟨e' :: es', .inl (.cons he ht hes), by rw [unmarkedList, heq, heq']; rfl⟩
      · cases heq'

end

/-! ## Other texts are not -/

open Token (weight depth Around Split split_unique strip_unique)

mutual

/-- Printed tokens weigh no less than the expression, more where a number falls apart. -/
theorem Printed.measured : ∀ {ts : List Token} {e : Expr}, Printed ts e →
    e.extent ≤ weight ts ∧ depth ts = 0
  | _, _, .decimal _ ht _ | _, _, .string ht | _, _, .trueWord ht | _, _, .falseWord ht
  | _, _, .null ht | _, _, .name ht => by
      simp [extent, ht, Token.Kind.weight, Token.Kind.depth]
  | _, _, .scientific _ ht he hsign hu => by
      rcases hsign with hs | hs <;>
        simp [extent, ht, he, hs, hu, Token.Kind.weight, Token.Kind.depth]
  | _, _, .call _ ht ho hitems hc => by
      have hi := hitems.measured
      simp only [List.mem_cons, List.not_mem_nil, or_false] at ht
      rcases ht with ht | ht | ht <;>
        simp [extent, ht, ho, hc, Token.Kind.weight, Token.Kind.depth, hi]
  | _, _, .index hbase ho hsub hc => by
      have hb := hbase.measured
      have hs := hsub.measured
      simp [extent, ho, hc, Token.Kind.weight, Token.Kind.depth, hb, hs]
      omega
  | _, _, .field hbase ht hf => by
      have hb := hbase.measured
      rcases hf with hf | hf <;>
        simp [extent, ht, hf, Token.Kind.weight, Token.Kind.depth, hb]
  | _, _, .range hlow ht hhigh => by
      have hl := hlow.measured
      have hh := hhigh.measured
      simp [extent, ht, Token.Kind.weight, Token.Kind.depth, hl, hh]
      omega
  | _, _, .binary hlhs ht hrhs => by
      have hl := hlhs.measured
      have hr := hrhs.measured
      simp [extent, ht, weight_mark, hl, hr]
      omega
  | _, _, .sign ht hoperand => by
      have ho := hoperand.measured
      simp [extent, weight_signOp ht, ho]
  | _, _, .ceil ho h hc | _, _, .floor ho h hc => by
      have he := h.measured
      simp [extent, ho, hc, Token.Kind.weight, Token.Kind.depth, he]

theorem PrintedOperand.measured : ∀ {wrapped : Bool} {ts : List Token} {e : Expr},
    PrintedOperand wrapped ts e → e.extent ≤ weight ts ∧ depth ts = 0
  | _, _, _, .bare h => h.measured
  | _, _, _, .wrapped ho h hc => by
      have he := h.measured
      simp [ho, hc, Token.Kind.weight, Token.Kind.depth, he]

theorem PrintedItems.measured : ∀ {ts : List Token} {es : List Expr}, PrintedItems ts es →
    extentOf es ≤ weight ts ∧ depth ts = 0
  | _, _, .none => ⟨le_refl _, rfl⟩
  | _, _, .last h => h.measured
  | _, _, .cons hd ht hes => by
      have hd := hd.measured
      have he := hes.measured
      simp [extentOf, ht, Token.Kind.weight, Token.Kind.depth, hd, he]
      omega

end

/-- Where no number falls apart, the token that makes the expression is found by its weight. -/
theorem Printed.split : ∀ {ts : List Token} {e : Expr}, Printed ts e → weight ts = e.extent →
    Split e.lead ts
  | _, _, .decimal _ ht _, _ | _, _, .string ht, _ | _, _, .trueWord ht, _
  | _, _, .falseWord ht, _ | _, _, .null ht, _ | _, _, .name ht, _ =>
      ⟨[], _, [], rfl, rfl, rfl, by rw [ht]; decide⟩
  | _, _, .scientific _ ht _ _ _, _ => ⟨[], _, _, rfl, rfl, rfl, by rw [ht]; decide⟩
  | _, _, .call _ ht _ _ _, _ => by
      refine ⟨[], _, _, rfl, rfl, rfl, ?_⟩
      simp only [List.mem_cons, List.not_mem_nil, or_false] at ht
      rcases ht with ht | ht | ht <;> rw [ht] <;> decide
  | _, _, @Printed.index us vs o c _ base subscript hbase ho hsub hc, h => by
      have hb := hbase.measured
      have hs := hsub.measured
      refine ⟨us, o, vs ++ [c], rfl, ?_, hb.2, by rw [ho]; decide⟩
      simp [extent, ho, hc, Token.Kind.weight] at h
      rw [lead]
      omega
  | _, _, @Printed.field us t f _ base hbase ht hf, h => by
      have hb := hbase.measured
      refine ⟨us, t, [f], rfl, ?_, hb.2, by rw [ht]; decide⟩
      rcases hf with hf | hf <;> simpa [extent, lead, ht, hf, Token.Kind.weight] using h
  | _, _, @Printed.range us vs t _ low high hlow ht hhigh, h => by
      have hl := hlow.measured
      have hh := hhigh.measured
      refine ⟨us, t, vs, rfl, ?_, hl.2, by rw [ht]; decide⟩
      simp [extent, ht, Token.Kind.weight] at h
      rw [lead]
      omega
  | _, _, @Printed.binary us vs t _ op lhs rhs hlhs ht hrhs, h => by
      have hl := hlhs.measured
      have hr := hrhs.measured
      refine ⟨us, t, vs, rfl, ?_, hl.2, by simp [ht, weight_mark]⟩
      simp [extent, ht, weight_mark] at h
      rw [lead]
      omega
  | _, _, .sign ht _, _ => ⟨[], _, _, rfl, rfl, rfl, by simp [weight_signOp ht]⟩
  | _, _, .ceil ho _ _, _ | _, _, .floor ho _ _, _ =>
      ⟨[], _, _, rfl, rfl, rfl, by rw [ho]; decide⟩

/-- Printed tokens in parentheses, taken as a phrase for the expression, are those of a made phrase
in the same parentheses. -/
theorem Printed.madeFor {os ts cs : List Token} {e : Expr} {k : Nat} (hprinted : Printed ts e)
    (haround : Around os cs) (h : PhraseFor k (os ++ (ts ++ cs)) e) :
    MadeFor ts e ∧ weight ts = e.extent ∧ (os = [] → k ≤ e.tightness) := by
  have hts : weight ts = e.extent := by rw [← h.weight_eq, haround.weight_eq]
  obtain ⟨os', us, cs', htokens, haround', hmade, hlevel⟩ := h.exists_made
  have hus : weight us = e.extent := by rw [← h.weight_eq, htokens, haround'.weight_eq]
  obtain ⟨rfl, rfl, rfl⟩ :=
    strip_unique haround haround' (hprinted.split hts) (hmade.split hus) htokens
  exact ⟨hmade, hts, hlevel⟩

/-- The same with no parentheses around them. -/
theorem Printed.madeFor_bare {ts : List Token} {e : Expr} {k : Nat} (hprinted : Printed ts e)
    (h : PhraseFor k ts e) : MadeFor ts e ∧ weight ts = e.extent ∧ e.fits k false = true := by
  have hbare : PhraseFor k ([] ++ (ts ++ [])) e := by simpa using h
  obtain ⟨hmade, hweight, hlevel⟩ := hprinted.madeFor .none hbare
  exact ⟨hmade, hweight, by simpa [fits] using hlevel rfl⟩

mutual

/-- Only a faithful text is a phrase for its expression. -/
theorem Printed.isFaithful : ∀ {ts : List Token} {e : Expr}, Printed ts e → MadeFor ts e →
    weight ts = e.extent → e.isFaithful = true
  | _, _, .decimal hdecimal _ htext, hmade, _ => by
      rw [Expr.isFaithful, Exact.isPlain, decide_eq_true_eq]
      exact ⟨Exact.not_mem_of_decimal hdecimal, htext ▸ hmade.number_parts⟩
  | _, _, .scientific _ ht he hsign hu, _, h => by
      rcases hsign with hs | hs <;> simp [extent, ht, he, hs, hu, Token.Kind.weight] at h
  | _, _, .string _, _, _ | _, _, .trueWord _, _, _ | _, _, .falseWord _, _, _
  | _, _, .null _, _, _ | _, _, .name _, _, _ => rfl
  | _, _, @Printed.call us t o c _ _ args hword ht _ hitems _, hmade, _ => by
      obtain ⟨hname, hargs⟩ := hmade.call_parts (by rintro hcall; rw [hcall] at ht; simp at ht)
      have hswap : t.text ≠ "swap" := by
        intro htext
        have hkind : t.kind = .swapWord := by rw [hword, htext]; decide
        rcases hname with hname | hname <;> rw [hkind] at hname <;> cases hname
      rw [Expr.isFaithful, hitems.areFaithful hargs, Bool.and_true, decide_eq_true_eq]
      exact hswap
  | _, _, @Printed.index us vs o c _ base subscript hbase ho hsub hc, hmade, h => by
      have hb := hbase.measured.1
      have hs := hsub.measured.1
      simp [extent, ho, hc, Token.Kind.weight] at h
      obtain ⟨hbase', hsub'⟩ := hmade.index_parts ho hc (by omega)
      obtain ⟨hmadeb, hweightb, hfits⟩ := hbase.madeFor_bare hbase'
      obtain ⟨hmades, hweights, -⟩ := hsub.madeFor_bare hsub'
      rw [Expr.isFaithful, hfits, hbase.isFaithful hmadeb hweightb, hsub.isFaithful hmades hweights]
      rfl
  | _, _, .field hbase _ _, hmade, _ => by
      obtain ⟨hmade, hweight, hfits⟩ := hbase.madeFor_bare hmade.field_parts
      rw [Expr.isFaithful, hfits, hbase.isFaithful hmade hweight]
      rfl
  | _, _, @Printed.range us vs t _ low high hlow ht hhigh, hmade, h => by
      have hl := hlow.measured.1
      have hh := hhigh.measured.1
      simp [extent, ht, Token.Kind.weight] at h
      obtain ⟨hlow', hhigh'⟩ := hmade.range_parts (by rw [ht]; decide) (by omega)
      obtain ⟨hmadel, hweightl, hfits⟩ := hlow.madeFor_bare hlow'
      obtain ⟨hmadeh, hweighth, hfits'⟩ := hhigh.madeFor_bare hhigh'
      rw [Expr.isFaithful, hfits, hfits', hlow.isFaithful hmadel hweightl,
        hhigh.isFaithful hmadeh hweighth]
      rfl
  | _, _, @Printed.binary us vs t _ op lhs rhs hlhs ht hrhs, hmade, h => by
      have hl := hlhs.measured.1
      have hr := hrhs.measured.1
      simp [extent, ht, weight_mark] at h
      obtain ⟨hlhs', hrhs'⟩ := hmade.binary_parts (by simp [ht, weight_mark]) (by omega)
      obtain ⟨hfits, hfaithful⟩ := hlhs.isFaithful hlhs'
      obtain ⟨hfits', hfaithful'⟩ := hrhs.isFaithful hrhs'
      rw [Expr.isFaithful, hfits, hfits', hfaithful, hfaithful']
      rfl
  | _, _, .sign ht hoperand, hmade, _ => by
      have hop := (weight_signOp ht).2.2
      obtain ⟨hfits, hfaithful⟩ := hoperand.isFaithful (hmade.sign_parts hop)
      rw [Expr.isFaithful, hfits, hfaithful, Bool.or_true]
      rfl
  | _, _, .ceil _ hoperand _, hmade, _ | _, _, .floor _ hoperand _, hmade, _ => by
      obtain ⟨hmade, hweight, -⟩ := hoperand.madeFor_bare (hmade.rounded_parts rfl)
      rw [Expr.isFaithful, hoperand.isFaithful hmade hweight]
      rfl

theorem PrintedOperand.isFaithful : ∀ {wrapped : Bool} {ts : List Token} {e : Expr} {k : Nat},
    PrintedOperand wrapped ts e → PhraseFor k ts e →
    e.fits k wrapped = true ∧ e.isFaithful = true
  | _, _, _, _, .bare he, h => by
      obtain ⟨hmade, hweight, hfits⟩ := he.madeFor_bare h
      exact ⟨hfits, he.isFaithful hmade hweight⟩
  | _, _, _, _, @PrintedOperand.wrapped us o c _ ho he hc, h => by
      have haround : Around [o] [c] :=
        ⟨List.forall_mem_singleton.mpr ho, List.forall_mem_singleton.mpr hc, rfl⟩
      obtain ⟨hmade, hweight, -⟩ := he.madeFor haround h
      exact ⟨rfl, he.isFaithful hmade hweight⟩

theorem PrintedItems.areFaithful : ∀ {ts : List Token} {es : List Expr}, PrintedItems ts es →
    ItemsFor ts es → areFaithful es = true
  | _, _, .none, _ => rfl
  | _, _, .last he, h => by
      obtain ⟨hmade, hweight, -⟩ := he.madeFor_bare h.single_parts
      rw [Expr.areFaithful, he.isFaithful hmade hweight]
      rfl
  | _, _, @PrintedItems.cons us vs t d e es hd ht hes, h => by
      have hdm := hd.measured.1
      have hem := hes.measured.1
      have hweight := h.weight_eq
      simp [extentOf, ht, Token.Kind.weight] at hweight
      obtain ⟨hd', hes'⟩ := h.cons_parts (by rw [ht]; decide) (by omega)
      obtain ⟨hmade, hweightd, -⟩ := hd.madeFor_bare hd'
      rw [Expr.areFaithful, hd.isFaithful hmade hweightd, hes.areFaithful hes']
      rfl

end

/-! ## Texts that are read back -/

/-- The parser reads the expression somewhere in a source without combining marks. -/
def Occurs (e : Expr) : Prop :=
  ∃ cs : List Char, (∀ c ∈ cs, Composition.isMark c = false)
    ∧ ∃ ts us d, Token.scan (Text.ofChars cs) = .ok ts ∧ us <:+ ts
      ∧ read.run (Token.Cursor.ofTokens us) = .ok (e, d)

/-- The text of the expression is cut into tokens, and wherever they stand, in front of what cannot
carry an expression on, they and no others are taken for the expression, up to positions and the
marks of calls. -/
def RoundTrips (e : Expr) : Prop :=
  ∃ ts last, Token.scan e.text = .ok (ts ++ [last]) ∧ last.kind = .eof
    ∧ ∀ rest, Token.Cursor.joint? ⟨rest, last⟩ = none →
      ∃ e', read.run ⟨ts ++ rest, last⟩ = .ok (e', ⟨rest, last⟩) ∧ e'.unmarked = e.unmarked

theorem Occurs.legible {e : Expr} (h : e.Occurs) : e.Legible := by
  obtain ⟨cs, hcs, ts, us, d, hscan, hsuffix, hrun⟩ := h
  obtain ⟨vs, rest, heq, -, hphrase⟩ :=
    (takes_read (Token.Cursor.kind_stop_ofTokens us)).of_run hrun
  have hsub : vs ⊆ ts := fun t ht =>
    hsuffix.subset ((List.takeWhile_sublist _).subset (heq ▸ List.mem_append_left rest ht))
  exact hphrase.legible fun t ht => Token.legible_of_scan hcs hscan t (hsub ht)

/-- **Printed expressions.** The text of an expression is read back if and only if it is
faithful. -/
theorem roundTrips_iff {e : Expr} (h : e.Occurs) : e.RoundTrips ↔ e.isFaithful = true := by
  obtain ⟨ts, last, hscan, hlast, hprinted⟩ := exists_scan_text h.legible
  constructor
  · rintro ⟨us, stop, hscan', hstop, hreads⟩
    obtain ⟨rfl, hlast'⟩ := List.append_inj' (Except.ok.inj (hscan.symm.trans hscan')) rfl
    obtain rfl := List.singleton_inj.mp hlast'
    have hends : Token.Cursor.joint? ⟨[], last⟩ = none := by
      have hkind : Token.Cursor.kind ⟨[], last⟩ = .eof := hlast
      rw [Token.Cursor.joint?, hkind]
    obtain ⟨e', hrun, heq⟩ := hreads [] hends
    obtain ⟨vs, rest, htokens, hend, hphrase⟩ := (takes_read hlast).of_run hrun
    cases hend
    rw [List.append_nil, List.append_nil] at htokens
    obtain ⟨hmade, hweight, -⟩ := hprinted.madeFor_bare ⟨e', htokens ▸ hphrase, heq⟩
    exact hprinted.isFaithful hmade hweight
  · intro hfaithful
    obtain ⟨e', hphrase, heq⟩ := (hprinted.phraseFor hfaithful).mono (Nat.zero_le _)
    exact ⟨ts, last, hscan, hlast, fun rest hrest => ⟨e', hphrase.run_read hlast hrest, heq⟩⟩

/-- The expression `(a ^ b) ^ c`. -/
def tower : Expr :=
  .binary ⟨1, 9⟩ .pow (.binary ⟨1, 4⟩ .pow (.name ⟨1, 2⟩ "a") (.name ⟨1, 6⟩ "b"))
    (.name ⟨1, 11⟩ "c")

/-- The tokens of `(a ^ b) ^ c`. -/
def towerTokens : List Token :=
  [⟨.lparen, "(", "(", ⟨1, 1⟩, 0⟩, ⟨.ident, "a", "a", ⟨1, 2⟩, 1⟩, ⟨.caret, "^", "^", ⟨1, 4⟩, 3⟩,
   ⟨.ident, "b", "b", ⟨1, 6⟩, 5⟩, ⟨.rparen, ")", ")", ⟨1, 7⟩, 6⟩, ⟨.caret, "^", "^", ⟨1, 9⟩, 8⟩,
   ⟨.ident, "c", "c", ⟨1, 11⟩, 10⟩]

theorem tower_occurs : tower.Occurs := by
  have hall : ("(a ^ b) ^ c".toList.all fun c => !Composition.isMark c) = true := by decide
  have hmarks : ∀ c ∈ "(a ^ b) ^ c".toList, Composition.isMark c = false := fun c hc =>
    by simpa using List.all_eq_true.mp hall c hc
  have hscan : Token.scan (Text.ofChars "(a ^ b) ^ c".toList)
      = .ok (towerTokens ++ [⟨.eof, [], [], ⟨1, 12⟩, 11⟩]) := by decide +kernel
  have hname : ∀ {t : Token} (k : Nat), t.kind = .ident → k ≤ 10 →
      Phrase k [t] (.name t.pos t.text) := fun k ht hk => (Phrase.name ht).mono hk
  have hphrase : Phrase 0 towerTokens tower :=
    (Phrase.power ((Phrase.parens rfl ((Phrase.power (hname 9 rfl (by decide)) rfl
      (hname 7 rfl (by decide))).mono (Nat.zero_le _)) rfl).mono (by decide)) rfl
      (hname 7 rfl (by decide))).mono (Nat.zero_le _)
  exact ⟨_, hmarks, _, _, _, hscan, List.suffix_refl _,
    (hphrase.run_read rfl rfl : read.run ⟨towerTokens ++ [], ⟨.eof, [], [], ⟨1, 12⟩, 11⟩⟩ = _)⟩

/-- The base of a power is printed without parentheses if it is a power itself. -/
theorem not_roundTrips_tower : tower.Occurs ∧ tower.text = "a ^ b ^ c" ∧ ¬ tower.RoundTrips :=
  ⟨tower_occurs, by decide, fun h => absurd ((roundTrips_iff tower_occurs).mp h) (by decide)⟩

end Expr

end PseudoCost
