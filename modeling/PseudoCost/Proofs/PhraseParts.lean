import PseudoCost.Proofs.Precedence

/-!
# The parts of a phrase

A phrase is some pairs of parentheses around a phrase that its own construct has made
(`Phrase.exists_made`). What these tokens are made of can be found again from the expression. Tokens
are weighed for that: parentheses, other closing brackets and the word `call` weigh nothing, and
then all phrases for an expression have the same weight, however it is written down
(`Phrase.measured`). So an operator that has the weight of its left operand in front of it is the
operator in question (`split_unique`), and as the operands have their parentheses in pairs, those
that are left belong around the whole (`strip_unique`).
-/

namespace PseudoCost

/-! ## Weights -/

namespace Token

/-- The weight of a token: none for parentheses, other closing brackets and `call`. -/
def Kind.weight : Kind → Nat
  | .lparen | .rparen | .rbracket | .rceil | .rfloor | .callWord => 0
  | _ => 1

/-- What a token does to the number of open parentheses. -/
def Kind.depth : Kind → Int
  | .lparen => 1
  | .rparen => -1
  | _ => 0

def weight (ts : List Token) : Nat := (ts.map fun t => t.kind.weight).sum

def depth (ts : List Token) : Int := (ts.map fun t => t.kind.depth).sum

section Sums

variable (t : Token) (ts us : List Token)

@[simp] theorem weight_nil : weight [] = 0 := rfl

@[simp] theorem weight_cons : weight (t :: ts) = t.kind.weight + weight ts := by simp [weight]

@[simp] theorem weight_append : weight (ts ++ us) = weight ts + weight us := by simp [weight]

@[simp] theorem depth_nil : depth [] = 0 := rfl

@[simp] theorem depth_cons : depth (t :: ts) = t.kind.depth + depth ts := by simp [depth]

@[simp] theorem depth_append : depth (ts ++ us) = depth ts + depth us := by simp [depth]

end Sums

/-- Two ways to take tokens apart at one that weighs something are the same if the weights in front
of it are. -/
theorem split_unique {us us' vs vs' : List Token} {t t' : Token} (ht : 0 < t.kind.weight)
    (ht' : 0 < t'.kind.weight) (hweight : weight us = weight us')
    (h : us ++ t :: vs = us' ++ t' :: vs') : us = us' ∧ t = t' ∧ vs = vs' := by
  rcases List.append_eq_append_iff.mp h with ⟨ws, rfl, hws⟩ | ⟨ws, rfl, hws⟩
  · cases ws with
    | nil =>
        obtain ⟨rfl, rfl⟩ := List.cons.inj hws
        exact ⟨(List.append_nil us).symm, rfl, rfl⟩
    | cons w ws =>
        obtain ⟨rfl, -⟩ := List.cons.inj hws
        simp only [weight_append, weight_cons] at hweight
        omega
  · cases ws with
    | nil =>
        obtain ⟨rfl, rfl⟩ := List.cons.inj hws
        exact ⟨List.append_nil us', rfl, rfl⟩
    | cons w ws =>
        obtain ⟨rfl, -⟩ := List.cons.inj hws
        simp only [weight_append, weight_cons] at hweight
        omega

/-! ## Parentheses around tokens -/

/-- As many closing parentheses as opening ones, to go around tokens. -/
structure Around (os cs : List Token) : Prop where
  opening : ∀ o ∈ os, o.kind = .lparen
  closing : ∀ c ∈ cs, c.kind = .rparen
  length_eq : os.length = cs.length

theorem Around.none : Around [] [] := ⟨nofun, nofun, rfl⟩

theorem weight_opening {os : List Token} (h : ∀ o ∈ os, o.kind = .lparen) :
    weight os = 0 ∧ depth os = os.length := by
  induction os with
  | nil => exact ⟨rfl, rfl⟩
  | cons o os ih =>
      obtain ⟨ho, hos⟩ := List.forall_mem_cons.mp h
      obtain ⟨hweight, hdepth⟩ := ih hos
      rw [weight_cons, depth_cons, ho, hweight, hdepth, List.length_cons]
      exact ⟨rfl, by simp [Kind.depth]; omega⟩

theorem Around.weight_eq {os ts cs : List Token} (h : Around os cs) :
    weight (os ++ (ts ++ cs)) = weight ts := by
  have hclosing : weight cs = 0 := by
    rw [weight, List.sum_eq_zero_iff]
    intro n hn
    obtain ⟨c, hc, rfl⟩ := List.mem_map.mp hn
    rw [h.closing c hc]
    rfl
  rw [weight_append, weight_append, (weight_opening h.opening).1, hclosing]
  omega

/-- The tokens have a weight before one that weighs something, and no parenthesis open there. -/
def Split (n : Nat) (ts : List Token) : Prop :=
  ∃ us t vs, ts = us ++ t :: vs ∧ weight us = n ∧ depth us = 0 ∧ 0 < t.kind.weight

/-- Parentheses around tokens can be told from the tokens. -/
theorem strip_unique {n : Nat} {os os' ts ts' cs cs' : List Token} (hos : Around os cs)
    (hos' : Around os' cs') (hts : Split n ts) (hts' : Split n ts')
    (h : os ++ (ts ++ cs) = os' ++ (ts' ++ cs')) : os = os' ∧ ts = ts' ∧ cs = cs' := by
  obtain ⟨us, t, vs, rfl, hweight, hdepth, ht⟩ := hts
  obtain ⟨us', t', vs', rfl, hweight', hdepth', ht'⟩ := hts'
  obtain ⟨hw, hd⟩ := weight_opening hos.opening
  obtain ⟨hw', hd'⟩ := weight_opening hos'.opening
  have heq : (os ++ us) ++ t :: (vs ++ cs) = (os' ++ us') ++ t' :: (vs' ++ cs') := by simpa using h
  obtain ⟨hfront, rfl, hback⟩ := split_unique ht ht' (by simp [hw, hw', hweight, hweight']) heq
  have hlength : os.length = os'.length := by
    have hdepths := congrArg depth hfront
    rw [depth_append, depth_append, hd, hd', hdepth, hdepth'] at hdepths
    omega
  obtain ⟨rfl, rfl⟩ := List.append_inj hfront hlength
  obtain ⟨rfl, rfl⟩ := List.append_inj' hback (by rw [← hos.length_eq, ← hos'.length_eq])
  exact ⟨rfl, rfl, rfl⟩

end Token

namespace Expr

open Token (weight depth Around Split split_unique strip_unique)

/-! ## Weights of expressions -/

mutual

/-- The weight of all phrases for the expression. -/
def extent : Expr → Nat
  | .number .. | .string .. | .bool .. | .null _ | .name .. => 1
  | .call _ _ _ args => 1 + extentOf args
  | .index _ base subscript => base.extent + 1 + subscript.extent
  | .field _ base _ => base.extent + 2
  | .range _ low high => low.extent + 1 + high.extent
  | .binary _ _ lhs rhs => lhs.extent + 1 + rhs.extent
  | .unary _ _ operand => 1 + operand.extent

/-- The weight of expressions separated by commas. -/
def extentOf : List Expr → Nat
  | [] => 0
  | [e] => e.extent
  | d :: e :: es => d.extent + 1 + extentOf (e :: es)

end

/-- The weight in front of the token that makes the expression what it is. -/
def lead : Expr → Nat
  | .index _ base _ => base.extent
  | .field _ base _ => base.extent
  | .range _ low _ => low.extent
  | .binary _ _ lhs _ => lhs.extent
  | _ => 0

theorem weight_mark (op : BinaryOp) : op.mark.weight = 1 ∧ op.mark.depth = 0 := by
  cases op <;> exact ⟨rfl, rfl⟩

theorem weight_signOp {k : Token.Kind} {op : UnaryOp} (h : signOp? k = some op) :
    k.weight = 1 ∧ k.depth = 0 ∧ op.isRounding = false := by
  cases k <;> cases h <;> exact ⟨rfl, rfl, rfl⟩

theorem extentOf_cons (d : Expr) {es : List Expr} (h : es ≠ []) :
    extentOf (d :: es) = d.extent + 1 + extentOf es := by
  cases es with
  | nil => exact absurd rfl h
  | cons e es => rfl

/-- Subscripts in one pair of brackets weigh as much as in one pair for each. -/
theorem extent_foldl (pos : Pos) {subscripts : List Expr} (h : subscripts ≠ []) (base : Expr) :
    (subscripts.foldl (fun b i => .index pos b i) base).extent
      = base.extent + 1 + extentOf subscripts := by
  induction subscripts generalizing base with
  | nil => exact absurd rfl h
  | cons i rest ih =>
      cases rest with
      | nil => rfl
      | cons j rest =>
          rw [List.foldl_cons, ih (List.cons_ne_nil j rest), extent, extentOf_cons i (by simp)]
          omega

theorem Items.ne_nil {ts : List Token} {es : List Expr} (h : Items ts es) : es ≠ [] := by
  cases h <;> exact List.cons_ne_nil _ _

mutual

/-- Every phrase for an expression has the weight of the expression and closes its parentheses. -/
theorem Phrase.measured : ∀ {k : Nat} {ts : List Token} {e : Expr}, Phrase k ts e →
    weight ts = e.extent ∧ depth ts = 0
  | _, _, _, .looser h => h.measured
  | _, _, _, .range hlow ht hhigh => by
      have hl := hlow.measured
      have hh := hhigh.measured
      simp [extent, ht, Token.Kind.weight, Token.Kind.depth, hl, hh]
      omega
  | _, _, _, .binary _ hlhs ht hrhs => by
      have hl := hlhs.measured
      have hr := hrhs.measured
      simp [extent, ht, weight_mark, hl, hr]
      omega
  | _, _, _, .sign ht hoperand => by
      have ho := hoperand.measured
      simp [extent, weight_signOp ht, ho]
  | _, _, _, .power hbase ht hexponent => by
      have hb := hbase.measured
      have he := hexponent.measured
      simp [extent, ht, Token.Kind.weight, Token.Kind.depth, hb, he]
      omega
  | _, _, _, .index hbase ht hitems ht' => by
      have hb := hbase.measured
      have hi := hitems.measured
      simp [extent_foldl _ hitems.ne_nil, ht, ht', Token.Kind.weight, Token.Kind.depth, hb, hi]
      omega
  | _, _, _, .field hbase ht hf => by
      have hb := hbase.measured
      rcases hf with hf | hf <;>
        simp [extent, ht, hf, Token.Kind.weight, Token.Kind.depth, hb]
  | _, _, _, .number ht _ | _, _, _, .string ht | _, _, _, .trueWord ht | _, _, _, .falseWord ht
  | _, _, _, .null ht | _, _, _, .name ht => by
      simp [extent, ht, Token.Kind.weight, Token.Kind.depth]
  | _, _, _, .call ht hargs | _, _, _, .length ht hargs => by
      have ha := hargs.measured
      simp [extent, ht, Token.Kind.weight, Token.Kind.depth, ha]
  | _, _, _, .explicitCall ht hu hargs => by
      have ha := hargs.measured
      rcases hu with hu | hu <;> simp [extent, ht, hu, Token.Kind.weight, Token.Kind.depth, ha]
  | _, _, _, .bareCall ht hu => by
      rcases hu with hu | hu <;>
        simp [extent, extentOf, ht, hu, Token.Kind.weight, Token.Kind.depth]
  | _, _, _, .parens ht h ht' => by
      have he := h.measured
      simp [ht, ht', Token.Kind.weight, Token.Kind.depth, he]
  | _, _, _, .ceil ht h ht' | _, _, _, .floor ht h ht' => by
      have he := h.measured
      simp [extent, ht, ht', Token.Kind.weight, Token.Kind.depth, he]

theorem Items.measured : ∀ {ts : List Token} {es : List Expr}, Items ts es →
    weight ts = extentOf es ∧ depth ts = 0
  | _, _, .last h => h.measured
  | _, _, .cons h ht hes => by
      have hd := h.measured
      have he := hes.measured
      simp [extentOf_cons _ hes.ne_nil, ht, Token.Kind.weight, Token.Kind.depth, hd, he]
      omega

theorem Arguments.measured : ∀ {ts : List Token} {args : List Expr}, Arguments ts args →
    weight ts = extentOf args ∧ depth ts = 0
  | _, _, .none ht ht' => by simp [extentOf, ht, ht', Token.Kind.weight, Token.Kind.depth]
  | _, _, .some ht h ht' => by
      have he := h.measured
      simp [ht, ht', Token.Kind.weight, Token.Kind.depth, he]

end

/-! ## Made phrases -/

/-- The level of the grammar an expression is on without parentheses around it. -/
def tightness : Expr → Nat
  | .range .. => 0
  | .binary _ op _ _ => op.precedence
  | .unary _ op _ => if op.isRounding then 10 else 7
  | .index .. | .field .. => 9
  | _ => 10

/-- The tokens of an expression put together from phrases for its parts, with no parentheses around
it. Of several subscripts in one pair of brackets the last one counts. -/
inductive Made : List Token → Expr → Prop
  | number {t value} : t.kind = .number → Numeral.read t.text = .ok value →
      Made [t] (.number t.pos value)
  | string {t} : t.kind = .string → Made [t] (.string t.pos t.text)
  | bool {t value} : t.kind = .trueWord ∨ t.kind = .falseWord → Made [t] (.bool t.pos value)
  | null {t} : t.kind = .nullWord → Made [t] (.null t.pos)
  | name {t} : t.kind = .ident → Made [t] (.name t.pos t.text)
  | call {us t n args} : t.kind = .ident ∨ t.kind = .lengthWord → Arguments us args →
      Made (t :: us) (.call t.pos n false args)
  | explicitCall {us t u args} : t.kind = .callWord → u.kind = .ident ∨ u.kind = .swapWord →
      Made (t :: u :: us) (.call t.pos u.text true args)
  | index {us vs o c pos base subscript} :
      o.kind = .comma ∨ o.kind = .lbracket ∧ Phrase 9 us base → depth us = 0 →
      Phrase 0 vs subscript → c.kind = .rbracket →
      Made (us ++ o :: (vs ++ [c])) (.index pos base subscript)
  | field {us t f base} : Phrase 9 us base → t.kind = .dot →
      f.kind = .ident ∨ f.kind = .lengthWord → Made (us ++ [t, f]) (.field t.pos base f.text)
  | range {us vs t low high} : Phrase 1 us low → t.kind = .dotDot → Phrase 1 vs high →
      Made (us ++ t :: vs) (.range t.pos low high)
  | binary {us vs t op lhs rhs} : Phrase op.leftLevel us lhs → t.kind = op.mark →
      Phrase op.rightLevel vs rhs → Made (us ++ t :: vs) (.binary t.pos op lhs rhs)
  | sign {us t op operand} : signOp? t.kind = some op → Phrase 7 us operand →
      Made (t :: us) (.unary t.pos op operand)
  | ceil {us o c operand} : o.kind = .lceil → Phrase 0 us operand → c.kind = .rceil →
      Made (o :: (us ++ [c])) (.unary o.pos .ceil operand)
  | floor {us o c operand} : o.kind = .lfloor → Phrase 0 us operand → c.kind = .rfloor →
      Made (o :: (us ++ [c])) (.unary o.pos .floor operand)

/-- Several expressions end in one after a comma. -/
theorem Items.exists_last : ∀ {ts : List Token} {es : List Expr}, Items ts es →
    (∃ e, es = [e] ∧ Phrase 0 ts e)
      ∨ ∃ us t vs ds e, ts = us ++ t :: vs ∧ es = ds ++ [e] ∧ t.kind = .comma ∧ depth us = 0
        ∧ Phrase 0 vs e
  | _, _, .last h => .inl ⟨_, rfl, h⟩
  | _, _, @Items.cons us vs t d _ h ht hes => by
      have hd := h.measured.2
      rcases hes.exists_last with ⟨e, rfl, he⟩ | ⟨us', t', vs, ds, e, rfl, rfl, ht', hdepth, he⟩
      · exact .inr ⟨us, t, vs, [d], e, rfl, rfl, ht, hd, he⟩
      · refine .inr ⟨us ++ t :: us', t', vs, d :: ds, e, by simp, rfl, ht', ?_, he⟩
        simp [hd, ht, hdepth, Token.Kind.depth]

/-- A made phrase is one in no parentheses. -/
theorem Made.bare {k : Nat} {ts : List Token} {e : Expr} (h : Made ts e) (hk : k ≤ e.tightness) :
    ∃ os us cs, ts = os ++ (us ++ cs) ∧ Around os cs ∧ Made us e ∧ (os = [] → k ≤ e.tightness) :=
  ⟨[], ts, [], by simp, .none, h, fun _ => hk⟩

/-- A phrase is a made one in parentheses, and without any it is on a level that is loose enough. -/
theorem Phrase.exists_made : ∀ {k : Nat} {ts : List Token} {e : Expr}, Phrase k ts e →
    ∃ os us cs, ts = os ++ (us ++ cs) ∧ Around os cs ∧ Made us e ∧ (os = [] → k ≤ e.tightness)
  | _, _, _, .looser h => by
      obtain ⟨os, us, cs, rfl, haround, hmade, hlevel⟩ := h.exists_made
      exact ⟨os, us, cs, rfl, haround, hmade, fun hos => (Nat.lt_of_succ_le (hlevel hos)).le⟩
  | _, _, _, @Phrase.parens _ t t' _ ht h ht' => by
      obtain ⟨os, us, cs, rfl, haround, hmade, -⟩ := h.exists_made
      refine ⟨t :: os, us, cs ++ [t'], by simp, ⟨?_, ?_, ?_⟩, hmade, nofun⟩
      · exact List.forall_mem_cons.mpr ⟨ht, haround.opening⟩
      · exact List.forall_mem_append.mpr ⟨haround.closing, List.forall_mem_singleton.mpr ht'⟩
      · simp [haround.length_eq]
  | _, _, _, @Phrase.index us vs t t' base _ hbase ht hitems ht' => by
      have hb := hbase.measured.2
      rcases hitems.exists_last with ⟨i, rfl, hi⟩ | ⟨us', u, vs, is, i, rfl, rfl, hu, hdepth, hi⟩
      · exact Made.bare (.index (.inr ⟨ht, hbase⟩) hb hi ht') (le_refl _)
      · have hmade : Made ((us ++ t :: us') ++ u :: (vs ++ [t']))
            (.index t.pos (is.foldl (fun b i => .index t.pos b i) base) i) :=
          .index (.inl hu) (by simp [hb, ht, hdepth, Token.Kind.depth]) hi ht'
        have htokens : us ++ t :: ((us' ++ u :: vs) ++ [t'])
            = (us ++ t :: us') ++ u :: (vs ++ [t']) := by simp
        rw [List.foldl_concat, htokens]
        exact hmade.bare (le_refl _)
  | _, _, _, .range hlow ht hhigh => Made.bare (.range hlow ht hhigh) (le_refl _)
  | _, _, _, .binary hop hlhs ht hrhs => by
      refine Made.bare (.binary ?_ ht ?_) (le_refl _)
      · rwa [BinaryOp.leftLevel, if_neg hop]
      · rwa [BinaryOp.rightLevel, if_neg hop]
  | _, _, _, .sign ht hoperand => by
      refine Made.bare (.sign ht hoperand) ?_
      rw [tightness, if_neg (by simp [(weight_signOp ht).2.2])]
  | _, _, _, @Phrase.power us vs t base exponent hbase ht hexponent =>
      Made.bare (@Made.binary us vs t .pow base exponent hbase ht hexponent) (le_refl _)
  | _, _, _, .field hbase ht hf => Made.bare (.field hbase ht hf) (le_refl _)
  | _, _, _, .number ht hvalue => Made.bare (.number ht hvalue) (le_refl _)
  | _, _, _, .string ht => Made.bare (.string ht) (le_refl _)
  | _, _, _, .trueWord ht => Made.bare (.bool (.inl ht)) (le_refl _)
  | _, _, _, .falseWord ht => Made.bare (.bool (.inr ht)) (le_refl _)
  | _, _, _, .null ht => Made.bare (.null ht) (le_refl _)
  | _, _, _, .name ht => Made.bare (.name ht) (le_refl _)
  | _, _, _, .call ht hargs => Made.bare (.call (.inl ht) hargs) (le_refl _)
  | _, _, _, .length ht hargs => Made.bare (.call (.inr ht) hargs) (le_refl _)
  | _, _, _, .explicitCall ht hu _ => Made.bare (.explicitCall ht hu) (le_refl _)
  | _, _, _, .bareCall ht hu => Made.bare (.explicitCall ht hu) (le_refl _)
  | _, _, _, .ceil ht h ht' => Made.bare (.ceil ht h ht') (le_refl _)
  | _, _, _, .floor ht h ht' => Made.bare (.floor ht h ht') (le_refl _)

/-- A made phrase has the token that makes it behind what its first part weighs. -/
theorem Made.split : ∀ {ts : List Token} {e : Expr}, Made ts e → weight ts = e.extent →
    Split e.lead ts
  | _, _, .number ht _, _ | _, _, .string ht, _ | _, _, .null ht, _ | _, _, .name ht, _ =>
      ⟨[], _, [], rfl, rfl, rfl, by rw [ht]; decide⟩
  | _, _, .bool ht, _ | _, _, .call ht _, _ =>
      ⟨[], _, _, rfl, rfl, rfl, by rcases ht with ht | ht <;> rw [ht] <;> decide⟩
  | _, _, @Made.explicitCall us t u _ ht hu, _ => by
      refine ⟨[t], u, us, rfl, by simp [ht, Token.Kind.weight, lead],
        by simp [ht, Token.Kind.depth], ?_⟩
      rcases hu with hu | hu <;> rw [hu] <;> decide
  | _, _, @Made.index us vs o c pos base subscript ho hdepth hsub hc, h => by
      have hs := hsub.measured.1
      have hone : o.kind.weight = 1 := by
        rcases ho with ho | ⟨ho, -⟩ <;> rw [ho] <;> rfl
      have hnone : c.kind.weight = 0 := by rw [hc]; rfl
      refine ⟨us, o, vs ++ [c], rfl, ?_, hdepth, by omega⟩
      simp only [Token.weight_append, Token.weight_cons, hone, hnone, Token.weight_nil, hs,
        extent] at h
      rw [lead]
      omega
  | _, _, @Made.field us t f _ hbase ht _, _ =>
      ⟨us, t, [f], rfl, hbase.measured.1, hbase.measured.2, by rw [ht]; decide⟩
  | _, _, @Made.range us vs t _ _ hlow ht _, _ =>
      ⟨us, t, vs, rfl, hlow.measured.1, hlow.measured.2, by rw [ht]; decide⟩
  | _, _, @Made.binary us vs t op _ _ hlhs ht _, _ =>
      ⟨us, t, vs, rfl, hlhs.measured.1, hlhs.measured.2, by simp [ht, weight_mark]⟩
  | _, _, .sign ht _, _ => ⟨[], _, _, rfl, rfl, rfl, by simp [weight_signOp ht]⟩
  | _, _, .ceil ho _ _, _ | _, _, .floor ho _ _, _ =>
      ⟨[], _, _, rfl, rfl, rfl, by rw [ho]; decide⟩

/-! ## What an expression is made of -/

mutual

/-- The expression without its positions and without the marks of calls written with `call`. -/
def unmarked : Expr → Expr
  | .number _ value => .number .nowhere value
  | .string _ value => .string .nowhere value
  | .bool _ value => .bool .nowhere value
  | .null _ => .null .nowhere
  | .name _ n => .name .nowhere n
  | .call _ callee _ args => .call .nowhere callee false (unmarkedList args)
  | .index _ base subscript => .index .nowhere base.unmarked subscript.unmarked
  | .field _ base f => .field .nowhere base.unmarked f
  | .range _ low high => .range .nowhere low.unmarked high.unmarked
  | .binary _ op lhs rhs => .binary .nowhere op lhs.unmarked rhs.unmarked
  | .unary _ op operand => .unary .nowhere op operand.unmarked

def unmarkedList : List Expr → List Expr
  | [] => []
  | e :: es => e.unmarked :: unmarkedList es

end

mutual

theorem extent_unmarked : ∀ e : Expr, e.unmarked.extent = e.extent
  | .number .. | .string .. | .bool .. | .null _ | .name .. => rfl
  | .call _ _ _ args => by rw [unmarked, extent, extent, extentOf_unmarkedList args]
  | .index _ base subscript => by
      rw [unmarked, extent, extent, extent_unmarked base, extent_unmarked subscript]
  | .field _ base _ => by rw [unmarked, extent, extent, extent_unmarked base]
  | .range _ low high => by
      rw [unmarked, extent, extent, extent_unmarked low, extent_unmarked high]
  | .binary _ _ lhs rhs => by
      rw [unmarked, extent, extent, extent_unmarked lhs, extent_unmarked rhs]
  | .unary _ _ operand => by rw [unmarked, extent, extent, extent_unmarked operand]

theorem extentOf_unmarkedList : ∀ es : List Expr, extentOf (unmarkedList es) = extentOf es
  | [] => rfl
  | [e] => extent_unmarked e
  | d :: e :: es => by
      have hes := extentOf_unmarkedList (e :: es)
      rw [unmarkedList] at hes ⊢
      rw [unmarkedList, extentOf, extentOf, extent_unmarked d, hes]

end

section Unmarked

variable {e e' : Expr} (h : e'.unmarked = e.unmarked)
include h

theorem extent_eq : e'.extent = e.extent := by
  rw [← extent_unmarked e', h, extent_unmarked]

theorem lead_eq : e'.lead = e.lead := by
  have hlead : ∀ e : Expr, e.unmarked.lead = e.lead := fun e => by
    cases e <;> first | rfl | exact extent_unmarked _
  rw [← hlead e', h, hlead]

theorem tightness_eq : e'.tightness = e.tightness := by
  have htightness : ∀ e : Expr, e.unmarked.tightness = e.tightness := fun e => by cases e <;> rfl
  rw [← htightness e', h, htightness]

end Unmarked

theorem eq_nil_of_unmarkedList {es : List Expr} (h : unmarkedList es = []) : es = [] := by
  cases es with
  | nil => rfl
  | cons e es => cases h

/-- The tokens are a phrase for the expression, up to positions and the marks of calls. -/
def PhraseFor (k : Nat) (ts : List Token) (e : Expr) : Prop :=
  ∃ e', Phrase k ts e' ∧ e'.unmarked = e.unmarked

/-- The tokens are a made phrase for the expression, up to positions and the marks of calls. -/
def MadeFor (ts : List Token) (e : Expr) : Prop := ∃ e', Made ts e' ∧ e'.unmarked = e.unmarked

/-- The tokens are phrases for some expressions, separated by commas. -/
def ItemsFor (ts : List Token) (es : List Expr) : Prop :=
  ∃ es', (Items ts es' ∨ ts = [] ∧ es' = []) ∧ unmarkedList es' = unmarkedList es

theorem PhraseFor.mono {j k : Nat} {ts : List Token} {e : Expr} (h : PhraseFor k ts e)
    (hjk : j ≤ k) : PhraseFor j ts e := by
  obtain ⟨e', he, heq⟩ := h
  exact ⟨e', he.mono hjk, heq⟩

theorem PhraseFor.weight_eq {k : Nat} {ts : List Token} {e : Expr} (h : PhraseFor k ts e) :
    weight ts = e.extent := by
  obtain ⟨e', he, heq⟩ := h
  exact he.measured.1.trans (extent_eq heq)

theorem PhraseFor.exists_made {k : Nat} {ts : List Token} {e : Expr} (h : PhraseFor k ts e) :
    ∃ os us cs, ts = os ++ (us ++ cs) ∧ Around os cs ∧ MadeFor us e
      ∧ (os = [] → k ≤ e.tightness) := by
  obtain ⟨e', he, heq⟩ := h
  obtain ⟨os, us, cs, htokens, haround, hmade, hlevel⟩ := he.exists_made
  exact ⟨os, us, cs, htokens, haround, ⟨e', hmade, heq⟩, tightness_eq heq ▸ hlevel⟩

theorem MadeFor.split {ts : List Token} {e : Expr} (h : MadeFor ts e)
    (hweight : weight ts = e.extent) : Split e.lead ts := by
  obtain ⟨e', hmade, heq⟩ := h
  exact lead_eq heq ▸ hmade.split (hweight.trans (extent_eq heq).symm)

/-! ## Its parts -/

section Parts

variable {us vs : List Token} {t o c : Token} {pos : Pos}

theorem MadeFor.number_parts {value : Exact} (h : MadeFor [t] (.number pos value)) :
    Numeral.read t.text = .ok value := by
  obtain ⟨e', h, heq⟩ := h
  generalize htokens : [t] = ts at h
  cases h with
  | number _ hvalue =>
      simp only [unmarked, Expr.number.injEq, true_and] at heq
      rw [List.singleton_inj.mp htokens, hvalue, heq]
  | _ => simp [unmarked] at heq

theorem MadeFor.call_parts {callee : Name} {explicit : Bool} {args : List Expr}
    (h : MadeFor (t :: o :: (us ++ [c])) (.call pos callee explicit args))
    (ht : t.kind ≠ .callWord) : (t.kind = .ident ∨ t.kind = .lengthWord) ∧ ItemsFor us args := by
  obtain ⟨e', h, heq⟩ := h
  generalize htokens : t :: o :: (us ++ [c]) = ts at h
  cases h with
  | call hname hargs =>
      simp only [unmarked, Expr.call.injEq, true_and] at heq
      obtain ⟨rfl, htail⟩ := List.cons.inj htokens
      refine ⟨hname, _, ?_, heq.2⟩
      cases hargs with
      | none =>
          have hlength := congrArg List.length htail
          simp only [List.length_cons, List.length_append, List.length_nil] at hlength
          exact .inr ⟨List.length_eq_zero_iff.mp (by omega), rfl⟩
      | some _ hitems _ =>
          obtain ⟨rfl, -⟩ := List.append_inj' (List.cons.inj htail).2 rfl
          exact .inl hitems
  | explicitCall hcall =>
      obtain ⟨rfl, -⟩ := List.cons.inj htokens
      exact absurd hcall ht
  | _ => simp [unmarked] at heq

theorem MadeFor.index_parts {base subscript : Expr}
    (h : MadeFor (us ++ o :: (vs ++ [c])) (.index pos base subscript)) (ho : o.kind = .lbracket)
    (hc : c.kind = .rbracket) (hsub : weight vs = subscript.extent) :
    PhraseFor 9 us base ∧ PhraseFor 0 vs subscript := by
  obtain ⟨e', h, heq⟩ := h
  generalize htokens : us ++ o :: (vs ++ [c]) = ts at h
  cases h with
  | @index us' vs' o' c' _ base' subscript' ho' _ hsub' hc' =>
      simp only [unmarked, Expr.index.injEq, true_and] at heq
      have hone : o'.kind.weight = 1 := by rcases ho' with ho' | ⟨ho', -⟩ <;> rw [ho'] <;> rfl
      have hweight := hsub.trans (hsub'.measured.1.trans (extent_eq heq.2)).symm
      have htotal := congrArg weight htokens
      simp only [Token.weight_append, Token.weight_cons, Token.weight_nil, ho, hone, hc, hc',
        hweight] at htotal
      obtain ⟨rfl, rfl, htail⟩ := split_unique (by rw [ho]; decide) (by omega)
        (by simp only [Token.Kind.weight] at htotal; omega) htokens
      obtain ⟨rfl, -⟩ := List.append_inj' htail rfl
      rcases ho' with ho' | ⟨-, hbase'⟩
      · rw [ho] at ho'
        cases ho'
      · exact ⟨⟨_, hbase', heq.1⟩, _, hsub', heq.2⟩
  | _ => simp [unmarked] at heq

theorem MadeFor.field_parts {base : Expr} {f : Token} {n : Name}
    (h : MadeFor (us ++ [t, f]) (.field pos base n)) : PhraseFor 9 us base := by
  obtain ⟨e', h, heq⟩ := h
  generalize htokens : us ++ [t, f] = ts at h
  cases h with
  | field hbase _ _ =>
      simp only [unmarked, Expr.field.injEq, true_and] at heq
      obtain ⟨rfl, -⟩ := List.append_inj' htokens rfl
      exact ⟨_, hbase, heq.1⟩
  | _ => simp [unmarked] at heq

theorem MadeFor.range_parts {low high : Expr} (h : MadeFor (us ++ t :: vs) (.range pos low high))
    (ht : 0 < t.kind.weight) (hlow : weight us = low.extent) :
    PhraseFor 1 us low ∧ PhraseFor 1 vs high := by
  obtain ⟨e', h, heq⟩ := h
  generalize htokens : us ++ t :: vs = ts at h
  cases h with
  | range hlow' ht' hhigh' =>
      simp only [unmarked, Expr.range.injEq, true_and] at heq
      have hweight := hlow.trans (hlow'.measured.1.trans (extent_eq heq.1)).symm
      obtain ⟨rfl, -, rfl⟩ := split_unique ht (by rw [ht']; decide) hweight htokens
      exact ⟨⟨_, hlow', heq.1⟩, _, hhigh', heq.2⟩
  | _ => simp [unmarked] at heq

theorem MadeFor.binary_parts {op : BinaryOp} {lhs rhs : Expr}
    (h : MadeFor (us ++ t :: vs) (.binary pos op lhs rhs)) (ht : 0 < t.kind.weight)
    (hlhs : weight us = lhs.extent) :
    PhraseFor op.leftLevel us lhs ∧ PhraseFor op.rightLevel vs rhs := by
  obtain ⟨e', h, heq⟩ := h
  generalize htokens : us ++ t :: vs = ts at h
  cases h with
  | binary hlhs' ht' hrhs' =>
      simp only [unmarked, Expr.binary.injEq, true_and] at heq
      obtain ⟨rfl, heql, heqr⟩ := heq
      have hweight := hlhs.trans (hlhs'.measured.1.trans (extent_eq heql)).symm
      obtain ⟨rfl, -, rfl⟩ := split_unique ht (by simp [ht', weight_mark]) hweight htokens
      exact ⟨⟨_, hlhs', heql⟩, _, hrhs', heqr⟩
  | _ => simp [unmarked] at heq

theorem MadeFor.sign_parts {op : UnaryOp} {operand : Expr}
    (h : MadeFor (t :: us) (.unary pos op operand)) (hop : op.isRounding = false) :
    PhraseFor 7 us operand := by
  obtain ⟨e', h, heq⟩ := h
  generalize htokens : t :: us = ts at h
  cases h with
  | sign _ hoperand =>
      simp only [unmarked, Expr.unary.injEq, true_and] at heq
      obtain ⟨rfl, rfl⟩ := List.cons.inj htokens
      exact ⟨_, hoperand, heq.2⟩
  | ceil | floor =>
      simp only [unmarked, Expr.unary.injEq, true_and] at heq
      rw [← heq.1] at hop
      cases hop
  | _ => simp [unmarked] at heq

theorem MadeFor.rounded_parts {op : UnaryOp} {operand : Expr}
    (h : MadeFor (o :: (us ++ [c])) (.unary pos op operand)) (hop : op.isRounding = true) :
    PhraseFor 0 us operand := by
  obtain ⟨e', h, heq⟩ := h
  generalize htokens : o :: (us ++ [c]) = ts at h
  cases h with
  | ceil _ hoperand _ | floor _ hoperand _ =>
      simp only [unmarked, Expr.unary.injEq, true_and] at heq
      obtain ⟨rfl, -⟩ := List.append_inj' (List.cons.inj htokens).2 rfl
      exact ⟨_, hoperand, heq.2⟩
  | sign ht _ =>
      simp only [unmarked, Expr.unary.injEq, true_and] at heq
      rw [← heq.1, (weight_signOp ht).2.2] at hop
      cases hop
  | _ => simp [unmarked] at heq

theorem ItemsFor.weight_eq {es : List Expr} (h : ItemsFor us es) : weight us = extentOf es := by
  obtain ⟨es', hitems, heq⟩ := h
  rw [← extentOf_unmarkedList es, ← heq, extentOf_unmarkedList]
  rcases hitems with hitems | ⟨rfl, rfl⟩
  · exact hitems.measured.1
  · rfl

theorem ItemsFor.single_parts {e : Expr} (h : ItemsFor us [e]) : PhraseFor 0 us e := by
  obtain ⟨es', h | ⟨-, rfl⟩, heq⟩ := h
  · cases h with
    | last h => exact ⟨_, h, (List.cons.inj heq).1⟩
    | cons _ _ hes => exact absurd (eq_nil_of_unmarkedList (List.cons.inj heq).2) hes.ne_nil
  · cases heq

theorem ItemsFor.cons_parts {d e : Expr} {es : List Expr}
    (h : ItemsFor (us ++ t :: vs) (d :: e :: es)) (ht : 0 < t.kind.weight)
    (hd : weight us = d.extent) : PhraseFor 0 us d ∧ ItemsFor vs (e :: es) := by
  obtain ⟨es', h, heq⟩ := h
  generalize htokens : us ++ t :: vs = ts at h
  rcases h with h | ⟨-, rfl⟩
  · cases h with
    | last => cases (List.cons.inj heq).2
    | cons hd' ht' hes' =>
        obtain ⟨heqd, heqe⟩ := List.cons.inj heq
        have hweight := hd.trans (hd'.measured.1.trans (extent_eq heqd)).symm
        obtain ⟨rfl, -, rfl⟩ := split_unique ht (by rw [ht']; decide) hweight htokens
        exact ⟨⟨_, hd', heqd⟩, _, .inl hes', heqe⟩
  · cases heq

end Parts

end Expr

end PseudoCost
