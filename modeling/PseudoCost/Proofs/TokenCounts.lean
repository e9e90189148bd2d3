import PseudoCost.Proofs.ReadingFailures
import PseudoCost.Proofs.ProgramGrammar

/-!
# Nothing is lost and nothing is used twice

A token list is read as a whole or not at all, and never because a bound is used up. The words that
start a loop, a conditional or a return, and the literals, each have a node of their own in the
program: there are as many nodes of each kind as there are tokens, the shapes of parameters apart
(`Program.ofTokens_counts`).

The count is an induction over the grammar, one case for each rule: the tokens of a phrase are the
tokens of its parts and some tokens that are not counted, but for at most one in front.
-/

namespace PseudoCost

open Reading

/-! ## What is counted -/

/-- The kinds of tokens that have a node of their own. -/
def Token.Kind.isCounted : Token.Kind → Bool
  | .forWord | .whileWord | .repeatWord | .ifWord | .returnWord | .number | .string => true
  | _ => false

/-- The kind of token a literal stands for. -/
def Expr.tokenKind? : Expr → Option Token.Kind
  | .number .. => some .number
  | .string .. => some .string
  | _ => none

/-- The kind of token that starts the statement, if it is one that is counted. -/
def Stmt.tokenKind? : Stmt → Option Token.Kind
  | .forLoop .. => some .forWord
  | .whileLoop .. => some .whileWord
  | .repeatLoop .. => some .repeatWord
  | .conditional .. => some .ifWord
  | .give .. => some .returnWord
  | .assign .. | .call .. => none

/-- The number of tokens of a kind. -/
def Token.count (k : Token.Kind) (ts : List Token) : Nat := ts.countP (·.kind == k)

/-- The number of nodes in a block that a kind of token stands for: statements and literals. -/
def Block.nodeCount (k : Token.Kind) (b : Block) : Nat :=
  b.within.countP (·.tokenKind? == some k) + b.terms.countP (·.tokenKind? == some k)

/-- The number of nodes in a program that a kind of token stands for. -/
def Program.nodeCount (k : Token.Kind) (p : Program) : Nat :=
  (p.blocks.map (Block.nodeCount k)).sum

/-! ## Counting tokens -/

section Tokens

open Token (count)

variable {k : Token.Kind}

@[simp] theorem count_nil : count k [] = 0 := rfl

@[simp] theorem count_append (us vs : List Token) : count k (us ++ vs) = count k us + count k vs :=
  List.countP_append

theorem count_cons (t : Token) (ts : List Token) :
    count k (t :: ts) = count k ts + if t.kind == k then 1 else 0 := List.countP_cons

theorem count_cons_of_eq {t : Token} {j : Token.Kind} (ht : t.kind = j) (ts : List Token) :
    count k (t :: ts) = count k ts + if j == k then 1 else 0 := by
  rw [count_cons, ht]

/-- A token of a kind that is not counted. -/
theorem count_cons_of_kind (hk : k.isCounted = true) {t : Token} {j : Token.Kind} (ht : t.kind = j)
    (hj : j.isCounted = false) (ts : List Token) : count k (t :: ts) = count k ts := by
  have hne : t.kind ≠ k := by
    rintro rfl
    rw [← ht, hk] at hj
    cases hj
  rw [count_cons, if_neg (by simpa using hne), Nat.add_zero]

end Tokens

namespace Expr

open Token (count)

variable {k : Token.Kind}

/-- The literals among the subterms. -/
def literals (k : Token.Kind) (es : List Expr) : Nat := es.countP (·.tokenKind? == some k)

@[simp] theorem literals_nil : literals k [] = 0 := rfl

@[simp] theorem literals_append (ds es : List Expr) :
    literals k (ds ++ es) = literals k ds + literals k es := List.countP_append

theorem literals_cons (e : Expr) (es : List Expr) :
    literals k (e :: es) = literals k es + if e.tokenKind? == some k then 1 else 0 :=
  List.countP_cons

/-- Several subscripts in one pair of brackets have the literals of the base and their own. -/
theorem literals_foldl_index (pos : Pos) (subscripts : List Expr) (base : Expr) :
    literals k (subscripts.foldl (fun b i => .index pos b i) base).subterms
      = literals k base.subterms + literals k (subtermsOf subscripts) := by
  induction subscripts generalizing base with
  | nil => rfl
  | cons e es ih =>
      rw [List.foldl_cons, ih]
      simp [subterms, subtermsOf, literals_cons, tokenKind?, Nat.add_assoc]

/-- A token that may be the name of a procedure or a field. -/
theorem count_cons_of_name (hk : k.isCounted = true) {t : Token} {j : Token.Kind}
    (ht : t.kind = .ident ∨ t.kind = j) (hj : j.isCounted = false) (ts : List Token) :
    count k (t :: ts) = count k ts := by
  rcases ht with ht | ht
  · exact count_cons_of_kind hk ht rfl ts
  · exact count_cons_of_kind hk ht hj ts

theorem isCounted_mark (op : BinaryOp) : op.mark.isCounted = false := by
  cases op <;> rfl

theorem isCounted_of_sign {j : Token.Kind} {op : UnaryOp} (h : signOp? j = some op) :
    j.isCounted = false := by
  cases j <;> first | rfl | cases h

mutual

/-- A phrase has as many literal tokens as the expression has literals. -/
theorem Phrase.count_eq (hk : k.isCounted = true) : ∀ {j : Nat} {ts : List Token} {e : Expr},
    Phrase j ts e → count k ts = literals k e.subterms
  | _, _, _, .looser h => h.count_eq hk
  | _, _, _, .range hlow ht hhigh => by
      simp [count_cons_of_kind hk ht rfl, hlow.count_eq hk, hhigh.count_eq hk, subterms,
        literals_cons, tokenKind?]
  | _, _, _, .binary hop hlhs ht hrhs => by
      simp [count_cons_of_kind hk ht (isCounted_mark _), hlhs.count_eq hk, hrhs.count_eq hk,
        subterms, literals_cons, tokenKind?]
  | _, _, _, .sign ht h => by
      simp [count_cons_of_kind hk rfl (isCounted_of_sign ht), h.count_eq hk, subterms,
        literals_cons, tokenKind?]
  | _, _, _, .power hbase ht hexponent => by
      simp [count_cons_of_kind hk ht rfl, hbase.count_eq hk, hexponent.count_eq hk, subterms,
        literals_cons, tokenKind?]
  | _, _, _, .index hbase ht hitems ht' => by
      simp [count_cons_of_kind hk ht rfl, count_cons_of_kind hk ht' rfl, hbase.count_eq hk,
        hitems.count_eq hk, literals_foldl_index]
  | _, _, _, .field hbase ht hf => by
      simp [count_cons_of_kind hk ht rfl, count_cons_of_name hk hf rfl, hbase.count_eq hk, subterms,
        literals_cons, tokenKind?]
  | _, _, _, .number ht _ | _, _, _, .string ht => by
      simp [count_cons, ht, subterms, literals_cons, tokenKind?]
  | _, _, _, .trueWord ht | _, _, _, .falseWord ht | _, _, _, .null ht | _, _, _, .name ht => by
      simp [count_cons_of_kind hk ht rfl, subterms, literals_cons, tokenKind?]
  | _, _, _, .call ht hargs | _, _, _, .length ht hargs => by
      simp [count_cons_of_kind hk ht rfl, hargs.count_eq hk, subterms, literals_cons, tokenKind?]
  | _, _, _, .explicitCall ht hu hargs => by
      simp [count_cons_of_kind hk ht rfl, count_cons_of_name hk hu rfl, hargs.count_eq hk, subterms,
        literals_cons, tokenKind?]
  | _, _, _, .bareCall ht hu => by
      simp [count_cons_of_kind hk ht rfl, count_cons_of_name hk hu rfl, subterms, subtermsOf,
        literals_cons, tokenKind?]
  | _, _, _, .parens ht h ht' => by
      simp [count_cons_of_kind hk ht rfl, count_cons_of_kind hk ht' rfl, h.count_eq hk]
  | _, _, _, .ceil ht h ht' | _, _, _, .floor ht h ht' => by
      simp [count_cons_of_kind hk ht rfl, count_cons_of_kind hk ht' rfl, h.count_eq hk, subterms,
        literals_cons, tokenKind?]

theorem Items.count_eq (hk : k.isCounted = true) : ∀ {ts : List Token} {es : List Expr},
    Items ts es → count k ts = literals k (subtermsOf es)
  | _, _, .last he => by simp [he.count_eq hk, subtermsOf]
  | _, _, .cons he ht hes => by
      simp [count_cons_of_kind hk ht rfl, he.count_eq hk, hes.count_eq hk, subtermsOf]

theorem Arguments.count_eq (hk : k.isCounted = true) : ∀ {ts : List Token} {args : List Expr},
    Arguments ts args → count k ts = literals k (subtermsOf args)
  | _, _, .none ht ht' => by
      simp [count_cons_of_kind hk ht rfl, count_cons_of_kind hk ht' rfl, subtermsOf]
  | _, _, .some ht hes ht' => by
      simp [count_cons_of_kind hk ht rfl, count_cons_of_kind hk ht' rfl, hes.count_eq hk]

end

end Expr

/-! ## Statements -/

namespace Stmt

open Token (count)

variable {k : Token.Kind}

/-- The statements of a kind, each given with the branches around it. -/
def starting (k : Token.Kind) (ss : List (Nat × Stmt)) : Nat :=
  ss.countP (·.2.tokenKind? == some k)

@[simp] theorem starting_nil : starting k [] = 0 := rfl

@[simp] theorem starting_append (ss ss' : List (Nat × Stmt)) :
    starting k (ss ++ ss') = starting k ss + starting k ss' := List.countP_append

theorem starting_cons (s : Nat × Stmt) (ss : List (Nat × Stmt)) :
    starting k (s :: ss) = starting k ss + if s.2.tokenKind? == some k then 1 else 0 :=
  List.countP_cons

theorem IsAssignSign.count_cons (hk : k.isCounted = true) {t : Token} (h : IsAssignSign t)
    (ts : List Token) : count k (t :: ts) = count k ts := by
  rcases h with ht | ht
  · exact count_cons_of_kind hk ht rfl ts
  · exact count_cons_of_kind hk ht rfl ts

theorem StepPhrase.count_eq (hk : k.isCounted = true) {ts : List Token} {step : Option Expr}
    (h : StepPhrase ts step) : count k ts = Expr.literals k (Expr.subtermsOf step.toList) := by
  cases h with
  | none => rfl
  | some ht he => simp [count_cons_of_kind hk ht rfl, he.count_eq hk, Expr.subtermsOf]

theorem CallPhrase.count_eq (hk : k.isCounted = true) {ts : List Token} {args : List Expr}
    (h : CallPhrase ts args) : count k ts = Expr.literals k (Expr.subtermsOf args) := by
  cases h with
  | bare => rfl
  | arguments hargs => exact hargs.count_eq hk

theorem PrintPhrase.count_eq (hk : k.isCounted = true) {ts : List Token} {args : List Expr}
    (h : PrintPhrase ts args) : count k ts = Expr.literals k (Expr.subtermsOf args) := by
  cases h with
  | bare => rfl
  | items hargs => exact hargs.count_eq hk

theorem Closing.count_eq (hk : k.isCounted = true) {next follow : Token} {complete : Bool}
    {ts : List Token} (h : Closing next complete ts follow) : count k ts = 0 := by
  cases h with
  | complete => rfl
  | ended ht => simp [count_cons_of_kind hk ht rfl]

theorem nestedOf_append (d : Nat) (ss ss' : List Stmt) :
    nestedOf d (ss ++ ss') = nestedOf d ss ++ nestedOf d ss' := by
  induction ss with
  | nil => rfl
  | cons s ss ih => simp [nestedOf, ih]

theorem termsOf_append (ss ss' : List Stmt) : termsOf (ss ++ ss') = termsOf ss ++ termsOf ss' := by
  induction ss with
  | nil => rfl
  | cons s ss ih => simp [termsOf, ih]

mutual

/-- A phrase has as many tokens of each kind that is counted as the statement has nodes. -/
theorem Phrase.count_eq (hk : k.isCounted = true) :
    ∀ {ts : List Token} {next : Token} {s : Stmt}, Phrase ts next s → ∀ d,
      count k ts = starting k (s.nested d) + Expr.literals k s.terms
  | _, _, _, .forLoop ht hv ha hstart hd hlimit hstep ho hbody, depth => by
      have hdirection : ∀ descending : Bool,
          (if descending then Token.Kind.downtoWord else .toWord).isCounted = false := by decide
      simp [count_cons_of_eq ht, count_cons_of_kind hk hv rfl, ha.count_cons hk, hstart.count_eq hk,
        count_cons_of_kind hk hd (hdirection _), hlimit.count_eq hk, hstep.count_eq hk,
        count_cons_of_kind hk ho rfl, hbody.count_eq hk depth, nested, terms, starting_cons,
        tokenKind?]
      omega
  | _, _, _, .whileLoop ht hcond ho hbody, depth => by
      simp [count_cons_of_eq ht, hcond.count_eq hk, count_cons_of_kind hk ho rfl,
        hbody.count_eq hk depth, nested, terms, starting_cons, tokenKind?]
      omega
  | _, _, _, .repeatLoop ht hstmts hu hcond, depth => by
      simp [count_cons_of_eq ht, hstmts.count_eq hk depth, count_cons_of_kind hk hu rfl,
        hcond.count_eq hk, nested, terms, Block.nested, Block.terms, starting_cons, tokenKind?]
      omega
  | _, _, _, .ifThen ht hcond ho hthen hes, depth => by
      simp [count_cons_of_eq ht, hcond.count_eq hk, count_cons_of_kind hk ho rfl,
        hthen.count_eq hk (depth + 1), hes.count_eq hk, nested, terms, starting_cons, tokenKind?]
      omega
  | _, _, _, .ifElse ht hcond ho hthen hu helse hes, depth => by
      simp [count_cons_of_eq ht, hcond.count_eq hk, count_cons_of_kind hk ho rfl,
        hthen.count_eq hk (depth + 1), count_cons_of_kind hk hu rfl, helse.count_eq hk (depth + 1),
        hes.count_eq hk, nested, terms, starting_cons, tokenKind?]
      omega
  | _, _, _, .assign ht htarget ha hvalue, depth => by
      have htarget := htarget.count_eq hk
      rw [count_cons_of_kind hk ht rfl] at htarget
      simp [count_cons_of_kind hk ht rfl, htarget, ha.count_cons hk, hvalue.count_eq hk, nested,
        terms, starting_cons, tokenKind?]
  | _, _, _, .call ht hargs, depth => by
      simp [count_cons_of_kind hk ht rfl, hargs.count_eq hk, nested, terms, starting_cons,
        tokenKind?, Expr.literals_cons, Expr.subterms, Expr.tokenKind?]
  | _, _, _, .explicitCall ht hu hargs, depth => by
      simp [count_cons_of_kind hk ht rfl, Expr.count_cons_of_name hk hu rfl, hargs.count_eq hk,
        nested, terms, starting_cons, tokenKind?, Expr.literals_cons, Expr.subterms,
        Expr.tokenKind?]
  | _, _, _, .print ht hargs, depth => by
      simp [count_cons_of_kind hk ht rfl, hargs.count_eq hk, nested, terms, starting_cons,
        tokenKind?, Expr.literals_cons, Expr.subterms, Expr.tokenKind?]
  | _, _, _, .swapCall ht hargs, depth => by
      simp [count_cons_of_kind hk ht rfl, hargs.count_eq hk, nested, terms, starting_cons,
        tokenKind?, Expr.literals_cons, Expr.subterms, Expr.tokenKind?]
  | _, _, _, .swapWith ht hfirst hw hsecond, depth => by
      simp [count_cons_of_kind hk ht rfl, hfirst.count_eq hk, count_cons_of_kind hk hw rfl,
        hsecond.count_eq hk, nested, terms, starting_cons, tokenKind?, Expr.literals_cons,
        Expr.subterms, Expr.subtermsOf, Expr.tokenKind?]
  | _, _, _, .bareReturn ht, depth => by
      simp [count_cons_of_eq ht, nested, terms, starting_cons, tokenKind?, Expr.subtermsOf]
  | _, _, _, .valueReturn ht hvalue, depth => by
      simp [count_cons_of_eq ht, hvalue.count_eq hk, nested, terms, starting_cons, tokenKind?,
        Expr.subtermsOf, Nat.add_comm]

theorem Phrases.count_eq (hk : k.isCounted = true) :
    ∀ {ts : List Token} {next : Token} {ss : List Stmt}, Phrases ts next ss → ∀ d,
      count k ts = starting k (nestedOf d ss) + Expr.literals k (termsOf ss)
  | _, _, _, .nil, depth => rfl
  | _, _, _, .semicolon ht h, depth => by
      rw [count_cons_of_kind hk ht rfl, h.count_eq hk depth]
  | _, _, _, .cons hs hss, depth => by
      simp [hs.count_eq hk depth, hss.count_eq hk depth, nestedOf, termsOf]
      omega
  | _, _, _, .group hb hss, depth => by
      simp [hb.count_eq hk depth, hss.count_eq hk depth, nestedOf_append, termsOf_append]
      omega

/-- The statements of a block in `begin` and `end` are counted like those of a list. -/
theorem GroupPhrase.count_eq (hk : k.isCounted = true) :
    ∀ {ts : List Token} {b : Block}, GroupPhrase ts b → ∀ d,
      count k ts = starting k (nestedOf d b.stmts) + Expr.literals k (termsOf b.stmts)
  | _, _, .mk ht hstmts hu, depth => by
      simp [count_cons_of_kind hk ht rfl, hstmts.count_eq hk depth, count_cons_of_kind hk hu rfl,
        Block.stmts]

theorem BodyPhrase.count_eq (hk : k.isCounted = true) :
    ∀ {ts : List Token} {b : Block}, BodyPhrase ts b → ∀ d,
      count k ts = starting k (b.nested d) + Expr.literals k b.terms
  | _, .mk .., .group hb, depth => hb.count_eq hk depth
  | _, _, .bare hstmts hu, depth => by
      simp [hstmts.count_eq hk depth, count_cons_of_kind hk hu rfl, Block.nested, Block.terms]

theorem BranchPhrase.count_eq (hk : k.isCounted = true) :
    ∀ {opener : Token} {ts : List Token} {next : Token} {b : Block} {complete : Bool},
      BranchPhrase opener ts next b complete → ∀ d,
      count k ts = starting k (b.nested d) + Expr.literals k b.terms
  | _, _, _, .mk .., _, .group hb, depth => hb.count_eq hk depth
  | _, _, _, _, _, .single hs, depth => by
      simp [hs.count_eq hk depth, Block.nested, Block.terms, nestedOf, termsOf]
  | _, _, _, _, _, .unclosed hstmts, depth => by
      simp [hstmts.count_eq hk depth, Block.nested, Block.terms]

end

end Stmt

/-! ## Programs -/

namespace Procedure

open Token (count)

variable {k : Token.Kind} {kept ts : List Token}

theorem ParamsPhrase.count_eq (hk : k.isCounted = true) {params : List Param}
    (h : ParamsPhrase kept ts params) : count k kept = 0 := by
  induction h with
  | last ht _ => exact count_cons_of_kind hk ht rfl []
  | cons ht _ hu _ ih => rw [count_cons_of_kind hk ht rfl, count_cons_of_kind hk hu rfl, ih]

theorem ParamListPhrase.count_eq (hk : k.isCounted = true) {params : List Param}
    (h : ParamListPhrase kept ts params) : count k kept = 0 := by
  cases h with
  | none => rfl
  | some h => exact h.count_eq hk

theorem LeadPhrase.count_eq (hk : k.isCounted = true) (h : LeadPhrase ts) : count k ts = 0 := by
  cases h with
  | none => rfl
  | some ht => exact count_cons_of_kind hk ht rfl []

theorem Phrase.count_eq (hk : k.isCounted = true) {p : Procedure} (h : Phrase kept ts p) :
    count k kept = p.body.nodeCount k := by
  cases h with
  | mk hws hn ho hparams hc hbody =>
      have hb := hbody.count_eq hk 0
      rw [Stmt.starting] at hb
      simp only [count_append, hws.count_eq hk, Expr.count_cons_of_name hk hn rfl,
        count_cons_of_kind hk ho rfl, hparams.count_eq hk, count_cons_of_kind hk hc rfl, hb,
        Block.nodeCount, Block.within, List.countP_map, Nat.zero_add]
      rfl

theorem Phrases.count_eq (hk : k.isCounted = true) {procedures : List Procedure}
    (h : Phrases kept ts procedures) :
    count k kept = (procedures.map fun p => p.body.nodeCount k).sum := by
  induction h with
  | nil => rfl
  | cons hp _ ih => rw [count_append, hp.count_eq hk, ih, List.map_cons, List.sum_cons]

/-! ### Tokens outside of shapes -/

theorem ParamsPhrase.sublist {params : List Param} (h : ParamsPhrase kept ts params) :
    kept.Sublist ts := by
  induction h with
  | last _ _ => simp
  | cons _ _ _ _ ih => exact ((ih.cons_cons _).trans (List.sublist_append_right _ _)).cons_cons _

theorem Phrase.sublist {p : Procedure} (h : Phrase kept ts p) : kept.Sublist ts := by
  cases h with
  | mk _ _ _ hparams _ _ =>
      refine ((List.Sublist.append_right ?_ _).cons_cons _ |>.cons_cons _).append_left _
      cases hparams with
      | none => exact List.Sublist.refl []
      | some h => exact h.sublist

theorem Phrases.sublist {procedures : List Procedure} (h : Phrases kept ts procedures) :
    kept.Sublist ts := by
  induction h with
  | nil => exact List.Sublist.refl []
  | cons hp _ ih => exact hp.sublist.append ih

end Procedure

namespace Program

open Token (count)

variable {k : Token.Kind} {kept ts : List Token} {stop : Token} {p : Program}

theorem count_eq_zero (hk : k.isCounted = true) (h : ∀ t ∈ ts, t.kind.isCounted = false) :
    count k ts = 0 := by
  induction ts with
  | nil => rfl
  | cons t ts ih =>
      rw [count_cons_of_kind hk rfl (h t List.mem_cons_self),
        ih fun u hu => h u (List.mem_cons_of_mem t hu)]

/-- There are as many nodes of each kind as there are tokens outside of the shapes. -/
theorem Phrase.count_eq (hk : k.isCounted = true) (h : Phrase kept ts stop p) :
    count k kept = p.nodeCount k := by
  cases h with
  | @withMain ss kept us before bs main gs kept' vs after stop hss hbefore hmain hgs hafter =>
      have hb := (Stmt.BodyPhrase.group hmain).count_eq hk 0
      rw [Stmt.starting] at hb
      have hss : count k ss = 0 := count_eq_zero hk fun t ht => by rw [hss t ht]; rfl
      have hgs : count k gs = 0 := by
        refine count_eq_zero hk fun t ht => ?_
        rcases hgs t ht with h | h <;> rw [h] <;> rfl
      have hmain : count k bs = main.nodeCount k := by
        rw [hb, Block.nodeCount, Block.within, List.countP_map]
        rfl
      simp [hss, hgs, hmain, hbefore.count_eq hk, hafter.count_eq hk, nodeCount, blocks,
        Function.comp_def]
      omega
  | @withoutMain ss kept us procedures stop hss hprocedures =>
      have hss : count k ss = 0 := count_eq_zero hk fun t ht => by rw [hss t ht]; rfl
      simp [hss, hprocedures.count_eq hk, nodeCount, blocks, Function.comp_def]

theorem Phrase.sublist (h : Phrase kept ts stop p) : kept.Sublist ts := by
  cases h with
  | withMain _ hbefore _ _ hafter =>
      exact ((hbefore.sublist.append ((hafter.sublist.append_left _).append_left _))).append_left _
  | withoutMain _ hprocedures => exact hprocedures.sublist.append_left _

/-- **Nothing is lost and nothing is used twice.** No token list uses up a bound: every loop of the
reading stops, and every nesting ends, before there are no more tokens. A list that is read as a
program is read up to its end token. Its tokens are those of a phrase for the program, and outside
of the shapes of parameters there are as many tokens of each kind that is counted as the program has
nodes. -/
theorem ofTokens_counts {body : List Token} {last : Token} (hbody : ∀ t ∈ body, t.kind ≠ .eof)
    (hlast : last.kind = .eof) :
    ofTokens (body ++ [last]) ≠ .error .exhausted
      ∧ ∀ p, ofTokens (body ++ [last]) = .ok p →
        read.run ⟨body, last⟩ = .ok (p, ⟨[], last⟩)
          ∧ ∃ kept, Phrase kept body last p ∧ kept.Sublist body
            ∧ ∀ k : Token.Kind, k.isCounted = true → count k kept = p.nodeCount k := by
  constructor
  · intro h
    rcases ofTokens_fault hbody hlast h with ⟨_, _, hmismatch, -⟩ | ⟨_, hnumeral, -⟩
    · cases hmismatch
    · cases hnumeral
  · intro p h
    obtain ⟨kept, hphrase, hrun⟩ := phrase_of_ofTokens hbody hlast h
    exact ⟨hrun, kept, hphrase, hphrase.sublist, fun k hk => hphrase.count_eq hk⟩

/-- The tokens of `f(a[1..n]) for i <- 1 to n do begin begin return 2 end end end`. -/
def shapedTokens : List Token :=
  let mark (k : Token.Kind) : Token := { kind := k }
  let name (c : UInt8) : Token := { kind := .ident, text := [c], lexeme := [c] }
  let numeral (c : UInt8) : Token := { kind := .number, text := [c], lexeme := [c] }
  [name 102, mark .lparen, name 97, mark .lbracket, numeral 49, mark .dotDot, name 110,
    mark .rbracket, mark .rparen, mark .forWord, name 105, mark .assign, numeral 49, mark .toWord,
    name 110, mark .doWord, mark .beginWord, mark .beginWord, mark .returnWord, numeral 50,
    mark .endWord, mark .endWord, mark .endWord]

theorem ofTokens_counts_shaped :
    ∃ p, ofTokens (shapedTokens ++ [{ kind := .eof }]) = .ok p
      ∧ count .number shapedTokens = 3 ∧ p.nodeCount .number = 2
      ∧ ∃ kept, Phrase kept shapedTokens { kind := .eof } p
        ∧ ∀ k : Token.Kind, k.isCounted = true → count k kept = p.nodeCount k := by
  have h := (ofTokens_counts (by decide : ∀ t ∈ shapedTokens, t.kind ≠ .eof)
    (rfl : ({ kind := .eof } : Token).kind = .eof)).2
  have hok : (ofTokens (shapedTokens ++ [{ kind := .eof }])).toOption.map (nodeCount .number)
      = some 2 := by decide +kernel
  cases hrun : ofTokens (shapedTokens ++ [{ kind := .eof }]) with
  | error e =>
      rw [hrun] at hok
      cases hok
  | ok p =>
      rw [hrun] at hok
      obtain ⟨-, kept, hphrase, -, hcount⟩ := h p hrun
      exact ⟨p, rfl, by decide, Option.some.inj hok, kept, hphrase, hcount⟩

end Program

end PseudoCost
