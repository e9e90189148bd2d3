import PseudoCost.Proofs.Operations

/-!
# Assumptions are never silent

A verdict that rests on a guess is marked as `assumed`, and a remark says what was guessed. The mark
and the remarks are set in different places and handed on in different ways, yet they stay together
(`Verdict.Discloses`): a remark on a guess comes with the mark, the mark comes with a remark that
explains it, and nothing is said twice.

Remarks are only ever added, one by one, and a remark that was there before is not added again. So
after adding, the kinds are those from before and the new one (`anyOf_add`), whether or not the list
grew. With that, the ways of combining verdicts come down to three steps: to take over what another
verdict says, to add a remark that is about no guess, and to add one that explains a guess together
with the mark. Everything else follows by the closure principle for costs, and along the calls by
`verdictOn_induction`.
-/

namespace PseudoCost

open Recurrence

/-! ## Lists of remarks -/

namespace Remark

/-- A remark that is left out is of a kind that is there already. -/
theorem anyOf_add (remarks : List Remark) (r : Remark) (kind : RemarkKind) :
    anyOf (add remarks r) kind = (anyOf remarks kind || r.kind == kind) := by
  rw [add]
  split
  · rename_i h
    obtain ⟨s, hs, hsr⟩ := List.any_eq_true.mp h
    obtain ⟨hkind, -⟩ : s.kind = r.kind ∧ s.text = r.text := by simpa [equivalent] using hsr
    by_cases hr : r.kind = kind
    · have hany : anyOf remarks kind = true :=
        List.any_eq_true.mpr ⟨s, hs, by simp [hkind, hr]⟩
      rw [hany, Bool.true_or]
    · simp [hr]
  · simp [anyOf]

theorem anyOf_addAll (kind : RemarkKind) : ∀ more remarks : List Remark,
    anyOf (addAll remarks more) kind = (anyOf remarks kind || anyOf more kind)
  | [], remarks => by simp [addAll, anyOf]
  | r :: more, remarks => by
      have ih := anyOf_addAll kind more (add remarks r)
      rw [addAll, List.foldl_cons, ← addAll, ih, anyOf_add, Bool.or_assoc]
      rfl

/-- No two remarks say the same. -/
def Distinct (remarks : List Remark) : Prop :=
  remarks.Pairwise fun a b => a.equivalent b = false

variable {remarks : List Remark}

theorem Distinct.add (h : Distinct remarks) (r : Remark) : Distinct (Remark.add remarks r) := by
  rw [Remark.add]
  split
  · exact h
  · rename_i hnew
    refine List.pairwise_append.mpr ⟨h, List.pairwise_singleton _ _, fun a ha b hb => ?_⟩
    obtain rfl := List.mem_singleton.mp hb
    rw [Bool.not_eq_true] at hnew
    exact Bool.eq_false_iff.mpr (List.any_eq_false.mp hnew a ha)

theorem Distinct.addAll (h : Distinct remarks) (more : List Remark) :
    Distinct (Remark.addAll remarks more) :=
  List.foldlRecOn more _ h fun _ hacc r _ => hacc.add r

end Remark

/-! ## Verdicts that disclose their guesses -/

/-- Whether a remark of the kind is made of a guess only. -/
def RemarkKind.isGuess : RemarkKind → Bool
  | .unresolvedProgress | .callInsideLoop => true
  | _ => false

/-- Whether a remark of the kind can explain a guess. -/
def RemarkKind.explains : RemarkKind → Bool
  | .unresolvedProgress | .callInsideLoop | .earlyExit | .recursivePattern => true
  | _ => false

namespace Verdict

variable {R : Type}

/-- A verdict discloses its guesses: a remark on a guess comes with the mark, the mark comes with a
remark that explains it, and no two remarks say the same. -/
structure Discloses (v : Verdict R) : Prop where
  marked : ∀ kind : RemarkKind, kind.isGuess = true → v.has kind = true → v.assumed = true
  explained : v.assumed = true → ∃ kind : RemarkKind, kind.explains = true ∧ v.has kind = true
  distinct : Remark.Distinct v.remarks

variable {v w : Verdict R} {kind k : RemarkKind} {text : Text} {line : Int}

theorem has_remark : (v.remark kind text line).has k = (v.has k || kind == k) :=
  Remark.anyOf_add _ _ _

theorem has_merge : (v.merge w).has k = (v.has k || w.has k) := Remark.anyOf_addAll _ _ _

namespace Discloses

theorem merge (hv : v.Discloses) (hw : w.Discloses) : (v.merge w).Discloses where
  marked k hk hhas := by
    rw [has_merge, Bool.or_eq_true] at hhas
    exact Bool.or_eq_true_iff.mpr (hhas.imp (hv.marked k hk) (hw.marked k hk))
  explained hassumed := by
    rcases Bool.or_eq_true_iff.mp hassumed with h | h
    · obtain ⟨k, hk, hhas⟩ := hv.explained h
      exact ⟨k, hk, by rw [has_merge, hhas, Bool.true_or]⟩
    · obtain ⟨k, hk, hhas⟩ := hw.explained h
      exact ⟨k, hk, by rw [has_merge, hhas, Bool.or_true]⟩
  distinct := hv.distinct.addAll _

/-- What a verdict says does not depend on its cases. -/
theorem withCases (hv : v.Discloses) (cases : Cases R) :
    ({ v with cases := cases } : Verdict R).Discloses :=
  ⟨hv.marked, hv.explained, hv.distinct⟩

/-- A verdict that says nothing has nothing to disclose. -/
theorem silent (cases : Cases R) : ({ cases := cases } : Verdict R).Discloses :=
  ⟨fun _ _ h => absurd h Bool.false_ne_true, fun h => absurd h Bool.false_ne_true,
    List.Pairwise.nil⟩

theorem onto (hv : v.Discloses) (cases : Cases R) : (Verdict.onto cases v).Discloses :=
  (silent cases).merge hv

/-- A remark that is about no guess changes nothing. -/
theorem remark (hv : v.Discloses) (hkind : kind.isGuess = false) (text : Text) (line : Int) :
    (v.remark kind text line).Discloses where
  marked k hk hhas := by
    rw [has_remark, Bool.or_eq_true] at hhas
    rcases hhas with hhas | hsame
    · exact hv.marked k hk hhas
    · rw [← eq_of_beq hsame, hkind] at hk
      exact absurd hk Bool.false_ne_true
  explained hassumed := by
    obtain ⟨k, hk, hhas⟩ := hv.explained hassumed
    exact ⟨k, hk, by rw [has_remark, hhas, Bool.true_or]⟩
  distinct := hv.distinct.add _

/-- A guess is disclosed by a remark that explains it, made together with the mark. -/
theorem guess (hv : v.Discloses) (hkind : kind.explains = true) (text : Text) (line : Int) :
    (v.remark kind text line).assume.Discloses where
  marked _ _ _ := rfl
  explained _ := by
    have hhas : (v.remark kind text line).has kind = true := by
      rw [has_remark, beq_self_eq_true, Bool.or_true]
    exact ⟨kind, hkind, hhas⟩
  distinct := hv.distinct.add _

/-! ## Recursive procedures -/

section Recursive

variable {p : Procedure} {own : Verdict R}

theorem pattern (hv : v.Discloses) (p : Procedure) (text : Text) : (v.pattern p text).Discloses :=
  hv.remark rfl _ _

/-- A guessed pattern explains itself: the mark may as well be set after the remark. -/
theorem assume_pattern (hv : v.Discloses) (p : Procedure) (text : Text) :
    (v.assume.pattern p text).Discloses :=
  hv.guess (show RemarkKind.recursivePattern.explains = true from rfl) _ _

variable [Scalar R] (hown : own.Discloses)
include hown

theorem splitting (p : Procedure) (calls : Int) : (Verdict.splitting p own calls).Discloses :=
  ((hown.onto _).remark rfl _ _).pattern p _

theorem dividing (p : Procedure) (calls : Int) (terms : List (Term R)) :
    (Verdict.dividing p own calls terms).Discloses := by
  simp only [Verdict.dividing]
  split <;> exact ((hown.onto _).remark rfl _ _).pattern p _

theorem subtracting (p : Procedure) (calls : Int) (terms : List (Term R)) :
    (Verdict.subtracting p own calls terms).Discloses := by
  -- Whichever way the growth is found, all that is said is the name of the pattern.
  simp only [Verdict.subtracting]
  split
  · exact (hown.onto _).pattern p _
  · split
    · exact (hown.onto _).pattern p _
    · split <;> exact (hown.onto _).pattern p _

/-- The verdict on a recursive procedure takes over what its own work says and names the pattern;
where the pattern is a guess, its name is the explanation. -/
theorem recursive (g : CallGraph) (p : Procedure) : (own.recursive g p).Discloses := by
  simp only [Verdict.recursive]
  split
  · exact (hown.onto _).assume_pattern p _
  split
  · exact (hown.onto _).assume_pattern p _
  split
  · exact (hown.onto _).assume_pattern p _
  split
  · exact hown.splitting p _
  split
  · exact hown.dividing p _ _
  split
  · exact hown.subtracting p _ _
  · exact (hown.onto _).assume_pattern p _

theorem ofBody (g : CallGraph) (p : Procedure) : (Verdict.ofBody g p own).Discloses := by
  rw [Verdict.ofBody]
  split
  · exact hown.recursive g p
  · exact hown

end Recursive

theorem withSolved (hv : v.Discloses) (solved : Option (Cases R)) :
    (v.withSolved solved).Discloses := by
  cases solved with
  | none => exact hv
  | some cases => exact hv.withCases cases

/-! ## Statements -/

theorem remarkProgress (hv : v.Discloses) (shape : LoopShape) (line : Int) :
    (v.remarkProgress shape line).Discloses := by
  rw [Verdict.remarkProgress]
  split
  · exact hv.remark rfl _ _
  · exact hv.guess rfl _ _
  · exact hv.guess rfl _ _
  · exact hv
  · exact hv

variable [Scalar R]

theorem repeated (hv : v.Discloses) (shape : LoopShape) (line : Int) :
    (v.repeated shape line).Discloses := by
  simp only [Verdict.repeated]
  split
  · exact ((hv.onto _).remarkProgress shape line).remark rfl _ _
  · exact (hv.onto _).remarkProgress shape line

theorem sequence (hv : v.Discloses) (hw : w.Discloses) : (v.sequence w).Discloses :=
  (hv.merge hw).withCases _

/-- Every way of combining costs keeps guesses disclosed. -/
theorem closed : Costing.Closed (Discloses : Verdict R → Prop) where
  constant := silent _
  insideLoop _ _ hv := hv.guess rfl _ _
  sequence hv hw := hv.sequence hw
  repeated shape line hv := hv.repeated shape line
  branched hc ht he := hc.sequence ((ht.onto _).merge he)

end Discloses

end Verdict

/-! ## Engines -/

namespace Engine

variable {R : Type} [Scalar R] {p : Program} {solved : Name → Option (Cases R)}

theorem discloses_verdictOn (n : Name) : (verdictOn p solved n).Discloses :=
  verdictOn_induction Verdict.Discloses.closed (fun n q hq hown => by
    rw [verdictOn_eq hq]
    exact (hown.ofBody _ q).withSolved _) n

theorem discloses_programVerdict : (programVerdict p solved).Discloses :=
  programVerdict_of_closed Verdict.Discloses.closed discloses_verdictOn

/-- **Assumptions are never silent.** After any operations, solved costs put in force among them,
the verdicts of an engine on the program and on every procedure disclose their guesses. -/
theorem analyze_discloses (p : Program) (ops : List (Operation R)) :
    (analyze.run (after p ops)).run.1.Discloses
      ∧ ∀ n, ((procedure n).run (after p ops)).run.1.Discloses := by
  have hafter := faithful_foldl ops (faithful_ofProgram p)
  constructor
  · obtain ⟨_, h, -⟩ := runProgram_gives (m := Id) Verdict.constant _ hafter
    rw [analyze, after, h]
    exact discloses_programVerdict
  · intro n
    obtain ⟨_, h, -⟩ := runProcedure_gives (m := Id) Verdict.constant n _ hafter
    rw [procedure, after, h]
    exact discloses_verdictOn n

end Engine

end PseudoCost
