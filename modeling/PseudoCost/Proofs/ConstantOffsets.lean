import PseudoCost.Recurrence.SizeChange
import PseudoCost.Proofs.Reals

/-!
# Arguments that are a parameter with literals added and taken away

Such an argument stands for the parameter moved by the sum of its signed literals. The comparison
with the parameter keeps one amount for it: at each literal the larger of the amount so far and the
literal without its sign (`Keeps.shifted`). So a self-call is read as a change by the largest
literal of its argument. For a single literal that is the net change: `P(n - 3)` takes off three.
For several it need not be: `P(n - 1 - 1)` and `P(n - 1 + 1)` both count as taking off one.
-/

namespace PseudoCost

/-! ## The order of exact ratios -/

namespace Exact

/-- The value of a number that can be written: a ratio with a denominator. -/
def IsRatio : Exact → Prop
  | .finite _ _ den => 0 < den
  | _ => False

/-- The numerator with the sign of the ratio. -/
def signedNum (negative : Bool) (num : Nat) : Int := if negative then -num else num

theorem real_finite (negative : Bool) (num den : Nat) :
    (Exact.finite negative num den).real = (signedNum negative num : ℝ) / den := by
  cases negative
  · simp [Exact.real, signedNum]
  · simp [Exact.real, signedNum, neg_div]

/-- Ratios are compared by multiplying crosswise. -/
theorem below_iff {x y : Exact} (hx : x.IsRatio) (hy : y.IsRatio) :
    x.below y = true ↔ x.real < y.real := by
  cases x with
  | infinite | nan => exact hx.elim
  | finite s num den =>
    cases y with
    | infinite | nan => exact hy.elim
    | finite s' num' den' =>
      have hden : (0 : ℝ) < den := Nat.cast_pos.mpr hx
      have hden' : (0 : ℝ) < den' := Nat.cast_pos.mpr hy
      have hcross : (Exact.finite s num den).below (.finite s' num' den')
          = decide (signedNum s num * den' < signedNum s' num' * den) := by
        cases s <;> cases s' <;> simp [below, signedNum]
      rw [hcross, decide_eq_true_iff, real_finite, real_finite, div_lt_div_iff₀ hden hden']
      exact_mod_cast Iff.rfl

theorem IsRatio.larger {x y : Exact} (hx : x.IsRatio) (hy : y.IsRatio) :
    (x.larger y).IsRatio := by
  rw [Exact.larger]
  split
  · exact hy
  · exact hx

theorem larger_real {x y : Exact} (hx : x.IsRatio) (hy : y.IsRatio) :
    (x.larger y).real = max x.real y.real := by
  by_cases h : x.below y = true
  · rw [Exact.larger, if_pos h, max_eq_right ((below_iff hx hy).mp h).le]
  · rw [Exact.larger, if_neg h, max_eq_left (not_lt.mp fun hlt => h ((below_iff hx hy).mpr hlt))]

theorem IsRatio.magnitude {x : Exact} (hx : x.IsRatio) : x.magnitude.IsRatio := by
  cases x with
  | infinite | nan => exact hx.elim
  | finite s num den => exact hx

theorem magnitude_real (x : Exact) : x.magnitude.real = |x.real| := by
  cases x with
  | infinite | nan => simp [Exact.magnitude, Exact.real]
  | finite s num den =>
    have hnonneg : (0 : ℝ) ≤ (num : ℝ) / den := by positivity
    cases s
    · exact (abs_of_nonneg hnonneg).symm
    · exact ((abs_neg _).trans (abs_of_nonneg hnonneg)).symm

theorem exceeds_zero_iff {x : Exact} (hx : x.IsRatio) : x.exceeds 0 = true ↔ 0 < x.real := by
  cases x with
  | infinite | nan => exact hx.elim
  | finite s num den =>
    have hden : (0 : ℝ) < den := Nat.cast_pos.mpr hx
    cases s
    · simp [exceeds, Exact.real, div_pos_iff_of_pos_right hden]
    · simpa [exceeds, Exact.real] using div_nonneg (Nat.cast_nonneg num) hden.le

end Exact

/-- The largest of some ratios is one of them, and no other is above it. -/
theorem SizeChange.foldl_larger_greatest {xs : List Exact} :
    ∀ {x : Exact}, x.IsRatio → (∀ y ∈ xs, y.IsRatio) →
      xs.foldl Exact.larger x ∈ x :: xs ∧
        ∀ y ∈ x :: xs, y.real ≤ (xs.foldl Exact.larger x).real := by
  induction xs with
  | nil => exact fun _ _ => ⟨List.mem_cons_self, fun y hy => List.mem_singleton.mp hy ▸ le_rfl⟩
  | cons z zs ih =>
    intro x hx hzs
    have hz : z.IsRatio := hzs z List.mem_cons_self
    obtain ⟨hmem, hgreatest⟩ := ih (hx.larger hz) fun y hy => hzs y (List.mem_cons_of_mem _ hy)
    have htop : max x.real z.real ≤ ((z :: zs).foldl Exact.larger x).real :=
      Exact.larger_real hx hz ▸ hgreatest _ List.mem_cons_self
    constructor
    · rw [List.foldl_cons]
      rcases List.mem_cons.mp hmem with heq | hin
      · rw [heq, Exact.larger]
        split <;> simp
      · exact List.mem_cons_of_mem _ (List.mem_cons_of_mem _ hin)
    · intro y hy
      rcases List.mem_cons.mp hy with rfl | hy
      · exact (le_max_left _ _).trans htop
      · rcases List.mem_cons.mp hy with rfl | hy
        · exact (le_max_right _ _).trans htop
        · exact hgreatest y (List.mem_cons_of_mem _ hy)

theorem SizeChange.largest?_greatest {xs : List Exact} (hxs : ∀ y ∈ xs, y.IsRatio) {m : Exact}
    (hm : largest? xs = some m) : m ∈ xs ∧ ∀ y ∈ xs, y.real ≤ m.real := by
  cases xs with
  | nil => exact nomatch hm
  | cons x xs =>
    obtain rfl : xs.foldl Exact.larger x = m := Option.some.inj hm
    exact foldl_larger_greatest (hxs x List.mem_cons_self)
      fun y hy => hxs y (List.mem_cons_of_mem _ hy)

/-! ## A name moved by literals -/

/-- An expression that adds literals to a name and takes literals away, in any order and with the
literals of a sum on either side. The list has what each literal moves the name by, the outermost
first. -/
inductive Expr.Shifts (n : Name) : List ℝ → Expr → Prop
  | name (pos : Pos) : Shifts n [] (.name pos n)
  | add {cs : List ℝ} {lhs rhs : Expr} {c : Exact} (pos : Pos) :
      Shifts n cs lhs → rhs.number? = some c → c.IsRatio →
      Shifts n (c.real :: cs) (.binary pos .add lhs rhs)
  | addTo {cs : List ℝ} {lhs rhs : Expr} {c : Exact} (pos : Pos) :
      lhs.number? = some c → c.IsRatio → Shifts n cs rhs →
      Shifts n (c.real :: cs) (.binary pos .add lhs rhs)
  | sub {cs : List ℝ} {lhs rhs : Expr} {c : Exact} (pos : Pos) :
      Shifts n cs lhs → rhs.number? = some c → c.IsRatio →
      Shifts n (-c.real :: cs) (.binary pos .sub lhs rhs)

/-- A name moved by literals is not a literal itself. -/
theorem Expr.Shifts.number?_eq_none {n : Name} {cs : List ℝ} {e : Expr} (h : e.Shifts n cs) :
    e.number? = none := by
  cases h <;> rfl

/-- The largest of some offsets without their signs; zero if there are none. -/
noncomputable def widest (cs : List ℝ) : ℝ := cs.foldr (fun c w => max w |c|) 0

@[simp] theorem widest_nil : widest [] = 0 := rfl

@[simp] theorem widest_cons (c : ℝ) (cs : List ℝ) : widest (c :: cs) = max (widest cs) |c| := rfl

theorem widest_nonneg (cs : List ℝ) : 0 ≤ widest cs := by
  induction cs with
  | nil => exact le_rfl
  | cons c cs ih => exact le_max_of_le_left ih

/-- A sum as far from zero as the wider of its summands has a summand zero. -/
theorem zero_of_abs_eq_abs_add {c d : ℝ} (hwider : |d| ≤ |c|) (h : |c| = |c + d|) :
    c = 0 ∨ d = 0 := by
  rcases abs_eq_abs.mp h with hsame | hopposite
  · exact Or.inr (by linarith)
  · -- the sum stands on the other side, which takes twice as much
    have hd : d = -(2 * c) := by linarith
    rw [hd, abs_neg, abs_mul, abs_two] at hwider
    exact Or.inl (abs_eq_zero.mp (le_antisymm (by linarith) (abs_nonneg c)))

/-- The wider of two offsets is their sum, but for the sign, only if one of them is zero. -/
theorem widest_pair_iff (c d : ℝ) : widest [c, d] = |c + d| ↔ c = 0 ∨ d = 0 := by
  have hwidest : widest [c, d] = max |d| |c| := by simp
  rw [hwidest]
  constructor
  · intro h
    rcases le_total |d| |c| with hdc | hcd
    · rw [max_eq_right hdc] at h
      exact zero_of_abs_eq_abs_add hdc h
    · rw [max_eq_left hcd, add_comm] at h
      exact (zero_of_abs_eq_abs_add hcd h).symm
  · rintro (rfl | rfl) <;> simp

namespace ArgShape

/-- The shape keeps an amount for the parameter it was compared with, none being zero. -/
def Keeps (w : ℝ) : ArgShape → Prop
  | .same => w = 0
  | .offset amount => amount.IsRatio ∧ amount.real = w
  | _ => False

/-- A literal raises the amount that is kept to its own. -/
theorem Keeps.shifted {w : ℝ} {shape : ArgShape} (h : shape.Keeps w) {c : Exact}
    (hc : c.IsRatio) : (shape.shifted c).Keeps (max w |c.real|) := by
  cases shape with
  | same =>
    have hzero : (Exact.finite false 0 1).IsRatio := Nat.one_pos
    refine ⟨hzero.larger hc.magnitude, ?_⟩
    rw [Exact.larger_real hzero hc.magnitude, Exact.magnitude_real, show w = 0 from h]
    simp [Exact.real]
  | offset amount =>
    obtain ⟨hamount, rfl⟩ := h
    exact ⟨hamount.larger hc.magnitude, by
      rw [Exact.larger_real hamount hc.magnitude, Exact.magnitude_real]⟩
  | divided | midpoint | split | other | unrelated => exact h.elim

/-- Compared with its parameter, an argument keeps its largest literal. By induction on the
argument, a literal at a time. -/
theorem classify_shifts (p : Procedure) (facts : SizeFacts) {n : Name} {cs : List ℝ} {e : Expr}
    (h : e.Shifts n cs) : (classify p facts n e).Keeps (widest cs) := by
  induction h with
  | name pos => simp [classify, ofName, Keeps]
  | add pos _ hrhs hc ih =>
    simp only [classify, hrhs]
    exact ih.shifted hc
  | addTo pos hlhs hc hrhs ih =>
    simp only [classify, hlhs, hrhs.number?_eq_none]
    exact ih.shifted hc
  | sub pos _ hrhs hc ih =>
    simp only [classify, hrhs]
    rw [widest_cons, abs_neg]
    exact ih.shifted hc

end ArgShape

/-! ## The change a self-call makes -/

namespace SizeChange

variable {ε : ℝ}

/-- The size moved by a constant: the size itself if the constant is zero, and otherwise the size
less the constant without its sign. -/
noncomputable def byConstant (c : ℝ) : SizeChange (Tolerant ε) :=
  open Classical in if c = 0 then same else subtract ⟨|c|⟩

theorem byConstant_inj {c d : ℝ} :
    (byConstant c : SizeChange (Tolerant ε)) = byConstant d ↔ |c| = |d| := by
  by_cases hc : c = 0 <;> by_cases hd : d = 0 <;>
    simp [byConstant, hc, hd, same, subtract, eq_comm]

section Shapes

variable {shapes : List ArgShape} {m : ℝ}

/-- Where every argument keeps an amount, only offsets decide. -/
theorem ofShapes_of_keeps (h : ∀ s ∈ shapes, ∃ w, s.Keeps w) :
    (ofShapes shapes : SizeChange (Tolerant ε))
      = ((largest? (shapes.filterMap ArgShape.offset?)).filter (Exact.exceeds 0)).elim same
          fun c => subtract (Scalar.ofExact c) := by
  have hshape : ∀ s ∈ shapes, s.divided? = none ∧ s ≠ .midpoint ∧ s ≠ .split ∧ s ≠ .other := by
    intro s hs
    obtain ⟨w, hw⟩ := h s hs
    cases s with
    | same | offset => simp [ArgShape.divided?]
    | divided | midpoint | split | other | unrelated => exact hw.elim
  have hdivided : largest? (shapes.filterMap ArgShape.divided?) = none := by
    rw [List.filterMap_eq_nil_iff.mpr fun s hs => (hshape s hs).1]
    rfl
  have hmidpoint : shapes.contains .midpoint = false := by
    simpa using fun hs => (hshape _ hs).2.1 rfl
  have hsplit : shapes.contains .split = false := by
    simpa using fun hs => (hshape _ hs).2.2.1 rfl
  have hother : shapes.contains .other = false := by
    simpa using fun hs => (hshape _ hs).2.2.2 rfl
  simp only [ofShapes, hdivided, hmidpoint, hsplit, hother, Bool.false_eq_true, if_false]
  cases (largest? (shapes.filterMap ArgShape.offset?)).filter (Exact.exceeds 0) with
  | none => rfl
  | some c => rfl

theorem offsets_bounded (h : ∀ s ∈ shapes, ∃ w ≤ m, s.Keeps w) {a : Exact}
    (ha : a ∈ shapes.filterMap ArgShape.offset?) : a.IsRatio ∧ a.real ≤ m := by
  obtain ⟨s, hs, hsa⟩ := List.mem_filterMap.mp ha
  obtain ⟨w, hwm, hw⟩ := h s hs
  cases s with
  | offset amount =>
    obtain rfl : amount = a := Option.some.inj hsa
    exact ⟨hw.1, hw.2.trans_le hwm⟩
  | same | divided | midpoint | split | other | unrelated => exact nomatch hsa

/-- If the largest of the amounts is above zero, it is that of an offset, since the parameter itself
keeps zero. -/
theorem exists_largest_offset (hpos : 0 < m) (hle : ∀ s ∈ shapes, ∃ w ≤ m, s.Keeps w)
    (hex : ∃ s ∈ shapes, s.Keeps m) :
    ∃ top, largest? (shapes.filterMap ArgShape.offset?) = some top ∧ top.IsRatio
      ∧ top.real = m := by
  obtain ⟨s, hs, hkeeps⟩ := hex
  obtain ⟨a, ha, hreal⟩ : ∃ a ∈ shapes.filterMap ArgShape.offset?, a.real = m := by
    cases s with
    | same => exact absurd hkeeps hpos.ne'
    | offset amount => exact ⟨amount, List.mem_filterMap.mpr ⟨_, hs, rfl⟩, hkeeps.2⟩
    | divided | midpoint | split | other | unrelated => exact hkeeps.elim
  obtain ⟨top, htop⟩ : ∃ top, largest? (shapes.filterMap ArgShape.offset?) = some top := by
    cases hlist : shapes.filterMap ArgShape.offset? with
    | nil => simp [hlist] at ha
    | cons x xs => exact ⟨_, rfl⟩
  obtain ⟨hmem, hgreatest⟩ := largest?_greatest (fun a ha => (offsets_bounded hle ha).1) htop
  obtain ⟨hratio, htople⟩ := offsets_bounded hle hmem
  exact ⟨top, htop, hratio, le_antisymm htople (hreal ▸ hgreatest a ha)⟩

/-- Arguments that keep amounts change the size by the largest of these. -/
theorem ofShapes_eq_byConstant (hm : 0 ≤ m) (hle : ∀ s ∈ shapes, ∃ w ≤ m, s.Keeps w)
    (hex : ∃ s ∈ shapes, s.Keeps m) :
    (ofShapes shapes : SizeChange (Tolerant ε)) = byConstant m := by
  rw [ofShapes_of_keeps fun s hs => (hle s hs).imp fun _ h => h.2]
  rcases hm.eq_or_lt with rfl | hpos
  · -- no offset is above zero
    have hnone : (largest? (shapes.filterMap ArgShape.offset?)).filter (Exact.exceeds 0)
        = none := by
      refine Option.filter_eq_none_iff.mpr fun a ha habove => ?_
      have hmem := (largest?_greatest (fun a ha => (offsets_bounded hle ha).1) ha).1
      obtain ⟨hratio, hle0⟩ := offsets_bounded hle hmem
      exact absurd ((Exact.exceeds_zero_iff hratio).mp habove) (not_lt.mpr hle0)
    rw [hnone]
    exact (if_pos rfl).symm
  · obtain ⟨top, htop, hratio, hreal⟩ := exists_largest_offset hpos hle hex
    have habove : top.exceeds 0 = true := (Exact.exceeds_zero_iff hratio).mpr (hreal ▸ hpos)
    rw [htop, Option.filter_some_pos habove, byConstant, if_neg hpos.ne', abs_of_pos hpos]
    exact congrArg (fun x : ℝ => subtract (⟨x⟩ : Tolerant ε)) hreal

end Shapes

end SizeChange

/-- A call moves the parameter at a place by literals and hands every other one on as it is. -/
structure Call.ShiftsAt (call : Call) (p : Procedure) (k : Nat) (cs : List ℝ) : Prop where
  moved : ∃ q e, p.params[k]? = some q ∧ call.args[k]? = some e ∧ e.Shifts q.name cs
  unchanged : ∀ i ≠ k, ∀ q, p.params[i]? = some q →
    call.args[i]?.bind Expr.name? = some q.name

namespace SizeChange

variable {ε : ℝ}

/-- A parameter that is handed on keeps no amount. -/
theorem classify_of_name? (p : Procedure) (facts : SizeFacts) {n : Name} {e : Expr}
    (h : e.name? = some n) : ArgShape.classify p facts n e = .same := by
  cases e with
  | name pos m =>
    obtain rfl : m = n := Option.some.inj h
    simp [ArgShape.classify, ArgShape.ofName]
  | _ => exact nomatch h

/-- Whatever is known of the locals, the largest literal is the change: the parameter at the place
keeps it, and the other ones keep nothing. -/
theorem ofCall_eq_byConstant {p : Procedure} {call : Call} {k : Nat} {cs : List ℝ}
    (h : call.ShiftsAt p k cs) (facts : SizeFacts) :
    (ofCall p facts call : SizeChange (Tolerant ε)) = byConstant (widest cs) := by
  obtain ⟨q, e, hq, he, hcs⟩ := h.moved
  have hmoved := ArgShape.classify_shifts p facts hcs
  refine ofShapes_eq_byConstant (widest_nonneg cs) (fun s hs => ?_) ⟨_, ?_, hmoved⟩
  · obtain ⟨i, hi⟩ := List.mem_iff_getElem?.mp hs
    obtain ⟨q', e', hq', he', rfl⟩ := List.getElem?_zipWith_eq_some.mp hi
    by_cases hik : i = k
    · subst hik
      obtain rfl : q = q' := Option.some.inj (hq.symm.trans hq')
      obtain rfl : e = e' := Option.some.inj (he.symm.trans he')
      exact ⟨_, le_rfl, hmoved⟩
    · have hname : e'.name? = some q'.name := by
        simpa [he'] using h.unchanged i hik q' hq'
      rw [classify_of_name? p facts hname]
      exact ⟨0, widest_nonneg cs, rfl⟩
  · exact List.mem_iff_getElem?.mpr ⟨k, List.getElem?_zipWith_eq_some.mpr ⟨q, e, hq, he, rfl⟩⟩

/-- **A call that moves one parameter by literals.** It is read as a change by the largest literal.
So the net change is read exactly if this is what the signed literals add up to, without the sign:
always for a single literal, and for two only if one of them is zero. -/
theorem ofCall_shiftsAt {p : Procedure} {call : Call} {k : Nat} {cs : List ℝ}
    (h : call.ShiftsAt p k cs) :
    let change : SizeChange (Tolerant ε) := ofCall p (SizeFacts.ofProcedure p) call
    change = byConstant (widest cs)
    ∧ (change = byConstant cs.sum ↔ widest cs = |cs.sum|)
    ∧ (∀ c, cs = [c] → change = byConstant c)
    ∧ ∀ c d, cs = [c, d] → (change = byConstant (c + d) ↔ c = 0 ∨ d = 0) := by
  intro change
  have hwidest : change = byConstant (widest cs) := ofCall_eq_byConstant h _
  have hnet : ∀ c, change = byConstant c ↔ widest cs = |c| := fun c => by
    rw [hwidest, byConstant_inj, abs_of_nonneg (widest_nonneg cs)]
  refine ⟨hwidest, hnet _, ?_, ?_⟩
  · rintro c rfl
    exact (hnet c).mpr (by simp)
  · rintro c d rfl
    exact (hnet _).trans (widest_pair_iff c d)

/-- The call `P(n - 1 - 1)` or `P(n - 1 + 1)`. -/
def twoSteps (second : BinaryOp) : Call :=
  let one (column : Nat) : Expr := .number ⟨2, column⟩ (.finite false 1 1)
  ⟨⟨2, 8⟩, "p",
    [.binary ⟨2, 16⟩ second (.binary ⟨2, 12⟩ .sub (.name ⟨2, 10⟩ "n") (one 14)) (one 18)]⟩

/-- The procedure `P(n)` that makes this call. -/
def twoStepper (second : BinaryOp) : Procedure :=
  let call := twoSteps second
  ⟨⟨1, 1⟩, "p", "P", [{ name := "n" }],
    .mk ⟨2, 3⟩ false ⟨3, 1⟩ [.call call.pos call.callee true call.args]⟩

theorem twoSteps_shiftsAt :
    (twoSteps .sub).ShiftsAt (twoStepper .sub) 0 [-1, -1]
    ∧ (twoSteps .add).ShiftsAt (twoStepper .add) 0 [1, -1] := by
  have hone : (Exact.finite false 1 1).real = 1 := by simp [Exact.real]
  have hratio : (Exact.finite false 1 1).IsRatio := Nat.one_pos
  have honly : ∀ (op : BinaryOp), ∀ i ≠ 0, ∀ q, (twoStepper op).params[i]? = some q →
      (twoSteps op).args[i]?.bind Expr.name? = some q.name := by
    intro op i hi q hq
    cases i with
    | zero => exact absurd rfl hi
    | succ i => simp [twoStepper] at hq
  have hliteral : ∀ column, (Expr.number ⟨2, column⟩ (.finite false 1 1)).number?
      = some (.finite false 1 1) := fun _ => rfl
  have hinner := (Expr.Shifts.name (n := "n") ⟨2, 10⟩).sub ⟨2, 12⟩ (hliteral 14) hratio
  have hsub := hinner.sub ⟨2, 16⟩ (hliteral 18) hratio
  have hadd := hinner.add ⟨2, 16⟩ (hliteral 18) hratio
  rw [hone] at hsub hadd
  exact ⟨⟨⟨_, _, rfl, rfl, hsub⟩, honly .sub⟩, ⟨⟨_, _, rfl, rfl, hadd⟩, honly .add⟩⟩

/-- Two steps of one are read as one step of one, whether they go the same way or back. The net
changes are two and none. -/
theorem ofCall_shiftsAt_twoSteps :
    (∀ op, (twoStepper op).body.calls = [twoSteps op])
    ∧ (twoSteps .sub).ShiftsAt (twoStepper .sub) 0 [-1, -1]
    ∧ (twoSteps .add).ShiftsAt (twoStepper .add) 0 [1, -1]
    ∧ (∀ op ∈ [BinaryOp.sub, .add],
      (ofCall (twoStepper op) (SizeFacts.ofProcedure (twoStepper op)) (twoSteps op)
        : SizeChange (Tolerant (1 / 10 ^ 9))) = subtract ⟨1⟩)
    ∧ (byConstant [-1, -1].sum : SizeChange (Tolerant (1 / 10 ^ 9))) = subtract ⟨2⟩
    ∧ (byConstant [1, -1].sum : SizeChange (Tolerant (1 / 10 ^ 9))) = same := by
  obtain ⟨hsub, hadd⟩ := twoSteps_shiftsAt
  have hlargest : ∀ c : ℝ, |c| = 1 → widest [c, -1] = 1 := fun c hc => by simp [hc]
  have hone : (byConstant 1 : SizeChange (Tolerant (1 / 10 ^ 9))) = subtract ⟨1⟩ := by
    simp [byConstant]
  refine ⟨fun _ => rfl, hsub, hadd, fun op hop => ?_, ?_, ?_⟩
  · rcases List.mem_pair.mp hop with rfl | rfl
    · rw [(ofCall_shiftsAt hsub).1, hlargest (-1) (by simp), hone]
    · rw [(ofCall_shiftsAt hadd).1, hlargest 1 (by simp), hone]
  · have hsum : [(-1 : ℝ), -1].sum = -2 := by norm_num
    simp [hsum, byConstant]
  · simp [byConstant]

end SizeChange

end PseudoCost
