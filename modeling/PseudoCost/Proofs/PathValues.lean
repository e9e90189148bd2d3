import PseudoCost.Recurrence.Paths

/-!
# Values of paths

All walks over the paths of a procedure combine their values in the same few ways. So what these
ways preserve holds of the whole walk: a relation between the values of two algebras
(`Relates.ofProcedure`), and as the case where the second one keeps nothing, a property of the
values of one (`Keeps.ofProcedure`).
-/

namespace PseudoCost.Recurrence

/-! ## Two algebras in step -/

namespace PathAlgebra

variable {V W : Type} {alg : PathAlgebra V} {other : PathAlgebra W} {Rel : V → W → Prop}

/-- A relation between the values of two algebras that all ways of combining paths preserve. -/
structure Relates (alg : PathAlgebra V) (other : PathAlgebra W) (Rel : V → W → Prop) : Prop where
  empty : Rel alg.empty other.empty
  ofCalls : ∀ calls, Rel (alg.ofCalls calls) (other.ofCalls calls)
  concat : ∀ {a b x y}, Rel a x → Rel b y → Rel (alg.concat a b) (other.concat x y)
  join : ∀ {a b x y}, Rel a x → Rel b y → Rel (alg.join a b) (other.join x y)

/-- What two flows keep of the paths that fell through is related, and so is what they keep of
those that returned. Where one keeps nothing, the other does not either. -/
structure Matches (Rel : V → W → Prop) (f : Flow V) (g : Flow W) : Prop where
  falls : Option.Rel Rel f.falls g.falls
  returned : Option.Rel Rel f.returned g.returned

theorem rel_getD {a : Option V} {x : Option W} (h : Option.Rel Rel a x) {v : V} {w : W}
    (hvw : Rel v w) : Rel (a.getD v) (x.getD w) := by
  cases h with
  | none => exact hvw
  | some hax => exact hax

theorem rel_map {a : Option V} {x : Option W} (h : Option.Rel Rel a x) {f : V → V} {g : W → W}
    (hfg : ∀ {v w}, Rel v w → Rel (f v) (g w)) : Option.Rel Rel (a.map f) (x.map g) := by
  cases h with
  | none => exact .none
  | some hax => exact .some (hfg hax)

namespace Relates

variable {f f' : Flow V} {g g' : Flow W}

theorem join? (h : Relates alg other Rel) {a b : Option V} {x y : Option W}
    (hax : Option.Rel Rel a x) (hby : Option.Rel Rel b y) :
    Option.Rel Rel (alg.join? a b) (other.join? x y) := by
  cases hax with
  | none => exact hby
  | some hax =>
      cases hby with
      | none => exact .some hax
      | some hby => exact .some (h.join hax hby)

theorem all (h : Relates alg other Rel) (hfg : Matches Rel f g) :
    Option.Rel Rel (alg.all f) (other.all g) :=
  h.join? hfg.falls hfg.returned

theorem start (h : Relates alg other Rel) : Matches Rel alg.start other.start :=
  ⟨.some h.empty, .none⟩

theorem conditional (h : Relates alg other Rel) {c : V} {d : W} (hcd : Rel c d)
    (ht : Matches Rel f g) (he : Matches Rel f' g') :
    Matches Rel (alg.conditional c f f') (other.conditional d g g') where
  falls := rel_map (h.join? ht.falls he.falls) (h.concat hcd)
  returned := rel_map (h.join? ht.returned he.returned) (h.concat hcd)

theorem loop (h : Relates alg other Rel) {c : V} {d : W} (hcd : Rel c d) (hb : Matches Rel f g) :
    Matches Rel (alg.loop c f) (other.loop d g) where
  falls := .some (h.concat hcd (rel_getD (rel_map (h.all hb) (h.join h.empty)) h.empty))
  returned := rel_map hb.returned (h.concat hcd)

theorem sequence (h : Relates alg other Rel) (hb : Matches Rel f g) {c : V} {d : W} (hcd : Rel c d)
    (hn : Matches Rel f' g') : Matches Rel (alg.sequence f c f') (other.sequence g d g') where
  falls := rel_map hn.falls (h.concat hcd)
  returned := h.join? hb.returned (rel_map hn.returned (h.concat hcd))

mutual

theorem ofStmt (h : Relates alg other Rel) : ∀ s : Stmt,
    Matches Rel (alg.ofStmt s) (other.ofStmt s)
  | .give .. => by
      rw [PathAlgebra.ofStmt, PathAlgebra.ofStmt]
      exact ⟨.none, .some (h.ofCalls _)⟩
  | .assign .. | .call .. => by
      rw [PathAlgebra.ofStmt, PathAlgebra.ofStmt]
      exact ⟨.some (h.ofCalls _), .none⟩
  | .conditional _ cond thenBlock (some elseBlock) => by
      rw [PathAlgebra.ofStmt, PathAlgebra.ofStmt]
      exact h.conditional (h.ofCalls _) (ofBlock h thenBlock) (ofBlock h elseBlock)
  | .conditional _ cond thenBlock none => by
      rw [PathAlgebra.ofStmt, PathAlgebra.ofStmt]
      exact h.conditional (h.ofCalls _) (ofBlock h thenBlock) h.start
  | .forLoop _ _ _ start stop _ body => by
      rw [PathAlgebra.ofStmt, PathAlgebra.ofStmt]
      exact h.loop (h.concat (h.ofCalls _) (h.ofCalls _)) (ofBlock h body)
  | .whileLoop _ _ cond body | .repeatLoop _ _ body cond => by
      rw [PathAlgebra.ofStmt, PathAlgebra.ofStmt]
      exact h.loop (h.ofCalls _) (ofBlock h body)

theorem ofBlock (h : Relates alg other Rel) : ∀ b : Block,
    Matches Rel (alg.ofBlock b) (other.ofBlock b)
  | .mk _ _ _ stmts => by
      rw [PathAlgebra.ofBlock, PathAlgebra.ofBlock]
      exact ofList h h.start stmts

theorem ofList (h : Relates alg other Rel) {f : Flow V} {g : Flow W} (hfg : Matches Rel f g) :
    ∀ ss : List Stmt, Matches Rel (alg.ofList f ss) (other.ofList g ss)
  | [] => by
      rw [PathAlgebra.ofList, PathAlgebra.ofList]
      exact hfg
  | s :: ss => by
      rw [PathAlgebra.ofList, PathAlgebra.ofList]
      have hfalls := hfg.falls
      generalize f.falls = a, g.falls = x at hfalls
      cases hfalls with
      | none => exact hfg
      | some hcd => exact ofList h (h.sequence hfg hcd (ofStmt h s)) ss

end

/-- What two algebras keep of the paths of a procedure is related. -/
theorem ofProcedure (h : Relates alg other Rel) (q : Procedure) :
    Rel (alg.ofProcedure q) (other.ofProcedure q) :=
  rel_getD (h.all (h.ofBlock q.body)) h.empty

end Relates

/-! ## A property of all paths -/

variable {P : V → Prop}

/-- A property of path values that all ways of combining them preserve. -/
structure Keeps (alg : PathAlgebra V) (P : V → Prop) : Prop where
  empty : P alg.empty
  ofCalls : ∀ calls, P (alg.ofCalls calls)
  concat : ∀ {a b}, P a → P b → P (alg.concat a b)
  join : ∀ {a b}, P a → P b → P (alg.join a b)

/-- The algebra with one value. -/
def unit : PathAlgebra Unit where
  empty := ()
  ofCalls _ := ()
  concat _ _ := ()
  join _ _ := ()
  isBusy _ := false

theorem Keeps.relates (h : Keeps alg P) : Relates alg unit (fun v _ => P v) where
  empty := h.empty
  ofCalls := h.ofCalls
  concat := h.concat
  join := h.join

/-- What all ways of combining paths preserve holds of what is kept of a procedure. -/
theorem Keeps.ofProcedure (h : Keeps alg P) (p : Procedure) : P (alg.ofProcedure p) :=
  h.relates.ofProcedure p

end PathAlgebra

end PseudoCost.Recurrence
