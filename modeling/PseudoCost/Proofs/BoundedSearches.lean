import PseudoCost.Proofs.UnreachableProcedures

/-!
# The searches in the call graph end by themselves

Two searches of the call graph run on a bound: the visit behind `reachable`, on the depth of its
nested visits, and the search for the nearest self-calling procedure, on the number of its steps.
The bounds are there for the definitions only. A *checked* search fails where its bound is used up
before its work is done, and neither of them ever does: a nested visit has one name less to see, and
a step of the search is paid for by a pending name or by an edge that is not followed again.
-/

namespace PseudoCost

namespace CallGraph

variable {g : CallGraph}

/-! ## The visit -/

/-- The visit of a name, which fails when a nested visit is not allowed for. -/
def checkedVisit (g : CallGraph) : Nat → List Name → Name → Option (List Name)
  | 0, _, _ => none
  | depth + 1, seen, n =>
    if seen.contains n then some seen
    else (g.callees n).foldlM (g.checkedVisit depth) (n :: seen)

/-- The procedures reached from a procedure by one or more calls, if the visits are allowed for. -/
def checkedReachable (g : CallGraph) (n : Name) : Option (List Name) :=
  (g.callees n).foldlM (g.checkedVisit (g.order.length + 1)) []

theorem checkedVisit_foldlM {depth : Nat} {ns : List Name}
    (h : ∀ n ∈ ns, ∀ seen, (g.unseen seen).length < depth →
      g.checkedVisit depth seen n = some (g.visit depth seen n)
        ∧ seen ⊆ g.visit depth seen n) :
    ∀ seen, (g.unseen seen).length < depth →
      ns.foldlM (g.checkedVisit depth) seen = some (ns.foldl (g.visit depth) seen)
        ∧ seen ⊆ ns.foldl (g.visit depth) seen := by
  induction ns with
  | nil => exact fun seen _ => ⟨rfl, fun _ hx => hx⟩
  | cons n ns ih =>
      intro seen hroom
      obtain ⟨hvisit, hsub⟩ := h n List.mem_cons_self seen hroom
      have hroom' : (g.unseen (g.visit depth seen n)).length < depth :=
        Nat.lt_of_le_of_lt (unseen_mono hsub) hroom
      obtain ⟨hrest, hsub'⟩ := ih (fun k hk => h k (List.mem_cons_of_mem n hk)) _ hroom'
      rw [List.foldlM_cons, hvisit, List.foldl_cons]
      exact ⟨hrest, fun x hx => hsub' (hsub hx)⟩

/-- A visit with room for every name not seen yet does not use up its bound. -/
theorem checkedVisit_eq (hg : g.Declared) :
    ∀ (depth : Nat) {seen : List Name} {n : Name}, n ∈ g.order →
      (g.unseen seen).length < depth →
      g.checkedVisit depth seen n = some (g.visit depth seen n) ∧ seen ⊆ g.visit depth seen n
  | 0, _, _, _, h => absurd h (Nat.not_lt_zero _)
  | depth + 1, seen, n, hn, h => by
      refine ⟨?_, (visit_visited hg (depth + 1) hn h).keeps⟩
      rw [checkedVisit, visit]
      by_cases hs : n ∈ seen
      · rw [if_pos (by simpa using hs), if_pos (by simpa using hs)]
      · rw [if_neg (by simpa using hs), if_neg (by simpa using hs)]
        -- Seeing `n` is what pays for the level of nesting.
        have hlt := unseen_cons_lt hn hs
        refine (checkedVisit_foldlM (fun k hk seen' hroom => ?_) _ (by omega)).1
        exact checkedVisit_eq hg depth (hg n k hk) hroom

/-- **What a procedure reaches is found within the bound.** -/
theorem checkedReachable_eq (hg : g.Declared) (n : Name) :
    g.checkedReachable n = some (g.reachable n) := by
  refine (checkedVisit_foldlM (fun k hk seen hroom => ?_) [] ?_).1
  · exact checkedVisit_eq hg _ (hg n k hk) hroom
  · exact Nat.lt_succ_of_le (List.length_filter_le ..)

/-! ## The search -/

/-- The search for a self-calling procedure, which fails when its steps are used up before the
pending names are. -/
def checkedSearch (g : CallGraph) : Nat → List Name → List Name → Option (Option Name)
  | _, _, [] => some none
  | 0, _, _ :: _ => none
  | steps + 1, seen, n :: pending =>
    if seen.contains n then g.checkedSearch steps seen pending
    else if g.callsSelf n then some (some n)
    else g.checkedSearch steps (n :: seen) (pending ++ g.callees n)

/-- The self-calling procedure nearest to the given ones, if the steps are allowed for. -/
def checkedNearest (g : CallGraph) (starts : List Name) : Option (Option Name) :=
  g.checkedSearch (starts.length + g.edgeCount) [] starts

/-- A search with room for its pending names and the edges it still owes does not use up its
steps. -/
theorem checkedSearch_eq : ∀ (steps : Nat) (seen pending : List Name),
    pending.length + owed seen g.edges ≤ steps →
    g.checkedSearch steps seen pending = some (g.search steps seen pending)
  | steps, _, [], _ => by cases steps <;> rfl
  | 0, _, n :: pending, h => by simp at h
  | steps + 1, seen, n :: pending, h => by
      rw [List.length_cons] at h
      rw [checkedSearch, search]
      split
      · exact checkedSearch_eq steps seen pending (by omega)
      rename_i hn
      split
      · rfl
      · -- The edges out of `n` become pending names, and are owed no more.
        have howed : (g.callees n).length + owed (n :: seen) g.edges ≤ owed seen g.edges :=
          callees_add_owed_le (by simpa using hn) g.edges
        refine checkedSearch_eq steps _ _ ?_
        rw [List.length_append]
        omega

/-- **The nearest self-calling procedure is found within the bound.** -/
theorem checkedNearest_eq (starts : List Name) :
    g.checkedNearest starts = some (g.nearestSelfCaller starts) := by
  have howed : owed [] g.edges = g.edgeCount := owed_nil _
  exact checkedSearch_eq _ [] starts (by rw [howed])

end CallGraph

end PseudoCost
