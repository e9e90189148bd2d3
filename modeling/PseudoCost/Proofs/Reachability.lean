import Mathlib
import PseudoCost.CallGraph

/-!
# Reachability in the call graph

The relational layer over the visit that decides reachability. An `Edge` is a call between
procedures, and `reaches_iff` says that `reaches` decides its transitive closure: every name a
visit adds is reached (`Visited.sound`), and what a visit leaves behind is closed under calls
(`Visited.closed`). The bound on nested visits never bites, because each one adds a declared name.

Two facts follow that the cost analysis rests on. A call in the body of a procedure is an edge, so
a call off the procedure's cycles leads *strictly below* it (`Below`); and going below loses the
procedure itself from what is reached, so the number of reached names is a measure for it
(`rank_lt`).
-/

namespace PseudoCost

namespace CallGraph

variable {g : CallGraph}

/-- One procedure calls another. -/
def Edge (g : CallGraph) (a b : Name) : Prop := b ∈ g.callees a

/-- Only declared procedures are called. -/
def Declared (g : CallGraph) : Prop := ∀ a b, g.Edge a b → b ∈ g.order

/-! ## What a visit leaves behind -/

/-- The names `r` after visiting `starts` with the names `seen` behind. Only new names have to be
closed under calls: those seen before may belong to visits that are still open. -/
structure Visited (g : CallGraph) (seen starts r : List Name) : Prop where
  keeps : seen ⊆ r
  holds : starts ⊆ r
  sound : ∀ x ∈ r, x ∈ seen ∨ ∃ s ∈ starts, Relation.ReflTransGen g.Edge s x
  closed : ∀ x ∈ r, x ∉ seen → ∀ y, g.Edge x y → y ∈ r

theorem Visited.nil (seen : List Name) : Visited g seen [] seen where
  keeps _ h := h
  holds _ h := absurd h List.not_mem_nil
  sound _ h := Or.inl h
  closed _ h hn := absurd h hn

theorem Visited.cons {seen r r' ns : List Name} {n : Name} (h : Visited g seen [n] r)
    (h' : Visited g r ns r') : Visited g seen (n :: ns) r' where
  keeps _ hx := h'.keeps (h.keeps hx)
  holds := by
    intro x hx
    rcases List.mem_cons.mp hx with rfl | hx
    · exact h'.keeps (h.holds (List.mem_singleton_self _))
    · exact h'.holds hx
  sound := by
    intro x hx
    rcases h'.sound x hx with hx | ⟨s, hs, hsx⟩
    · rcases h.sound x hx with hx | ⟨s, hs, hsx⟩
      · exact Or.inl hx
      · exact Or.inr ⟨s, by simp [List.mem_singleton.mp hs], hsx⟩
    · exact Or.inr ⟨s, List.mem_cons_of_mem _ hs, hsx⟩
  closed := by
    intro x hx hn y hy
    by_cases hr : x ∈ r
    · exact h'.keeps (h.closed x hr hn y hy)
    · exact h'.closed x hx hr y hy

/-- Visiting everything a name calls, with the name itself put behind, visits the name. -/
theorem Visited.ofCallees {seen r : List Name} {n : Name}
    (h : Visited g (n :: seen) (g.callees n) r) : Visited g seen [n] r where
  keeps _ hx := h.keeps (List.mem_cons_of_mem _ hx)
  holds := by
    intro x hx
    rw [List.mem_singleton.mp hx]
    exact h.keeps List.mem_cons_self
  sound := by
    intro x hx
    rcases h.sound x hx with hx | ⟨s, hs, hsx⟩
    · rcases List.mem_cons.mp hx with rfl | hx
      · exact Or.inr ⟨x, List.mem_singleton_self _, .refl⟩
      · exact Or.inl hx
    · exact Or.inr ⟨n, List.mem_singleton_self _, .head hs hsx⟩
  closed := by
    intro x hx hn y hy
    by_cases hxn : x = n
    · subst hxn
      exact h.holds hy
    · exact h.closed x hx (by simp [hxn, hn]) y hy

/-! ## The visit itself -/

/-- The declared names not seen yet. -/
def unseen (g : CallGraph) (seen : List Name) : List Name := g.order.filter (!seen.contains ·)

theorem unseen_mono {seen seen' : List Name} (h : seen ⊆ seen') :
    (g.unseen seen').length ≤ (g.unseen seen).length := by
  have hsub : g.unseen seen' = (g.unseen seen).filter (!seen'.contains ·) := by
    simp only [unseen, List.filter_filter]
    congr 1
    funext x
    by_cases hx : x ∈ seen
    · simp [hx, h hx]
    · simp [hx]
  rw [hsub]
  exact List.length_filter_le ..

theorem unseen_cons_lt {seen : List Name} {n : Name} (hn : n ∈ g.order) (hs : n ∉ seen) :
    (g.unseen (n :: seen)).length < (g.unseen seen).length := by
  have hsub : g.unseen (n :: seen) = (g.unseen seen).filter (· != n) := by
    simp only [unseen, List.filter_filter]
    congr 1
    funext x
    by_cases hx : x = n <;> simp [hx]
  rw [hsub]
  refine List.length_filter_lt_length_iff_exists.mpr ⟨n, ?_, by simp⟩
  simp [unseen, hn, hs]

theorem visited_foldl {f : List Name → Name → List Name} :
    ∀ {ns seen : List Name},
      (∀ n ∈ ns, ∀ seen', seen ⊆ seen' → Visited g seen' [n] (f seen' n)) →
      Visited g seen ns (ns.foldl f seen)
  | [], seen, _ => Visited.nil seen
  | n :: ns, seen, hf => by
      have h := hf n List.mem_cons_self seen (fun _ hx => hx)
      refine h.cons (visited_foldl fun k hk seen' hs => ?_)
      exact hf k (List.mem_cons_of_mem _ hk) seen' (fun _ hx => hs (h.keeps hx))

/-- A visit with room for every name not seen yet does its work. The induction is on the bound:
each nested visit has one name less to see. -/
theorem visit_visited (hg : g.Declared) :
    ∀ (depth : Nat) {seen : List Name} {n : Name}, n ∈ g.order →
      (g.unseen seen).length < depth → Visited g seen [n] (g.visit depth seen n)
  | 0, _, _, _, h => absurd h (Nat.not_lt_zero _)
  | depth + 1, seen, n, hn, h => by
      rw [visit]
      by_cases hs : n ∈ seen
      · rw [if_pos (by simpa using hs)]
        exact { Visited.nil seen with
          holds := fun x hx => by rw [List.mem_singleton.mp hx]; exact hs
          sound := fun x hx => Or.inl hx }
      · rw [if_neg (by simpa using hs)]
        refine Visited.ofCallees (visited_foldl fun k hk seen' hsub => ?_)
        refine visit_visited hg depth (hg n k hk) ?_
        have hlt := unseen_cons_lt hn hs
        have hle := unseen_mono (g := g) hsub
        omega

theorem mem_reachable_iff (hg : g.Declared) {a b : Name} :
    b ∈ g.reachable a ↔ Relation.TransGen g.Edge a b := by
  have h : Visited g [] (g.callees a) (g.reachable a) := by
    refine visited_foldl fun n hn seen _ => visit_visited hg _ (hg a n hn) ?_
    exact Nat.lt_succ_of_le (List.length_filter_le ..)
  constructor
  · intro hb
    rcases h.sound b hb with hb | ⟨s, hs, hsb⟩
    · exact absurd hb List.not_mem_nil
    · exact Relation.TransGen.head' hs hsb
  · intro hab
    induction hab with
    | single hb => exact h.holds hb
    | tail _ hbc ih => exact h.closed _ ih List.not_mem_nil _ hbc

/-- The visit decides whether a chain of one or more calls leads from a name to another. -/
theorem reaches_iff (hg : g.Declared) {a b : Name} :
    g.reaches a b = true ↔ Relation.TransGen g.Edge a b := by
  rw [reaches, List.contains_iff_mem, mem_reachable_iff hg]

/-! ## Below a procedure -/

/-- The first name is reached from the second one, and does not reach it back. -/
def Below (g : CallGraph) (b a : Name) : Prop :=
  Relation.TransGen g.Edge a b ∧ ¬Relation.TransGen g.Edge b a

theorem onCycle_eq_false_iff (hg : g.Declared) {a b : Name} (hab : g.Edge a b) :
    g.onCycle a b = false ↔ b ≠ a ∧ g.Below b a := by
  have h : Relation.TransGen g.Edge a b := .single hab
  simp [onCycle, Bool.eq_false_iff, reaches_iff hg, h, Below]

theorem Below.trans_reaches {a b c : Name} (h : g.Below b a)
    (hca : Relation.TransGen g.Edge c a) : g.Below b c :=
  ⟨hca.trans h.1, fun hbc => h.2 (hbc.trans hca)⟩

/-- The number of declared names that a name reaches, itself included. -/
def rank (g : CallGraph) (a : Name) : Nat :=
  (g.order.filter fun x => x == a || g.reaches a x).length

theorem rank_lt (hg : g.Declared) {a b : Name} (ha : a ∈ g.order) (hne : b ≠ a)
    (h : g.Below b a) : g.rank b < g.rank a := by
  have hsub : (g.order.filter fun x => x == b || g.reaches b x)
      = (g.order.filter fun x => x == a || g.reaches a x).filter
          fun x => x == b || g.reaches b x := by
    rw [List.filter_filter]
    congr 1
    funext x
    by_cases hx : x = b ∨ Relation.TransGen g.Edge b x
    · have hax : Relation.TransGen g.Edge a x := hx.elim (fun e => e ▸ h.1) h.1.trans
      simp [(reaches_iff hg).mpr hax]
    · simp only [not_or] at hx
      have hbx : g.reaches b x = false := by
        rw [Bool.eq_false_iff]
        exact fun hr => hx.2 ((reaches_iff hg).mp hr)
      simp [hx.1, hbx]
  rw [rank, rank, hsub]
  refine List.length_filter_lt_length_iff_exists.mpr ⟨a, by simp [ha], ?_⟩
  have hba : g.reaches b a = false := by
    rw [Bool.eq_false_iff]
    exact fun hr => h.2 ((reaches_iff hg).mp hr)
  simp [hba, hne.symm]

/-! ## The graph of a program -/

theorem mem_insertDistinct {t x : Text} :
    ∀ {ts : List Text}, x ∈ Text.insertDistinct t ts ↔ x = t ∨ x ∈ ts
  | [] => by simp [Text.insertDistinct]
  | u :: us => by
      rw [Text.insertDistinct]
      split
      · simp
      · split
        · rename_i htu
          simp [htu]
        · rw [List.mem_cons, List.mem_cons, mem_insertDistinct]
          exact or_left_comm

theorem mem_sortDistinct {x : Text} : ∀ {ts : List Text}, x ∈ Text.sortDistinct ts ↔ x ∈ ts
  | [] => by simp [Text.sortDistinct]
  | t :: ts => by
      have h : Text.sortDistinct (t :: ts) = Text.insertDistinct t (Text.sortDistinct ts) := rfl
      rw [h, mem_insertDistinct, mem_sortDistinct, List.mem_cons]

theorem lookup_map_self {β : Type} (f : Name → β) (n : Name) :
    ∀ ns : List Name, (ns.map fun k => (k, f k)).lookup n = if n ∈ ns then some (f n) else none
  | [] => rfl
  | k :: ns => by
      rw [List.map_cons, List.lookup]
      by_cases h : n = k
      · subst h; simp
      · have hk : (n == k) = false := by simpa using h
        simp [hk, h, lookup_map_self f n ns]

theorem mem_callsOf {p : Program} {n c : Name} :
    c ∈ callsOf p n ↔ ∃ q ∈ p.procedures, q.name = n ∧ c ∈ declaredCalls p q.body := by
  simp [callsOf, List.mem_flatMap, and_assoc]

theorem mem_declaredCalls {p : Program} {b : Block} {n : Name} :
    n ∈ declaredCalls p b ↔ (∃ c ∈ b.calls, c.callee = n) ∧ p.declares n = true := by
  simp [declaredCalls]

theorem declares_iff {p : Program} {n : Name} :
    p.declares n = true ↔ n ∈ (ofProgram p).order := by
  simp [Program.declares, Program.find?, ofProgram]

/-- The edges of a program's graph: the declared calls in the bodies of its procedures. -/
theorem edge_ofProgram_iff {p : Program} {a b : Name} :
    (ofProgram p).Edge a b ↔ ∃ q ∈ p.procedures, q.name = a ∧ b ∈ declaredCalls p q.body := by
  have h : (ofProgram p).callees a
      = if a ∈ p.procedures.map Procedure.name then Text.sortDistinct (callsOf p a) else [] := by
    rw [callees, ofProgram, lookup_map_self]
    split <;> rfl
  rw [Edge, h]
  split
  · rw [mem_sortDistinct, mem_callsOf]
  · rename_i hn
    simp only [List.not_mem_nil, false_iff]
    rintro ⟨q, hq, rfl, -⟩
    exact hn (List.mem_map_of_mem hq)

theorem ofProgram_declared (p : Program) : (ofProgram p).Declared := by
  intro a b hab
  obtain ⟨q, -, -, hb⟩ := edge_ofProgram_iff.mp hab
  exact declares_iff.mp (mem_declaredCalls.mp hb).2

/-- A declared call in the body of the procedure a name refers to is an edge. -/
theorem edge_of_call {p : Program} {n : Name} {q : Procedure} {c : Call}
    (hq : p.find? n = some q) (hc : c ∈ q.body.calls) (hd : p.declares c.callee = true) :
    (ofProgram p).Edge n c.callee :=
  edge_ofProgram_iff.mpr ⟨q, List.mem_of_find?_eq_some hq, by simpa using List.find?_some hq,
    mem_declaredCalls.mpr ⟨⟨c, hc, rfl⟩, hd⟩⟩

end CallGraph

end PseudoCost
