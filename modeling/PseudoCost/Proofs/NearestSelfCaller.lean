import PseudoCost.Proofs.CallChains

/-!
# The nearest self-calling procedure

The primary procedure is looked for with a queue. It starts with some names in it. In each round the
front is taken off and, unless it was seen before, is either the answer, because it calls itself, or
is remembered, and what it calls is put at the end. `Survey.step` is one round.

- *The rounds end.* As for a stack, the queue and the edges of the names not seen bound the rounds
  (`iterate_step`), and the answer is the one that `search` gives.
- *The answer is nearest.* The queue is in layers: names that `d` calls lead to, followed by names
  that `d + 1` calls lead to. All names that fewer than `d` calls lead to were seen, so none of them
  calls itself (`Layered`). One round keeps this (`holds_step`), and so does a run
  (`holds_iterate`).

`primary?_nearest` says both of the whole program, where the first call stands in the main body.
Without a main body there is no distance; the procedures that the search misses are asked one by
one.
-/

namespace PseudoCost

/-! ## Chains of calls -/

/-- A chain of so many calls leads to a name. The first call goes to one of some given names. -/
inductive CallChain (starts : Name → Prop) (calls : Name → Name → Prop) : Nat → Name → Prop
  | first {n} : starts n → CallChain starts calls 1 n
  | next {k a b} : CallChain starts calls k a → calls a b → CallChain starts calls (k + 1) b

theorem CallChain.pos {starts : Name → Prop} {calls : Name → Name → Prop} {k : Nat} {n : Name}
    (h : CallChain starts calls k n) : 1 ≤ k := by
  cases h <;> omega

/-- The answer to the question for a nearest name that calls itself: a name at the end of a shortest
chain, or none if no chain ends at such a name. -/
def IsNearest (starts : Name → Prop) (calls : Name → Name → Prop) : Option Name → Prop
  | some n => calls n n ∧ ∃ k, CallChain starts calls k n ∧
      ∀ m j, CallChain starts calls j m → calls m m → k ≤ j
  | none => ∀ m j, CallChain starts calls j m → ¬calls m m

/-- There is no answer exactly if no chain ends at a name that calls itself. -/
theorem IsNearest.eq_none_iff {starts : Name → Prop} {calls : Name → Name → Prop}
    {found : Option Name} (h : IsNearest starts calls found) :
    found = none ↔ ∀ m j, CallChain starts calls j m → ¬calls m m := by
  cases found with
  | none => exact iff_of_true rfl h
  | some n =>
      obtain ⟨hself, k, hchain, -⟩ := h
      exact iff_of_false (Option.some_ne_none n) fun hnone => hnone n k hchain hself

namespace CallGraph

theorem callsSelf_iff {g : CallGraph} {n : Name} : g.callsSelf n = true ↔ g.Edge n n := by
  rw [callsSelf, List.contains_iff_mem, Edge]

/-! ## The survey -/

/-- A survey of the graph: the names seen and the queue of the names to look at, or the answer. -/
inductive Survey where
  | looking (seen queue : List Name)
  | ended (found : Option Name)
deriving Repr, DecidableEq

namespace Survey

/-- One round of the survey. -/
def step (g : CallGraph) : Survey → Survey
  | .looking _ [] => .ended none
  | .looking seen (n :: queue) =>
    if seen.contains n then .looking seen queue
    else if g.callsSelf n then .ended (some n)
    else .looking (n :: seen) (queue ++ g.callees n)
  | .ended found => .ended found

variable {g : CallGraph} {starts : List Name}

/-! ### The rounds end -/

theorem ended_iterate (found : Option Name) (rounds : Nat) :
    (step g)^[rounds] (.ended found) = .ended found :=
  Function.iterate_fixed rfl rounds

/-- A survey with a round for every name in the queue and every edge of a name not seen, and one
more to notice the end, comes to the answer of the search. -/
theorem iterate_step : ∀ (rounds : Nat) (seen queue : List Name),
    queue.length + owed seen g.edges ≤ rounds →
    (step g)^[rounds + 1] (.looking seen queue) = .ended (g.search rounds seen queue)
  | rounds, seen, [], _ => by
      have hsearch : g.search rounds seen [] = none := by cases rounds <;> rfl
      rw [Function.iterate_succ_apply, step, ended_iterate, hsearch]
  | 0, _, n :: queue, h => by simp at h
  | rounds + 1, seen, n :: queue, h => by
      rw [List.length_cons] at h
      rw [Function.iterate_succ_apply, step, search]
      split
      · exact iterate_step rounds seen queue (by omega)
      · rename_i hn
        split
        · exact ended_iterate _ _
        · have howed : (g.callees n).length + owed (n :: seen) g.edges ≤ owed seen g.edges :=
            callees_add_owed_le (by simpa using hn) g.edges
          refine iterate_step rounds (n :: seen) (queue ++ g.callees n) ?_
          rw [List.length_append]
          omega

/-- A survey that is given the rounds it needs ends with the nearest self-caller. -/
theorem run_start {rounds : Nat} (hrounds : starts.length + g.edgeCount < rounds) :
    (step g)^[rounds] (.looking [] starts) = .ended (g.nearestSelfCaller starts) := by
  obtain ⟨steps, rfl⟩ : ∃ steps, rounds = steps + 1 := ⟨rounds - 1, by omega⟩
  have howed : owed [] g.edges = g.edgeCount := owed_nil _
  rw [iterate_step steps [] starts (by omega), nearestSelfCaller]
  exact congrArg ended (search_eq_of_le _ _ _ _ (by omega) (by omega))

/-! ### The answer is nearest -/

/-- What holds of a survey in the layer `d`: of its queue, `near` is what is left of that layer, and
`far` is what was found of the next one. -/
structure Layered (g : CallGraph) (starts : List Name) (d : Nat) (seen near far : List Name) :
    Prop where
  /-- Shorter chains end at names that were seen. -/
  behind : ∀ k n, CallChain (· ∈ starts) g.Edge k n → k < d → n ∈ seen
  /-- The layer was seen or is still in the queue. -/
  level : ∀ n, CallChain (· ∈ starts) g.Edge d n → n ∈ seen ∨ n ∈ near
  near_chain : ∀ n ∈ near, CallChain (· ∈ starts) g.Edge d n
  far_chain : ∀ n ∈ far, CallChain (· ∈ starts) g.Edge (d + 1) n
  begun : ∀ n ∈ starts, n ∈ seen ∨ n ∈ near
  closed : ∀ m ∈ seen, ∀ n, g.Edge m n → n ∈ seen ∨ n ∈ near ∨ n ∈ far
  selfless : ∀ m ∈ seen, ¬g.Edge m m

namespace Layered

variable {d : Nat} {seen near far : List Name} {n : Name}

theorem start (g : CallGraph) (starts : List Name) : Layered g starts 1 [] starts [] where
  behind k n hchain hk := absurd hchain.pos (by omega)
  level n hchain := by
    cases hchain with
    | first hn => exact Or.inr hn
    | next hprev _ => exact absurd hprev.pos (by omega)
  near_chain n hn := .first hn
  far_chain n hn := absurd hn List.not_mem_nil
  begun n hn := Or.inr hn
  closed m hm := absurd hm List.not_mem_nil
  selfless m hm := absurd hm List.not_mem_nil

/-- When a layer is used up, the next one begins. -/
theorem advance (h : Layered g starts d seen [] far) : Layered g starts (d + 1) seen far [] where
  behind k n hchain hk := by
    rcases Nat.lt_succ_iff_lt_or_eq.mp hk with hk | rfl
    · exact h.behind k n hchain hk
    · exact (h.level n hchain).resolve_right List.not_mem_nil
  level n hchain := by
    cases hchain with
    | first hn => exact Or.inl ((h.begun n hn).resolve_right List.not_mem_nil)
    | @next _ a _ ha hedge =>
        have hseen : a ∈ seen := (h.level a ha).resolve_right List.not_mem_nil
        exact (h.closed a hseen n hedge).imp_right fun hn => hn.resolve_left List.not_mem_nil
  near_chain := h.far_chain
  far_chain n hn := absurd hn List.not_mem_nil
  begun n hn := Or.inl ((h.begun n hn).resolve_right List.not_mem_nil)
  closed m hm n hedge := by
    rcases h.closed m hm n hedge with hn | hn | hn
    · exact Or.inl hn
    · exact absurd hn List.not_mem_nil
    · exact Or.inr (Or.inl hn)
  selfless := h.selfless

/-- A name that was seen before can be dropped from the queue. -/
theorem skip (h : Layered g starts d seen (n :: near) far) (hn : n ∈ seen) :
    Layered g starts d seen near far := by
  have hdrop : ∀ m, m ∈ n :: near → m ∈ seen ∨ m ∈ near := by
    intro m hm
    rcases List.mem_cons.mp hm with rfl | hm
    · exact Or.inl hn
    · exact Or.inr hm
  exact {
    behind := h.behind
    level := fun m hm => (h.level m hm).elim Or.inl (hdrop m)
    near_chain := fun m hm => h.near_chain m (List.mem_cons_of_mem n hm)
    far_chain := h.far_chain
    begun := fun m hm => (h.begun m hm).elim Or.inl (hdrop m)
    closed := by
      intro k hk m hedge
      rcases h.closed k hk m hedge with hm | hm | hm
      · exact Or.inl hm
      · exact (hdrop m hm).imp_right Or.inl
      · exact Or.inr (Or.inr hm)
    selfless := h.selfless }

/-- A new name that does not call itself is seen, and what it calls belongs to the next layer. -/
theorem expand (h : Layered g starts d seen (n :: near) far) (hself : ¬g.Edge n n) :
    Layered g starts d (n :: seen) near (far ++ g.callees n) := by
  have hmove : ∀ m, m ∈ seen ∨ m ∈ n :: near → m ∈ n :: seen ∨ m ∈ near := by
    intro m hm
    rcases hm with hm | hm
    · exact Or.inl (List.mem_cons_of_mem n hm)
    · rcases List.mem_cons.mp hm with rfl | hm
      · exact Or.inl List.mem_cons_self
      · exact Or.inr hm
  have hn : CallChain (· ∈ starts) g.Edge d n := h.near_chain n List.mem_cons_self
  exact {
    behind := fun k m hchain hk => List.mem_cons_of_mem n (h.behind k m hchain hk)
    level := fun m hm => hmove m (h.level m hm)
    near_chain := fun m hm => h.near_chain m (List.mem_cons_of_mem n hm)
    far_chain := by
      intro m hm
      rcases List.mem_append.mp hm with hm | hm
      · exact h.far_chain m hm
      · exact .next hn hm
    begun := fun m hm => hmove m (h.begun m hm)
    closed := by
      intro k hk m hedge
      rcases List.mem_cons.mp hk with rfl | hk
      · exact Or.inr (Or.inr (List.mem_append_right _ hedge))
      · rcases h.closed k hk m hedge with hm | hm | hm
        · exact Or.inl (List.mem_cons_of_mem n hm)
        · exact (hmove m (Or.inr hm)).imp_right Or.inl
        · exact Or.inr (Or.inr (List.mem_append_left _ hm))
    selfless := by
      intro m hm
      rcases List.mem_cons.mp hm with rfl | hm
      · exact hself
      · exact h.selfless m hm }

/-- The first name of the layer that calls itself is nearest, since no name seen before does. -/
theorem isNearest (h : Layered g starts d seen (n :: near) far) (hself : g.Edge n n) :
    IsNearest (· ∈ starts) g.Edge (some n) := by
  refine ⟨hself, d, h.near_chain n List.mem_cons_self, fun m j hchain hm => ?_⟩
  by_contra hj
  exact h.selfless m (h.behind j m hchain (Nat.lt_of_not_le hj)) hm

/-- With an empty queue every name that a chain leads to was seen. -/
theorem mem_seen (h : Layered g starts d seen [] []) {k : Nat}
    (hchain : CallChain (· ∈ starts) g.Edge k n) : n ∈ seen := by
  induction hchain with
  | first hn => exact (h.begun _ hn).resolve_right List.not_mem_nil
  | next _ hedge ih => simpa using h.closed _ ih _ hedge

/-- The front of the queue belongs to a layer. -/
theorem exists_front {queue : List Name} (h : Layered g starts d seen near far)
    (hqueue : near ++ far = n :: queue) : ∃ d near far, queue = near ++ far
      ∧ Layered g starts d seen (n :: near) far := by
  cases near with
  | cons m near =>
      obtain ⟨rfl, rfl⟩ := List.cons.inj hqueue
      exact ⟨d, near, far, rfl, h⟩
  | nil =>
      rw [List.nil_append] at hqueue
      subst hqueue
      exact ⟨d + 1, queue, [], (List.append_nil _).symm, h.advance⟩

end Layered

/-- What holds of a survey that began with some names. -/
def Holds (g : CallGraph) (starts : List Name) : Survey → Prop
  | .looking seen queue => ∃ d near far, near ++ far = queue ∧ Layered g starts d seen near far
  | .ended found => IsNearest (· ∈ starts) g.Edge found

theorem holds_start (g : CallGraph) (starts : List Name) :
    (looking [] starts).Holds g starts :=
  ⟨1, starts, [], List.append_nil _, Layered.start g starts⟩

theorem holds_step {s : Survey} (h : s.Holds g starts) : (step g s).Holds g starts := by
  match s, h with
  | .ended _, h => exact h
  | .looking seen [], ⟨d, near, far, hqueue, h⟩ =>
      obtain ⟨rfl, rfl⟩ := List.append_eq_nil_iff.mp hqueue
      exact fun m j hchain => h.selfless m (h.mem_seen hchain)
  | .looking seen (n :: queue), ⟨_, _, _, hqueue, h⟩ =>
      obtain ⟨d, near, far, rfl, h⟩ := h.exists_front hqueue
      rw [step]
      split
      · rename_i hn
        exact ⟨d, near, far, rfl, h.skip (List.contains_iff_mem.mp hn)⟩
      split
      · rename_i hself
        exact h.isNearest (callsSelf_iff.mp hself)
      · rename_i hself
        refine ⟨d, near, far ++ g.callees n, (List.append_assoc ..).symm, h.expand ?_⟩
        exact fun hedge => hself (callsSelf_iff.mpr hedge)

theorem holds_iterate {s : Survey} (h : s.Holds g starts) (rounds : Nat) :
    ((step g)^[rounds] s).Holds g starts := by
  induction rounds generalizing s with
  | zero => exact h
  | succ rounds ih => exact ih (holds_step h)

end Survey

/-- The nearest self-caller is nearest. -/
theorem isNearest_nearestSelfCaller (g : CallGraph) (starts : List Name) :
    IsNearest (· ∈ starts) g.Edge (g.nearestSelfCaller starts) := by
  have hholds := Survey.holds_iterate (Survey.holds_start g starts)
    (starts.length + g.edgeCount + 1)
  rw [Survey.run_start (Nat.lt_succ_self _)] at hholds
  exact hholds

end CallGraph

/-! ## The primary procedure -/

namespace Program

/-- A block calls a declared name. -/
def CalledFrom (p : Program) (b : Block) (n : Name) : Prop :=
  (∃ c ∈ b.calls, c.callee = n) ∧ ∃ q ∈ p.procedures, q.name = n

open CallGraph in
theorem mem_mainCalls_iff {p : Program} {n : Name} :
    n ∈ (ofProgram p).mainCalls ↔ ∃ b, p.main = some b ∧ p.CalledFrom b n := by
  have hmem : n ∈ (ofProgram p).mainCalls ↔ ∃ b, p.main = some b ∧ n ∈ declaredCalls p b := by
    rw [ofProgram, List.mem_eraseDups, List.mem_flatMap]
    simp only [Option.mem_toList]
  rw [hmem]
  simp only [mem_declaredCalls, declares_iff, CalledFrom]
  simp [ofProgram]

theorem mem_mainCalls {p : Program} {main : Block} (hmain : p.entry? = some main) :
    (· ∈ (CallGraph.ofProgram p).mainCalls) = p.CalledFrom main := by
  have hbody : p.main = some main := (Option.filter_eq_some_iff.mp hmain).1
  funext n
  rw [eq_iff_iff, mem_mainCalls_iff, hbody]
  simp

open CallGraph in
/-- With a main body the answer is nearest to it. -/
theorem isNearest_primary? {p : Program} {main : Block} (hmain : p.entry? = some main) :
    IsNearest (p.CalledFrom main) p.Calls p.primary? := by
  have hprimary : p.primary? = (ofProgram p).nearestSelfCaller (ofProgram p).mainCalls := by
    rw [primary?, hmain]
  rw [hprimary, ← mem_mainCalls hmain, ← edge_ofProgram]
  exact isNearest_nearestSelfCaller _ _

open CallGraph in
/-- The primary procedure calls itself. -/
theorem calls_of_primary? {p : Program} {n : Name} (h : p.primary? = some n) : p.Calls n n := by
  cases hmain : p.entry? with
  | some main =>
      have hnearest := isNearest_primary? hmain
      rw [h] at hnearest
      exact hnearest.1
  | none =>
      rw [primary?, hmain, Option.or_eq_some_iff] at h
      rw [← edge_ofProgram]
      rcases h with h | ⟨-, h⟩
      · have hnearest := isNearest_nearestSelfCaller (ofProgram p) (ofProgram p).roots
        rw [h] at hnearest
        exact hnearest.1
      · exact callsSelf_iff.mp (List.find?_some h)

open CallGraph in
/-- **The primary procedure is the nearest self-calling one.** With a main body the search ends
within a number of rounds that the edges bound. It gives a procedure that calls itself, that a chain
of calls from the main body leads to, and that no self-calling procedure is nearer than; it gives
none exactly if no chain from the main body leads to a self-calling procedure. Without a main body
the search ends as well, and a self-calling procedure is given exactly if one is declared. -/
theorem primary?_nearest (p : Program) :
    (∀ main, p.entry? = some main →
      (∀ rounds, (ofProgram p).mainCalls.length + (ofProgram p).edgeCount < rounds →
        (Survey.step (ofProgram p))^[rounds] (.looking [] (ofProgram p).mainCalls)
          = .ended p.primary?)
      ∧ (∀ n, p.primary? = some n → p.Calls n n
        ∧ ∃ k, CallChain (p.CalledFrom main) p.Calls k n
          ∧ ∀ m j, CallChain (p.CalledFrom main) p.Calls j m → p.Calls m m → k ≤ j)
      ∧ (p.primary? = none
        ↔ ∀ m j, CallChain (p.CalledFrom main) p.Calls j m → ¬p.Calls m m))
    ∧ (p.entry? = none →
      (∀ rounds, (ofProgram p).roots.length + (ofProgram p).edgeCount < rounds →
        (Survey.step (ofProgram p))^[rounds] (.looking [] (ofProgram p).roots)
          = .ended ((ofProgram p).nearestSelfCaller (ofProgram p).roots))
      ∧ (∀ n, p.primary? = some n → p.Calls n n)
      ∧ (p.primary?.isSome = true ↔ ∃ q ∈ p.procedures, p.Calls q.name q.name)) := by
  constructor
  · intro main hmain
    have hnearest := isNearest_primary? hmain
    refine ⟨fun rounds hrounds => ?_, fun n hn => ?_, hnearest.eq_none_iff⟩
    · rw [Survey.run_start hrounds, primary?, hmain]
    · rwa [hn] at hnearest
  · intro hmain
    refine ⟨fun rounds hrounds => Survey.run_start hrounds, fun n => calls_of_primary?, ?_⟩
    constructor
    · intro hsome
      obtain ⟨n, hn⟩ := Option.isSome_iff_exists.mp hsome
      have hself := calls_of_primary? hn
      obtain ⟨q, hq, rfl⟩ := hself.2
      exact ⟨q, hq, hself⟩
    · rintro ⟨q, hq, hcalls⟩
      rw [← edge_ofProgram, ← callsSelf_iff] at hcalls
      have hfound : ((ofProgram p).order.find? (ofProgram p).callsSelf).isSome = true :=
        List.find?_isSome.mpr ⟨q.name, List.mem_map_of_mem hq, hcalls⟩
      rw [primary?, hmain, Option.isSome_or, hfound, Bool.or_true]

/-- The main body calls `a`, which calls `b` and `c`. Then `b` calls `d`; `c` and `d` call
themselves. -/
def withTwoSelfCallers : Program where
  pos := ⟨1, 1⟩
  procedures := [Analysis.descending [97] [[98], [99]], Analysis.descending [98] [[100]],
    Analysis.descending [99] [[99]], Analysis.descending [100] [[100]]]
  main := some (.mk ⟨13, 1⟩ true ⟨15, 1⟩ [.call ⟨14, 1⟩ [97] true [.name ⟨14, 3⟩ [110]]])

/-- Of the two, `c` is nearer. -/
theorem primary?_two_selfCallers :
    ∃ main, withTwoSelfCallers.entry? = some main ∧ withTwoSelfCallers.primary? = some [99]
      ∧ ∃ k, CallChain (withTwoSelfCallers.CalledFrom main) withTwoSelfCallers.Calls k [99]
        ∧ ∀ j, CallChain (withTwoSelfCallers.CalledFrom main) withTwoSelfCallers.Calls j [100] →
          k ≤ j := by
  refine ⟨_, rfl, by decide, ?_⟩
  obtain ⟨-, hnearest, -⟩ := (primary?_nearest withTwoSelfCallers).1 _ rfl
  obtain ⟨-, k, hchain, hleast⟩ := hnearest [99] (by decide)
  refine ⟨k, hchain, fun j hj => hleast [100] j hj ?_⟩
  rw [← CallGraph.edge_ofProgram]
  exact CallGraph.callsSelf_iff.mp (by decide)

end Program

end PseudoCost
