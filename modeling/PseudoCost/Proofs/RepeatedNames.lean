import PseudoCost.Proofs.CalleeBound
import PseudoCost.Proofs.NearestSelfCaller

/-!
# Names that are declared more than once

A name refers to the first procedure declared with it, and so a relation is derived from that
procedure's body. The call graph has the calls of *all* procedures of a name for its edges. The two
views of a name are the same exactly if the later declarations call nothing that the first one does
not call (`graph_agrees_iff`); where names are distinct there are no later declarations.

A source may declare a name twice (`repeatedSource`). Its graph then has a procedure that calls
itself, and that procedure is the primary one, although no relation can be derived for it.
-/

namespace PseudoCost

open Recurrence

/-! ## What a name refers to -/

theorem Block.callsTo_iff {b : Block} {n : Name} :
    b.callsTo n = true ↔ ∃ c ∈ b.calls, c.callee = n := by
  simp [Block.callsTo]

namespace Program

variable {p : Program} {n : Name} {q : Procedure}

theorem name_of_find? (hq : p.find? n = some q) : q.name = n := by
  simpa using List.find?_some hq

theorem calls_iff {c : Name} :
    p.Calls n c ↔ ∃ q ∈ p.procedures, q.name = n ∧ p.CalledFrom q.body c := by
  constructor
  · rintro ⟨⟨q, hq, hname, hcall⟩, hdeclared⟩
    exact ⟨q, hq, hname, hcall, hdeclared⟩
  · rintro ⟨q, hq, hname, hcall, hdeclared⟩
    exact ⟨⟨q, hq, hname, hcall⟩, hdeclared⟩

/-- What the procedure of a name calls is a call of that name. -/
theorem calls_of_find? (hq : p.find? n = some q) {c : Name} (hc : p.CalledFrom q.body c) :
    p.Calls n c :=
  calls_iff.mpr ⟨q, List.mem_of_find?_eq_some hq, name_of_find? hq, hc⟩

theorem calledFrom_self_iff (hq : p.find? n = some q) {b : Block} :
    p.CalledFrom b n ↔ b.callsTo n = true := by
  rw [Block.callsTo_iff]
  exact and_iff_left ⟨q, List.mem_of_find?_eq_some hq, name_of_find? hq⟩

end Program

theorem Recurrence.Relation.isSome_ofName? {R : Type} [Scalar R] {p : Program} {n : Name}
    {q : Procedure} (hq : p.find? n = some q) (source : Text) :
    (Relation.ofName? p source n : Option (Relation R)).isSome = q.body.callsTo n := by
  rw [Relation.ofName?, Option.isSome_map, hq, Program.name_of_find? hq |>.symm, Option.filter_some]
  split
  · rename_i h
    rw [h, Option.isSome_some]
  · rename_i h
    rw [Option.isSome_none, Bool.eq_false_iff.mpr h]

/-! ## The two views -/

namespace CallGraph

variable {p : Program} {n : Name} {q : Procedure}

/-- The graph gives a name the calls of its first procedure, unless a later one calls more. -/
theorem callees_agree_iff (hq : p.find? n = some q) :
    (∀ c, c ∈ (ofProgram p).callees n ↔ p.CalledFrom q.body c)
      ↔ ∀ q' ∈ p.procedures, q'.name = n → ∀ c, p.CalledFrom q'.body c → p.CalledFrom q.body c := by
  have hcallees : ∀ c, c ∈ (ofProgram p).callees n ↔ p.Calls n c := by
    intro c
    rw [← edge_ofProgram, Edge]
  simp only [hcallees]
  constructor
  · intro hagree q' hq' hname c hc
    exact (hagree c).mp (Program.calls_iff.mpr ⟨q', hq', hname, hc⟩)
  · intro hlater c
    refine ⟨fun hc => ?_, Program.calls_of_find? hq⟩
    obtain ⟨q', hq', hname, hc⟩ := Program.calls_iff.mp hc
    exact hlater q' hq' hname c hc

/-- A name that calls itself in the graph has a relation, unless only a later procedure of the name
calls it. -/
theorem callsSelf_agrees_iff {R : Type} [Scalar R] (hq : p.find? n = some q) (source : Text) :
    ((ofProgram p).callsSelf n = (Relation.ofName? p source n : Option (Relation R)).isSome)
      ↔ ∀ q' ∈ p.procedures, q'.name = n → q'.body.callsTo n = true → q.body.callsTo n = true := by
  have hself : (ofProgram p).callsSelf n = true
      ↔ ∃ q' ∈ p.procedures, q'.name = n ∧ q'.body.callsTo n = true := by
    rw [callsSelf_iff, edge_ofProgram, Program.calls_iff]
    simp only [Program.calledFrom_self_iff hq]
  rw [Relation.isSome_ofName? hq, Bool.eq_iff_iff, hself]
  constructor
  · intro hagree q' hq' hname hcall
    exact hagree.mp ⟨q', hq', hname, hcall⟩
  · intro hlater
    refine ⟨?_, fun hcall => ⟨q, List.mem_of_find?_eq_some hq, Program.name_of_find? hq, hcall⟩⟩
    rintro ⟨q', hq', hname, hcall⟩
    exact hlater q' hq' hname hcall

/-- **Graph and look-up of a name.** For every declared name, what the graph gives it is what the
procedure it refers to calls, exactly if the later procedures of the name call nothing else; and it
calls itself in the graph just when it has a relation, exactly if the later ones call the name only
if the first one does. The primary procedure always calls itself in the graph, and it has a relation
exactly if the first procedure of its name calls it. So where names are distinct, the two views are
the same and the primary procedure has a relation. -/
theorem graph_agrees_iff {R : Type} [Scalar R] (p : Program) (source : Text) :
    (∀ n q, p.find? n = some q →
      ((∀ c, c ∈ (ofProgram p).callees n ↔ p.CalledFrom q.body c)
        ↔ ∀ q' ∈ p.procedures, q'.name = n →
          ∀ c, p.CalledFrom q'.body c → p.CalledFrom q.body c)
      ∧ (((ofProgram p).callsSelf n = (Relation.ofName? p source n : Option (Relation R)).isSome)
        ↔ ∀ q' ∈ p.procedures, q'.name = n →
          q'.body.callsTo n = true → q.body.callsTo n = true))
    ∧ (∀ n, p.primary? = some n → (ofProgram p).callsSelf n = true
      ∧ ∃ q, p.find? n = some q
        ∧ (Relation.ofName? p source n : Option (Relation R)).isSome = q.body.callsTo n)
    ∧ ((p.procedures.map Procedure.name).Nodup →
      (∀ n q, p.find? n = some q →
        (∀ c, c ∈ (ofProgram p).callees n ↔ p.CalledFrom q.body c)
        ∧ (ofProgram p).callsSelf n = (Relation.ofName? p source n : Option (Relation R)).isSome)
      ∧ ∀ n, p.primary? = some n →
        (Relation.ofName? p source n : Option (Relation R)).isSome = true) := by
  have hprimary : ∀ n, p.primary? = some n → (ofProgram p).callsSelf n = true
      ∧ ∃ q, p.find? n = some q := by
    intro n hn
    have hself := Program.calls_of_primary? hn
    have hdeclared : p.declares n = true := by
      rw [declares_iff]
      obtain ⟨q, hq, rfl⟩ := hself.2
      exact List.mem_map_of_mem hq
    rw [callsSelf_iff, edge_ofProgram]
    exact ⟨hself, Option.isSome_iff_exists.mp hdeclared⟩
  refine ⟨fun n q hq => ⟨callees_agree_iff hq, callsSelf_agrees_iff hq source⟩,
    fun n hn => ?_, fun hnames => ?_⟩
  · obtain ⟨hself, q, hq⟩ := hprimary n hn
    exact ⟨hself, q, hq, Relation.isSome_ofName? hq source⟩
  · have honly : ∀ n q, p.find? n = some q → ∀ q' ∈ p.procedures, q'.name = n → q' = q := by
      intro n q hq q' hq' hname
      have hfind := Program.find?_of_mem hnames hq'
      rw [hname, hq] at hfind
      exact (Option.some.inj hfind).symm
    have hagree : ∀ n q, p.find? n = some q →
        (∀ c, c ∈ (ofProgram p).callees n ↔ p.CalledFrom q.body c)
        ∧ (ofProgram p).callsSelf n
          = (Relation.ofName? p source n : Option (Relation R)).isSome := by
      intro n q hq
      constructor
      · exact (callees_agree_iff hq).mpr fun q' hq' hname c hc => honly n q hq q' hq' hname ▸ hc
      · exact (callsSelf_agrees_iff hq source).mpr fun q' hq' hname hcall =>
          honly n q hq q' hq' hname ▸ hcall
    refine ⟨hagree, fun n hn => ?_⟩
    obtain ⟨hself, q, hq⟩ := hprimary n hn
    rw [← (hagree n q hq).2, hself]

/-! ## A source that declares a name twice -/

/-- A view of the program that a source spells, computed from the source. -/
theorem exists_program_of_view {α : Type} (view : Program → α) (v : α) (source : Text)
    (h : (Token.scan source).toOption.bind
      (fun tokens => (Program.ofTokens tokens).toOption.map view) = some v) :
    ∃ tokens p, Token.scan source = .ok tokens ∧ Program.ofTokens tokens = .ok p ∧ view p = v := by
  obtain ⟨tokens, htokens, hview⟩ := Option.bind_eq_some_iff.mp h
  obtain ⟨p, hp, rfl⟩ := Option.map_eq_some_iff.mp hview
  refine ⟨tokens, p, ?_, ?_, rfl⟩
  · cases hscan : Token.scan source with
    | error e => rw [hscan] at htokens; cases htokens
    | ok ts => rw [hscan] at htokens; exact congrArg Except.ok (Option.some.inj htokens)
  · cases hread : Program.ofTokens tokens with
    | error e => rw [hread] at hp; cases hp
    | ok p' => rw [hread] at hp; exact congrArg Except.ok (Option.some.inj hp)

/-- The first `P` calls nothing, the second one calls `P`. -/
def repeatedSource : Text := "procedure P(n) x <- 1 end procedure P(n) call P(n - 1) end"

/-- The primary procedure, and what the graph and the first `P` say of calls to `P`. -/
def viewOfP (p : Program) : Option Name × List Name × Option Bool :=
  (p.primary?, (ofProgram p).callees "p", (p.find? "p").map fun q => q.body.callsTo "p")

/-- The graph takes `P` for a procedure that calls itself, and it is the primary one, but it has no
relation. -/
theorem graph_agrees_repeated :
    ∃ tokens p, Token.scan repeatedSource = .ok tokens ∧ Program.ofTokens tokens = .ok p
      ∧ p.primary? = some ("p" : Name) ∧ (ofProgram p).callsSelf "p" = true
      ∧ (Relation.ofName? p repeatedSource "p" : Option (Relation Double)).isSome = false
      ∧ ∃ q, p.find? "p" = some q
        ∧ ¬(∀ c, c ∈ (ofProgram p).callees "p" ↔ p.CalledFrom q.body c) := by
  obtain ⟨tokens, p, hscan, hread, hview⟩ := exists_program_of_view viewOfP
    (some ("p" : Name), [("p" : Name)], some false) repeatedSource (by decide +kernel)
  obtain ⟨hprimary, hcallees, hfirst⟩ : p.primary? = some ("p" : Name)
      ∧ (ofProgram p).callees "p" = [("p" : Name)]
      ∧ (p.find? "p").map (fun q => q.body.callsTo "p") = some false := by
    simpa only [viewOfP, Prod.mk.injEq] using hview
  obtain ⟨-, hrelation, -⟩ := graph_agrees_iff (R := Double) p repeatedSource
  obtain ⟨hself, q, hq, hsome⟩ := hrelation "p" hprimary
  have hcalls : q.body.callsTo "p" = false := by simpa [hq] using hfirst
  refine ⟨tokens, p, hscan, hread, hprimary, hself, hsome.trans hcalls, q, hq, fun hagree => ?_⟩
  have hmem : ("p" : Name) ∈ (ofProgram p).callees "p" := by
    rw [hcallees]
    exact List.mem_singleton_self _
  have hcalled := (Program.calledFrom_self_iff hq).mp ((hagree "p").mp hmem)
  rw [hcalls] at hcalled
  cases hcalled

end CallGraph

end PseudoCost
