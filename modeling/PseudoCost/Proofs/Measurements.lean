import Mathlib
import PseudoCost.Metrics

/-!
# Measurements after any calls

Metrics keep three tables of the stages: which are running, how long each took, and in which order
they first finished. The tables change at different moments, names may start again, nest, repeat
and stop twice, and a summary looks up the times by the order. This module says what the tables
hold after any calls (`ofCalls_records`): the order lists exactly the stages that have a time, each
once, by their first stop that found a start of the stage unmatched. So no summary misses a time.

What a stop finds is said of the calls alone, by their places: `StartsAt`, `StopsAt`, `Unmatched`,
`FinishesAt`, `FirstFinish`. The invariant `TablesAt` ties the tables to them at each place of a
run, and every call takes it to the next place (`TablesAt.call`). A counter is compared with what
the calls come to (`total`), one call at a time as well (`counter_call`, `toNat_counter`).
-/

namespace PseudoCost

/-! ## Looking up -/

theorem isSome_lookup_iff {β : Type} (t : List (Text × β)) (key : Text) :
    (t.lookup key).isSome = true ↔ key ∈ t.map Prod.fst := by
  rw [List.lookup_isSome_iff, List.mem_map]
  exact exists_congr fun p => and_congr_right fun _ => beq_iff_eq.trans eq_comm

theorem lookup_cons_ite {β : Type} (entry : Text × β) (rest : List (Text × β)) (key : Text) :
    (entry :: rest).lookup key = if key = entry.1 then some entry.2 else rest.lookup key := by
  by_cases hkey : key = entry.1
  · rw [List.lookup_cons, if_pos hkey, hkey, beq_self_eq_true]
  · rw [List.lookup_cons, if_neg hkey, beq_false_of_ne hkey]

theorem mem_keys_filter_ne {β : Type} (t : List (Text × β)) (key k : Text) :
    k ∈ (t.filter (·.1 != key)).map Prod.fst ↔ k ∈ t.map Prod.fst ∧ k ≠ key := by
  simp only [List.mem_map, List.mem_filter, bne_iff_ne]
  constructor
  · rintro ⟨e, ⟨he, hne⟩, rfl⟩
    exact ⟨⟨e, he, rfl⟩, hne⟩
  · rintro ⟨⟨e, he, rfl⟩, hne⟩
    exact ⟨e, ⟨he, hne⟩, rfl⟩

/-- Names that all have an entry are looked up without a failure. -/
theorem exists_lookups {β : Type} (t : List (Text × β)) (keys : List Text)
    (h : ∀ key ∈ keys, key ∈ t.map Prod.fst) :
    ∃ found, keys.mapM (fun key => (t.lookup key).map fun b => (key, b)) = some found
      ∧ found.map Prod.fst = keys ∧ ∀ p ∈ found, t.lookup p.1 = some p.2 := by
  induction keys with
  | nil => exact ⟨[], rfl, rfl, by simp⟩
  | cons key keys ih =>
      obtain ⟨b, hb⟩ := Option.isSome_iff_exists.mp
        ((isSome_lookup_iff t key).mpr (h key List.mem_cons_self))
      obtain ⟨found, hfound, hkeys, hvalues⟩ := ih fun k hk => h k (List.mem_cons_of_mem _ hk)
      refine ⟨(key, b) :: found, ?_, by rw [List.map_cons, hkeys], ?_⟩
      · rw [List.mapM_cons, hb, hfound]
        rfl
      · exact List.forall_mem_cons.mpr ⟨hb, hvalues⟩

/-! ## Tallies -/

namespace Tally

/-- The names of a tally ascend, so each occurs once. -/
def Sorted (t : Tally) : Prop := t.Pairwise (·.1 < ·.1)

variable {key : Text} {f : UInt64 → UInt64} {t : Tally}

theorem mem_keys_update (k : Text) :
    k ∈ (update key f t).map Prod.fst ↔ k = key ∨ k ∈ t.map Prod.fst := by
  induction t with
  | nil => simp [update]
  | cons entry rest ih =>
      rw [update]
      split
      · simp
      · split
        · rename_i heq
          simp [heq]
        · rw [List.map_cons, List.mem_cons, ih, List.map_cons, List.mem_cons, or_left_comm]

theorem Sorted.update (h : Sorted t) : Sorted (update key f t) := by
  induction t with
  | nil => exact List.pairwise_singleton _ _
  | cons entry rest ih =>
      obtain ⟨hfirst, hrest⟩ := List.pairwise_cons.mp h
      rw [Tally.update]
      split
      · rename_i hlt
        refine List.pairwise_cons.mpr ⟨List.forall_mem_cons.mpr ⟨hlt, fun e he => ?_⟩, h⟩
        exact List.lt_trans hlt (hfirst e he)
      · split
        · exact List.pairwise_cons.mpr ⟨hfirst, hrest⟩
        · rename_i hlt hne
          have hgt : entry.1 < key :=
            (List.le_iff_lt_or_eq.mp (List.not_lt.mp hlt)).resolve_right (Ne.symm hne)
          refine List.pairwise_cons.mpr ⟨fun e he => ?_, ih hrest⟩
          rcases (mem_keys_update e.1).mp (List.mem_map_of_mem he) with heq | hmem
          · exact heq ▸ hgt
          · obtain ⟨e', he', heq⟩ := List.mem_map.mp hmem
            exact heq ▸ hfirst e' he'

/-- A name before all those of a tally is not in it. -/
theorem lookup_of_lt (h : ∀ e ∈ t, key < e.1) : t.lookup key = none := by
  refine List.lookup_eq_none_iff.mpr fun e he => bne_iff_ne.mpr fun heq => ?_
  exact List.lt_irrefl e.1 (heq ▸ h e he)

/-- An update changes the word with its name and no other one. -/
theorem lookup_update (h : Sorted t) (k : Text) :
    (update key f t).lookup k
      = if k = key then some (f ((t.lookup key).getD 0)) else t.lookup k := by
  induction t with
  | nil => rw [update, lookup_cons_ite, List.lookup_nil, List.lookup_nil, Option.getD_none]
  | cons entry rest ih =>
      obtain ⟨hfirst, hrest⟩ := List.pairwise_cons.mp h
      rw [update]
      split
      · rename_i hlt
        have hnone : (entry :: rest).lookup key = none :=
          lookup_of_lt (List.forall_mem_cons.mpr
            ⟨hlt, fun e he => List.lt_trans hlt (hfirst e he)⟩)
        rw [lookup_cons_ite, hnone, Option.getD_none]
      · split
        · rename_i heq
          rw [lookup_cons_ite, lookup_cons_ite, lookup_cons_ite, if_pos heq, Option.getD_some, heq]
          split <;> rfl
        · rename_i hne
          rw [lookup_cons_ite, lookup_cons_ite, lookup_cons_ite, if_neg hne, ih hrest]
          by_cases hk : k = entry.1
          · rw [if_pos hk, if_neg fun h => hne (h.symm.trans hk), if_pos hk]
          · rw [if_neg hk, if_neg hk]

end Tally

namespace Metrics

/-! ## Calls -/

/-- A call on metrics. Starts and stops come with the instant of the clock. -/
inductive Call where
  | start (stage : Text) (now : Nat)
  | stop (stage : Text) (now : Nat)
  | count (key : Text) (delta : UInt64)
  | setCounter (key : Text) (value : UInt64)
  | setGauge (key : Text) (value : UInt64)
  | setGeometry (nodes depth : UInt64)

/-- The metrics after a call. -/
def call (m : Metrics) : Call → Metrics
  | .start stage now => m.start stage now
  | .stop stage now => m.stop stage now
  | .count key delta => m.count key delta
  | .setCounter key value => m.setCounter key value
  | .setGauge key value => m.setGauge key value
  | .setGeometry nodes depth => m.setGeometry nodes depth

/-- The metrics after some calls on new ones. -/
def ofCalls (calls : List Call) : Metrics := calls.foldl call {}

theorem ofCalls_concat (calls : List Call) (c : Call) :
    ofCalls (calls ++ [c]) = (ofCalls calls).call c := by
  rw [ofCalls, List.foldl_append]
  rfl

theorem stop_of_not_pending {m : Metrics} {stage : Text} (h : m.pending.lookup stage = none)
    (now : Nat) : m.stop stage now = m := by
  rw [stop, h]

theorem stop_of_pending {m : Metrics} {stage : Text} {began : Nat}
    (h : m.pending.lookup stage = some began) (now : Nat) :
    m.stop stage now = { m with
      pending := m.pending.filter (·.1 != stage)
      order := if (m.durations.lookup stage).isNone then m.order ++ [stage] else m.order
      durations := m.durations.update stage (· + ((now - began) / 1000).toUInt64) } := by
  rw [stop, h]

/-! ## Starts, stops and finishes -/

section Places

variable (calls : List Call) (stage : Text) (i : Nat)

/-- The call at a place starts the stage. -/
def StartsAt : Prop := ∃ now, calls[i]? = some (.start stage now)

/-- The call at a place stops the stage, or tries to. -/
def StopsAt : Prop := ∃ now, calls[i]? = some (.stop stage now)

/-- Before a place the stage was started, and no stop of it has followed. -/
def Unmatched : Prop :=
  ∃ j < i, StartsAt calls stage j ∧ ∀ k, j < k → k < i → ¬ StopsAt calls stage k

/-- The call at a place stops the stage and finds a start of it unmatched. -/
def FinishesAt : Prop := StopsAt calls stage i ∧ Unmatched calls stage i

/-- The call at a place is the first that finishes the stage. -/
def FirstFinish : Prop := FinishesAt calls stage i ∧ ∀ j < i, ¬ FinishesAt calls stage j

/-- The first stage first finishes before the second one does. -/
def FinishesBefore (s t : Text) : Prop :=
  ∃ j k, FirstFinish calls s j ∧ FirstFinish calls t k ∧ j < k

end Places

variable {calls : List Call} {stage : Text} {i : Nat} {m : Metrics}

theorem StopsAt.lt_length (h : StopsAt calls stage i) : i < calls.length := by
  obtain ⟨_, h⟩ := h
  exact (List.getElem?_eq_some_iff.mp h).1

theorem startsAt_iff {c : Call} (hc : calls[i]? = some c) :
    StartsAt calls stage i ↔ ∃ now, c = .start stage now := by
  rw [StartsAt, hc]
  exact exists_congr fun now => Option.some_inj

theorem stopsAt_iff {c : Call} (hc : calls[i]? = some c) :
    StopsAt calls stage i ↔ ∃ now, c = .stop stage now := by
  rw [StopsAt, hc]
  exact exists_congr fun now => Option.some_inj

theorem not_unmatched_zero : ¬ Unmatched calls stage 0 := by
  rintro ⟨j, hj, -⟩
  exact Nat.not_lt_zero j hj

/-- After a call a stage is unmatched if the call started it, or it was before and the call did not
stop it. -/
theorem unmatched_succ :
    Unmatched calls stage (i + 1)
      ↔ StartsAt calls stage i ∨ Unmatched calls stage i ∧ ¬ StopsAt calls stage i := by
  constructor
  · rintro ⟨j, hj, hstart, hstop⟩
    rcases Nat.lt_succ_iff_lt_or_eq.mp hj with hlt | rfl
    · refine Or.inr ⟨⟨j, hlt, hstart, fun k hjk hk => ?_⟩, hstop i hlt i.lt_succ_self⟩
      exact hstop k hjk (Nat.lt_succ_of_lt hk)
    · exact Or.inl hstart
  · rintro (hstart | ⟨⟨j, hj, hstart, hstop⟩, hnot⟩)
    · exact ⟨i, i.lt_succ_self, hstart, fun k hik hk => absurd hk (by omega)⟩
    · refine ⟨j, Nat.lt_succ_of_lt hj, hstart, fun k hjk hk => ?_⟩
      rcases Nat.lt_succ_iff_lt_or_eq.mp hk with hlt | rfl
      · exact hstop k hjk hlt
      · exact hnot

theorem FirstFinish.unique {j : Nat} (hi : FirstFinish calls stage i)
    (hj : FirstFinish calls stage j) : i = j := by
  rcases Nat.lt_trichotomy i j with hlt | heq | hgt
  · exact absurd hi.1 (hj.2 i hlt)
  · exact heq
  · exact absurd hj.1 (hi.2 j hgt)

theorem exists_firstFinish (h : FinishesAt calls stage i) :
    ∃ j ≤ i, FirstFinish calls stage j := by
  classical
  have hex : ∃ j, FinishesAt calls stage j := ⟨i, h⟩
  exact ⟨Nat.find hex, Nat.find_min' hex h, Nat.find_spec hex, fun j => Nat.find_min hex⟩

/-! ## The tables of the stages -/

/-- What the tables of the stages hold when the calls before a place have been made. -/
structure TablesAt (calls : List Call) (i : Nat) (m : Metrics) : Prop where
  pending : ∀ stage, stage ∈ m.pending.map Prod.fst ↔ Unmatched calls stage i
  timed : ∀ stage, stage ∈ m.order ↔ stage ∈ m.durations.map Prod.fst
  listed : ∀ stage, stage ∈ m.order ↔ ∃ j < i, FinishesAt calls stage j
  ascending : m.order.Pairwise (FinishesBefore calls)

theorem tablesAt_zero : TablesAt calls 0 {} where
  pending stage := iff_of_false List.not_mem_nil not_unmatched_zero
  timed stage := Iff.rfl
  listed stage := iff_of_false List.not_mem_nil (by simp)
  ascending := List.Pairwise.nil

namespace TablesAt

/-- A call that neither starts nor finishes a stage leaves the tables as they are. -/
theorem idle (h : TablesAt calls i m) (hstart : ∀ stage, ¬ StartsAt calls stage i)
    (hfinish : ∀ stage, ¬ FinishesAt calls stage i) {m' : Metrics}
    (hpending : m'.pending = m.pending) (hdurations : m'.durations = m.durations)
    (horder : m'.order = m.order) : TablesAt calls (i + 1) m' where
  pending stage := by
    have hkept (hun : Unmatched calls stage i) : ¬ StopsAt calls stage i :=
      fun hstop => hfinish stage ⟨hstop, hun⟩
    rw [hpending, h.pending, unmatched_succ, or_iff_right (hstart stage),
      and_iff_left_of_imp hkept]
  timed stage := by rw [horder, hdurations, h.timed]
  listed stage := by
    rw [horder, h.listed, Nat.exists_lt_succ_right, or_iff_left (hfinish stage)]
  ascending := by
    rw [horder]
    exact h.ascending

theorem start (h : TablesAt calls i m) {now : Nat} (hc : calls[i]? = some (.start stage now)) :
    TablesAt calls (i + 1) (m.start stage now) := by
  have hstart (s : Text) : StartsAt calls s i ↔ s = stage := by
    simp [startsAt_iff hc, eq_comm]
  have hstop (s : Text) : ¬ StopsAt calls s i := by simp [stopsAt_iff hc]
  refine ⟨fun s => ?_, h.timed, fun s => ?_, h.ascending⟩
  · rw [unmatched_succ, hstart, and_iff_left (hstop s), ← h.pending, Metrics.start, List.map_cons,
      List.mem_cons, mem_keys_filter_ne, or_and_left, and_iff_left (em (s = stage))]
  · rw [Nat.exists_lt_succ_right, or_iff_left fun hf : FinishesAt calls s i => hstop s hf.1]
    exact h.listed s

/-- A stage that no earlier call finished comes after all that are listed. -/
theorem ascending_concat (h : TablesAt calls i m) (hfinish : FinishesAt calls stage i)
    (hnew : stage ∉ m.order) : (m.order ++ [stage]).Pairwise (FinishesBefore calls) := by
  have hfirst : FirstFinish calls stage i :=
    ⟨hfinish, fun j hj hf => hnew ((h.listed stage).mpr ⟨j, hj, hf⟩)⟩
  refine List.pairwise_append.mpr ⟨h.ascending, List.pairwise_singleton _ _, fun s hs t ht => ?_⟩
  obtain ⟨j, hj, hf⟩ := (h.listed s).mp hs
  obtain ⟨k, hk, hsfirst⟩ := exists_firstFinish hf
  rw [List.mem_singleton.mp ht]
  exact ⟨k, i, hsfirst, hfirst, Nat.lt_of_le_of_lt hk hj⟩

/-- A stop looks into the times to tell whether the stage is listed. -/
theorem order_stop (h : TablesAt calls i m) {began : Nat}
    (hbegan : m.pending.lookup stage = some began) (now : Nat) :
    (m.stop stage now).order = if stage ∈ m.order then m.order else m.order ++ [stage] := by
  rw [stop_of_pending hbegan]
  cases htime : m.durations.lookup stage with
  | none =>
      have hnew : stage ∉ m.order := by simp [h.timed, ← isSome_lookup_iff, htime]
      rw [if_neg hnew]
      rfl
  | some time =>
      have hlisted : stage ∈ m.order := by simp [h.timed, ← isSome_lookup_iff, htime]
      rw [if_pos hlisted]
      rfl

theorem finish (h : TablesAt calls i m) {now began : Nat}
    (hc : calls[i]? = some (.stop stage now)) (hbegan : m.pending.lookup stage = some began) :
    TablesAt calls (i + 1) (m.stop stage now) := by
  have hstart (s : Text) : ¬ StartsAt calls s i := by simp [startsAt_iff hc]
  have hstop (s : Text) : StopsAt calls s i ↔ s = stage := by
    simp [stopsAt_iff hc, eq_comm]
  have hunmatched : Unmatched calls stage i :=
    (h.pending stage).mp ((isSome_lookup_iff _ _).mp (by rw [hbegan]; rfl))
  have hfinish (s : Text) : FinishesAt calls s i ↔ s = stage := by
    rw [FinishesAt, hstop]
    exact and_iff_left_of_imp fun hs => hs ▸ hunmatched
  have horder (s : Text) : s ∈ (m.stop stage now).order ↔ s ∈ m.order ∨ s = stage := by
    rw [h.order_stop hbegan]
    split
    · rename_i hlisted
      exact (or_iff_left_of_imp fun hs : s = stage => hs ▸ hlisted).symm
    · rw [List.mem_append, List.mem_singleton]
  refine ⟨fun s => ?_, fun s => ?_, fun s => ?_, ?_⟩
  · rw [unmatched_succ, or_iff_right (hstart s), hstop, ← h.pending, stop_of_pending hbegan]
    exact mem_keys_filter_ne m.pending stage s
  · rw [horder, h.timed, stop_of_pending hbegan, Tally.mem_keys_update, or_comm]
  · rw [horder, h.listed, Nat.exists_lt_succ_right, hfinish]
  · rw [h.order_stop hbegan]
    split
    · exact h.ascending
    · rename_i hnew
      exact h.ascending_concat ((hfinish stage).mpr rfl) hnew

/-- Every call takes the tables to the next place. -/
theorem call (h : TablesAt calls i m) {c : Call} (hc : calls[i]? = some c) :
    TablesAt calls (i + 1) (m.call c) := by
  cases c with
  | start stage now => exact h.start hc
  | stop stage now =>
      cases hpending : m.pending.lookup stage with
      | some began => exact h.finish hc hpending
      | none =>
          -- No start of the stage is pending, so none is unmatched and the stop does not count.
          rw [Metrics.call, stop_of_not_pending hpending]
          refine h.idle (fun s => by simp [startsAt_iff hc]) (fun s hf => ?_) rfl rfl rfl
          obtain ⟨_, hstop⟩ := (stopsAt_iff hc).mp hf.1
          cases hstop
          have hmem := (isSome_lookup_iff _ _).mpr ((h.pending stage).mpr hf.2)
          rw [hpending] at hmem
          cases hmem
  | count | setCounter | setGauge | setGeometry =>
      exact h.idle (fun s => by simp [startsAt_iff hc])
        (fun s hf => by simpa [stopsAt_iff hc] using hf.1) rfl rfl rfl

end TablesAt

/-- The tables after the first calls of a run. Places are places of the whole run, so the induction
goes along it and nothing has to be carried over from a shorter run to a longer one. -/
theorem tablesAt_take (hi : i ≤ calls.length) : TablesAt calls i (ofCalls (calls.take i)) := by
  induction i with
  | zero => exact tablesAt_zero
  | succ i ih =>
      have hc : calls[i]? = some calls[i] := List.getElem?_eq_getElem hi
      rw [List.take_add_one, hc, Option.toList_some, ofCalls_concat]
      exact (ih (Nat.le_of_succ_le hi)).call hc

theorem tablesAt_ofCalls (calls : List Call) : TablesAt calls calls.length (ofCalls calls) := by
  simpa using tablesAt_take (le_refl calls.length)

/-! ## The counters -/

namespace Call

/-- The value that a call sets a counter to. -/
def value? (key : Text) : Call → Option UInt64
  | .setCounter k value => if key = k then some value else none
  | _ => none

/-- What a call adds to a counter. -/
def delta? (key : Text) : Call → Option UInt64
  | .count k delta => if key = k then some delta else none
  | _ => none

/-- A call that sets a counter or adds to it. -/
def Counts (key : Text) (c : Call) : Prop := (c.value? key).isSome ∨ (c.delta? key).isSome

end Call

/-- The value that a counter was last set to, zero if it never was. -/
def lastValue (key : Text) (calls : List Call) : UInt64 :=
  (calls.filterMap (Call.value? key)).getLastD 0

/-- What was added to a counter since it was last set, or from the beginning if it never was. -/
def addedSince (key : Text) (calls : List Call) : List UInt64 :=
  (calls.rtakeWhile fun c => (c.value? key).isNone).filterMap (Call.delta? key)

/-- The last value of a counter and all that was added since, as natural numbers. -/
def total (key : Text) (calls : List Call) : Nat :=
  (lastValue key calls).toNat + ((addedSince key calls).map UInt64.toNat).sum

variable {key : Text} {c : Call}

theorem total_concat_of_value {value : UInt64} (h : c.value? key = some value)
    (calls : List Call) : total key (calls ++ [c]) = value.toNat := by
  simp [total, lastValue, addedSince, h]

theorem total_concat (h : c.value? key = none) (calls : List Call) :
    total key (calls ++ [c]) = total key calls + ((c.delta? key).getD 0).toNat := by
  have hlast : lastValue key (calls ++ [c]) = lastValue key calls := by
    simp [lastValue, h]
  have hadded : addedSince key (calls ++ [c])
      = addedSince key calls ++ (c.delta? key).toList := by
    cases hdelta : c.delta? key <;> simp [addedSince, h, hdelta]
  rw [total, total, hlast, hadded, List.map_append, List.sum_append, Nat.add_assoc]
  cases c.delta? key <;> simp

/-- What a call can do to the counters: change the one that it counts, or nothing. -/
theorem counters_call (m : Metrics) (c : Call) :
    (∃ k f, (m.call c).counters = m.counters.update k f ∧ (∀ key, c.Counts key ↔ key = k)
        ∧ ∀ w, f w = (c.value? k).getD (w + (c.delta? k).getD 0))
      ∨ (m.call c).counters = m.counters ∧ ∀ key, ¬ c.Counts key := by
  cases c with
  | count k delta =>
      refine Or.inl ⟨k, (· + delta), rfl, fun key => ?_, fun w => ?_⟩
      · simp [Call.Counts, Call.value?, Call.delta?]
      · simp [Call.value?, Call.delta?]
  | setCounter k value =>
      refine Or.inl ⟨k, fun _ => value, rfl, fun key => ?_, fun w => ?_⟩
      · simp [Call.Counts, Call.value?, Call.delta?]
      · simp [Call.value?]
  | stop stage now =>
      refine Or.inr ⟨?_, by simp [Call.Counts, Call.value?, Call.delta?]⟩
      cases hpending : m.pending.lookup stage with
      | none => rw [call, stop_of_not_pending hpending]
      | some began => rw [call, stop_of_pending hpending]
  | start | setGauge | setGeometry =>
      exact Or.inr ⟨rfl, by simp [Call.Counts, Call.value?, Call.delta?]⟩

theorem sorted_counters (calls : List Call) : Tally.Sorted (ofCalls calls).counters := by
  induction calls using List.reverseRecOn with
  | nil => exact List.Pairwise.nil
  | append_singleton calls c ih =>
      rw [ofCalls_concat]
      rcases counters_call (ofCalls calls) c with ⟨k, f, heq, -, -⟩ | ⟨heq, -⟩
      · rw [heq]
        exact ih.update
      · rw [heq]
        exact ih

theorem mem_counters (calls : List Call) (key : Text) :
    key ∈ (ofCalls calls).counters.map Prod.fst ↔ ∃ c ∈ calls, c.Counts key := by
  induction calls using List.reverseRecOn with
  | nil => exact iff_of_false List.not_mem_nil (by simp)
  | append_singleton calls c ih =>
      have hexists : (∃ c' ∈ calls ++ [c], c'.Counts key)
          ↔ c.Counts key ∨ ∃ c' ∈ calls, c'.Counts key := by
        simp only [List.mem_append, List.mem_singleton, or_and_right, exists_or, exists_eq_left]
        exact or_comm
      rw [ofCalls_concat, hexists, ← ih]
      rcases counters_call (ofCalls calls) c with ⟨k, f, heq, hcounts, -⟩ | ⟨heq, hcounts⟩
      · rw [heq, Tally.mem_keys_update, hcounts]
      · rw [heq, or_iff_right (hcounts key)]

/-- The word of a counter, zero as long as no call counts it. -/
def counter (m : Metrics) (key : Text) : UInt64 := (m.counters.lookup key).getD 0

theorem counter_call (h : Tally.Sorted m.counters) (c : Call) (key : Text) :
    (m.call c).counter key = (c.value? key).getD (m.counter key + (c.delta? key).getD 0) := by
  have hother (hnot : ¬ c.Counts key) :
      (c.value? key).getD (m.counter key + (c.delta? key).getD 0) = m.counter key := by
    simp only [Call.Counts, not_or, Option.not_isSome_iff_eq_none] at hnot
    rw [hnot.1, hnot.2, Option.getD_none, Option.getD_none, UInt64.add_zero]
  rcases counters_call m c with ⟨k, f, heq, hcounts, hf⟩ | ⟨heq, hcounts⟩
  · rw [counter, heq, Tally.lookup_update h]
    by_cases hkey : key = k
    · rw [if_pos hkey, Option.getD_some, hf, hkey, counter]
    · rw [if_neg hkey, hother (mt (hcounts key).mp hkey), counter]
  · rw [counter, heq, hother (hcounts key), counter]

theorem toNat_counter (calls : List Call) (key : Text) :
    ((ofCalls calls).counter key).toNat = total key calls % 2 ^ 64 := by
  induction calls using List.reverseRecOn with
  | nil => rfl
  | append_singleton calls c ih =>
      rw [ofCalls_concat, counter_call (sorted_counters calls)]
      cases hvalue : c.value? key with
      | some value =>
          rw [total_concat_of_value hvalue, Option.getD_some, Nat.mod_eq_of_lt value.toNat_lt]
      | none =>
          rw [total_concat hvalue, Option.getD_none, UInt64.toNat_add, ih, Nat.mod_add_mod]

/-! ## What every run records -/

/-- What metrics owe to the calls that they come from. -/
structure Records (calls : List Call) (m : Metrics) : Prop where
  /-- No stage is listed twice. -/
  nodup : m.order.Nodup
  /-- The stages listed are those that have a time. -/
  timed : ∀ stage, stage ∈ m.order ↔ stage ∈ m.durations.map Prod.fst
  /-- They are those that some stop found started. -/
  finished : ∀ stage, stage ∈ m.order ↔ ∃ i, FirstFinish calls stage i
  /-- They are listed in the order in which this first happened. -/
  ascending : m.order.Pairwise (FinishesBefore calls)
  /-- Both summaries find the time of every stage that is listed. -/
  summaries : m.finished.map Prod.fst = m.order
    ∧ (∀ p ∈ m.finished, m.durations.lookup p.1 = some p.2)
    ∧ m.summaryText? = some m.summaryText ∧ m.summaryJson? = some m.summaryJson
  /-- A stop changes nothing exactly if no start of its stage is unmatched. -/
  stop_eq_self : ∀ stage now, m.stop stage now = m ↔ ¬ Unmatched calls stage calls.length
  /-- A counter is kept exactly if a call counts it, and holds what the calls come to. -/
  counted : ∀ key value, m.counters.lookup key = some value
    ↔ (∃ c ∈ calls, c.Counts key) ∧ value.toNat = total key calls % 2 ^ 64

/-- The time of every stage that is listed is found. -/
theorem timed_ofCalls (calls : List Call) :
    (ofCalls calls).timed? = some (ofCalls calls).finished
      ∧ (ofCalls calls).finished.map Prod.fst = (ofCalls calls).order
      ∧ ∀ p ∈ (ofCalls calls).finished, (ofCalls calls).durations.lookup p.1 = some p.2 := by
  obtain ⟨stages, htimed, hstages⟩ := exists_lookups (ofCalls calls).durations (ofCalls calls).order
    fun stage hstage => ((tablesAt_ofCalls calls).timed stage).mp hstage
  have hfinished : (ofCalls calls).finished = stages := by
    rw [finished, timed?, htimed, Option.getD_some]
  rw [hfinished]
  exact ⟨htimed, hstages⟩

namespace TablesAt

theorem nodup (h : TablesAt calls i m) : m.order.Nodup := by
  refine h.ascending.imp fun {s t} => ?_
  rintro ⟨j, k, hj, hk, hlt⟩ rfl
  exact absurd (hj.unique hk) (Nat.ne_of_lt hlt)

/-- In the end, the stages listed are those that finished at any place. -/
theorem finished (h : TablesAt calls calls.length m) (stage : Text) :
    stage ∈ m.order ↔ ∃ i, FirstFinish calls stage i := by
  rw [h.listed]
  constructor
  · rintro ⟨j, -, hj⟩
    obtain ⟨k, -, hk⟩ := exists_firstFinish hj
    exact ⟨k, hk⟩
  · rintro ⟨j, hj⟩
    exact ⟨j, hj.1.1.lt_length, hj.1⟩

theorem stop_eq_self (h : TablesAt calls i m) (stage : Text) (now : Nat) :
    m.stop stage now = m ↔ ¬ Unmatched calls stage i := by
  rw [← h.pending, ← isSome_lookup_iff, Option.not_isSome_iff_eq_none]
  refine ⟨fun heq => ?_, fun hnone => stop_of_not_pending hnone now⟩
  cases hpending : m.pending.lookup stage with
  | none => rfl
  | some began =>
      have hmem : stage ∈ m.pending.map Prod.fst :=
        (isSome_lookup_iff _ _).mp (by rw [hpending]; rfl)
      rw [← heq, stop_of_pending hpending] at hmem
      exact absurd rfl ((mem_keys_filter_ne _ _ _).mp hmem).2

end TablesAt

theorem lookup_counters_eq_some_iff (calls : List Call) (key : Text) (value : UInt64) :
    (ofCalls calls).counters.lookup key = some value
      ↔ (∃ c ∈ calls, c.Counts key) ∧ value.toNat = total key calls % 2 ^ 64 := by
  rw [← mem_counters, ← isSome_lookup_iff, ← toNat_counter, counter]
  cases (ofCalls calls).counters.lookup key with
  | none => simp
  | some w =>
      rw [Option.getD_some, UInt64.toNat_inj, Option.some_inj, eq_comm]
      exact (and_iff_right rfl).symm

/-- **The tables agree after any calls.** Whatever names are started, stopped and counted, and in
whatever order, the stages listed are those with a time, in the order in which they first finished,
so no summary misses a time; a stop that finds no start changes nothing; and the counters hold what
they were last set to and all that was added since. -/
theorem ofCalls_records (calls : List Call) : Records calls (ofCalls calls) := by
  have htables := tablesAt_ofCalls calls
  obtain ⟨htimed, hnames, htimes⟩ := timed_ofCalls calls
  exact {
    nodup := htables.nodup
    timed := htables.timed
    finished := htables.finished
    ascending := htables.ascending
    summaries := by
      refine ⟨hnames, htimes, ?_, ?_⟩
      · rw [summaryText?, htimed, Option.map_some, summaryText]
      · rw [summaryJson?, htimed, Option.map_some, summaryJson]
    stop_eq_self := htables.stop_eq_self
    counted := lookup_counters_eq_some_iff calls }

/-- Two stages, one inside the other. The inner one finishes first and then once more. -/
example : (ofCalls [.stop "Parse" 0, .start "Parse" 1, .start "Lex" 2, .stop "Lex" 3, .stop "Lex" 4,
    .stop "Parse" 5, .start "Lex" 6, .stop "Lex" 7]).order = ["Lex", "Parse"] := by decide

end Metrics

end PseudoCost
