import PseudoCost.CommandLine.Session
import PseudoCost.Proofs.Measurements

/-!
# A measured run has its summary

A run that was asked for measurements writes a summary of them beside its report, and would end in
an error if a time was missing there. It never does (`analyze_reported`): whatever the source and
the clock are, the metrics that an analysis hands over come from calls (`analyze_recorded`), so all
that is listed has a time (`status_reported`).

The clock may do anything, so this is said of every computation that an analysis is made of, in
any lawful monad: from metrics that come from calls it leads to metrics that come from calls
(`Keeps`).
-/

namespace PseudoCost

open Metrics Recurrence

namespace Metrics

/-- Metrics that come from some calls. -/
def Recorded (s : Metrics) : Prop := ∃ calls, ofCalls calls = s

theorem recorded_new : Recorded {} := ⟨[], rfl⟩

variable {s : Metrics}

theorem Recorded.call (h : Recorded s) (c : Call) : Recorded (s.call c) := by
  obtain ⟨calls, rfl⟩ := h
  exact ⟨calls ++ [c], ofCalls_concat calls c⟩

theorem Recorded.timed (h : Recorded s) : s.timed? = some s.finished := by
  obtain ⟨calls, rfl⟩ := h
  exact (timed_ofCalls calls).1

end Metrics

/-! ## Computations that keep to the calls -/

variable {m : Type → Type} [Monad m] [LawfulMonad m] {α β ε : Type}

/-- From metrics that come from calls the computation leads to metrics that come from calls. -/
def Keeps (act : StateT Metrics m α) : Prop :=
  ∀ s, Recorded s → SatisfiesM (fun r => Recorded r.2) (act.run s)

namespace Keeps

theorem pure (a : α) : Keeps (Pure.pure a : StateT Metrics m α) :=
  fun _ hs => SatisfiesM.pure hs

theorem bind {act : StateT Metrics m α} {next : α → StateT Metrics m β} (h : Keeps act)
    (hnext : ∀ a, Keeps (next a)) : Keeps (act >>= next) := by
  intro s hs
  rw [StateT.run_bind]
  exact (h s hs).bind fun r hr => hnext r.1 r.2 hr

theorem lift (act : m α) : Keeps (liftM act : StateT Metrics m α) := by
  intro s hs
  have hrun : (liftM act : StateT Metrics m α).run s = act >>= fun a => Pure.pure (a, s) := rfl
  rw [hrun]
  exact (SatisfiesM.trivial (x := act)).bind fun a _ => SatisfiesM.pure hs

theorem modify {f : Metrics → Metrics} (h : ∀ s, Recorded s → Recorded (f s)) :
    Keeps (modify f : StateT Metrics m Unit) :=
  fun s hs => SatisfiesM.pure (h s hs)

theorem bindExcept {act : ExceptT ε (StateT Metrics m) α}
    {next : α → ExceptT ε (StateT Metrics m) β} (h : Keeps act.run)
    (hnext : ∀ a, Keeps (next a).run) : Keeps (act >>= next).run := by
  rw [ExceptT.run_bind]
  refine h.bind fun r => ?_
  cases r with
  | ok a => exact hnext a
  | error e => exact pure _

theorem liftExcept {act : StateT Metrics m α} (h : Keeps act) :
    Keeps (ExceptT.lift act : ExceptT ε (StateT Metrics m) α).run := by
  rw [ExceptT.run_lift]
  exact h.bind fun a => pure _

variable (clock : m Nat)

theorem stage (name : Text) (work : Unit → α) :
    Keeps ((Probe.metered clock).stage name work) := by
  refine (lift clock).bind fun began => ?_
  refine (modify fun s hs => hs.call (.start name began)).bind fun _ => ?_
  refine (pure (work ())).bind fun result => ?_
  refine (lift clock).bind fun ended => ?_
  exact (modify fun s hs => hs.call (.stop name ended)).bind fun _ => pure result

theorem note {f : Metrics → Metrics} (h : ∀ s, Recorded s → Recorded (f s)) :
    Keeps ((Probe.metered clock).note f) := modify h

end Keeps

/-! ## Stages -/

namespace Analysis

variable {R : Type} [Scalar R] (clock : m Nat)

theorem keeps_read (source : Text) : Keeps (read (Probe.metered clock) source).run := by
  refine (Keeps.stage clock "Lex" _).bindExcept fun tokens => ?_
  refine (Keeps.note clock fun s hs => hs.call (.setCounter _ _)).liftExcept.bindExcept fun _ => ?_
  refine (Keeps.stage clock "Parse" _).bindExcept fun program => ?_
  refine Keeps.bindExcept (Keeps.note clock fun s hs => ?_).liftExcept fun _ => Keeps.pure _
  exact ((hs.call (.setCounter _ _)).call (.setGeometry _ _)).call (.setCounter _ _)

theorem keeps_solve (rel : Relation R) : Keeps (solve (Probe.metered clock) rel) := by
  refine (Keeps.stage clock "Solve" _).bind fun outcome => ?_
  cases outcome with
  | solved => exact Keeps.pure _
  | unsolvable =>
      exact (Keeps.note clock fun s hs => hs.call (.count _ _)).bind fun _ => Keeps.pure _

theorem keeps_draw (options : Options) (rel : Relation R) :
    Keeps (draw (Probe.metered clock) options rel) := by
  rw [draw]
  split
  · refine (Keeps.stage clock "Tree" _).bind fun tree => ?_
    exact (Keeps.note clock fun s hs => hs.call (.setGauge _ _)).bind fun _ => Keeps.pure _
  · exact Keeps.pure _

theorem keeps_judge (options : Options) (source : Text) (p : Program) :
    Keeps (judge (R := R) (Probe.metered clock) options source p) := by
  refine (Keeps.stage clock "Structural" _).bind fun first => ?_
  refine (Keeps.stage clock "Extract" _).bind fun relation => ?_
  cases relation with
  | none => exact Keeps.stage clock "Resolve" _
  | some found =>
      refine (keeps_solve clock found.2).bind fun outcome => ?_
      refine (keeps_draw clock options found.2).bind fun tree => ?_
      cases outcome with
      | solved s =>
          exact (Keeps.stage clock "Structural" _).bind fun _ => Keeps.stage clock "Resolve" _
      | unsolvable => exact (Keeps.pure _).bind fun _ => Keeps.stage clock "Resolve" _

theorem keeps_examine (options : Options) (source : Text) (tokens : List Token) (p : Program) :
    Keeps (examine (R := R) (Probe.metered clock) options source tokens p) := by
  refine (Keeps.stage clock "LineCosts" _).bind fun rows => ?_
  refine (keeps_judge clock options source p).bind fun report => ?_
  exact (Keeps.note clock fun s hs => hs.call (.setCounter _ _)).bind fun _ => Keeps.pure _

theorem keeps_runWith (options : Options) (source : Text) :
    Keeps (runWith (R := R) (Probe.metered clock) options source).run :=
  (keeps_read clock source).bindExcept fun found =>
    (keeps_examine clock options source found.1 found.2).liftExcept

end Analysis

namespace CommandLine

/-- The metrics of every analysis come from calls, whatever the clock and the source are, and also
where the source turns out to be at fault. -/
theorem analyze_recorded (clock : m Nat) (o : Options) (source : Text) :
    SatisfiesM (fun r => Recorded r.2) (analyze clock o source) := by
  rw [analyze]
  split
  · exact Analysis.keeps_runWith clock _ source {} recorded_new
  · exact (SatisfiesM.trivial (x := _)).bind fun r _ => SatisfiesM.pure recorded_new

/-- With metrics that come from calls, a run that has a report ends well. -/
theorem status_reported (o : Options) (report : Report Double) {metrics : Metrics}
    (h : Recorded metrics) : (reported o report metrics).status = 0 := by
  have hmeasured : ∃ text, metricsText? o metrics = some text := by
    rw [metricsText?, summaryJson?, summaryText?, h.timed]
    split
    · exact ⟨_, rfl⟩
    · split
      · exact ⟨_, rfl⟩
      · exact ⟨_, rfl⟩
  obtain ⟨text, htext⟩ := hmeasured
  rw [reported, htext]

/-- **A run that has a report ends well**, whether or not it is measured. -/
theorem analyze_reported (clock : m Nat) (o : Options) (source : Text) :
    SatisfiesM (fun r => ∀ report, r.1 = .ok report → (reported o report r.2).status = 0)
      (analyze clock o source) :=
  (analyze_recorded clock o source).imp fun h report _ => status_reported o report h

end CommandLine

end PseudoCost
