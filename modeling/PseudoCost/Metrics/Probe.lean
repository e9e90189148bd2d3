import PseudoCost.Metrics

/-!
# Probes

The stages of an analysis are run through a probe, which may measure them. The silent probe runs
each stage and measures nothing; the metered one keeps `Metrics`, with the instants of a clock. An
analysis is written once for all probes, so what it answers does not depend on being measured.
-/

namespace PseudoCost

/-- How the stages of an analysis are run. -/
structure Probe (m : Type → Type) where
  /-- Runs a stage under its name. -/
  stage : {α : Type} → Text → (Unit → α) → m α
  /-- Takes note of something beside the times of the stages. -/
  note : (Metrics → Metrics) → m Unit

namespace Probe

variable {m : Type → Type} [Monad m]

/-- Does the work of a stage as an action of its own, so that a compiler does not move it past the
reading of the clock. -/
@[noinline] def perform {α : Type} (work : Unit → α) : m α := pure (work ())

/-- The probe that measures nothing. -/
def silent : Probe m where
  stage _ work := pure (work ())
  note _ := pure ()

/-- The probe that keeps metrics. -/
def metered (clock : m Nat) : Probe (StateT Metrics m) where
  stage name work := do
    let began ← clock
    modify (·.start name began)
    let result ← perform work
    let ended ← clock
    modify (·.stop name ended)
    return result
  note := modify

end Probe

end PseudoCost
