import Imp.Env
import Imp.Fault

/-! # Outcomes

A run that does not go on for ever has an outcome: it reached its end, or a fault stopped it. Either
way it leaves an environment. -/

namespace Imp

/-- How a run ended. -/
inductive Outcome where
  /-- The statement ran to its end. -/
  | done (env : Env)
  /-- A fault stopped the run in this environment. -/
  | stopped (fault : Fault) (env : Env)
deriving DecidableEq

namespace Outcome

/-- The environment that a run leaves. -/
def env : Outcome → Env
  | done e => e
  | stopped _ e => e

end Outcome

end Imp
