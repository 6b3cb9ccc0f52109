/-!
# Engine configuration

The bounds and the mode of a run.
-/

namespace ScopeFlow

/-- How an engine runs. -/
structure Config where
  /-- Branches drain on stacks of their own. -/
  parallel : Bool
  /-- The largest stack of pending operations, counted for each branch by
  itself. -/
  maxStackDepth : Nat
  /-- The deepest chain of contexts. -/
  maxContextDepth : Nat
  /-- Milliseconds between two time events of a run. -/
  timeUpdateInterval : Nat
deriving DecidableEq, Inhabited

namespace Config

/-- The configuration of an engine that was given none. -/
def standard : Config := ⟨true, 100000, 10000, 250⟩

/-- The standard configuration with all branches drained in place. -/
def sequential : Config := { standard with parallel := false }

/-- What is wrong with a configuration, if anything. -/
def fault? (c : Config) : Option String :=
  if c.maxStackDepth = 0 then some "max_stack_depth must be at least 1"
  else if c.maxContextDepth = 0 then some "max_context_depth must be at least 1"
  else if c.timeUpdateInterval = 0 then some "time_update_interval_ms must be positive"
  else none

end Config

end ScopeFlow
