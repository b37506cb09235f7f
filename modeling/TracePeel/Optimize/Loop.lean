import TracePeel.Diagnostic
import TracePeel.Dump
import TracePeel.Optimize.Chain
import TracePeel.Optimize.Config

/-! Optimizing a loop.

A trace that is not too long and is well formed goes through the chain that the
settings ask for. The result is a loop and the counts, or the reason to give it
up, together with what happened on the way. -/
namespace TracePeel

namespace Config

/-- The passes of the chain, in their order. -/
def passes (c : Config) : List Pass :=
  (if c.peel then [.peel] else []) ++ (if c.rewrite then [.rewrite] else []) ++
    if c.virtualize then [.virtualize] else []

/-- The optimizer of a trace under the settings. -/
def optimizer (c : Config) (t : Trace) : Optimizer :=
  .ofTrace t (c.passes.map some)

end Config

/-- What an optimization ends with and the events on its way. -/
structure Outcome where
  result : Except OptError (Loop × Stats)
  events : List Event

namespace Config

/-- The end of an optimization that wrote its lists. -/
def conclude (c : Config) (loop : Loop) (stats : Stats) : Outcome :=
  match if c.verify then loop.verify else .ok () with
  | .error e => ⟨.error { cause := .invalidResult e loop.name }, []⟩
  | .ok () =>
    ⟨.ok (loop, stats),
      [.produced (loop.dump {}),
        .optimized loop.name stats.opsIn stats.opsOut loop.isPeeled]⟩

/-- A well-formed trace through the chain. -/
def optimizeRecorded (c : Config) (t : Trace) : Outcome :=
  match Optimizer.run.run.run (c.optimizer t) with
  | (.error e, o) =>
    ⟨.error e, .recorded t.dump :: o.events.toList ++ [.abandoned t.name e.diagnostic.text]⟩
  | (.ok (), o) =>
    let (loop, stats) := o.finish t.name
    let last := c.conclude loop stats
    ⟨last.result, .recorded t.dump :: o.events.toList ++ last.events⟩

def optimize (c : Config) (t : Trace) : Outcome :=
  if c.maxOps < t.ops.length then
    ⟨.error { cause := .tooLong t.ops.length c.maxOps }, [.tooLong t.ops.length c.maxOps]⟩
  else
    match t.verify with
    | .error e => ⟨.error { cause := .malformed e }, []⟩
    | .ok () => c.optimizeRecorded t

/-- The loop that an optimization ends with, or the reason to give it up. -/
def optimizeLoop (c : Config) (t : Trace) : Except OptError Loop :=
  (c.optimize t).result.map (·.1)

end Config
end TracePeel
