import TaskNetwork.Draft

namespace TaskNetwork

namespace Domain

def sweptPredicates (d : Domain) : List (String × Bool) :=
  [true, false].flatMap fun positive => d.predicates.map fun p => (p.name, positive)

def draftPredicate (d : Domain) (recursive : List String) (walk : List WalkEvent)
    (predicate : String) (positive : Bool) : DraftM Unit := do
  let sweep ← d.sweepAlong recursive walk predicate positive
  sweep.findings.forM fun f => Draft.inject d f.method f.inferred predicate positive

/-- The domain in which each method below the top task checks first what it needs and cannot bring
about, and what was counted on the way. -/
def inferPreconditions (d : Domain) (top : String) : Except Failure (Domain × Tally) :=
  match d.task? top with
  | none => throw (.unknownTopTask top)
  | some _ =>
    let recursive := d.recursiveTasks
    let walk := d.walk top
    let work : DraftM Unit := d.sweptPredicates.forM fun (predicate, positive) =>
      d.draftPredicate recursive walk predicate positive
    match work.run (Draft.ofDomain d) with
    | (.ok (), w) => return (w.apply d, w.tally)
    | (.error e, _) => throw e

end Domain

end TaskNetwork
