import TaskNetwork.Cascade
import TaskNetwork.Inference
import TaskNetwork.Settings.Basic

namespace TaskNetwork

structure RunReport where
  tally : Option Tally := none
  cascades : Option CascadeReport := none
deriving DecidableEq

namespace Domain

/-- Runs a pass. A domain for which inference fails stays as it is. -/
def runPass (settings : Settings) (d : Domain) (report : RunReport) :
    Pass → Domain × Except Failure RunReport
  | .inferPreconditions =>
    match d.inferPreconditions settings.topTask with
    | .ok (d, tally) =>
      (d, .ok (if settings.reportStatistics then { report with tally := some tally } else report))
    | .error e => (d, .error e)
  | .twoRegularize =>
    match d.regularize with
    | (d, .ok cascades) => (d, .ok { report with cascades := some cascades })
    | (d, .error fault) => (d, .error (.fault fault))

/-- Runs passes up to the first one that fails. What the passes before it changed stays changed. -/
def runPasses (settings : Settings) (d : Domain) (report : RunReport) :
    List Pass → Domain × Except Failure RunReport
  | [] => (d, .ok report)
  | p :: passes =>
    match d.runPass settings report p with
    | (d, .ok report) => runPasses settings d report passes
    | (d, .error e) => (d, .error e)

def run (settings : Settings) (d : Domain) : Domain × Except Failure RunReport :=
  d.runPasses settings {} settings.passes

end Domain

end TaskNetwork
