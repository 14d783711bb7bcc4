namespace TaskNetwork

structure Settings where
  /-- The task below which preconditions are inferred. -/
  topTask : String := "__top"
  inferPreconditions : Bool := true
  twoRegularize : Bool := false
  reportStatistics : Bool := true
deriving DecidableEq

inductive Pass where
  | inferPreconditions
  | twoRegularize
deriving DecidableEq

def Settings.passes (s : Settings) : List Pass :=
  (if s.inferPreconditions then [.inferPreconditions] else [])
    ++ (if s.twoRegularize then [.twoRegularize] else [])

end TaskNetwork
