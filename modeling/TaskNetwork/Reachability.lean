namespace TaskNetwork

variable {α : Type} [DecidableEq α]

/-- The ends of the paths of one up to `n` edges that leave `starts`. An edge is followed in one
round only: a path that comes back to its source has a shorter one, from there, to the same end. -/
def reachableWithin : Nat → List (α × α) → List α → List α
  | 0, _, _ => []
  | n + 1, edges, starts =>
    match (edges.filter (·.1 ∈ starts)).map (·.2) with
    | [] => []
    | b :: bs => b :: bs ++ reachableWithin n (edges.filter (·.1 ∉ starts)) (b :: bs)

def reachable (edges : List (α × α)) (starts : List α) : List α :=
  reachableWithin edges.length edges starts

example : reachable [("a", "b"), ("b", "c"), ("c", "b"), ("d", "a")] ["a"] = ["b", "c", "b"] := by
  decide

end TaskNetwork
