import TaskNetwork.Proofs.Necessity
import TaskNetwork.Proofs.Solutions

namespace TaskNetwork

open PatternSet

theorem PatternSet.Plain.exists_names {d : Domain} {s : PatternSet} {p : Pattern}
    {names : List String} (hs : s.Plain) (hwithin : s.Within d names) (hp : p ∈ s) :
    p ∈ s.toList ∧ ∃ vs, p = .ofNames vs ∧ ∀ v ∈ vs, v ∈ names := by
  have hmem := mem_toList_of_mem hs.ne_anything hp
  obtain ⟨vs, rfl⟩ := hs.named p hmem
  exact ⟨hmem, vs, rfl, fun v hv => hwithin _ hmem _ (List.mem_map_of_mem hv)⟩

section Sweep

variable {d : Domain} {top predicate n : String} {positive : Bool} {w : Sweep} {r : TaskRecord}

theorem exists_walked_of_record? (h : d.sweep top predicate positive = .ok w)
    (hr : w.record? n = some r) : ∃ seen, Walked d top predicate positive seen [] w ∧ n ∈ seen := by
  obtain ⟨seen, htop, hwalked⟩ := walked_of_sweepAlong (sweep_eq_ok h)
  refine ⟨seen, hwalked, ?_⟩
  obtain hn | hn := (isSome_record?_of_sweep h).1 (Option.isSome_iff_exists.2 ⟨r, hr⟩)
  · exact (hwalked.primitive n hn).1
  · exact hwalked.mem_of_visits htop hn

theorem Sweep.record_eq (hr : w.record? n = some r) : w.record n = r := by
  rw [Sweep.record, hr, Option.getD_some]

theorem exists_task?_of_record? (hd : d.WellFormed) (h : d.sweep top predicate positive = .ok w)
    (hr : w.record? n = some r) : ∃ t, d.task? n = some t := by
  obtain ⟨u, hu⟩ := exists_task?_of_sweep h
  obtain hn | hn := (isSome_record?_of_sweep h).1 (Option.isSome_iff_exists.2 ⟨r, hr⟩)
  · obtain ⟨t, ht, rfl⟩ := List.mem_map.1 hn
    exact ⟨t, hd.names.task?_eq_some.2 ⟨List.mem_append_left _ ht, rfl⟩⟩
  · exact hd.exists_task? hu hn

theorem needs_subset_of_sweep (hd : d.WellFormed) (h : d.sweep top predicate positive = .ok w)
    (hr : w.record? n = some r) : ∀ p ∈ r.needs.toList, p ∈ r.ensures.toList := by
  obtain ⟨u, hu⟩ := exists_task?_of_sweep h
  obtain ⟨t, ht⟩ := exists_task?_of_record? hd h hr
  have hsolves := solves_of_sweep hd h
  rw [← Sweep.record_eq hr]
  obtain hn | hn := (isSome_record?_of_sweep h).1 (Option.isSome_iff_exists.2 ⟨r, hr⟩)
  · rw [hsolves.primitive n t ht hn]
    exact primitiveRecord_needs_subset t predicate positive
  · exact hsolves.needs_subset hd hu hn

/-- However a task is decomposed, whatever it needs is a precondition of some primitive task of the
decomposition, and whatever it ensures is a precondition or an effect of one. -/
theorem needs_met_by_leaves (hd : d.WellFormed) (hw : d.sweep top predicate positive = .ok w)
    (hr : w.record? n = some r) :
    (∀ p ∈ r.needs, p ∈ r.ensures) ∧
      ∀ tree : Tree, tree.Derives d → tree.call.task = n → ∃ t, d.task? n = some t ∧
        (∀ p ∈ r.needs, ∃ names, p = .ofNames names ∧ (∀ v ∈ names, v ∈ t.parameterNames) ∧
          ∃ c ∈ tree.leaves, Literal.ground (t.valuation tree.call.constants)
            { predicate, positive, arguments := names } ∈ d.preconditions c) ∧
        ∀ p ∈ r.ensures, ∃ names, p = .ofNames names ∧ (∀ v ∈ names, v ∈ t.parameterNames) ∧
          ∃ c ∈ tree.leaves, d.Touches c (Literal.ground (t.valuation tree.call.constants)
            { predicate, positive, arguments := names }) := by
  have hscoped := hd.scoped_of_sweep hw
  have hrecord := Sweep.record_eq hr
  have hplain : r.Plain := hrecord ▸ hscoped.plain n
  refine ⟨fun p hp => ?_, fun tree htree htask => ?_⟩
  · have hp := mem_toList_of_mem hplain.needs.ne_anything hp
    exact mem_of_mem_toList (needs_subset_of_sweep hd hw hr p hp)
  · obtain ⟨seen, hwalked, hseen⟩ := exists_walked_of_record? hw hr
    obtain ⟨t, ht⟩ := exists_task?_of_record? hd hw hr
    have hwithin : r.Within d t.parameterNames := hrecord ▸ hscoped.within n t ht
    subst htask
    have hmeans : ∀ names, d.Means (fun _ _ _ => False) tree.call (.ofNames names)
        (names.map (t.valuation tree.call.constants)) := fun names =>
      ⟨t, ht, Pattern.denotes_ofNames.2 rfl⟩
    refine ⟨t, ht, fun p hp => ?_, fun p hp => ?_⟩
    · obtain ⟨hmem, names, rfl, hnames⟩ := hplain.needs.exists_names hwithin.needs hp
      exact ⟨names, rfl, hnames,
        hwalked.exists_precondition hd htree hseen (hrecord ▸ hmem) (hmeans names)⟩
    · obtain ⟨hmem, names, rfl, hnames⟩ := hplain.ensures.exists_names hwithin.ensures hp
      exact ⟨names, rfl, hnames,
        hwalked.exists_touching hd htree hseen (hrecord ▸ hmem) (hmeans names)⟩

def byCup : Method where
  name := "by_cup"
  task := "serve"
  taskArguments := ["who"]
  declarations := [{ name := "who", sort := "guest" }, { name := "what", sort := "cup" }]
  steps := [{ id := "first", task := "take", arguments := ["what"] },
    { id := "then", task := "hand", arguments := ["what", "who"] }]
  ordering := [("first", "then")]

def serving : Domain where
  sorts := { entries := [("cup", NameSet.ofList ["mug"]), ("guest", NameSet.ofList ["ann"])] }
  predicates := [{ name := "held", argumentSorts := ["cup"] },
    { name := "thirsty", argumentSorts := ["guest"] }]
  primitiveTasks := [
    { Task.ofParameters "take" [{ name := "x", sort := "cup" }] with
      effects := [{ predicate := "held", positive := true, arguments := ["x"] }] },
    { Task.ofParameters "hand" [{ name := "x", sort := "cup" },
        { name := "y", sort := "guest" }] with
      preconditions := [{ predicate := "held", positive := true, arguments := ["x"] },
        { predicate := "thirsty", positive := true, arguments := ["y"] }]
      effects := [{ predicate := "thirsty", positive := false, arguments := ["y"] }] }]
  abstractTasks := [Task.ofParameters "serve" [{ name := "guest", sort := "guest" }]]
  methods := [byCup]

def takeMug : Call := { task := "take", constants := ["mug"] }

def handMug : Call := { task := "hand", constants := ["mug", "ann"] }

def serveAnn : Tree := .node byCup (fun v => if v = "who" then "ann" else "mug") fun s =>
  if s.id = "first" then .leaf takeMug 0 else .leaf handMug 1

theorem wellFormed_serving : serving.WellFormed := ⟨by decide, by decide, by decide, by decide⟩

theorem valid_serveAnn : serveAnn.Valid serving (fun _ => True) [takeMug, handMug] := by
  refine Tree.valid_of_pair (by decide) (by decide) (fun v hv => ?_) (fun _ _ => trivial) rfl
    (by decide) ⟨rfl, rfl, (by decide : serving.IsPrimitive "take")⟩
    ⟨rfl, rfl, (by decide : serving.IsPrimitive "hand")⟩ fun i hi j hj => ?_
  · obtain rfl | hv := List.mem_cons.1 hv
    · exact ⟨NameSet.ofList ["ann"], rfl, by decide⟩
    · obtain rfl := List.mem_singleton.1 hv
      exact ⟨NameSet.ofList ["mug"], rfl, by decide⟩
  · obtain rfl : i = 0 := hi
    obtain rfl : j = 1 := hj
    exact Nat.zero_lt_one

theorem needs_met_by_leaves_serving : ∃ w r, serving.sweep "serve" "thirsty" true = .ok w ∧
    w.record? "serve" = some r ∧ [.name "guest"] ∈ r.needs ∧ ∃ c ∈ serveAnn.leaves,
      { predicate := "thirsty", positive := true, arguments := ["ann"] }
        ∈ serving.preconditions c := by
  obtain ⟨w, r, hw, hr, hmem⟩ : ∃ w r, serving.sweep "serve" "thirsty" true = .ok w ∧
      w.record? "serve" = some r ∧ [.name "guest"] ∈ r.needs := ⟨_, _, rfl, rfl, by decide⟩
  obtain ⟨-, hleaves⟩ := needs_met_by_leaves wellFormed_serving hw hr
  obtain ⟨t, ht, hneeds, -⟩ := hleaves serveAnn valid_serveAnn.derives rfl
  obtain ⟨names, hnames, -, c, hc, hpre⟩ := hneeds _ hmem
  cases ht
  obtain rfl : names = ["guest"] := by
    cases names with
    | nil => cases hnames
    | cons a names => simpa [Pattern.ofNames] using hnames.symm
  exact ⟨w, r, hw, hr, hmem, c, hc, hpre⟩

theorem Domain.Executes.exists_effect {plan : List Call} {states : ℕ → State}
    (h : d.Executes plan states) {l : Literal} {j : ℕ} (hj : j ≤ plan.length)
    (hbefore : ¬l.Holds (states 0)) (hafter : l.Holds (states j)) :
    ∃ k < j, ∃ c, plan[k]? = some c ∧ l ∈ d.effects c := by
  by_contra hno
  refine hbefore (h.holds_of_le (Nat.zero_le j) hj hafter fun k _ hkj c hc heff => ?_)
  exact hno ⟨k, hkj, c, hc, heff⟩

/-- Whatever a plan that does a task makes true is something that the task may add, with the
constants of one use of each method for its hidden variables, also if tasks of unordered steps take
turns. -/
theorem mayAdd_covers_changes (hd : d.WellFormed) (hw : d.sweep top predicate positive = .ok w)
    {tree : Tree} (hr : w.record? tree.call.task = some r) (htree : tree.Derives d)
    {plan : List Call} (hfollows : tree.Follows plan)
    (hplan : tree.positions = {i | i < plan.length}) {states : ℕ → State}
    (hstates : d.Executes plan states) {constants : List String} {j : ℕ} (hj : j ≤ plan.length)
    (hbefore : ¬Literal.Holds { predicate, positive, arguments := constants } (states 0))
    (hafter : Literal.Holds { predicate, positive, arguments := constants } (states j)) :
    r.mayAdd = anything ∨ ∃ t, d.task? tree.call.task = some t ∧
      ∃ p ∈ r.mayAdd.toList, p.Within d t.parameterNames ∧
        ∃ ρ, p.Denotes (t.valuation tree.call.constants) (tree.GivesBy ρ) constants := by
  obtain ⟨seen, hwalked, hseen⟩ := exists_walked_of_record? hw hr
  obtain ⟨k, hkj, c, hc, heff⟩ := hstates.exists_effect hj hbefore hafter
  have hk : k ∈ tree.positions := hplan ▸ Nat.lt_of_lt_of_le hkj hj
  obtain ⟨x, hx, e, he, htouch, hfirst⟩ := Tree.exists_firstAt hk hc (.inr heff)
  have hcases := hwalked.first_touch hd htree hfollows hseen hx he htouch hfirst
  rw [Sweep.record_eq hr] at hcases
  obtain hpre | hany | ⟨p, hp, ρ, t, ht, hden⟩ := hcases
  · -- nothing before this task is about the literal, so that it held from the start
    have hxlt : x < plan.length := by rwa [hplan] at hx
    have hholds := (hstates x e he).preconditions _ hpre
    refine absurd (hstates.holds_of_le (Nat.zero_le x) hxlt.le hholds fun i _ hix a ha hae => ?_)
      hbefore
    exact hfirst i (hplan ▸ hix.trans hxlt) hix a ha (.inr hae)
  · exact .inl hany
  · have hwithin := (hd.scoped_of_sweep hw).within _ t ht
    rw [Sweep.record_eq hr] at hwithin
    exact .inr ⟨t, ht, p, hp, hwithin.mayAdd p hp, ρ, hden⟩

theorem positions_serveAnn : serveAnn.positions = {i | i < [takeMug, handMug].length} := by
  ext i
  have hpositions : i ∈ serveAnn.positions ↔ i = 0 ∨ i = 1 := by
    simp [serveAnn, Tree.positions, byCup]
  have hlt : i < 2 ↔ i = 0 ∨ i = 1 := by omega
  exact hpositions.trans hlt.symm

theorem executable_serveAnn : serving.Executable [takeMug, handMug]
    {{ predicate := "thirsty", arguments := ["ann"] }} := by
  have htake : serving.preconditions takeMug = [] := by decide
  have heffects : serving.effects takeMug =
      [{ predicate := "held", positive := true, arguments := ["mug"] }] := by decide
  have hhand : serving.preconditions handMug =
      [{ predicate := "held", positive := true, arguments := ["mug"] },
        { predicate := "thirsty", positive := true, arguments := ["ann"] }] := by decide
  refine ⟨by simp [htake], fun l hl => ?_, trivial⟩
  rw [hhand] at hl
  obtain rfl | hl := List.mem_cons.1 hl
  · simp [Literal.Holds, Domain.result, heffects]
  · obtain rfl := List.mem_singleton.1 hl
    simp [Literal.Holds, Domain.result, heffects, Literal.atom]

theorem mayAdd_covers_changes_serving : ∃ w r, serving.sweep "serve" "held" true = .ok w ∧
    w.record? "serve" = some r ∧ r.mayAdd = .listed [[.hidden "by_cup" "what"]] ∧
      ∃ ρ, serveAnn.GivesBy ρ "by_cup" "what" "mug" := by
  obtain ⟨w, r, hw, hr, hmay⟩ : ∃ w r, serving.sweep "serve" "held" true = .ok w ∧
      w.record? "serve" = some r ∧ r.mayAdd = .listed [[.hidden "by_cup" "what"]] :=
    ⟨_, _, rfl, rfl, by decide⟩
  refine ⟨w, r, hw, hr, hmay, ?_⟩
  have heffects : serving.effects takeMug =
      [{ predicate := "held", positive := true, arguments := ["mug"] }] := by decide
  have hbefore : ¬Literal.Holds { predicate := "held", positive := true, arguments := ["mug"] }
      (serving.statesFrom [takeMug, handMug]
        {{ predicate := "thirsty", arguments := ["ann"] }} 0) := by
    simp [Domain.statesFrom, Literal.Holds, Literal.atom]
  have hafter : Literal.Holds { predicate := "held", positive := true, arguments := ["mug"] }
      (serving.statesFrom [takeMug, handMug]
        {{ predicate := "thirsty", arguments := ["ann"] }} 1) := by
    simp [Domain.statesFrom, Literal.Holds, Domain.result, heffects]
  obtain hany | ⟨t, ht, p, hp, -, ρ, hden⟩ := mayAdd_covers_changes wellFormed_serving hw
    (show w.record? serveAnn.call.task = some r from hr) valid_serveAnn.derives valid_serveAnn.follows
    positions_serveAnn executable_serveAnn.executes (by decide) hbefore hafter
  · rw [hmay] at hany
    cases hany
  · rw [hmay, toList_listed, List.mem_singleton] at hp
    subst hp
    obtain ⟨c, cs, hgives, -, hconstants⟩ := List.forall₂_cons_left_iff.1 hden
    cases hconstants
    exact ⟨ρ, hgives⟩

end Sweep

end TaskNetwork
