import TaskNetwork.Proofs.CheckedTrees
import TaskNetwork.Proofs.Necessity

namespace TaskNetwork

namespace Domain

variable {d d' : Domain} {plan : List Call}

theorem preconditions_congr {c : Call} (h : d'.task? c.task = d.task? c.task) :
    d'.preconditions c = d.preconditions c := by
  rw [preconditions, preconditions, h]

theorem result_congr {c : Call} (h : d'.task? c.task = d.task? c.task) (s : State) :
    d'.result c s = d.result c s := by
  simp only [result, effects, h]

theorem Executable.congr {s : State} (hplan : ∀ c ∈ plan, d'.task? c.task = d.task? c.task)
    (h : d.Executable plan s) : d'.Executable plan s := by
  induction plan generalizing s with
  | nil => trivial
  | cons c plan ih =>
    have hc := hplan c List.mem_cons_self
    obtain ⟨hpre, hrest⟩ := h
    refine ⟨?_, ?_⟩
    · rw [preconditions_congr hc]
      exact hpre
    · rw [result_congr hc]
      exact ih (fun e he => hplan e (List.mem_cons_of_mem c he)) hrest

theorem statesFrom_congr (hplan : ∀ c ∈ plan, d'.task? c.task = d.task? c.task) (s : State)
    (i : ℕ) : d'.statesFrom plan s i = d.statesFrom plan s i := by
  induction plan generalizing s i with
  | nil => rfl
  | cons c plan ih =>
    cases i with
    | zero => rfl
    | succ i =>
      rw [statesFrom, statesFrom, result_congr (hplan c List.mem_cons_self)]
      exact ih (fun e he => hplan e (List.mem_cons_of_mem c he)) _ i

end Domain

theorem Tree.Valid.isPrimitive {d : Domain} {truth : Literal → Prop} {plan : List Call}
    {tree : Tree} (htree : tree.Valid d truth plan) {i : ℕ} (hi : i ∈ tree.positions) {c : Call}
    (hc : plan[i]? = some c) : d.IsPrimitive c.task := by
  induction tree with
  | leaf e j =>
    obtain rfl : i = j := hi
    obtain rfl : e = c := Option.some.inj (htree.1.symm.trans hc)
    exact htree.2
  | node m σ below ih =>
    obtain ⟨s, hs, hi⟩ := hi
    obtain ⟨-, -, -, -, hbelow, -, -⟩ := htree
    exact ih s (hbelow s hs).2 hi

theorem ground_checkStep {m : Method} {t : Task} {σ : Valuation} (ht : t.parameterNames.Nodup)
    {l : Literal} (hl : ∀ a ∈ l.arguments, a ∈ t.parameterNames) :
    l.ground (t.valuation ((m.checkStep t).call σ).constants) = l.ground σ := by
  have hargs : ∀ a ∈ l.arguments, t.valuation ((m.checkStep t).call σ).constants a = σ a := by
    intro a ha
    obtain ⟨i, hi⟩ := List.mem_iff_getElem?.1 (hl a ha)
    apply Task.valuation_eq ht hi
    rw [Step.call, Method.checkStep, List.getElem?_map, hi]
    rfl
  rw [Literal.ground, Literal.ground, List.map_congr_left hargs]

section Solvable

variable {d d' : Domain} {top : String} {truth : Literal → Prop} {plan : List Call}
  {check : Method → Option Task} {m : Method} {σ : Valuation} {below : Step → Tree}

/-- What a method with a check step checks is a precondition of something that it does. -/
theorem Guarded.needed (hd : d.WellFormed) (hg : Guarded d d' (d.Infers top) check)
    (htree : (Tree.node m σ below).Valid d truth plan) {t : Task} (ht : check m = some t)
    {l : Literal} (hl : l ∈ t.preconditions) :
    ∃ x ∈ (Tree.node m σ below).positions, ∃ e, plan[x]? = some e ∧
      l.ground σ ∈ d.preconditions e ∧ (Tree.node m σ below).FirstAt d plan (l.ground σ) x := by
  obtain ⟨-, -, -, -, -, -, hliterals⟩ := hg.checked m htree.1 t ht
  obtain ⟨w, hw, f, hf, rfl, hp⟩ := (hliterals l hl).1
  obtain ⟨seen, -, hwalked⟩ := walked_of_sweepAlong (sweep_eq_ok hw)
  obtain ⟨names, hnames, hx⟩ :=
    hwalked.inferred_needed hd hf htree (PatternSet.mem_of_mem_toList hp)
  have hinj : Function.Injective Argument.name := fun _ _ h => Argument.name.inj h
  obtain rfl : l.arguments = names := List.map_injective_iff.2 hinj hnames
  exact hx

/-- What a method checks holds where it starts, unless something else brings it about later. -/
theorem Guarded.holds_first (hd : d.WellFormed) (hg : Guarded d d' (d.Infers top) check)
    (htree : (Tree.node m σ below).Valid d truth plan)
    (hcalm : (Tree.node m σ below).Undisturbed d plan) {t : Task} (ht : check m = some t)
    {l : Literal} (hl : l ∈ t.preconditions) {states : ℕ → State} (hrun : d.Executes plan states) :
    (l.ground σ).Holds (states (sInf (Tree.node m σ below).positions)) := by
  obtain ⟨x, hx, e, he, hpre, hfirst⟩ := hg.needed hd htree ht hl
  have hmin := Nat.sInf_mem ⟨x, hx⟩
  refine hrun.holds_of_le (Nat.sInf_le hx) (Nat.le_of_lt (htree.position_lt hx))
    ((hrun x e he).preconditions _ hpre) fun k hfk hkx c hc heff => ?_
  by_cases hk : k ∈ (Tree.node m σ below).positions
  · exact hfirst k hk hkx c hc (.inr heff)
  · have hlt : sInf (Tree.node m σ below).positions < k :=
      Nat.lt_of_le_of_ne hfk fun he => hk (he ▸ hmin)
    exact hcalm.1 _ hmin k hk x hx hlt hkx c hc e he _ heff hpre

/-- If a solution leaves each method undisturbed, then there is a solution with the check steps that
inference puts in. -/
theorem solvable_inferPreconditions (hd : d.WellFormed)
    (htasks : ∀ t ∈ d.tasks, ¬IsCheckTask t.name)
    (hids : ∀ m ∈ d.methods, newCheckStepMark ++ m.name ∉ m.stepIds) {tally : Tally}
    (h : d.inferPreconditions top = .ok (d', tally)) {tree : Tree} {s : State}
    (htree : tree.Valid d truth plan) (hplan : tree.positions = {i | i < plan.length})
    (hcalm : tree.Undisturbed d plan) (hrun : d.Executable plan s) :
    d'.Solvable truth tree.call s := by
  have hopen : Tree.Open d := ⟨hd, htasks, hids⟩
  have hown : d.ChecksOwn :=
    ⟨fun m hm r hr hmark => absurd hmark (hopen.step_task hm hr),
      fun t ht hmark => absurd hmark (htasks t ht)⟩
  obtain ⟨w, rfl, hshaped⟩ := shaped_of_inferPreconditions hd.names hown h
  have hg := hshaped.guarded htasks fun m hm r hr => hopen.step_task hm hr
  have hfill : Tree.Fills d truth plan w.checkTask? := by
    intro m σ below hnode hcheck
    obtain ⟨t, ht⟩ := Option.ne_none_iff_exists'.1 hcheck
    obtain ⟨-, -, -, -, hne, -, -⟩ := hg.checked m hnode.1 t ht
    obtain ⟨l, hl⟩ := List.exists_mem_of_ne_nil _ hne
    obtain ⟨x, hx, -⟩ := hg.needed hd hnode ht hl
    exact ⟨x, hx⟩
  have hB : ∀ i ∈ tree.positions,
      tree.checksBefore w.checkTask? i <:+ tree.checksBefore w.checkTask? i :=
    fun i _ => List.suffix_refl _
  have hsame : ∀ c ∈ plan, (w.apply d).task? c.task = d.task? c.task := by
    intro c hc
    obtain ⟨i, hi⟩ := List.mem_iff_getElem?.1 hc
    have hmem : i ∈ tree.positions := hplan ▸ (List.getElem?_eq_some_iff.1 hi).1
    exact hg.task? _ (hopen.primitive (htree.isPrimitive hmem hi))
  refine ⟨insertBefore (tree.checksBefore w.checkTask?) plan, _,
    htree.withChecks hopen hg hfill hB, Tree.withChecks_call _ _, ?_, ?_⟩
  · ext p
    rw [Tree.mem_positions_withChecks hopen hfill htree hB, hplan]
    exact lt_length_insertBefore.symm
  · apply (hrun.congr hsame).insertBefore
    intro i hi c hc
    rw [Domain.statesFrom_congr hsame]
    obtain ⟨m, σ, below, t, hnode, hquiet, rfl, ht, rfl⟩ :=
      Tree.exists_of_mem_checksBefore hd htree hcalm (hplan ▸ hi) hc
    obtain ⟨-, htask, -, heffects, -, hnodup, hliterals⟩ := hg.checked m hnode.1 t ht
    constructor
    · rw [Domain.effects]
      simp only [Step.call, htask, heffects, List.map_nil]
    · intro p hp
      obtain ⟨l, hl, rfl⟩ := (Domain.mem_preconditions htask).1 hp
      rw [ground_checkStep hnodup (hliterals l hl).2]
      exact hg.holds_first hd hnode hquiet ht hl hrun.executes

end Solvable

def fact (predicate : String) : Literal := { predicate, positive := true, arguments := [] }

def callOf (task : String) : Call := { task, constants := [] }

def atTheDoor : Method where
  name := "at_the_door"
  task := "visit"
  taskArguments := []
  steps := [{ id := "first", task := "knock", arguments := [] },
    { id := "then", task := "enter", arguments := [] }]
  ordering := [("first", "then")]

def bothSides : Method where
  name := "both_sides"
  task := "meet"
  taskArguments := []
  steps := [{ id := "guest", task := "visit", arguments := [] },
    { id := "host", task := "answer", arguments := [] }]

/-- The guest knocks and enters, and the host answers in between. -/
def meeting : Domain where
  sorts := ⟨[], .nil⟩
  predicates := [{ name := "heard", argumentSorts := [] }, { name := "open", argumentSorts := [] }]
  primitiveTasks := [
    { Task.ofParameters "knock" [] with effects := [fact "heard"] },
    { Task.ofParameters "answer" [] with
      preconditions := [fact "heard"], effects := [fact "open"] },
    { Task.ofParameters "enter" [] with preconditions := [fact "open"] }]
  abstractTasks := [Task.ofParameters "meet" [], Task.ofParameters "visit" []]
  methods := [bothSides, atTheDoor]

def openCheck : Task := atTheDoor.checkTask.withPrecondition (fact "open")

def guardedMeeting : Domain :=
  { meeting with
    primitiveTasks := meeting.primitiveTasks ++ [openCheck]
    methods := [bothSides, atTheDoor.checkedBy openCheck] }

theorem wellFormed_meeting : meeting.WellFormed := ⟨by decide, by decide, by decide, by decide⟩

def visit (knock enter : ℕ) : Tree :=
  .node atTheDoor (fun _ => "") fun s =>
    if s.id = "first" then .leaf (callOf "knock") knock else .leaf (callOf "enter") enter

theorem exists_tally {x : Except Failure (Domain × Tally)} {d : Domain}
    (h : x.toOption.map (·.1) = some d) : ∃ tally, x = .ok (d, tally) := by
  cases x with
  | error e => cases h
  | ok r =>
    cases h
    exact ⟨r.2, rfl⟩

theorem valid_visit {plan : List Call} {i j : ℕ} (hij : i < j)
    (hi : plan[i]? = some (callOf "knock")) (hj : plan[j]? = some (callOf "enter")) :
    (visit i j).Valid meeting (fun _ => True) plan := by
  refine Tree.valid_of_pair (by decide) (by decide) (fun v hv => by cases hv) (fun _ _ => trivial)
    rfl (by decide) ⟨rfl, hi, by decide⟩ ⟨rfl, hj, by decide⟩ fun p hp q hq => ?_
  obtain rfl : p = i := hp
  obtain rfl : q = j := hq
  exact hij

theorem positions_visit (i j : ℕ) : (visit i j).positions = {i, j} := by
  ext k
  simp [visit, atTheDoor, Tree.positions]

theorem solvable_inferPreconditions_visit : ∃ d tally,
    meeting.inferPreconditions "visit" = .ok (d, tally) ∧
    d.Solvable (fun _ => True) (callOf "visit") {(fact "open").atom} := by
  have hinfer : (meeting.inferPreconditions "visit").toOption.map (·.1) = some guardedMeeting := by
    decide +kernel
  obtain ⟨tally, h⟩ := exists_tally hinfer
  have hplan : (visit 0 1).positions = {i | i < [callOf "knock", callOf "enter"].length} := by
    ext i
    rw [positions_visit]
    simp
    omega
  have hcalm : (visit 0 1).Undisturbed meeting [callOf "knock", callOf "enter"] := by
    refine Tree.Contiguous.undisturbed ⟨?_, fun s _ => ?_⟩
    · exact hplan ▸ Set.ordConnected_Iio
    · dsimp only
      split <;> trivial
  have hrun : meeting.Executable [callOf "knock", callOf "enter"] {(fact "open").atom} := by
    have hknock : meeting.preconditions (callOf "knock") = [] := by decide
    have henter : meeting.preconditions (callOf "enter") = [fact "open"] := by decide
    have heffects : meeting.effects (callOf "knock") = [fact "heard"] := by decide
    simp [Domain.Executable, hknock, henter, Domain.result, heffects, Literal.Holds, fact,
      Literal.atom]
  exact ⟨_, tally, h, solvable_inferPreconditions wellFormed_meeting (by decide) (by decide) h
    (valid_visit Nat.zero_lt_one rfl rfl) hplan hcalm hrun⟩

section Leaves

variable {d : Domain} {truth : Literal → Prop} {plan : List Call} {tree : Tree}

theorem Tree.Valid.exists_leaf (htree : tree.Valid d truth plan)
    (hp : d.IsPrimitive tree.call.task) :
    ∃ i, tree.positions = {i} ∧ plan[i]? = some tree.call := by
  cases tree with
  | leaf c i => exact ⟨i, rfl, htree.1⟩
  | node m σ below => exact absurd hp htree.2.1

theorem Tree.Valid.exists_leaf_step {m : Method} {σ : Valuation} {below : Step → Tree}
    (htree : (Tree.node m σ below).Valid d truth plan) {s : Step} (hs : s ∈ m.steps)
    (hp : d.IsPrimitive s.task) :
    ∃ i, (below s).positions = {i} ∧ plan[i]? = some (s.call σ) := by
  obtain ⟨-, -, -, -, hbelow, -, -⟩ := htree
  obtain ⟨hcall, hvalid⟩ := hbelow s hs
  rw [← hcall]
  apply hvalid.exists_leaf
  rwa [hcall]

theorem Tree.Valid.exists_node (htree : tree.Valid d truth plan)
    (hp : ¬d.IsPrimitive tree.call.task) :
    ∃ m ∈ d.methods, m.task = tree.call.task ∧ ∃ σ below, tree = .node m σ below := by
  cases tree with
  | leaf c i => exact absurd htree.2 hp
  | node m σ below => exact ⟨m, htree.1, rfl, σ, below, rfl⟩

theorem Domain.Executable.exists_effect {s : State} (hrun : d.Executable plan s) {l : Literal}
    (hl : ¬l.Holds s) {j : ℕ} {c : Call} (hc : plan[j]? = some c) (hpre : l ∈ d.preconditions c) :
    ∃ k < j, ∃ e, plan[k]? = some e ∧ l ∈ d.effects e := by
  by_contra hno
  apply hl
  rw [← d.statesFrom_zero plan s]
  refine hrun.executes.holds_of_le (Nat.zero_le j)
    (Nat.le_of_lt (List.getElem?_eq_some_iff.1 hc).1)
    ((hrun.executes j c hc).preconditions l hpre) fun k _ hk e he heff => ?_
  exact hno ⟨k, hk, e, he, heff⟩

end Leaves

theorem exists_knock {truth : Literal → Prop} {plan : List Call} {tree : Tree}
    (htree : tree.Valid guardedMeeting truth plan) (hcall : tree.call.task = "visit") :
    ∃ c i, c < i ∧ plan[c]? = some (callOf openCheck.name) ∧
      ∀ k ∈ tree.positions, ∀ e, plan[k]? = some e →
        e = callOf "knock" ∧ k = i ∨ e = callOf "enter" ∨ e = callOf openCheck.name := by
  obtain ⟨m, hm, hmt, τ, inner, rfl⟩ := htree.exists_node (by rw [hcall]; decide)
  obtain rfl : m = atTheDoor.checkedBy openCheck := by
    obtain rfl | hm := List.mem_cons.1 hm
    · exact absurd (hmt.trans hcall) (by decide)
    · exact List.mem_singleton.1 hm
  let knock : Step := { id := "first", task := "knock", arguments := [] }
  let check : Step := atTheDoor.checkStep openCheck
  have hprim : ∀ s ∈ (atTheDoor.checkedBy openCheck).steps, guardedMeeting.IsPrimitive s.task := by
    decide
  have hknock : knock ∈ (atTheDoor.checkedBy openCheck).steps := by decide
  have hcheck : check ∈ (atTheDoor.checkedBy openCheck).steps := by decide
  obtain ⟨i, hipos, hi⟩ := htree.exists_leaf_step hknock (hprim knock hknock)
  obtain ⟨c, hcpos, hc⟩ := htree.exists_leaf_step hcheck (hprim check hcheck)
  have hci : c < i := by
    obtain ⟨-, -, -, -, -, -, horder⟩ := htree
    refine horder check hcheck knock hknock (by decide) c ?_ i ?_
    · rw [hcpos]
      rfl
    · rw [hipos]
      rfl
  refine ⟨c, i, hci, hc, fun k hk e he => ?_⟩
  obtain ⟨s, hs, hk⟩ := hk
  obtain ⟨j, hj, hget⟩ := htree.exists_leaf_step hs (hprim s hs)
  obtain rfl : k = j := by rwa [hj] at hk
  obtain rfl : e = s.call τ := Option.some.inj (he.symm.trans hget)
  obtain rfl | hs := List.mem_cons.1 hs
  · exact .inl ⟨rfl, Set.singleton_injective (hj.symm.trans hipos)⟩
  · obtain rfl | hs := List.mem_cons.1 hs
    · exact .inr (.inl rfl)
    · obtain rfl := List.mem_singleton.1 hs
      exact .inr (.inr rfl)

/-- The door is not open before the guest knocks, and would have to be. -/
theorem not_solvable_guardedMeeting (truth : Literal → Prop) :
    ¬guardedMeeting.Solvable truth (callOf "meet") ∅ := by
  rintro ⟨plan, tree, htree, hcall, hplan, hrun⟩
  obtain ⟨m, hm, hmt, σ, below, rfl⟩ := htree.exists_node (by rw [hcall]; decide)
  obtain rfl : m = bothSides := by
    rw [hcall] at hmt
    obtain rfl | hm := List.mem_cons.1 hm
    · rfl
    · obtain rfl := List.mem_singleton.1 hm
      exact absurd hmt (by decide)
  let guest : Step := { id := "guest", task := "visit", arguments := [] }
  let host : Step := { id := "host", task := "answer", arguments := [] }
  obtain ⟨a, hapos, ha⟩ := htree.exists_leaf_step (s := host) (by decide) (by decide)
  obtain ⟨-, -, -, -, hbelow, -, -⟩ := htree
  obtain ⟨hguest, hvisit⟩ := hbelow guest (by decide)
  obtain ⟨c, i, hci, hc, hguestDoes⟩ := exists_knock hvisit (by rw [hguest]; rfl)
  have hcover : ∀ k e, plan[k]? = some e → e = callOf "answer" ∧ k = a ∨
      e = callOf "knock" ∧ k = i ∨ e = callOf "enter" ∨ e = callOf openCheck.name := by
    intro k e he
    have hk : k ∈ (Tree.node bothSides σ below).positions :=
      hplan ▸ (List.getElem?_eq_some_iff.1 he).1
    obtain ⟨s, hs, hk⟩ := hk
    obtain rfl | hs := List.mem_cons.1 hs
    · exact .inr (hguestDoes k hk e he)
    · obtain rfl := List.mem_singleton.1 hs
      obtain rfl : k = a := by
        change k ∈ (below host).positions at hk
        rwa [hapos] at hk
      exact .inl ⟨Option.some.inj (he.symm.trans ha), rfl⟩
  -- only the answer opens the door, and only the knock is heard
  have hopen : ∀ k e, plan[k]? = some e → fact "open" ∈ guardedMeeting.effects e → k = a := by
    intro k e he heff
    obtain ⟨-, rfl⟩ | ⟨rfl, -⟩ | rfl | rfl := hcover k e he
    · rfl
    · exact absurd heff (by decide)
    · exact absurd heff (by decide)
    · exact absurd heff (by decide)
  have hheard : ∀ k e, plan[k]? = some e → fact "heard" ∈ guardedMeeting.effects e → k = i := by
    intro k e he heff
    obtain ⟨rfl, -⟩ | ⟨-, rfl⟩ | rfl | rfl := hcover k e he
    · exact absurd heff (by decide)
    · rfl
    · exact absurd heff (by decide)
    · exact absurd heff (by decide)
  have hnone : ∀ p, ¬(fact p).Holds ∅ := by simp [Literal.Holds, fact]
  have hneedsOpen : fact "open" ∈ guardedMeeting.preconditions (callOf openCheck.name) := by
    decide
  have hneedsHeard : fact "heard" ∈ guardedMeeting.preconditions (callOf "answer") := by decide
  obtain ⟨k, hkc, e, hk, heff⟩ := hrun.exists_effect (hnone "open") hc hneedsOpen
  obtain rfl := hopen k e hk heff
  obtain ⟨j, hja, e', hj, heff'⟩ := hrun.exists_effect (hnone "heard") ha hneedsHeard
  obtain rfl := hheard j e' hj heff'
  omega

theorem solvable_meeting : meeting.Solvable (fun _ => True) (callOf "meet") ∅ := by
  let plan : List Call := [callOf "knock", callOf "answer", callOf "enter"]
  let below : Step → Tree := fun s => if s.id = "guest" then visit 0 2 else .leaf (callOf "answer") 1
  have hgrounds : meeting.Grounds bothSides fun _ => "" := fun v hv => by cases hv
  have hfree : ∀ a b, ¬bothSides.Precedes a b := by
    intro a b h
    obtain ⟨-, h⟩ := Method.precedes_iff.1 h
    obtain ⟨c, h, -⟩ := Relation.TransGen.head'_iff.1 h
    cases h
  refine ⟨plan, .node bothSides (fun _ => "") below, ⟨by decide, by decide, hgrounds,
    fun _ _ => trivial, ?_, ?_, fun s _ r _ h => absurd h (hfree _ _)⟩, rfl, ?_, ?_⟩
  · intro s hs
    obtain rfl | hs := List.mem_cons.1 hs
    · exact ⟨rfl, valid_visit Nat.zero_lt_two rfl rfl⟩
    · obtain rfl := List.mem_singleton.1 hs
      exact ⟨rfl, rfl, by decide⟩
  · apply List.pairwise_pair.2
    change Disjoint (visit 0 2).positions {1}
    simp [positions_visit]
  · ext i
    simp only [Tree.positions, bothSides, List.mem_cons, List.not_mem_nil, or_false,
      exists_eq_or_imp, exists_eq_left, below, plan]
    simp [positions_visit, Tree.positions]
    omega
  · have hknock : meeting.preconditions (callOf "knock") = [] := by decide
    have hanswer : meeting.preconditions (callOf "answer") = [fact "heard"] := by decide
    have henter : meeting.preconditions (callOf "enter") = [fact "open"] := by decide
    have hheard : meeting.effects (callOf "knock") = [fact "heard"] := by decide
    have hopen : meeting.effects (callOf "answer") = [fact "open"] := by decide
    simp [plan, Domain.Executable, hknock, hanswer, henter, Domain.result, hheard, hopen,
      Literal.Holds, fact, Literal.atom]

/-- The id of the first step is the one that a check step would get. -/
def byBus : Method where
  name := "by_bus"
  task := "travel"
  taskArguments := []
  steps := [{ id := newCheckStepMark ++ "by_bus", task := "ride", arguments := [] },
    { id := "fare", task := "pay", arguments := [] }]

def busTrip : Domain where
  sorts := ⟨[], .nil⟩
  predicates := [{ name := "coin", argumentSorts := [] }, { name := "ticket", argumentSorts := [] }]
  primitiveTasks := [
    { Task.ofParameters "ride" [] with preconditions := [fact "ticket"] },
    { Task.ofParameters "pay" [] with
      preconditions := [fact "coin"], effects := [fact "ticket"] }]
  abstractTasks := [Task.ofParameters "travel" []]
  methods := [byBus]

def coinCheck : Task := byBus.checkTask.withPrecondition (fact "coin")

def guardedBusTrip : Domain :=
  { busTrip with
    primitiveTasks := busTrip.primitiveTasks ++ [coinCheck]
    methods := [byBus.checkedBy coinCheck] }

theorem wellFormed_busTrip : busTrip.WellFormed := ⟨by decide, by decide, by decide, by decide⟩

theorem solvable_busTrip :
    busTrip.Solvable (fun _ => True) (callOf "travel") {(fact "coin").atom} := by
  let below : Step → Tree := fun s =>
    if s.id = "fare" then .leaf (callOf "pay") 0 else .leaf (callOf "ride") 1
  have hgrounds : busTrip.Grounds byBus fun _ => "" := fun v hv => by cases hv
  have hfree : ∀ a b, ¬byBus.Precedes a b := by
    intro a b h
    obtain ⟨-, h⟩ := Method.precedes_iff.1 h
    obtain ⟨c, h, -⟩ := Relation.TransGen.head'_iff.1 h
    cases h
  refine ⟨[callOf "pay", callOf "ride"], .node byBus (fun _ => "") below, ⟨by decide, by decide,
    hgrounds, fun _ _ => trivial, ?_, ?_, fun s _ r _ h => absurd h (hfree _ _)⟩, rfl, ?_, ?_⟩
  · intro s hs
    obtain rfl | hs := List.mem_cons.1 hs
    · exact ⟨rfl, rfl, by decide⟩
    · obtain rfl := List.mem_singleton.1 hs
      exact ⟨rfl, rfl, by decide⟩
  · apply List.pairwise_pair.2
    change Disjoint {1} {0}
    simp
  · ext i
    simp only [Tree.positions, byBus, List.mem_cons, List.not_mem_nil, or_false,
      exists_eq_or_imp, exists_eq_left, below]
    simp [Tree.positions, newCheckStepMark]
    omega
  · have hpay : busTrip.preconditions (callOf "pay") = [fact "coin"] := by decide
    have hride : busTrip.preconditions (callOf "ride") = [fact "ticket"] := by decide
    have hticket : busTrip.effects (callOf "pay") = [fact "ticket"] := by decide
    simp [Domain.Executable, hpay, hride, Domain.result, hticket, Literal.Holds, fact,
      Literal.atom]

theorem not_solvable_guardedBusTrip (truth : Literal → Prop) :
    ¬guardedBusTrip.Solvable truth (callOf "travel") {(fact "coin").atom} := by
  rintro ⟨plan, tree, htree, hcall, hplan, hrun⟩
  obtain ⟨m, hm, -, σ, below, rfl⟩ := htree.exists_node (by rw [hcall]; decide)
  obtain rfl := List.mem_singleton.1 hm
  let ride : Step := { id := newCheckStepMark ++ "by_bus", task := "ride", arguments := [] }
  let pay : Step := { id := "fare", task := "pay", arguments := [] }
  have hall : ∀ s ∈ (byBus.checkedBy coinCheck).steps, guardedBusTrip.IsPrimitive s.task := by
    decide
  have hleaf : ∀ s ∈ (byBus.checkedBy coinCheck).steps,
      ∃ i, (below s).positions = {i} ∧ plan[i]? = some (s.call σ) :=
    fun s hs => htree.exists_leaf_step hs (hall s hs)
  obtain ⟨r, hrpos, hr⟩ := hleaf ride (by decide)
  obtain ⟨p, hppos, hp⟩ := hleaf pay (by decide)
  have hrp : r < p := by
    obtain ⟨-, -, -, -, -, -, horder⟩ := htree
    refine horder ride (by decide) pay (by decide) (by decide) r ?_ p ?_
    · rw [hrpos]
      rfl
    · rw [hppos]
      rfl
  have hnone : ¬(fact "ticket").Holds {(fact "coin").atom} := by
    simp [Literal.Holds, fact, Literal.atom]
  have hneeds : fact "ticket" ∈ guardedBusTrip.preconditions (ride.call σ) :=
    show fact "ticket" ∈ [fact "ticket"] by decide
  obtain ⟨k, hkr, e, hk, heff⟩ := hrun.exists_effect hnone hr hneeds
  have hkpos : k ∈ (Tree.node (byBus.checkedBy coinCheck) σ below).positions :=
    hplan ▸ (List.getElem?_eq_some_iff.1 hk).1
  obtain ⟨s, hs, hkpos⟩ := hkpos
  obtain ⟨j, hj, hget⟩ := hleaf s hs
  obtain rfl : k = j := by rwa [hj] at hkpos
  obtain rfl : e = s.call σ := Option.some.inj (hk.symm.trans hget)
  obtain rfl | hs := List.mem_cons.1 hs
  · cases heff
  · obtain rfl | hs := List.mem_cons.1 hs
    · obtain rfl : p = k := Set.singleton_injective (hppos.symm.trans hj)
      omega
    · obtain rfl := List.mem_singleton.1 hs
      cases heff

/-- A method may be prevented from checking first what another one brings about while it is carried
out, and a check step whose id is not new takes the place of another step. -/
theorem inferPreconditions_loses_solutions :
    (meeting.WellFormed ∧ (∀ t ∈ meeting.tasks, ¬IsCheckTask t.name) ∧
      (∀ m ∈ meeting.methods, m.Acyclic) ∧
      ∃ d tally, meeting.inferPreconditions "meet" = .ok (d, tally) ∧
        meeting.Solvable (fun _ => True) (callOf "meet") ∅ ∧
        ¬d.Solvable (fun _ => True) (callOf "meet") ∅) ∧
    busTrip.WellFormed ∧ (∀ t ∈ busTrip.tasks, ¬IsCheckTask t.name) ∧
      (∀ m ∈ busTrip.methods, m.Acyclic) ∧
      ∃ d tally, busTrip.inferPreconditions "travel" = .ok (d, tally) ∧
        busTrip.Solvable (fun _ => True) (callOf "travel") {(fact "coin").atom} ∧
        ¬d.Solvable (fun _ => True) (callOf "travel") {(fact "coin").atom} := by
  have hmeet : (meeting.inferPreconditions "meet").toOption.map (·.1) = some guardedMeeting := by
    decide +kernel
  have htravel : (busTrip.inferPreconditions "travel").toOption.map (·.1) = some guardedBusTrip := by
    decide +kernel
  obtain ⟨tally, hmeet⟩ := exists_tally hmeet
  obtain ⟨tally', htravel⟩ := exists_tally htravel
  refine ⟨⟨wellFormed_meeting, by decide, fun m hm => Method.acyclic_iff.2 ?_, _, tally, hmeet,
    solvable_meeting, not_solvable_guardedMeeting _⟩, wellFormed_busTrip, by decide,
    fun m hm => Method.acyclic_iff.2 ?_, _, tally', htravel, solvable_busTrip,
    not_solvable_guardedBusTrip _⟩
  · revert m
    decide
  · revert m
    decide

end TaskNetwork
