import Mathlib.Data.Set.BooleanAlgebra
import Mathlib.Order.CompletePartialOrder
import Mathlib.Order.Interval.Set.OrdConnected
import TaskNetwork.Proofs.Paths
import TaskNetwork.Proofs.Resolution

namespace TaskNetwork

abbrev Valuation := String → String

structure Atom where
  predicate : String
  arguments : List String
deriving DecidableEq

/-- The facts that hold; the others do not. -/
abbrev State := Set Atom

namespace Literal

def ground (σ : Valuation) (l : Literal) : Literal := { l with arguments := l.arguments.map σ }

def atom (l : Literal) : Atom := { predicate := l.predicate, arguments := l.arguments }

def Holds (l : Literal) (s : State) : Prop := l.atom ∈ s ↔ l.positive

end Literal

structure Call where
  task : String
  constants : List String
deriving DecidableEq

def Step.call (s : Step) (σ : Valuation) : Call :=
  { task := s.task, constants := s.arguments.map σ }

def Method.call (m : Method) (σ : Valuation) : Call :=
  { task := m.task, constants := m.taskArguments.map σ }

def Task.valuation (t : Task) (constants : List String) : Valuation := fun parameter =>
  ((t.parameterNames.zip constants).lookup parameter).getD ""

namespace Domain

def preconditions (d : Domain) (c : Call) : List Literal :=
  match d.task? c.task with
  | some t => t.preconditions.map (·.ground (t.valuation c.constants))
  | none => []

def effects (d : Domain) (c : Call) : List Literal :=
  match d.task? c.task with
  | some t => t.effects.map (·.ground (t.valuation c.constants))
  | none => []

/-- The task may take one state to the other: its preconditions hold before, and what becomes true
is one of its effects. -/
structure Leads (d : Domain) (c : Call) (s u : State) : Prop where
  preconditions : ∀ l ∈ d.preconditions c, l.Holds s
  effects : ∀ l : Literal, ¬l.Holds s → l.Holds u → l ∈ d.effects c

def Executes (d : Domain) (plan : List Call) (states : ℕ → State) : Prop :=
  ∀ i c, plan[i]? = some c → d.Leads c (states i) (states (i + 1))

/-- The state after a task: what it makes false goes, then what it makes true comes. -/
def result (d : Domain) (c : Call) (s : State) : State :=
  {a | (∃ l ∈ d.effects c, l.positive ∧ l.atom = a) ∨
    a ∈ s ∧ ∀ l ∈ d.effects c, l.atom = a → l.positive}

def Executable (d : Domain) : List Call → State → Prop
  | [], _ => True
  | c :: plan, s => (∀ l ∈ d.preconditions c, l.Holds s) ∧ d.Executable plan (d.result c s)

def IsInstance (d : Domain) (sort constant : String) : Prop :=
  ∃ names, d.sorts.instances? sort = some names ∧ constant ∈ names.names

def Grounds (d : Domain) (m : Method) (σ : Valuation) : Prop :=
  ∀ v ∈ m.declarations, d.IsInstance v.sort (σ v.name)

def IsPrimitive (d : Domain) (name : String) : Prop := name ∈ d.primitiveTasks.map (·.name)

instance (d : Domain) (name : String) : Decidable (d.IsPrimitive name) :=
  inferInstanceAs (Decidable (_ ∈ _))

end Domain

/-- How a task is done: at a position of the plan, or by a method with constants for its variables,
of which each step is done in turn. -/
inductive Tree where
  | leaf (call : Call) (position : ℕ)
  | node (method : Method) (σ : Valuation) (below : Step → Tree)

namespace Tree

def call : Tree → Call
  | leaf c _ => c
  | node m σ _ => m.call σ

def positions : Tree → Set ℕ
  | leaf _ i => {i}
  | node m _ below => {i | ∃ s ∈ m.steps, i ∈ (below s).positions}

/-- The tree follows the domain and the plan. Its methods are used with constants of the right sorts
that make their constraints true, no position belongs to two steps, and a step that precedes another
one is done with before the other is begun. -/
def Valid (d : Domain) (truth : Literal → Prop) (plan : List Call) : Tree → Prop
  | leaf c i => plan[i]? = some c ∧ d.IsPrimitive c.task
  | node m σ below =>
    m ∈ d.methods ∧ ¬d.IsPrimitive m.task ∧ d.Grounds m σ ∧
    (∀ l ∈ m.constraints, truth (l.ground σ)) ∧
    (∀ s ∈ m.steps, (below s).call = s.call σ ∧ Valid d truth plan (below s)) ∧
    (m.steps.Pairwise fun s t => Disjoint (below s).positions (below t).positions) ∧
    ∀ s ∈ m.steps, ∀ t ∈ m.steps, m.Precedes s.id t.id →
      ∀ i ∈ (below s).positions, ∀ j ∈ (below t).positions, i < j

/-- The tree follows the domain, whatever the constants are. -/
def Derives (d : Domain) : Tree → Prop
  | leaf c _ => d.IsPrimitive c.task
  | node m σ below =>
    m ∈ d.methods ∧ ¬d.IsPrimitive m.task ∧
    ∀ s ∈ m.steps, (below s).call = s.call σ ∧ (below s).Derives d

/-- The primitive tasks of the tree are those of the plan, and a step that precedes another one is
done with before the other is begun. -/
def Follows (plan : List Call) : Tree → Prop
  | leaf c i => plan[i]? = some c
  | node m _ below =>
    (∀ s ∈ m.steps, (below s).Follows plan) ∧
    ∀ s ∈ m.steps, ∀ t ∈ m.steps, m.Precedes s.id t.id →
      ∀ i ∈ (below s).positions, ∀ j ∈ (below t).positions, i < j

def leaves : Tree → Set Call
  | leaf c _ => {c}
  | node m _ below => {c | ∃ s ∈ m.steps, c ∈ (below s).leaves}

/-- What each method in the tree does is one block of the plan. -/
def Contiguous : Tree → Prop
  | leaf _ _ => True
  | node m σ below =>
    (node m σ below).positions.OrdConnected ∧ ∀ s ∈ m.steps, (below s).Contiguous

/-- Whatever is done while a method in the tree is carried out, and does not belong to it, brings
about no precondition of what the method does after that. -/
def Undisturbed (d : Domain) (plan : List Call) : Tree → Prop
  | leaf _ _ => True
  | node m σ below =>
    (∀ i ∈ (node m σ below).positions, ∀ j ∉ (node m σ below).positions,
      ∀ k ∈ (node m σ below).positions, i < j → j < k →
      ∀ c, plan[j]? = some c → ∀ e, plan[k]? = some e →
      ∀ l ∈ d.effects c, l ∉ d.preconditions e) ∧
    ∀ s ∈ m.steps, (below s).Undisturbed d plan

def uses : Tree → Set (Method × Valuation)
  | leaf _ _ => ∅
  | node m σ below => {u | u = (m, σ) ∨ ∃ s ∈ m.steps, u ∈ (below s).uses}

/-- Where the method is used in the tree, its variable of that name stands for the constant. -/
def Gives (tree : Tree) (method name constant : String) : Prop :=
  ∃ u ∈ tree.uses, u.1.name = method ∧ u.2 name = constant

/-- The same, where of each method only the use with the constants `ρ` counts. -/
def GivesBy (tree : Tree) (ρ : String → Valuation) (method name constant : String) : Prop :=
  ρ method name = constant ∧ ∃ m, m.name = method ∧ (m, ρ method) ∈ tree.uses

end Tree

/-- From the state some executable plan does the task. -/
def Domain.Solvable (d : Domain) (truth : Literal → Prop) (c : Call) (s : State) : Prop :=
  ∃ (plan : List Call) (tree : Tree), tree.Valid d truth plan ∧ tree.call = c ∧
    tree.positions = {i | i < plan.length} ∧ d.Executable plan s

namespace Tree

variable {d : Domain} {truth : Literal → Prop} {plan : List Call} {tree : Tree}

theorem Valid.derives (h : tree.Valid d truth plan) : tree.Derives d := by
  induction tree with
  | leaf c i => exact h.2
  | node m σ below ih =>
    obtain ⟨hm, hprim, -, -, hbelow, -, -⟩ := h
    exact ⟨hm, hprim, fun s hs => ⟨(hbelow s hs).1, ih s (hbelow s hs).2⟩⟩

theorem Valid.follows (h : tree.Valid d truth plan) : tree.Follows plan := by
  induction tree with
  | leaf c i => exact h.1
  | node m σ below ih =>
    obtain ⟨-, -, -, -, hbelow, -, horder⟩ := h
    exact ⟨fun s hs => ih s (hbelow s hs).2, horder⟩

/-- A method of two steps is done by doing the first one and then the second one. -/
theorem valid_of_pair {m : Method} {σ : Valuation} {below : Step → Tree} {s t : Step}
    (hm : m ∈ d.methods) (hprim : ¬d.IsPrimitive m.task) (hσ : d.Grounds m σ)
    (htruth : ∀ l ∈ m.constraints, truth (l.ground σ)) (hsteps : m.steps = [s, t])
    (hback : ¬m.Precedes t.id s.id)
    (hs : (below s).call = s.call σ ∧ (below s).Valid d truth plan)
    (ht : (below t).call = t.call σ ∧ (below t).Valid d truth plan)
    (hlt : ∀ i ∈ (below s).positions, ∀ j ∈ (below t).positions, i < j) :
    (node m σ below).Valid d truth plan := by
  refine ⟨hm, hprim, hσ, htruth, ?_, ?_, ?_⟩
  · rw [hsteps, List.forall_mem_cons, List.forall_mem_singleton]
    exact ⟨hs, ht⟩
  · rw [hsteps, List.pairwise_pair, Set.disjoint_left]
    exact fun i hi hj => Nat.lt_irrefl i (hlt i hi i hj)
  · rw [hsteps]
    intro a ha b hb hprec
    obtain rfl | ha := List.mem_cons.1 ha
    · obtain rfl | hb := List.mem_cons.1 hb
      · exact absurd rfl hprec.1
      · obtain rfl := List.mem_singleton.1 hb
        exact hlt
    · obtain rfl := List.mem_singleton.1 ha
      obtain rfl | hb := List.mem_cons.1 hb
      · exact absurd hprec hback
      · obtain rfl := List.mem_singleton.1 hb
        exact absurd rfl hprec.1

theorem Follows.exists_position (h : tree.Follows plan) {c : Call} (hc : c ∈ tree.leaves) :
    ∃ i ∈ tree.positions, plan[i]? = some c := by
  induction tree with
  | leaf e i =>
    obtain rfl : c = e := hc
    exact ⟨i, rfl, h⟩
  | node m σ below ih =>
    obtain ⟨s, hs, hc⟩ := hc
    obtain ⟨i, hi, hplan⟩ := ih s (h.1 s hs) hc
    exact ⟨i, ⟨s, hs, hi⟩, hplan⟩

theorem gives_of_givesBy {ρ : String → Valuation} {o v c : String} (h : tree.GivesBy ρ o v c) :
    tree.Gives o v c := by
  obtain ⟨hc, m, hm, hu⟩ := h
  exact ⟨(m, ρ o), hu, hm, hc⟩

end Tree

theorem Tree.Contiguous.undisturbed {d : Domain} {plan : List Call} {tree : Tree}
    (h : tree.Contiguous) : tree.Undisturbed d plan := by
  induction tree with
  | leaf c i => trivial
  | node m σ below ih =>
    refine ⟨?_, fun s hs => ih s (h.2 s hs)⟩
    intro i hi j hj k hk hij hjk
    exact absurd (h.1.out hi hk ⟨hij.le, hjk.le⟩) hj

namespace Domain

variable {d : Domain}

theorem mem_preconditions {t : Task} {c : Call} (h : d.task? c.task = some t) {l : Literal} :
    l ∈ d.preconditions c ↔ ∃ p ∈ t.preconditions, p.ground (t.valuation c.constants) = l := by
  simp [preconditions, h]

theorem mem_effects {t : Task} {c : Call} (h : d.task? c.task = some t) {l : Literal} :
    l ∈ d.effects c ↔ ∃ p ∈ t.effects, p.ground (t.valuation c.constants) = l := by
  simp [effects, h]

theorem leads_result {c : Call} {s : State} (h : ∀ l ∈ d.preconditions c, l.Holds s) :
    d.Leads c s (d.result c s) := by
  refine ⟨h, fun l hs hu => ?_⟩
  cases hpos : l.positive with
  | true =>
    obtain ⟨e, he, hep, hea⟩ | ⟨ha, _⟩ : l.atom ∈ d.result c s := hu.2 hpos
    · have hel : e = l := by
        cases e
        cases l
        simp_all [Literal.atom]
      exact hel ▸ he
    · exact absurd (by simpa [Literal.Holds, hpos] using ha) hs
  | false =>
    have ha : l.atom ∈ s := by simpa [Literal.Holds, hpos] using hs
    have hna : l.atom ∉ d.result c s := by simpa [Literal.Holds, hpos] using hu
    by_contra hl
    refine hna (.inr ⟨ha, fun e he hea => ?_⟩)
    by_contra hep
    have hel : e = l := by
      cases e
      cases l
      simp_all [Literal.atom]
    exact hl (hel ▸ he)

def statesFrom (d : Domain) : List Call → State → ℕ → State
  | [], s, _ => s
  | _ :: _, s, 0 => s
  | c :: plan, s, i + 1 => d.statesFrom plan (d.result c s) i

theorem statesFrom_zero (plan : List Call) (s : State) : d.statesFrom plan s 0 = s := by
  cases plan <;> rfl

theorem Executable.executes {plan : List Call} {s : State} (h : d.Executable plan s) :
    d.Executes plan (d.statesFrom plan s) := by
  induction plan generalizing s with
  | nil =>
    intro i c hc
    simp at hc
  | cons e plan ih =>
    intro i c hc
    cases i with
    | zero =>
      obtain rfl : e = c := by simpa using hc
      simp only [statesFrom, statesFrom_zero]
      exact leads_result h.1
    | succ i => exact ih h.2 i c (by simpa using hc)

end Domain

end TaskNetwork
