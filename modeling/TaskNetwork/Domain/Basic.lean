import TaskNetwork.Increasing

namespace TaskNetwork

structure NameSet where
  names : List String := []
  increasing_names : Increasing names := by decide
deriving DecidableEq

def NameSet.ofList (l : List String) : NameSet where
  names := increasing l
  increasing_names := increasing_increasing l

/-- The instances of each declared sort. -/
structure Sorts where
  entries : List (String × NameSet) := []
  increasing_entries : Increasing (entries.map (·.1)) := by decide
deriving DecidableEq

structure Predicate where
  name : String
  argumentSorts : List String
deriving DecidableEq

def Predicate.arity (p : Predicate) : Nat := p.argumentSorts.length

/-- A fact about named arguments, or its negation. -/
structure Literal where
  predicate : String
  positive : Bool
  arguments : List String
deriving DecidableEq

def Literal.isAbout (l : Literal) (predicate : String) (positive : Bool) : Bool :=
  l.positive == positive && l.predicate == predicate

def Literal.text (l : Literal) : String :=
  (if l.positive then "+" else "-") ++ l.predicate ++ "(" ++ ", ".intercalate l.arguments ++ ")"

structure TypedName where
  name : String
  sort : String
deriving DecidableEq

/-- A task is primitive or abstract by the list of the domain that holds it. Of its parameters the
first `givenParameters` were there before anything was added to the task. -/
structure Task where
  name : String
  parameters : List TypedName
  preconditions : List Literal := []
  effects : List Literal := []
  artificial : Bool := false
  givenParameters : UInt64 := 0
deriving DecidableEq

namespace Task

def ofParameters (name : String) (parameters : List TypedName) : Task where
  name
  parameters
  givenParameters := UInt64.ofNat parameters.length

def withPrecondition (t : Task) (l : Literal) : Task :=
  { t with preconditions := t.preconditions ++ [l] }

def withEffect (t : Task) (l : Literal) : Task := { t with effects := t.effects ++ [l] }

def parameterNames (t : Task) : List String := t.parameters.map (·.name)

def parameterIndex? (t : Task) (name : String) : Option Nat := t.parameterNames.idxOf? name

end Task

/-- One task that a method asks for. The arguments are variables of the method, one for each
parameter. -/
structure Step where
  id : String
  task : String
  arguments : List String
deriving DecidableEq

/-- A way to do an abstract task. A pair `(a, b)` of step ids in `ordering` says that `a` comes
before `b`. -/
structure Method where
  name : String
  task : String
  taskArguments : List String
  declarations : List TypedName := []
  steps : List Step := []
  ordering : List (String × String) := []
  constraints : List Literal := []
deriving DecidableEq

namespace Method

def withVariable (m : Method) (name sort : String) : Method :=
  { m with declarations := m.declarations ++ [{ name, sort }] }

def withStep (m : Method) (s : Step) : Method := { m with steps := m.steps ++ [s] }

def withOrder (m : Method) (a b : String) : Method := { m with ordering := m.ordering ++ [(a, b)] }

def withConstraint (m : Method) (l : Literal) : Method :=
  { m with constraints := m.constraints ++ [l] }

def variableNames (m : Method) : List String := m.declarations.map (·.name)

def findVariable? (m : Method) (name : String) : Option TypedName :=
  m.declarations.find? (·.name = name)

def stepIds (m : Method) : List String := m.steps.map (·.id)

end Method

structure Domain where
  sorts : Sorts := {}
  predicates : List Predicate := []
  primitiveTasks : List Task := []
  abstractTasks : List Task := []
  methods : List Method := []
deriving DecidableEq

namespace Domain

def tasks (d : Domain) : List Task := d.primitiveTasks ++ d.abstractTasks

def task? (d : Domain) (name : String) : Option Task := d.tasks.find? (·.name = name)

def method? (d : Domain) (name : String) : Option Method := d.methods.find? (·.name = name)

end Domain

end TaskNetwork
