import TaskNetwork.Domain.Basic
import TaskNetwork.Json.Basic

namespace TaskNetwork

open Json

/-- Declares the instances of a sort; an earlier declaration of the sort is replaced. -/
def insertEntry (sort : String) (instances : NameSet) :
    List (String × NameSet) → List (String × NameSet)
  | [] => [(sort, instances)]
  | e :: entries =>
    if sort < e.1 then (sort, instances) :: e :: entries
    else if sort = e.1 then (sort, instances) :: entries
    else e :: insertEntry sort instances entries

theorem map_fst_insertEntry (sort : String) (instances : NameSet)
    (entries : List (String × NameSet)) :
    (insertEntry sort instances entries).map (·.1) = insertIncreasing sort (entries.map (·.1)) := by
  induction entries with
  | nil => rfl
  | cons e entries ih =>
    simp only [insertEntry, List.map_cons, insertIncreasing]
    split
    · rfl
    · split
      · next h => simp [h]
      · simp [ih]

namespace Sorts

def insert (sort : String) (instances : NameSet) (s : Sorts) : Sorts where
  entries := insertEntry sort instances s.entries
  increasing_entries := by
    rw [map_fst_insertEntry]
    exact increasing_insertIncreasing sort s.increasing_entries

def ofList (entries : List (String × NameSet)) : Sorts :=
  entries.foldl (fun s e => s.insert e.1 e.2) {}

end Sorts

def NameSet.toJson (s : NameSet) : Json := .arr (s.names.map .str)

def NameSet.ofJson? (j : Json) : Option NameSet := (j.list? str?).map .ofList

namespace Sorts

def toJson (s : Sorts) : Json := .obj (s.entries.map fun e => (e.1, e.2.toJson))

def ofJson? (j : Json) : Option Sorts := do
  let entries ← (← j.obj?).mapM fun (sort, instances) => do
    return (sort, ← NameSet.ofJson? instances)
  return ofList entries

end Sorts

namespace Predicate

def toJson (p : Predicate) : Json :=
  .obj [("name", .str p.name), ("arg_sorts", .arr (p.argumentSorts.map .str))]

def ofJson? (j : Json) : Option Predicate := do
  let [some name, some argumentSorts] ← j.fields? ["name", "arg_sorts"] | none
  return { name := ← name.str?, argumentSorts := ← argumentSorts.list? str? }

end Predicate

namespace Literal

def toJson (l : Literal) : Json :=
  .obj [("predicate", .str l.predicate), ("positive", .bool l.positive),
    ("arguments", .arr (l.arguments.map .str))]

def ofJson? (j : Json) : Option Literal := do
  let [some predicate, some positive, some arguments] ←
    j.fields? ["predicate", "positive", "arguments"] | none
  return {
    predicate := ← predicate.str?
    positive := ← positive.bool?
    arguments := ← arguments.list? str? }

end Literal

namespace TypedName

def toJson (v : TypedName) : Json := .obj [("name", .str v.name), ("sort", .str v.sort)]

def ofJson? (j : Json) : Option TypedName := do
  let [some name, some sort] ← j.fields? ["name", "sort"] | none
  return { name := ← name.str?, sort := ← sort.str? }

end TypedName

namespace Task

def toJson (t : Task) : Json :=
  .obj [("name", .str t.name), ("params", .arr (t.parameters.map TypedName.toJson)),
    ("preconditions", .arr (t.preconditions.map Literal.toJson)),
    ("effects", .arr (t.effects.map Literal.toJson)), ("artificial", .bool t.artificial),
    ("original_param_count", .nat t.givenParameters.toNat)]

def ofJson? (j : Json) : Option Task := do
  let [some name, some parameters, preconditions, effects, artificial, givenParameters] ←
    j.fields? ["name", "params", "preconditions", "effects", "artificial", "original_param_count"]
    | none
  return {
    name := ← name.str?
    parameters := ← parameters.list? TypedName.ofJson?
    preconditions := ← orElse? (list? Literal.ofJson?) [] preconditions
    effects := ← orElse? (list? Literal.ofJson?) [] effects
    artificial := ← orElse? bool? false artificial
    givenParameters := ← orElse? word? 0 givenParameters }

end Task

namespace Step

def toJson (s : Step) : Json :=
  .obj [("id", .str s.id), ("task", .str s.task), ("args", .arr (s.arguments.map .str))]

def ofJson? (j : Json) : Option Step := do
  let [some id, some task, some arguments] ← j.fields? ["id", "task", "args"] | none
  return { id := ← id.str?, task := ← task.str?, arguments := ← arguments.list? str? }

end Step

namespace Method

def orderToJson (p : String × String) : Json := .arr [.str p.1, .str p.2]

def orderOfJson? : Json → Option (String × String)
  | .arr [.str a, .str b] => some (a, b)
  | _ => none

def toJson (m : Method) : Json :=
  .obj [("name", .str m.name), ("task", .str m.task),
    ("task_args", .arr (m.taskArguments.map .str)),
    ("vars", .arr (m.declarations.map TypedName.toJson)),
    ("subtasks", .arr (m.steps.map Step.toJson)),
    ("ordering", .arr (m.ordering.map orderToJson)),
    ("constraints", .arr (m.constraints.map Literal.toJson))]

def ofJson? (j : Json) : Option Method := do
  let [some name, some task, some taskArguments, some declarations, some steps, ordering,
      constraints] ←
    j.fields? ["name", "task", "task_args", "vars", "subtasks", "ordering", "constraints"] | none
  return {
    name := ← name.str?
    task := ← task.str?
    taskArguments := ← taskArguments.list? str?
    declarations := ← declarations.list? TypedName.ofJson?
    steps := ← steps.list? Step.ofJson?
    ordering := ← orElse? (list? orderOfJson?) [] ordering
    constraints := ← orElse? (list? Literal.ofJson?) [] constraints }

end Method

namespace Domain

def toJson (d : Domain) : Json :=
  .obj [("sorts", d.sorts.toJson), ("predicates", .arr (d.predicates.map Predicate.toJson)),
    ("primitive_tasks", .arr (d.primitiveTasks.map Task.toJson)),
    ("abstract_tasks", .arr (d.abstractTasks.map Task.toJson)),
    ("methods", .arr (d.methods.map Method.toJson))]

def ofJson? (j : Json) : Option Domain := do
  let [sorts, predicates, primitiveTasks, abstractTasks, methods] ←
    j.fields? ["sorts", "predicates", "primitive_tasks", "abstract_tasks", "methods"] | none
  return {
    sorts := ← orElse? Sorts.ofJson? {} sorts
    predicates := ← orElse? (list? Predicate.ofJson?) [] predicates
    primitiveTasks := ← orElse? (list? Task.ofJson?) [] primitiveTasks
    abstractTasks := ← orElse? (list? Task.ofJson?) [] abstractTasks
    methods := ← orElse? (list? Method.ofJson?) [] methods }

end Domain

end TaskNetwork
