import TaskNetwork.Domain.Format
import TaskNetwork.Domain.Names
import TaskNetwork.Proofs.JsonRecords

namespace TaskNetwork

open Json

section Sorts

variable {sort name : String} {instances : NameSet} {entries : List (String × NameSet)} {s t : Sorts}

theorem lookup_cons_ite {e : String × NameSet} :
    (e :: entries).lookup name = if name = e.1 then some e.2 else entries.lookup name := by
  rw [List.lookup_cons]
  by_cases hname : name = e.1
  · rw [if_pos hname, beq_iff_eq.2 hname]
  · rw [if_neg hname, beq_false_of_ne hname]

theorem lookup_insertEntry : (insertEntry sort instances entries).lookup name =
    if name = sort then some instances else entries.lookup name := by
  induction entries with
  | nil => exact lookup_cons_ite
  | cons e entries ih =>
    rw [insertEntry]
    split
    · exact lookup_cons_ite
    · split
      · next hsort =>
        subst hsort
        rw [lookup_cons_ite, lookup_cons_ite]
        split <;> rfl
      · next hsort =>
        rw [lookup_cons_ite, ih, lookup_cons_ite]
        by_cases hname : name = e.1
        · rw [if_pos hname, if_pos hname, if_neg fun h => hsort (h.symm.trans hname)]
        · rw [if_neg hname, if_neg hname]

theorem lookup_reverse (h : (entries.map (·.1)).Nodup) :
    entries.reverse.lookup name = entries.lookup name := by
  induction entries with
  | nil => rfl
  | cons e entries ih =>
    obtain ⟨hnew, hrest⟩ := List.nodup_cons.1 h
    rw [List.reverse_cons, List.lookup_append, ih hrest, lookup_cons_ite, lookup_cons_ite]
    by_cases hname : name = e.1
    · have hnone : entries.lookup name = none := by
        rw [List.lookup_eq_none_iff]
        intro p hp
        have hne : name ≠ p.1 := fun h => hnew (List.mem_map.2 ⟨p, hp, h.symm.trans hname⟩)
        simpa using hne
      rw [hnone, if_pos hname, if_pos hname]
      rfl
    · rw [if_neg hname, if_neg hname]
      exact Option.or_none

namespace Sorts

theorem instances?_insert : (s.insert sort instances).instances? name =
    if name = sort then some instances else s.instances? name :=
  lookup_insertEntry

theorem instances?_ofList : (ofList entries).instances? name = entries.reverse.lookup name := by
  suffices h : ∀ s : Sorts, (entries.foldl (fun s e => s.insert e.1 e.2) s).instances? name =
      (entries.reverse.lookup name).or (s.instances? name) from
    (h {}).trans (Option.or_none)
  intro s
  induction entries generalizing s with
  | nil => rfl
  | cons e entries ih =>
    rw [List.foldl_cons, ih, List.reverse_cons, List.lookup_append, Option.or_assoc,
      instances?_insert, lookup_cons_ite]
    split <;> rfl

theorem mem_entries {e : String × NameSet} : e ∈ s.entries ↔ s.instances? e.1 = some e.2 := by
  rw [instances?, List.lookup_eq_some_iff]
  constructor
  · intro he
    obtain ⟨before, after, heq⟩ := List.append_of_mem he
    refine ⟨before, after, heq, fun p hp => ?_⟩
    have hincreasing := s.increasing_entries
    rw [heq, List.map_append, List.map_cons] at hincreasing
    have hlt : p.1 < e.1 := (List.pairwise_append.1 hincreasing).2.2 _ (List.mem_map_of_mem hp) _
      List.mem_cons_self
    simpa using fun h : e.1 = p.1 => String.lt_irrefl _ (h ▸ hlt)
  · rintro ⟨before, after, heq, -⟩
    rw [heq]
    exact List.mem_append_right _ List.mem_cons_self

theorem eq_of_instances?_eq (h : ∀ name, s.instances? name = t.instances? name) : s = t := by
  have hincreasing : ∀ u : Sorts, u.entries.Pairwise (fun a b => a.1 < b.1) := fun u =>
    List.pairwise_map.1 u.increasing_entries
  have hnodup : ∀ u : Sorts, u.entries.Nodup := by
    intro u
    apply (hincreasing u).imp
    rintro a b hlt rfl
    exact String.lt_irrefl _ hlt
  have hperm : s.entries.Perm t.entries := by
    rw [List.perm_ext_iff_of_nodup (hnodup s) (hnodup t)]
    intro e
    rw [mem_entries, mem_entries, h]
  have hentries : s.entries = t.entries :=
    hperm.eq_of_pairwise (fun a b _ _ hab hba => absurd (String.lt_trans hab hba)
      (String.lt_irrefl _)) (hincreasing s) (hincreasing t)
  cases s
  cases t
  simpa using hentries

end Sorts

end Sorts

def NameSet.Written : Form NameSet := fun s j =>
  ∃ l, IsText.list l j ∧ ∀ a, a ∈ s.names ↔ a ∈ l

/-- A field for each declaration of a sort, of which the last one counts. -/
def Sorts.Written : Form Sorts := fun s j =>
  ∃ fields entries, j = .obj fields ∧
    List.Forall₂ (fun f e => f.1 = e.1 ∧ NameSet.Written e.2 f.2) fields entries ∧
    ∀ sort, s.instances? sort = entries.reverse.lookup sort

def Predicate.Written : Form Predicate := fun p j =>
  ∃ value, Record ["name", "arg_sorts"] value j ∧ IsText.Given p.name (value "name") ∧
    IsText.list.Given p.argumentSorts (value "arg_sorts")

def Literal.Written : Form Literal := fun l j =>
  ∃ value, Record ["predicate", "positive", "arguments"] value j ∧
    IsText.Given l.predicate (value "predicate") ∧ IsFlag.Given l.positive (value "positive") ∧
    IsText.list.Given l.arguments (value "arguments")

def TypedName.Written : Form TypedName := fun v j =>
  ∃ value, Record ["name", "sort"] value j ∧ IsText.Given v.name (value "name") ∧
    IsText.Given v.sort (value "sort")

def Task.Written : Form Task := fun t j =>
  ∃ value, Record ["name", "params", "preconditions", "effects", "artificial",
      "original_param_count"] value j ∧
    IsText.Given t.name (value "name") ∧
    TypedName.Written.list.Given t.parameters (value "params") ∧
    Literal.Written.list.GivenOr [] t.preconditions (value "preconditions") ∧
    Literal.Written.list.GivenOr [] t.effects (value "effects") ∧
    IsFlag.GivenOr false t.artificial (value "artificial") ∧
    IsWord.GivenOr 0 t.givenParameters (value "original_param_count")

def Step.Written : Form Step := fun s j =>
  ∃ value, Record ["id", "task", "args"] value j ∧ IsText.Given s.id (value "id") ∧
    IsText.Given s.task (value "task") ∧ IsText.list.Given s.arguments (value "args")

def IsOrder : Form (String × String) := fun p j => j = .arr [.str p.1, .str p.2]

def Method.Written : Form Method := fun m j =>
  ∃ value, Record ["name", "task", "task_args", "vars", "subtasks", "ordering", "constraints"]
      value j ∧
    IsText.Given m.name (value "name") ∧ IsText.Given m.task (value "task") ∧
    IsText.list.Given m.taskArguments (value "task_args") ∧
    TypedName.Written.list.Given m.declarations (value "vars") ∧
    Step.Written.list.Given m.steps (value "subtasks") ∧
    IsOrder.list.GivenOr [] m.ordering (value "ordering") ∧
    Literal.Written.list.GivenOr [] m.constraints (value "constraints")

/-- Each part of a domain may be left out if there is nothing in it. -/
def Domain.Written : Form Domain := fun d j =>
  ∃ value, Record ["sorts", "predicates", "primitive_tasks", "abstract_tasks", "methods"] value j ∧
    Sorts.Written.GivenOr (.ofList []) d.sorts (value "sorts") ∧
    Predicate.Written.list.GivenOr [] d.predicates (value "predicates") ∧
    Task.Written.list.GivenOr [] d.primitiveTasks (value "primitive_tasks") ∧
    Task.Written.list.GivenOr [] d.abstractTasks (value "abstract_tasks") ∧
    Method.Written.list.GivenOr [] d.methods (value "methods")

section Reading

theorem NameSet.ofList_eq_iff {s : NameSet} {l : List String} :
    NameSet.ofList l = s ↔ ∀ a, a ∈ s.names ↔ a ∈ l := by
  constructor
  · rintro rfl a
    exact mem_increasing
  · intro h
    have hnames : increasing l = s.names :=
      (increasing_increasing l).eq_of_mem_iff s.increasing_names fun a =>
        mem_increasing.trans (h a).symm
    cases s
    simpa [NameSet.ofList] using hnames

theorem reads_nameSet : Reads NameSet.ofJson? NameSet.Written := by
  intro j s
  simp only [NameSet.ofJson?, NameSet.Written, Option.map_eq_some_iff, reads_str?.list? _ _,
    NameSet.ofList_eq_iff]

theorem Sorts.ofList_eq_iff {s : Sorts} {entries : List (String × NameSet)} :
    Sorts.ofList entries = s ↔ ∀ sort, s.instances? sort = entries.reverse.lookup sort := by
  constructor
  · rintro rfl sort
    exact instances?_ofList
  · intro h
    exact eq_of_instances?_eq fun sort => instances?_ofList.trans (h sort).symm

theorem reads_sorts : Reads Sorts.ofJson? Sorts.Written := by
  intro j s
  have hentry : ∀ (f : String × Json) (e : String × NameSet),
      (NameSet.ofJson? f.2).bind (fun names => some (f.1, names)) = some e ↔
        f.1 = e.1 ∧ NameSet.Written e.2 f.2 := by
    rintro ⟨sort, instances⟩ ⟨sort', names⟩
    simp [Option.bind_eq_some_iff, reads_nameSet, and_comm]
  cases j <;>
    simp [Sorts.ofJson?, Sorts.Written, obj?, Option.bind_eq_some_iff, mapM_eq_some, hentry,
      Sorts.ofList_eq_iff]

theorem reads_predicate : Reads Predicate.ofJson? Predicate.Written := by
  rintro j ⟨name, argumentSorts⟩
  apply reads_record (by decide)
  intro value
  cases hname : value "name" <;> cases hsorts : value "arg_sorts" <;>
    simp [hname, hsorts, Option.bind_eq_some_iff, reads_str?.list?]

theorem reads_literal : Reads Literal.ofJson? Literal.Written := by
  rintro j ⟨predicate, positive, arguments⟩
  apply reads_record (by decide)
  intro value
  cases hpredicate : value "predicate" <;> cases hpositive : value "positive" <;>
    cases harguments : value "arguments" <;>
    simp [-Bool.exists_bool, hpredicate, hpositive, harguments, Option.bind_eq_some_iff,
      reads_str?.list?]

theorem reads_typedName : Reads TypedName.ofJson? TypedName.Written := by
  rintro j ⟨name, sort⟩
  apply reads_record (by decide)
  intro value
  cases hname : value "name" <;> cases hsort : value "sort" <;>
    simp [hname, hsort, Option.bind_eq_some_iff]

theorem reads_task : Reads Task.ofJson? Task.Written := by
  rintro j ⟨name, parameters, preconditions, effects, artificial, givenParameters⟩
  apply reads_record (by decide)
  intro value
  cases hname : value "name" <;> cases hparameters : value "params" <;>
    simp [-Bool.exists_bool, hname, hparameters, Option.bind_eq_some_iff, reads_typedName.list?,
      reads_literal.list?.orElse?, reads_bool?.orElse?, reads_word?.orElse?]

theorem reads_step : Reads Step.ofJson? Step.Written := by
  rintro j ⟨id, task, arguments⟩
  apply reads_record (by decide)
  intro value
  cases hid : value "id" <;> cases htask : value "task" <;> cases harguments : value "args" <;>
    simp [hid, htask, harguments, Option.bind_eq_some_iff, reads_str?.list?]

theorem reads_order : Reads Method.orderOfJson? IsOrder := by
  rintro j ⟨a, b⟩
  rw [IsOrder, Method.orderOfJson?.eq_def]
  split
  · simp
  · next hj =>
    refine iff_of_false (by simp) ?_
    rintro rfl
    exact hj a b rfl

theorem reads_method : Reads Method.ofJson? Method.Written := by
  rintro j ⟨name, task, taskArguments, declarations, steps, ordering, constraints⟩
  apply reads_record (by decide)
  intro value
  cases hname : value "name" <;> cases htask : value "task" <;>
    cases harguments : value "task_args" <;> cases hdeclarations : value "vars" <;>
    cases hsteps : value "subtasks" <;>
    simp [hname, htask, harguments, hdeclarations, hsteps, Option.bind_eq_some_iff,
      reads_str?.list?, reads_typedName.list?, reads_step.list?, reads_order.list?.orElse?,
      reads_literal.list?.orElse?]

theorem reads_domain : Reads Domain.ofJson? Domain.Written := by
  rintro j ⟨sorts, predicates, primitiveTasks, abstractTasks, methods⟩
  apply reads_record (by decide)
  intro value
  have hnone : Sorts.ofList [] = {} := rfl
  simp [Option.bind_eq_some_iff, hnone, reads_sorts.orElse?, reads_predicate.list?.orElse?,
    reads_task.list?.orElse?, reads_method.list?.orElse?]

end Reading

section Writing

theorem written_texts (l : List String) : IsText.list l (.arr (l.map .str)) :=
  have hitem : ∀ s, IsText s (.str s) := fun _ => rfl
  Form.list_map hitem l

theorem written_order (p : String × String) : IsOrder p (Method.orderToJson p) := rfl

theorem NameSet.written_toJson (s : NameSet) : NameSet.Written s s.toJson :=
  ⟨s.names, written_texts _, fun _ => Iff.rfl⟩

theorem Sorts.written_toJson (s : Sorts) : Sorts.Written s s.toJson := by
  refine ⟨_, s.entries, rfl, ?_, fun sort => (lookup_reverse ?_).symm⟩
  · rw [List.forall₂_map_left_iff, List.forall₂_same]
    exact fun e _ => ⟨rfl, NameSet.written_toJson e.2⟩
  · apply s.increasing_entries.imp
    rintro a b hlt rfl
    exact String.lt_irrefl _ hlt

theorem Predicate.written_toJson (p : Predicate) : Predicate.Written p p.toJson :=
  ⟨_, record_lookup rfl (by decide), ⟨_, rfl, rfl⟩, ⟨_, rfl, written_texts _⟩⟩

theorem Literal.written_toJson (l : Literal) : Literal.Written l l.toJson :=
  ⟨_, record_lookup rfl (by decide), ⟨_, rfl, rfl⟩, ⟨_, rfl, rfl⟩,
    ⟨_, rfl, written_texts _⟩⟩

theorem TypedName.written_toJson (v : TypedName) : TypedName.Written v v.toJson :=
  ⟨_, record_lookup rfl (by decide), ⟨_, rfl, rfl⟩, ⟨_, rfl, rfl⟩⟩

theorem Task.written_toJson (t : Task) : Task.Written t t.toJson :=
  ⟨_, record_lookup rfl (by decide), ⟨_, rfl, rfl⟩,
    ⟨_, rfl, Form.list_map TypedName.written_toJson _⟩,
    .inr ⟨_, rfl, Form.list_map Literal.written_toJson _⟩,
    .inr ⟨_, rfl, Form.list_map Literal.written_toJson _⟩, .inr ⟨_, rfl, rfl⟩,
    .inr ⟨_, rfl, rfl⟩⟩

theorem Step.written_toJson (s : Step) : Step.Written s s.toJson :=
  ⟨_, record_lookup rfl (by decide), ⟨_, rfl, rfl⟩, ⟨_, rfl, rfl⟩,
    ⟨_, rfl, written_texts _⟩⟩

theorem Method.written_toJson (m : Method) : Method.Written m m.toJson :=
  ⟨_, record_lookup rfl (by decide), ⟨_, rfl, rfl⟩, ⟨_, rfl, rfl⟩,
    ⟨_, rfl, written_texts _⟩,
    ⟨_, rfl, Form.list_map TypedName.written_toJson _⟩,
    ⟨_, rfl, Form.list_map Step.written_toJson _⟩,
    .inr ⟨_, rfl, Form.list_map written_order _⟩,
    .inr ⟨_, rfl, Form.list_map Literal.written_toJson _⟩⟩

theorem Domain.written_toJson (d : Domain) : Domain.Written d d.toJson :=
  ⟨_, record_lookup rfl (by decide), .inr ⟨_, rfl, Sorts.written_toJson _⟩,
    .inr ⟨_, rfl, Form.list_map Predicate.written_toJson _⟩,
    .inr ⟨_, rfl, Form.list_map Task.written_toJson _⟩,
    .inr ⟨_, rfl, Form.list_map Task.written_toJson _⟩,
    .inr ⟨_, rfl, Form.list_map Method.written_toJson _⟩⟩

end Writing

/-- What is written reads back as the same domain. What is read is what the value stands for, and
to write it anew loses nothing, however little the value said. -/
theorem Domain.json_round_trip :
    (∀ d : Domain, Domain.ofJson? d.toJson = some d) ∧
    (∀ j d, Domain.ofJson? j = some d ↔ Domain.Written d j) ∧
    ∀ j d, Domain.ofJson? j = some d → Domain.ofJson? d.toJson = some d := by
  have hwritten : ∀ d : Domain, Domain.ofJson? d.toJson = some d := fun d =>
    (reads_domain _ d).2 (Domain.written_toJson d)
  exact ⟨hwritten, reads_domain, fun _ d _ => hwritten d⟩

/-- Parts are missing, fields are not known, a sort is declared twice, instances repeat and a
parameter is given as an array. -/
def looseKitchen : Json :=
  .obj [("note", .null),
    ("primitive_tasks", .arr [.obj [("cost", .nat 3), ("name", .str "pick"),
      ("params", .arr [.arr [.str "x", .str "thing"]])]]),
    ("sorts", .obj [("thing", .arr [.str "cup"]),
      ("thing", .arr [.str "pot", .str "cup", .str "pot"])])]

def kitchen : Domain where
  sorts := .ofList [("thing", .ofList ["cup", "pot"])]
  predicates := []
  primitiveTasks := [{ name := "pick", parameters := [{ name := "x", sort := "thing" }] }]
  abstractTasks := []
  methods := []

theorem Domain.json_round_trip_kitchen :
    Domain.ofJson? looseKitchen = some kitchen ∧ Domain.ofJson? kitchen.toJson = some kitchen :=
  have hread : Domain.ofJson? looseKitchen = some kitchen := by decide
  ⟨hread, Domain.json_round_trip.2.2 looseKitchen kitchen hread⟩

end TaskNetwork
