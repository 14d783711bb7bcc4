import TaskNetwork.Proofs.CheckSteps
import TaskNetwork.Proofs.Cutting

namespace TaskNetwork

def IsRestTask (name : String) : Prop := restTaskMark.toList <+: name.toList

instance (name : String) : Decidable (IsRestTask name) :=
  inferInstanceAs (Decidable (_ <+: _))

theorem isRestTask_restTaskName (k : ℕ) (s : String) : IsRestTask (restTaskName k s) :=
  prefix_numberedName

theorem IsRestTask.not_isCheckTask {name : String} (h : IsRestTask name) : ¬IsCheckTask name := by
  intro hcheck
  have hlen : restTaskMark.toList.length ≤ checkTaskMark.toList.length := by decide +kernel
  have hmarks := List.prefix_of_prefix_length_le h hcheck hlen
  exact absurd hmarks (by decide +kernel)

namespace Domain

/-- A method of the first domain, or the method for the rest of a chain that is cut from one. -/
def Derives (origin d : Domain) (name : String) : Prop :=
  name ∈ origin.methods.map (·.name) ∨
    ∃ k, k < UInt64.size ∧ ∃ s ∈ origin.methods.map (·.name),
      name = restMethodName k s ∧ restTaskName k s ∈ d.tasks.map (·.name)

/-- The method fits its domain. If it has a check step then only one, with a task of its own, and no
step comes before that. -/
structure TidyMethod (origin d : Domain) (m : Method) : Prop where
  fits : d.Fits m
  name : origin.Derives d m.name
  task : ¬IsCheckTask m.task
  check : ∀ s ∈ m.steps, IsCheckTask s.task → s.id = newCheckStepMark ++ m.name ∧
    s.task = newCheckTaskMark ++ m.name ∧ d.IsPrimitive s.task ∧ ∀ p ∈ m.ordering, p.2 ≠ s.id
  marked : ∀ s ∈ m.steps, newCheckStepMark.toList <+: s.id.toList → IsCheckTask s.task

structure Tidy (origin d : Domain) : Prop where
  tasks : ∀ t ∈ d.tasks, t.Consistent
  names : d.NamesDiffer
  methods : ∀ m ∈ d.methods, origin.TidyMethod d m
  used : ∀ t ∈ d.tasks, IsCheckTask t.name → ∃ m ∈ d.methods, ∃ s ∈ m.steps, s.task = t.name
  counted : ∀ k s, restTaskName k s ∈ d.tasks.map (·.name) →
    ∀ j < k, restTaskName j s ∈ d.tasks.map (·.name)
  unmarked : ∀ t ∈ d.primitiveTasks, ¬IsRestTask t.name
  abstractTasks : ∃ added, d.abstractTasks = origin.abstractTasks ++ added

/-- No name looks like one that a pass makes. -/
structure Unmarked (d : Domain) : Prop where
  rest : ∀ t ∈ d.tasks, ¬IsRestTask t.name
  check : ∀ t ∈ d.tasks, ¬IsCheckTask t.name
  methods : ∀ m ∈ d.methods, ¬restMethodMark.toList <+: m.name.toList
  steps : ∀ m ∈ d.methods, ∀ s ∈ m.steps, ¬newCheckStepMark.toList <+: s.id.toList

variable {origin d d' : Domain} {m : Method} {taken : List String} {first second : Step}
  {later : List Step}

theorem NamesDiffer.hasArity_iff (hd : d.NamesDiffer) {name : String} {n : ℕ} :
    d.HasArity name n ↔ ∃ t ∈ d.tasks, t.name = name ∧ t.parameters.length = n := by
  simp only [HasArity, hd.task?_eq_some, and_assoc]

theorem WellFormed.tidy (hd : d.WellFormed) (h : d.Unmarked) : Tidy d d where
  tasks t ht := hd.consistent ht
  names := hd.names
  methods m hm := by
    have hfits := hd.fits hm
    have hclean : ∀ {name n}, d.HasArity name n → ¬IsCheckTask name := by
      rintro name n ⟨t, ht, -⟩
      obtain ⟨hmem, rfl⟩ := mem_of_task?_eq_some ht
      exact h.check t hmem
    refine ⟨hfits, .inl (List.mem_map_of_mem hm), hclean hfits.task, fun s hs hcheck => ?_,
      fun s hs hmark => absurd hmark (h.steps m hm s hs)⟩
    exact absurd hcheck (hclean (hfits.steps s hs))
  used t ht hcheck := absurd hcheck (h.check t ht)
  counted k s hmem := by
    obtain ⟨t, ht, hname⟩ := List.mem_map.1 hmem
    exact absurd (hname ▸ isRestTask_restTaskName k s) (h.rest t ht)
  unmarked t ht := h.rest t (List.mem_append_left _ ht)
  abstractTasks := ⟨[], (List.append_nil _).symm⟩

theorem Tidy.wellFormed (h : Tidy origin d) : d.WellFormed where
  tasks t ht := Task.check_eq_ok.2 (h.tasks t ht)
  methods m hm := checkMethod_eq_ok.2 (h.methods m hm).fits
  names := h.names

theorem Tidy.checksOwn (h : Tidy origin d) : d.ChecksOwn where
  own m hm s hs hcheck :=
    have ⟨_, htask, hprimitive, _⟩ := (h.methods m hm).check s hs hcheck
    ⟨htask, hprimitive⟩
  used := h.used

/-- The numbers that are passed over belong to tasks. -/
theorem Tidy.seed (h : Tidy origin d) (horigin : origin.Unmarked) (hm : m ∈ d.methods) :
    (nameSeed m.name).2 ∈ origin.methods.map (·.name) ∧
      ∀ j < (nameSeed m.name).1,
        restTaskName j (nameSeed m.name).2 ∈ d.tasks.map (·.name) := by
  obtain hname | ⟨k, hk, s, hs, hname, htask⟩ := (h.methods m hm).name
  · obtain ⟨n, hn, hnm⟩ := List.mem_map.1 hname
    have hseed : nameSeed m.name = (0, m.name) :=
      nameSeed_of_unmarked (hnm ▸ horigin.methods n hn)
    rw [hseed]
    exact ⟨hname, fun j hj => absurd hj (Nat.not_lt_zero j)⟩
  · rw [hname, nameSeed_restMethodName hk]
    refine ⟨hs, fun j hj => ?_⟩
    obtain hj | rfl := Nat.lt_or_eq_of_le (Nat.le_of_lt_succ hj)
    · exact h.counted k s htask j hj
    · exact htask

theorem Tidy.counted_nextCounter (h : Tidy origin d) (horigin : origin.Unmarked)
    (hm : m ∈ d.methods) (htaken : ∀ n, n ∈ taken ↔ n ∈ d.tasks.map (·.name)) :
    ∀ j < m.nextCounter taken, restTaskName j (nameSeed m.name).2 ∈ d.tasks.map (·.name) := by
  intro j hj
  obtain hlt | hle := Nat.lt_or_ge j (nameSeed m.name).1
  · exact (h.seed horigin hm).2 j hlt
  · exact (htaken _).1 ((freshCounter_spec taken _ _).2 j hle hj)

theorem Tidy.nextCounter_le (h : Tidy origin d) (horigin : origin.Unmarked) (hm : m ∈ d.methods)
    (htaken : ∀ n, n ∈ taken ↔ n ∈ d.tasks.map (·.name)) :
    origin.abstractTasks.length + m.nextCounter taken ≤ d.abstractTasks.length := by
  obtain ⟨added, hadded⟩ := h.abstractTasks
  have hnodup : ((List.range (m.nextCounter taken)).map
      (restTaskName · (nameSeed m.name).2)).Nodup :=
    List.nodup_range.map fun _ _ he => (numberedName_inj he).1
  have hsub : (List.range (m.nextCounter taken)).map (restTaskName · (nameSeed m.name).2) ⊆
      added.map (·.name) := by
    intro name hname
    obtain ⟨j, hj, rfl⟩ := List.mem_map.1 hname
    obtain ⟨t, ht, hname⟩ := List.mem_map.1
      (h.counted_nextCounter horigin hm htaken j (List.mem_range.1 hj))
    have hrest : IsRestTask t.name := by
      rw [hname]
      exact isRestTask_restTaskName _ _
    obtain ht | ht := List.mem_append.1 ht
    · exact absurd hrest (h.unmarked t ht)
    · rw [hadded] at ht
      obtain ht | ht := List.mem_append.1 ht
      · exact absurd hrest (horigin.rest t (List.mem_append_right _ ht))
      · exact List.mem_map.2 ⟨t, ht, hname⟩
  have hlen := (List.subperm_of_subset hnodup hsub).length_le
  rw [List.length_map, List.length_map, List.length_range] at hlen
  rw [hadded, List.length_append]
  omega

def withCut (d : Domain) (before after : List Method) (c : Cut) : Domain :=
  { d with
    methods := before ++ c.head :: c.rest :: after
    abstractTasks := d.abstractTasks ++ [c.task] }

theorem tasks_withCut {before after : List Method} {c : Cut} :
    (d.withCut before after c).tasks = d.tasks ++ [c.task] :=
  (List.append_assoc _ _ _).symm

theorem TidyMethod.mono (h : origin.TidyMethod d m) (hd : d.NamesDiffer) (hd' : d'.NamesDiffer)
    (hprimitive : d'.primitiveTasks = d.primitiveTasks) (htasks : ∀ t ∈ d.tasks, t ∈ d'.tasks) :
    origin.TidyMethod d' m := by
  have harity : ∀ {name n}, d.HasArity name n → d'.HasArity name n := by
    intro name n hn
    obtain ⟨t, ht, hname⟩ := hd.hasArity_iff.1 hn
    exact hd'.hasArity_iff.2 ⟨t, htasks t ht, hname⟩
  refine ⟨⟨h.fits.consistent, harity h.fits.task, fun s hs => harity (h.fits.steps s hs)⟩, ?_,
    h.task, fun s hs hcheck => ?_, h.marked⟩
  · obtain hname | ⟨k, hk, s, hs, hname, htask⟩ := h.name
    · exact .inl hname
    · obtain ⟨t, ht, hname'⟩ := List.mem_map.1 htask
      exact .inr ⟨k, hk, s, hs, hname, List.mem_map.2 ⟨t, htasks t ht, hname'⟩⟩
  · obtain ⟨hid, htask, hprim, horder⟩ := h.check s hs hcheck
    exact ⟨hid, htask, by rwa [IsPrimitive, hprimitive], horder⟩

theorem TidyMethod.later_unchecked (h : origin.TidyMethod d m) (hm : m.Splits first second later) :
    ∀ s ∈ second :: later, ¬IsCheckTask s.task := by
  intro s hs hcheck
  have htail : s.id ∈ m.stepIds.tail := by
    rw [Method.stepIds, hm.steps]
    exact List.mem_map_of_mem hs
  obtain ⟨a, ha⟩ := exists_neighbour htail
  obtain ⟨-, -, -, horder⟩ := h.check s (hm.steps ▸ List.mem_cons_of_mem _ hs) hcheck
  exact horder (a, s.id) (hm.inListOrder ▸ ha) rfl

section Cut

variable {before after : List Method} (h : Tidy origin d) (horigin : origin.Unmarked)
  (hmethods : d.methods = before ++ m :: after)
  (htaken : ∀ n, n ∈ taken ↔ n ∈ d.tasks.map (·.name))

include hmethods in
theorem mem_methods : m ∈ d.methods := by
  rw [hmethods]
  exact List.mem_append_right _ List.mem_cons_self

include h horigin hmethods htaken

theorem Tidy.names_withCut :
    (d.withCut before after (m.nextCut taken first second later)).NamesDiffer := by
  have hfresh : (m.nextCut taken first second later).task.name ∉ d.tasks.map (·.name) :=
    fun hmem => Method.nextCut_task_notMem taken ((htaken _).2 hmem)
  constructor
  · rw [tasks_withCut, List.map_append, List.nodup_append]
    refine ⟨h.names.tasks, List.nodup_singleton _, fun a ha b hb => ?_⟩
    obtain rfl := List.mem_singleton.1 hb
    rintro rfl
    exact hfresh ha
  · have hnew : (m.nextCut taken first second later).rest.name ∉ d.methods.map (·.name) := by
      intro hmem
      obtain ⟨n, hn, hname⟩ := List.mem_map.1 hmem
      obtain horig | ⟨k, hk, s, hs, hname', htask⟩ := (h.methods n hn).name
      · obtain ⟨n', hn', hname'⟩ := List.mem_map.1 horig
        apply horigin.methods n' hn'
        rw [hname', hname]
        exact prefix_numberedName
      · obtain ⟨rfl, rfl⟩ := numberedName_inj (hname'.symm.trans hname)
        exact hfresh htask
    have hperm : ((d.withCut before after (m.nextCut taken first second later)).methods.map
        (·.name)).Perm ((m.nextCut taken first second later).rest.name ::
          d.methods.map (·.name)) := by
      simp only [withCut, hmethods, List.map_append, List.map_cons]
      exact ((List.Perm.swap _ _ _).append_left _).trans List.perm_middle
    exact hperm.nodup_iff.2 (List.nodup_cons.2 ⟨hnew, h.names.methods⟩)

theorem Tidy.tidyMethod_withCut (first second : Step) (later : List Step) : ∀ n ∈ d.methods,
    origin.TidyMethod (d.withCut before after (m.nextCut taken first second later)) n := by
  intro n hn
  refine (h.methods n hn).mono h.names (h.names_withCut horigin hmethods htaken) rfl
    fun t ht => ?_
  rw [tasks_withCut]
  exact List.mem_append_left _ ht

theorem Tidy.hasArity_withCut :
    (d.withCut before after (m.nextCut taken first second later)).HasArity
      (m.nextCut taken first second later).task.name
      (m.nextCut taken first second later).task.parameterNames.length := by
  refine (h.names_withCut horigin hmethods htaken).hasArity_iff.2
    ⟨(m.nextCut taken first second later).task, ?_, rfl, (List.length_map _).symm⟩
  rw [tasks_withCut]
  exact List.mem_append_right _ (List.mem_singleton_self _)

theorem Tidy.tidyMethod_head (hm : m.Splits first second later) :
    origin.TidyMethod (d.withCut before after (m.nextCut taken first second later))
      (m.nextCut taken first second later).head := by
  have hold := h.tidyMethod_withCut horigin hmethods htaken first second later m (mem_methods hmethods)
  have hfirst : first ∈ m.steps := hm.steps ▸ List.mem_cons_self
  have hsecond : second ∈ m.steps := hm.steps ▸ List.mem_cons_of_mem _ List.mem_cons_self
  refine ⟨⟨hm.consistent_head _ _, hold.fits.task, fun s hs => ?_⟩, hold.name, hold.task,
    fun s hs hcheck => ?_, fun s hs hmark => ?_⟩
  · obtain rfl | hs := List.mem_cons.1 hs
    · exact hold.fits.steps s hfirst
    · obtain rfl := List.mem_singleton.1 hs
      exact h.hasArity_withCut horigin hmethods htaken
  · obtain rfl | hs := List.mem_cons.1 hs
    · obtain ⟨hid, htask, hprimitive, -⟩ := hold.check s hfirst hcheck
      refine ⟨hid, htask, hprimitive, fun p hp he => ?_⟩
      obtain rfl := List.mem_singleton.1 hp
      exact hm.id_ne he.symm
    · obtain rfl := List.mem_singleton.1 hs
      exact absurd hcheck (isRestTask_restTaskName _ _).not_isCheckTask
  · obtain rfl | hs := List.mem_cons.1 hs
    · exact hold.marked s hfirst hmark
    · obtain rfl := List.mem_singleton.1 hs
      exact absurd (hold.marked second hsecond hmark)
        (hold.later_unchecked hm second List.mem_cons_self)

theorem Tidy.tidyMethod_rest (hm : m.Splits first second later)
    (hcounter : m.nextCounter taken < UInt64.size) :
    origin.TidyMethod (d.withCut before after (m.nextCut taken first second later))
      (m.nextCut taken first second later).rest := by
  have hmem := mem_methods hmethods
  have hold := h.tidyMethod_withCut horigin hmethods htaken first second later m hmem
  have htask : (m.nextCut taken first second later).task ∈
      (d.withCut before after (m.nextCut taken first second later)).tasks := by
    rw [tasks_withCut]
    exact List.mem_append_right _ (List.mem_singleton_self _)
  have hlater : ∀ s ∈ second :: later, s ∈ m.steps :=
    fun s hs => hm.steps ▸ List.mem_cons_of_mem _ hs
  refine ⟨⟨hm.consistent_rest _ _, h.hasArity_withCut horigin hmethods htaken,
    fun s hs => hold.fits.steps s (hlater s hs)⟩, ?_,
    (isRestTask_restTaskName _ _).not_isCheckTask, fun s hs hcheck => ?_,
    fun s hs hmark => hold.marked s (hlater s hs) hmark⟩
  · exact .inr ⟨m.nextCounter taken, hcounter, _, (h.seed horigin hmem).1, rfl,
      List.mem_map_of_mem htask⟩
  · exact absurd hcheck (hold.later_unchecked hm s hs)

theorem Tidy.withCut (hm : m.Splits first second later)
    (hcounter : m.nextCounter taken < UInt64.size) :
    Tidy origin (d.withCut before after (m.nextCut taken first second later)) := by
  have hmem := mem_methods hmethods
  have hold := h.tidyMethod_withCut horigin hmethods htaken first second later
  refine ⟨fun t ht => ?_, h.names_withCut horigin hmethods htaken, fun n hn => ?_,
    fun t ht hcheck => ?_, fun k s hk j hj => ?_, h.unmarked, ?_⟩
  · rw [tasks_withCut] at ht
    obtain ht | ht := List.mem_append.1 ht
    · exact h.tasks t ht
    · obtain rfl := List.mem_singleton.1 ht
      exact hm.consistent_task _ _
  · obtain hn | hn := List.mem_append.1 hn
    · exact hold n (by rw [hmethods]; exact List.mem_append_left _ hn)
    · obtain rfl | hn := List.mem_cons.1 hn
      · exact h.tidyMethod_head horigin hmethods htaken hm
      · obtain rfl | hn := List.mem_cons.1 hn
        · exact h.tidyMethod_rest horigin hmethods htaken hm hcounter
        · exact hold n (by rw [hmethods]; exact List.mem_append_right _ (List.mem_cons_of_mem _ hn))
  · rw [tasks_withCut] at ht
    obtain ht | ht := List.mem_append.1 ht
    · obtain ⟨n, hn, s, hs, hst⟩ := h.used t ht hcheck
      rw [hmethods] at hn
      obtain hn | hn := List.mem_append.1 hn
      · exact ⟨n, List.mem_append_left _ hn, s, hs, hst⟩
      · obtain rfl | hn := List.mem_cons.1 hn
        · refine ⟨_, List.mem_append_right _ List.mem_cons_self, s, ?_, hst⟩
          rw [hm.steps] at hs
          obtain rfl | hs := List.mem_cons.1 hs
          · exact List.mem_cons_self
          · exact absurd (hst ▸ hcheck) ((h.methods n hmem).later_unchecked hm s hs)
        · exact ⟨n, List.mem_append_right _
            (List.mem_cons_of_mem _ (List.mem_cons_of_mem _ hn)), s, hs, hst⟩
    · obtain rfl := List.mem_singleton.1 ht
      exact absurd hcheck (isRestTask_restTaskName _ _).not_isCheckTask
  · rw [tasks_withCut, List.map_append] at hk ⊢
    apply List.mem_append_left _
    obtain hk | hk := List.mem_append.1 hk
    · exact h.counted k s hk j hj
    · obtain ⟨rfl, rfl⟩ := numberedName_inj (List.mem_singleton.1 hk)
      exact h.counted_nextCounter horigin hmem htaken j hj
  · obtain ⟨added, hadded⟩ := h.abstractTasks
    refine ⟨added ++ [(m.nextCut taken first second later).task], ?_⟩
    rw [← List.append_assoc, ← hadded]
    rfl

end Cut

theorem Tidy.chain? {before after : List Method} {chain : Method}
    (h : Tidy origin { d with methods := before ++ m :: after }) (hchain : m.chain? = some chain) :
    Tidy origin { d with methods := before ++ chain :: after } := by
  have hmem : m ∈ before ++ m :: after := List.mem_append_right _ List.mem_cons_self
  have hconsistent := (h.methods m hmem).fits.consistent.of_chain? hchain
  obtain ⟨rfl, hprecedes⟩ := Method.chain?_eq_some hchain
  have hsteps : ∀ s, s ∈ m.stepsByRank ↔ s ∈ m.steps := fun s => m.perm_stepsByRank.mem_iff
  have hnames : NamesDiffer { d with methods := before ++ { m with
      steps := m.stepsByRank
      ordering := neighbours (m.stepsByRank.map (·.id)) } :: after } := by
    refine ⟨h.names.tasks, ?_⟩
    have hnodup := h.names.methods
    simp only [List.map_append, List.map_cons] at hnodup ⊢
    exact hnodup
  have hkeep := fun n hn => (h.methods n hn).mono h.names hnames rfl fun _ ht => ht
  refine ⟨h.tasks, hnames, fun n hn => ?_, fun t ht hcheck => ?_, h.counted, h.unmarked,
    h.abstractTasks⟩
  · obtain hn | hn := List.mem_append.1 hn
    · exact hkeep n (List.mem_append_left _ hn)
    · obtain rfl | hn := List.mem_cons.1 hn
      · have hold := hkeep m hmem
        refine ⟨⟨hconsistent, hold.fits.task, fun s hs => hold.fits.steps s ((hsteps s).1 hs)⟩,
          hold.name, hold.task, fun s hs hcheck => ?_,
          fun s hs hmark => hold.marked s ((hsteps s).1 hs) hmark⟩
        obtain ⟨hid, htask, hprimitive, horder⟩ := hold.check s ((hsteps s).1 hs) hcheck
        refine ⟨hid, htask, hprimitive, fun p hp he => ?_⟩
        -- the last pair of a path to the check step would be one of the method's own
        rw [neighbours_map] at hp
        obtain ⟨q, hq, rfl⟩ := List.mem_map.1 hp
        obtain ⟨-, hbefore⟩ := Method.precedes_iff.1 (hprecedes q hq)
        obtain ⟨b, -, hedge⟩ := Relation.TransGen.tail'_iff.1 hbefore
        exact horder _ hedge he
      · exact hkeep n (List.mem_append_right _ (List.mem_cons_of_mem _ hn))
  · obtain ⟨n, hn, s, hs, hst⟩ := h.used t ht hcheck
    obtain hn | hn := List.mem_append.1 hn
    · exact ⟨n, List.mem_append_left _ hn, s, hs, hst⟩
    · obtain rfl | hn := List.mem_cons.1 hn
      · exact ⟨_, List.mem_append_right _ List.mem_cons_self, s, (hsteps s).2 hs, hst⟩
      · exact ⟨n, List.mem_append_right _ (List.mem_cons_of_mem _ hn), s, hs, hst⟩

def refined (d : Domain) (methods : List Method) (new : List Task) : Domain :=
  { d with methods, abstractTasks := d.abstractTasks ++ new }

theorem tasks_refined {methods : List Method} {new : List Task} :
    (d.refined methods new).tasks = d.tasks ++ new :=
  (List.append_assoc _ _ _).symm

theorem refined_nil {methods : List Method} : d.refined methods [] = { d with methods } := by
  rw [refined, List.append_nil]

theorem withCut_refined {methods before after : List Method} {new : List Task} {c : Cut} :
    (d.refined methods new).withCut before after c =
      d.refined (before ++ c.head :: c.rest :: after) (new ++ [c.task]) := by
  simp only [withCut, refined, List.append_assoc]

end Domain

open Domain

variable {origin d : Domain} {taken : List String} {m : Method} {ms before after : List Method}
  {new : List Task} {c : Cascade}

/-- A cascade keeps what passes keep, unless there are too many tasks. -/
theorem Cascaded.tidy (hc : Cascaded taken m c) (horigin : origin.Unmarked)
    (h : Tidy origin (d.refined (before ++ m :: after) new))
    (htaken : ∀ n, n ∈ taken ↔ n ∈ (d.tasks ++ new).map (·.name)) :
    (c.fault? = none ∧ Tidy origin (d.refined (before ++ c.methods ++ after) (new ++ c.tasks))) ∨
      origin.abstractTasks.length + UInt64.size ≤
        d.abstractTasks.length + new.length + c.tasks.length := by
  induction hc generalizing before new with
  | short _ =>
    refine .inl ⟨rfl, ?_⟩
    rwa [List.append_nil, List.append_assoc, List.singleton_append]
  | overflow _ hcounter =>
    have hle := h.nextCounter_le horigin (List.mem_append_right _ List.mem_cons_self)
      (by rwa [tasks_refined])
    rw [refined, List.length_append] at hle
    exact .inr (Nat.le_trans (Nat.add_le_add_left hcounter _) hle)
  | @cut taken m first second later c hsplits hcounter _ ih =>
    have hcut := h.withCut horigin rfl (by rwa [tasks_refined]) hsplits hcounter
    rw [withCut_refined, ← List.singleton_append, ← List.append_assoc] at hcut
    have htaken' : ∀ n, n ∈ (m.nextCut taken first second later).task.name :: taken ↔
        n ∈ (d.tasks ++ (new ++ [(m.nextCut taken first second later).task])).map (·.name) := by
      intro n
      simp only [List.mem_cons, htaken, List.map_append, List.map_cons, List.map_nil,
        List.mem_append, List.not_mem_nil, or_false]
      tauto
    obtain ⟨hfault, htidy⟩ | hlarge := ih hcut htaken'
    · refine .inl ⟨hfault, ?_⟩
      simpa only [List.append_assoc, List.cons_append, List.nil_append] using htidy
    · rw [List.length_append] at hlarge
      simp only [List.length_cons, List.length_nil] at hlarge ⊢
      exact .inr (by omega)

theorem CascadedEach.tidy (hc : CascadedEach taken ms c) (horigin : origin.Unmarked)
    (h : Tidy origin (d.refined (before ++ ms) new))
    (htaken : ∀ n, n ∈ taken ↔ n ∈ (d.tasks ++ new).map (·.name)) :
    (c.fault? = none ∧ Tidy origin (d.refined (before ++ c.methods) (new ++ c.tasks))) ∨
      origin.abstractTasks.length + UInt64.size ≤
        d.abstractTasks.length + new.length + c.tasks.length := by
  induction hc generalizing before new with
  | nil =>
    refine .inl ⟨rfl, ?_⟩
    change Tidy origin (d.refined (before ++ []) (new ++ []))
    rwa [List.append_nil new]
  | @keep taken m ms c _ _ ih =>
    rw [← List.singleton_append, ← List.append_assoc] at h
    obtain ⟨hfault, htidy⟩ | hlarge := ih h htaken
    · rw [List.append_assoc] at htidy
      exact .inl ⟨hfault, htidy⟩
    · exact .inr hlarge
  | @stop taken m chain ms c hlong hfirst hfault =>
    obtain ⟨-, hchain⟩ := Method.longChain?_eq_some hlong
    have hsorted : Tidy origin (d.refined (before ++ chain :: ms) new) :=
      Tidy.chain? (d := d.refined [] new) h hchain
    obtain ⟨hnone, -⟩ | hlarge := hfirst.tidy horigin hsorted htaken
    · rw [hfault] at hnone
      cases hnone
    · exact .inr hlarge
  | @cut taken m chain ms first c hlong hfirst hfault _ ih =>
    obtain ⟨-, hchain⟩ := Method.longChain?_eq_some hlong
    have hsorted : Tidy origin (d.refined (before ++ chain :: ms) new) :=
      Tidy.chain? (d := d.refined [] new) h hchain
    obtain ⟨-, htidy⟩ | hlarge := hfirst.tidy horigin hsorted htaken
    · have htaken' : ∀ n, n ∈ first.tasks.map (·.name) ++ taken ↔
          n ∈ (d.tasks ++ (new ++ first.tasks)).map (·.name) := by
        intro n
        rw [← List.append_assoc d.tasks, List.map_append, List.mem_append, List.mem_append, htaken,
          or_comm]
      obtain ⟨hnone, htidy'⟩ | hlarge := ih htidy htaken'
      · rw [List.append_assoc, List.append_assoc] at htidy'
        exact .inl ⟨hnone, htidy'⟩
      · rw [List.length_append] at hlarge ⊢
        exact .inr (by omega)
    · rw [List.length_append]
      exact .inr (by omega)

theorem Domain.Tidy.regularize (h : Tidy origin d) (horigin : origin.Unmarked)
    (hlen : d.regularize.1.abstractTasks.length <
      origin.abstractTasks.length + UInt64.size) : Tidy origin d.regularize.1 := by
  have hc : CascadedEach (d.tasks.map (·.name)) d.methods
      (cascades (d.tasks.map (·.name)) d.methods) :=
    cascadedEach_cascades fun m hm => (h.methods m hm).fits.consistent
  have hself : Tidy origin (d.refined ([] ++ d.methods) []) := by
    rwa [refined_nil]
  obtain ⟨-, htidy⟩ | hlarge := hc.tidy horigin hself (fun n => by rw [List.append_nil])
  · exact htidy
  · rw [Domain.regularize, List.length_append] at hlen
    exact absurd hlen (Nat.not_lt.2 hlarge)

end TaskNetwork
