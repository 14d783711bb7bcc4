import TaskNetwork.Proofs.CutMethods
import TaskNetwork.Proofs.Groundings
import TaskNetwork.Proofs.Hierarchy

namespace TaskNetwork

open Relation

/-- The name of the method from which one with this name was split, or of the method itself if it
was not split from another one. -/
def originName (name : String) : String := (nameSeed name).2

theorem originName_restMethodName {k : ℕ} (hk : k < UInt64.size) (suffix : String) :
    originName (restMethodName k suffix) = suffix := by
  rw [originName, nameSeed_restMethodName hk]

theorem originName_of_unmarked {name : String} (h : ¬restMethodMark.toList <+: name.toList) :
    originName name = name := by
  rw [originName, nameSeed_of_unmarked h]

/-- The domain has a cascade of the chain in place of it. The second method is the head. -/
inductive Domain.Spreads (d : Domain) (given : List String) : Method → Method → Prop
  | whole {m : Method} (hm : m ∈ d.methods) (hsteps : ∀ s ∈ m.steps, s.task ∈ given) :
      Spreads d given m m
  | cut {m next : Method} {first second : Step} {later : List Step} {taskName restName : String}
      (h : m.Splits first second later) (hfirst : first.task ∈ given) (hnew : taskName ∉ given)
      (hhead : (m.cut taskName restName first second later).head ∈ d.methods)
      (htask : (m.cut taskName restName first second later).task ∈ d.abstractTasks)
      (horigin : originName restName = originName m.name)
      (hnext : Spreads d given (m.cut taskName restName first second later).rest next) :
      Spreads d given m (m.cut taskName restName first second later).head

namespace Domain.Spreads

variable {d : Domain} {given : List String} {m head : Method}

theorem mem (h : d.Spreads given m head) : head ∈ d.methods := by
  cases h with
  | whole hm _ => exact hm
  | cut _ _ _ hhead _ _ _ => exact hhead

theorem name (h : d.Spreads given m head) : head.name = m.name := by
  cases h <;> rfl

theorem task (h : d.Spreads given m head) : head.task = m.task := by
  cases h <;> rfl

theorem taskArguments (h : d.Spreads given m head) : head.taskArguments = m.taskArguments := by
  cases h <;> rfl

theorem exists_method (h : d.Spreads given m head) :
    ∀ s ∈ m.steps, ∃ r ∈ d.methods, s ∈ r.steps := by
  induction h with
  | @whole m hm _ => exact fun s hs => ⟨m, hm, hs⟩
  | cut h _ _ hhead _ _ _ ih =>
    intro s hs
    rw [h.steps] at hs
    obtain rfl | hs := List.mem_cons.1 hs
    · exact ⟨_, hhead, List.mem_cons_self⟩
    · exact ih s hs

theorem steps_below (h : d.Spreads given m head) (htask : m.task ∈ d.abstractTasks.map (·.name)) :
    ∀ s ∈ m.steps, TransGen d.Decomposes m.task s.task := by
  induction h with
  | @whole m hm _ => exact fun s hs => .single ⟨htask, m, hm, rfl, s, hs, rfl⟩
  | @cut m next first second later taskName restName h _ _ hhead hmem _ _ ih =>
    intro s hs
    rw [h.steps] at hs
    obtain rfl | hs := List.mem_cons.1 hs
    · exact .single ⟨htask, _, hhead, rfl, s, List.mem_cons_self, rfl⟩
    · refine TransGen.head ?_ (ih (List.mem_map_of_mem hmem) s hs)
      exact ⟨htask, _, hhead, rfl, m.restStep taskName restName first second later,
        List.mem_cons_of_mem _ List.mem_cons_self, rfl⟩

/-- Decomposition does not stay among the new tasks for ever. -/
theorem acc (h : d.Spreads given m head) (hone : d.OneEach given) (hnew : m.task ∉ given) :
    Acc (fun b a => b ∉ given ∧ d.Decomposes a b) m.task := by
  induction h with
  | @whole m hm hsteps =>
    refine ⟨_, ?_⟩
    rintro b ⟨hb, -, r, hr, hrt, s, hs, rfl⟩
    obtain rfl := hone r hr m hm hrt (hrt ▸ hnew)
    exact absurd (hsteps s hs) hb
  | cut h hfirst hnew' hhead _ _ hnext ih =>
    refine ⟨_, ?_⟩
    rintro b ⟨hb, -, r, hr, hrt, s, hs, rfl⟩
    obtain rfl := hone r hr _ hhead hrt (hrt ▸ hnew)
    obtain rfl | hs := List.mem_cons.1 hs
    · exact absurd hfirst hb
    · obtain rfl := List.mem_singleton.1 hs
      exact ih hnew'

/-- What the head of the cascade tells about the task the chain does, if the other methods tell all
that is known of the new tasks. -/
theorem matches_head {records : String → TaskRecord} {n : String} (h : d.Spreads given m head)
    (hnames : d.NamesDiffer) (hclear : ∀ s ∈ m.steps, s.Clear d records originName n)
    (hn : originName m.name = n) (htask : m.task ∈ d.abstractTasks.map (·.name))
    (htold : ∀ t rest next, d.Spreads given rest next → originName next.name = n →
      next.task = t.name → next.taskArguments = t.parameterNames → t.name ∉ given →
      d.task? t.name = some t → TransGen d.Decomposes m.task t.name → Told d records t next) :
    Matches d records originName n m head := by
  induction h with
  | whole _ _ => exact matches_self hclear hn
  | @cut m next first second later taskName restName h _ hnew hhead hmem horigin hnext ih =>
    have hlater : ∀ s ∈ second :: later, s.Clear d records originName n := fun s hs =>
      hclear s (h.steps ▸ List.mem_cons_of_mem _ hs)
    have hdec : d.Decomposes m.task taskName :=
      ⟨htask, _, hhead, rfl, m.restStep taskName restName first second later,
        List.mem_cons_of_mem _ List.mem_cons_self, rfl⟩
    have hlookup : d.task? taskName = some (m.cut taskName restName first second later).task :=
      hnames.task?_eq_some.2 ⟨List.mem_append_right _ hmem, rfl⟩
    have hrest : originName restName = n := horigin.trans hn
    refine h.matches_head (ih hlater hrest (List.mem_map_of_mem hmem) ?_) hclear hn ?_
    · intro t rest next hs hname hnt hargs ht hsome hpath
      exact htold t rest next hs hname hnt hargs ht hsome (.head hdec hpath)
    · exact htold _ _ next hnext ((congrArg originName hnext.name).trans hrest) hnext.task
        hnext.taskArguments hnew hlookup (.single hdec)

end Domain.Spreads

section Cascaded

variable {d : Domain} {given taken : List String} {m : Method} {c : Cascade}

theorem Cascaded.exists_spreads (h : Cascaded taken m c) (hfault : c.fault? = none)
    (hgiven : ∀ n ∈ given, n ∈ taken) (hm : ∀ s ∈ m.steps, s.task ∈ given)
    (hmethods : ∀ r ∈ c.methods, r ∈ d.methods) (htasks : ∀ t ∈ c.tasks, t ∈ d.abstractTasks) :
    ∃ head ∈ c.methods, d.Spreads given m head := by
  induction h with
  | @short taken m _ => exact ⟨m, List.mem_cons_self, .whole (hmethods _ List.mem_cons_self) hm⟩
  | overflow _ _ => cases hfault
  | @cut taken m first second later c hsplits hcounter _ ih =>
    obtain ⟨hmem, hmethods⟩ := List.forall_mem_cons.1 hmethods
    obtain ⟨htask, htasks⟩ := List.forall_mem_cons.1 htasks
    rw [hsplits.steps] at hm
    obtain ⟨hfirst, hlater⟩ := List.forall_mem_cons.1 hm
    have hnew : (m.nextCut taken first second later).task.name ∉ given := fun hn =>
      Method.nextCut_task_notMem taken (hgiven _ hn)
    obtain ⟨next, -, hnext⟩ := ih hfault (fun n hn => List.mem_cons_of_mem _ (hgiven n hn)) hlater
      hmethods htasks
    exact ⟨_, List.mem_cons_self, .cut hsplits hfirst hnew hmem htask
      (originName_restMethodName hcounter _) hnext⟩

theorem Cascaded.fits (h : Cascaded taken m c) (hfault : c.fault? = none) (hm : d.Fits m)
    (htasks : ∀ t ∈ c.tasks, d.task? t.name = some t) : ∀ r ∈ c.methods, d.Fits r := by
  induction h with
  | short _ => exact List.forall_mem_singleton.2 hm
  | overflow _ _ => cases hfault
  | @cut taken m first second later c hsplits _ _ ih =>
    obtain ⟨htask, htasks⟩ := List.forall_mem_cons.1 htasks
    have harity : d.HasArity (m.nextCut taken first second later).task.name
        (m.nextCut taken first second later).task.parameterNames.length :=
      ⟨_, htask, (List.length_map _).symm⟩
    have hsteps := hm.steps
    rw [hsplits.steps] at hsteps
    obtain ⟨hfirst, hlater⟩ := List.forall_mem_cons.1 hsteps
    refine List.forall_mem_cons.2 ⟨⟨hsplits.consistent_head _ _, hm.task, ?_⟩,
      ih hfault ⟨hsplits.consistent_rest _ _, harity, hlater⟩ htasks⟩
    exact List.forall_mem_cons.2 ⟨hfirst, List.forall_mem_singleton.2 harity⟩

theorem Cascaded.consistent_tasks (h : Cascaded taken m c) : ∀ t ∈ c.tasks, t.Consistent := by
  induction h with
  | short _ => simp
  | overflow _ _ => simp
  | cut hsplits _ _ ih => exact List.forall_mem_cons.2 ⟨hsplits.consistent_task _ _, ih⟩

theorem Cascaded.declarations_subset (h : Cascaded taken m c) :
    ∀ r ∈ c.methods, r.declarations ⊆ m.declarations := by
  induction h with
  | short _ => simp
  | overflow _ _ => simp
  | cut _ _ _ ih =>
    refine List.forall_mem_cons.2 ⟨fun v hv => (Method.mem_cut_head.1 hv).1, fun r hr v hv => ?_⟩
    exact (Method.mem_cut_rest.1 (ih r hr hv)).1

theorem Cascaded.originName_eq (h : Cascaded taken m c) :
    ∀ r ∈ c.methods, originName r.name = originName m.name := by
  induction h with
  | short _ => simp
  | overflow _ _ => simp
  | cut _ hcounter _ ih =>
    refine List.forall_mem_cons.2 ⟨rfl, fun r hr => (ih r hr).trans ?_⟩
    exact originName_restMethodName hcounter _

/-- Steps of the cascade are steps of the chain, or stand for other methods of the cascade. -/
theorem Cascaded.steps_or (h : Cascaded taken m c) (hfault : c.fault? = none) : ∀ r ∈ c.methods,
    ∀ s ∈ r.steps, s ∈ m.steps ∨ s.task ∉ taken ∧ ∃ r' ∈ c.methods, r'.task = s.task := by
  induction h with
  | short _ =>
    intro r hr s hs
    obtain rfl := List.mem_singleton.1 hr
    exact .inl hs
  | overflow _ _ => cases hfault
  | @cut taken m first second later c hsplits _ hrest ih =>
    rw [hsplits.steps]
    have hnew : (m.nextCut taken first second later).task.name ∉ taken :=
      Method.nextCut_task_notMem taken
    refine List.forall_mem_cons.2 ⟨?_, fun r hr s hs => ?_⟩
    · obtain ⟨next, rests, hnext, -, htask, -⟩ := hrest.exists_head hfault
      intro s hs
      obtain rfl | hs := List.mem_cons.1 hs
      · exact .inl List.mem_cons_self
      · obtain rfl := List.mem_singleton.1 hs
        refine .inr ⟨hnew, next, ?_, htask⟩
        exact List.mem_cons_of_mem _ (hnext ▸ List.mem_cons_self)
    · obtain hs | ⟨hnew, r', hr', htask⟩ := ih hfault r hr s hs
      · exact .inl (List.mem_cons_of_mem _ hs)
      · exact .inr ⟨fun hmem => hnew (List.mem_cons_of_mem _ hmem), r', List.mem_cons_of_mem _ hr',
          htask⟩

theorem Cascaded.numbered (h : Cascaded taken m c) (hfault : c.fault? = none) :
    ∀ r ∈ c.methods.tail, ∃ k, r.name = restMethodName k (originName m.name) ∧
      r.task = restTaskName k (originName m.name) := by
  induction h with
  | short _ => simp
  | overflow _ _ => simp
  | @cut taken m first second later c _ hcounter hrest ih =>
    obtain ⟨next, rests, hnext, hname, htask, -⟩ := hrest.exists_head hfault
    have horigin : originName (m.nextCut taken first second later).rest.name = originName m.name :=
      originName_restMethodName hcounter _
    rw [horigin] at ih
    intro r hr
    rw [List.tail_cons, hnext] at hr
    obtain rfl | hr := List.mem_cons.1 hr
    · exact ⟨_, hname, htask⟩
    · exact ih hfault r (hnext ▸ hr)

theorem Cascaded.nodup_names (h : Cascaded taken m c) (hfault : c.fault? = none)
    (hm : ¬restMethodMark.toList <+: m.name.toList) : (c.methods.map (·.name)).Nodup := by
  obtain ⟨head, rests, hmethods, hname, -, hrests⟩ := h.exists_head hfault
  have hnumbered := h.numbered hfault
  rw [hmethods, List.tail_cons] at hnumbered
  rw [hmethods, List.map_cons, List.nodup_cons]
  constructor
  · intro hmem
    obtain ⟨r, hr, heq⟩ := List.mem_map.1 hmem
    obtain ⟨k, hk, -⟩ := hnumbered r hr
    rw [← hname, ← heq, hk] at hm
    exact hm prefix_numberedName
  · have htasks : rests.Pairwise fun r r' => r.task ≠ r'.task := by
      rw [← List.pairwise_map, hrests]
      exact h.nodup
    refine List.pairwise_map.2 (htasks.imp_of_mem fun {r r'} hr hr' hne heq => hne ?_)
    obtain ⟨k, hk, hkt⟩ := hnumbered r hr
    obtain ⟨j, hj, hjt⟩ := hnumbered r' hr'
    rw [hkt, hjt, (numberedName_inj (hk.symm.trans (heq.trans hj))).1]

end Cascaded

end TaskNetwork
