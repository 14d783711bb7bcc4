import TaskNetwork.Proofs.RegularizedDomains

namespace TaskNetwork

namespace Domain

/-- Steps for tasks that are not among the given ones are replaced by the steps of a method for the
task in an order that the method allows, and so on. -/
inductive Follows (d : Domain) (given : List String) : List Step → List Step → Prop
  | nil : Follows d given [] []
  | keep {s : Step} {top steps : List Step} (hs : s.task ∈ given) (h : Follows d given top steps) :
      Follows d given (s :: top) (s :: steps)
  | replace {s : Step} {m : Method} {order inner top steps : List Step} (hs : s.task ∉ given)
      (hm : m ∈ d.methods) (htask : m.task = s.task) (horder : m.Linearizes order)
      (hinner : Follows d given order inner) (h : Follows d given top steps) :
      Follows d given (s :: top) (inner ++ steps)

/-- The steps come out of the method when steps for tasks that are not among the given ones are
followed. -/
def Yields (d : Domain) (given : List String) (m : Method) (steps : List Step) : Prop :=
  ∃ order, m.Linearizes order ∧ d.Follows given order steps

/-- The methods are a cascade for the steps of the method, which are more than two and totally
ordered, and the tasks are those between them. -/
structure CascadeFor (d : Domain) (given : List String) (m : Method) (part : Cascade) : Prop where
  long : 2 < m.steps.length
  totallyOrdered : m.TotallyOrdered
  length_methods : part.methods.length + 1 = m.steps.length
  length_tasks : part.tasks.length + 2 = m.steps.length
  two_steps : ∀ r ∈ part.methods, r.steps.length = 2
  artificial : ∀ t ∈ part.tasks, t.artificial
  head : ∃ head rests, part.methods = head :: rests ∧ head.name = m.name ∧ head.task = m.task ∧
    head.taskArguments = m.taskArguments ∧ rests.map (·.task) = part.tasks.map (·.name) ∧
    ∃ sorted : List Step, sorted.Perm m.steps ∧
      sorted.Pairwise (fun s t => m.Precedes s.id t.id) ∧
      ∀ steps, d.Yields given head steps ↔ steps = sorted

variable {d : Domain} {given : List String} {m head : Method} {top steps : List Step} {s : Step}

theorem follows_cons_of_given (hs : s.task ∈ given) :
    d.Follows given (s :: top) steps ↔ ∃ rest, steps = s :: rest ∧ d.Follows given top rest := by
  constructor
  · intro h
    cases h with
    | @keep _ _ rest _ h => exact ⟨rest, rfl, h⟩
    | replace hnew _ _ _ _ _ => exact absurd hs hnew
  · rintro ⟨rest, rfl, h⟩
    exact .keep hs h

theorem follows_of_given (h : ∀ s ∈ top, s.task ∈ given) :
    d.Follows given top steps ↔ steps = top := by
  induction top generalizing steps with
  | nil =>
    refine ⟨fun hsteps => by cases hsteps; rfl, ?_⟩
    rintro rfl
    exact .nil
  | cons s top ih =>
    obtain ⟨hs, htop⟩ := List.forall_mem_cons.1 h
    rw [follows_cons_of_given hs]
    simp only [ih htop, exists_eq_right]

theorem follows_singleton (hs : s.task ∉ given) :
    d.Follows given [s] steps ↔ ∃ m ∈ d.methods, m.task = s.task ∧ d.Yields given m steps := by
  constructor
  · intro h
    cases h with
    | keep hgiven _ => exact absurd hgiven hs
    | @replace _ m order inner _ rest _ hm htask horder hinner hrest =>
      cases hrest
      rw [List.append_nil]
      exact ⟨m, hm, htask, order, horder, hinner⟩
  · rintro ⟨m, hm, htask, order, horder, hinner⟩
    have h := Follows.replace hs hm htask horder hinner .nil
    rwa [List.append_nil] at h

theorem yields_of_inListOrder (horder : m.InListOrder) (hnodup : m.stepIds.Nodup) :
    d.Yields given m steps ↔ d.Follows given m.steps steps := by
  simp only [Yields, horder.linearizes_iff hnodup, exists_eq_left]

theorem Spreads.yields_iff (h : d.Spreads given m head) (hone : d.OneEach given)
    (hm : m.Consistent) (horder : m.InListOrder) : d.Yields given head steps ↔ steps = m.steps := by
  induction h generalizing steps with
  | whole _ hsteps => rw [yields_of_inListOrder horder hm.nodup_steps, follows_of_given hsteps]
  | @cut m next first second later taskName restName h hfirst hnew hhead htask _ hnext ih =>
    have hrest : ∀ rest, d.Follows given [m.restStep taskName restName first second later] rest ↔
        rest = second :: later := by
      intro rest
      rw [follows_singleton hnew]
      refine Iff.trans ?_ (ih (h.consistent_rest _ _) h.inListOrder_rest)
      constructor
      · rintro ⟨r, hr, hrt, hyields⟩
        have hsame : r = next := hone r hr next hnext.mem (hrt.trans hnext.task.symm) (hrt ▸ hnew)
        rwa [← hsame]
      · exact fun hyields => ⟨next, hnext.mem, hnext.task, hyields⟩
    have hsteps : (m.cut taskName restName first second later).head.steps =
        [first, m.restStep taskName restName first second later] := rfl
    have hheadOrder : (m.cut taskName restName first second later).head.InListOrder := rfl
    rw [yields_of_inListOrder hheadOrder (h.consistent_head _ _).nodup_steps, hsteps,
      follows_cons_of_given hfirst, h.steps]
    simp only [hrest, exists_eq_right]

end Domain

section Cascaded

variable {d : Domain} {given taken : List String} {m : Method} {ms : List Method}
  {c part : Cascade} {parts : List Cascade}

theorem Cascaded.length_eq (h : Cascaded taken m c) (hfault : c.fault? = none)
    (hm : 2 ≤ m.steps.length) : c.methods.length + 1 = m.steps.length ∧
      c.tasks.length + 2 = m.steps.length ∧ ∀ r ∈ c.methods, r.steps.length = 2 := by
  induction h with
  | short hle =>
    have hlen := Nat.le_antisymm hle hm
    exact ⟨hlen.symm, hlen.symm, List.forall_mem_singleton.2 hlen⟩
  | overflow _ _ => cases hfault
  | @cut taken m first second later c hsplits _ _ ih =>
    have hrest : 2 ≤ (second :: later).length :=
      Nat.succ_le_succ (List.length_pos_of_ne_nil hsplits.later_ne_nil)
    obtain ⟨hmethods, htasks, htwo⟩ := ih hfault hrest
    rw [hsplits.steps]
    exact ⟨congrArg (· + 1) hmethods, congrArg (· + 1) htasks, List.forall_mem_cons.2 ⟨rfl, htwo⟩⟩

theorem Cascaded.artificial (h : Cascaded taken m c) : ∀ t ∈ c.tasks, t.artificial := by
  induction h with
  | short _ => simp
  | overflow _ _ => simp
  | cut _ _ _ ih => exact List.forall_mem_cons.2 ⟨rfl, ih⟩

theorem Cascaded.map_steps (h : Cascaded taken m c) (hfault : c.fault? = none)
    (hgiven : ∀ n ∈ given, n ∈ taken) (hm : ∀ s ∈ m.steps, s.task ∈ given) :
    ((c.methods.flatMap (·.steps)).filter (·.task ∉ given)).map (·.task) =
      c.tasks.map (·.name) := by
  induction h with
  | short _ => simpa using hm
  | overflow _ _ => cases hfault
  | @cut taken m first second later c hsplits _ _ ih =>
    rw [hsplits.steps] at hm
    obtain ⟨hfirst, hlater⟩ := List.forall_mem_cons.1 hm
    have hfresh : (m.nextCut taken first second later).task.name ∉ taken :=
      Method.nextCut_task_notMem taken
    have hnew : restTaskName (m.nextCounter taken) (nameSeed m.name).2 ∉ given := fun hn =>
      hfresh (hgiven _ hn)
    have hhead : ((m.nextCut taken first second later).head.steps.filter (·.task ∉ given)).map
        (·.task) = [(m.nextCut taken first second later).task.name] := by
      rw [Method.nextCut, Method.cut_head_steps, List.filter_cons_of_neg (by simpa using hfirst),
        List.filter_cons_of_pos (by simpa using hnew), List.filter_nil]
      rfl
    rw [List.flatMap_cons, List.filter_append, List.map_append, hhead,
      ih hfault (fun n hn => List.mem_cons_of_mem _ (hgiven n hn)) hlater]
    rfl

theorem Becomes.length_methods (h : Becomes given m part) :
    part.methods.length = part.tasks.length + 1 := by
  cases h with
  | keep _ => rfl
  | cut _ hpart hfault _ =>
    obtain ⟨head, rests, hmethods, -, -, hrests⟩ := hpart.exists_head hfault
    have hlen : rests.length = part.tasks.length := by
      rw [← List.length_map (·.task), hrests, List.length_map]
    rw [hmethods, List.length_cons, hlen]

theorem Becomes.map_steps (h : Becomes given m part) (hm : ∀ s ∈ m.steps, s.task ∈ given) :
    ((part.methods.flatMap (·.steps)).filter (·.task ∉ given)).map (·.task) =
      part.tasks.map (·.name) := by
  cases h with
  | keep _ => simpa using hm
  | cut hlong hpart hfault hgiven =>
    obtain ⟨rfl, -⟩ := Method.chain?_eq_some (Method.longChain?_eq_some hlong).2
    exact hpart.map_steps hfault hgiven fun s hs => hm s (m.perm_stepsByRank.mem_iff.1 hs)

theorem length_parts (h : List.Forall₂ (Becomes given) ms parts) :
    (parts.flatMap (·.methods)).length = (parts.flatMap (·.tasks)).length + ms.length := by
  induction h with
  | nil => rfl
  | cons hm _ ih =>
    rw [List.flatMap_cons, List.length_append, hm.length_methods, ih, List.flatMap_cons,
      List.length_append, List.length_cons]
    omega

theorem map_steps_parts (h : List.Forall₂ (Becomes given) ms parts)
    (hms : ∀ m ∈ ms, ∀ s ∈ m.steps, s.task ∈ given) :
    (((parts.flatMap (·.methods)).flatMap (·.steps)).filter (·.task ∉ given)).map (·.task) =
      (parts.flatMap (·.tasks)).map (·.name) := by
  induction h with
  | nil => rfl
  | cons hm _ ih =>
    obtain ⟨hsteps, hms⟩ := List.forall_mem_cons.1 hms
    rw [List.flatMap_cons, List.flatMap_append, List.filter_append, List.map_append,
      hm.map_steps hsteps, ih hms, List.flatMap_cons, List.map_append]

theorem CascadedEach.cutMethods_eq (h : CascadedEach taken ms c) (hfault : c.fault? = none) :
    c.cutMethods = ms.countP fun m => m.longChain?.isSome := by
  induction h with
  | nil => rfl
  | keep hm _ ih =>
    rw [List.countP_cons_of_neg (by simp [hm])]
    exact ih hfault
  | stop _ _ hfault' => cases hfault.symm.trans hfault'
  | cut hm _ _ _ ih =>
    rw [List.countP_cons_of_pos (by simp [hm])]
    exact congrArg (· + 1) (ih hfault)

/-- A method becomes a cascade that yields its steps, or stays as it is. -/
theorem Becomes.cascadeFor (h : Becomes given m part) (hone : d.OneEach given) (hm : m.Consistent)
    (hacyclic : m.Acyclic) (htask : m.task ∈ given) (hsteps : ∀ s ∈ m.steps, s.task ∈ given)
    (hmethods : ∀ r ∈ part.methods, r ∈ d.methods)
    (htasks : ∀ t ∈ part.tasks, t ∈ d.abstractTasks) :
    (m.steps.length ≤ 2 ∨ ¬m.TotallyOrdered) ∧ part = { methods := [m] } ∨
      d.CascadeFor given m part := by
  cases h with
  | keep hlong => exact .inl ⟨(hacyclic.longChain?_eq_none hm.nodup_steps).1 hlong, rfl⟩
  | @cut chain taken part hlong hpart hfault hgiven =>
    obtain ⟨hlen, hchain⟩ := Method.longChain?_eq_some hlong
    have hconsistent := hm.of_chain? hchain
    have horder := Method.inListOrder_of_chain? hchain
    have htotal : m.TotallyOrdered := hacyclic.totallyOrdered_of_chain? hchain
    have hchainSteps : ∀ s ∈ chain.steps, s.task ∈ given := by
      obtain ⟨rfl, -⟩ := Method.chain?_eq_some hchain
      exact fun s hs => hsteps s (m.perm_stepsByRank.mem_iff.1 hs)
    obtain ⟨head, hhead, hspreads⟩ := hpart.exists_spreads hfault hgiven hchainSteps hmethods htasks
    obtain ⟨first, rests, hparts, hname, hfirstTask, hrests⟩ := hpart.exists_head hfault
    obtain ⟨rfl, hneighbours⟩ := Method.chain?_eq_some hchain
    -- of the methods of the cascade only the first one does a given task
    obtain rfl : head = first := by
      rw [hparts] at hhead
      refine (List.mem_cons.1 hhead).resolve_right fun hmem => ?_
      exact hpart.rest_task hgiven hrests head hmem (hspreads.task ▸ htask)
    have hperm := m.perm_stepsByRank
    obtain ⟨hlenMethods, hlenTasks, htwo⟩ := hpart.length_eq hfault
      (by rw [hperm.length_eq]; exact Nat.le_of_lt hlen)
    rw [hperm.length_eq] at hlenMethods hlenTasks
    exact .inr ⟨hlen, htotal, hlenMethods, hlenTasks, htwo, hpart.artificial, head, rests, hparts,
      hname, hfirstTask, hspreads.taskArguments, hrests, m.stepsByRank, hperm,
      hacyclic.pairwise hneighbours, fun steps => hspreads.yields_iff hone hconsistent horder⟩

end Cascaded

theorem countP_eq_one {α : Type} {f : α → String} {l : List α} {given names : List String}
    {n : String} (h : (l.filter (f · ∉ given)).map f = names) (hnames : names.Nodup)
    (hn : n ∈ names) (hnew : n ∉ given) : l.countP (f · = n) = 1 := by
  have hone : names.count n = 1 := List.count_eq_one_of_mem hnames hn
  rw [← h, List.count, List.countP_map, List.countP_filter] at hone
  rw [← hone]
  refine List.countP_congr fun a _ => ?_
  simp only [Function.comp, beq_iff_eq, Bool.and_eq_true, decide_eq_true_eq]
  exact ⟨fun ha => ⟨ha, ha ▸ hnew⟩, And.left⟩

/-- A new task, of which one step of the domain makes use and which one method does. -/
structure Domain.LinksOnce (d : Domain) (given : List String) (t : Task) : Prop where
  new : t.name ∉ given
  used : (d.methods.flatMap (·.steps)).countP (·.task = t.name) = 1
  done : d.methods.countP (·.task = t.name) = 1

structure CascadeReport.Totals (report : CascadeReport) (d d' : Domain) : Prop where
  cutMethods : report.cutMethods =
    d.methods.countP (fun m => 2 < m.steps.length ∧ m.TotallyOrdered)
  newTasks : d.abstractTasks.length + report.newTasks = d'.abstractTasks.length
  newMethods : d.methods.length + report.newMethods = d'.methods.length

/-- Each method is left as it is or becomes a cascade, and nothing else changes but for the new
tasks, which are the ones between the methods of the cascades. -/
structure Domain.CutInto (d : Domain) (parts : List Cascade) : Prop where
  domain_eq : d.regularize.1 = { d with
    methods := parts.flatMap (·.methods)
    abstractTasks := d.abstractTasks ++ parts.flatMap (·.tasks) }
  cascades : List.Forall₂ (fun m part =>
    (m.steps.length ≤ 2 ∨ ¬m.TotallyOrdered) ∧ part = { methods := [m] } ∨
    d.regularize.1.CascadeFor (d.tasks.map (·.name)) m part) d.methods parts
  nodup_tasks : ((parts.flatMap (·.tasks)).map (·.name)).Nodup
  links : ∀ t ∈ parts.flatMap (·.tasks), d.regularize.1.LinksOnce (d.tasks.map (·.name)) t
  report : ∃ report, d.regularize.2 = .ok report ∧ report.Totals d d.regularize.1

theorem regularize_shape {d : Domain} (hd : ∀ m ∈ d.methods, d.checkMethod m = .ok ())
    (hacyclic : ∀ m ∈ d.methods, m.Acyclic) (hrun : d.regularize.2 ≠ .error .overflow) :
    ∃ parts, d.CutInto parts := by
  have hfits : ∀ m ∈ d.methods, d.Fits m := fun m hm => Domain.checkMethod_eq_ok.1 (hd m hm)
  have hfault := d.fault?_cascades hfits hrun
  obtain ⟨parts, h⟩ := Domain.exists_parts hfits hfault
  have htasks : (cascades (d.tasks.map (·.name)) d.methods).tasks = parts.flatMap (·.tasks) :=
    List.append_cancel_left h.abstractTasks
  have hsteps : ∀ m ∈ d.methods, ∀ s ∈ m.steps, s.task ∈ d.tasks.map (·.name) :=
    fun m hm s hs => ((hfits m hm).steps s hs).mem_names
  refine ⟨parts, {
    domain_eq := h.domain_eq
    cascades := ?_
    nodup_tasks := h.nodup
    links := fun t ht => ?_
    report := ⟨_, by simp [Domain.regularize, hfault]; rfl, ?_, ?_, ?_⟩ }⟩
  · refine forall₂_imp_of_mem h.becomes fun m hm part hpart hbecomes => ?_
    exact hbecomes.cascadeFor (d.oneEach_regularize hfits hfault) (hfits m hm).consistent
      (hacyclic m hm) (d.task_mem_names hfits m hm) (hsteps m hm) (h.methods_subset hpart)
      (h.tasks_subset hpart)
  · have hname := List.mem_map_of_mem (f := (·.name)) ht
    refine ⟨h.notMem t ht, ?_, ?_⟩
    · rw [h.methods]
      exact countP_eq_one (map_steps_parts h.becomes hsteps) h.nodup hname (h.notMem t ht)
    · have hmap := d.map_task_regularize hfits hfault
      rw [htasks] at hmap
      exact countP_eq_one hmap h.nodup hname (h.notMem t ht)
  · rw [(d.cascadedEach hfits).cutMethods_eq hfault]
    refine List.countP_congr fun m hm => ?_
    have hnone := (hacyclic m hm).longChain?_eq_none (hfits m hm).consistent.nodup_steps
    rw [decide_eq_true_eq, Option.isSome_iff_ne_none, ne_eq, hnone, not_or, not_not, Nat.not_le]
  · rw [h.abstractTasks, List.length_append, htasks]
  · rw [h.methods, length_parts h.becomes, htasks, Nat.add_comm]

theorem regularize_shape_delivery :
    ((∀ m ∈ delivery.methods, delivery.checkMethod m = .ok ()) ∧
      (∀ m ∈ delivery.methods, m.Acyclic) ∧ delivery.regularize.2 ≠ .error .overflow) ∧
    ∃ head middle last between₁ between₂,
      delivery.regularize.1.methods = [head, middle, last] ∧
      delivery.regularize.1.abstractTasks = delivery.abstractTasks ++ [between₁, between₂] ∧
      middle.task = between₁.name ∧ last.task = between₂.name ∧
      ∀ steps, delivery.regularize.1.Yields (delivery.tasks.map (·.name)) head steps ↔
        steps = byVan.steps.reverse := by
  obtain ⟨hd, hacyclic, hrun⟩ := regular_delivery
  obtain ⟨parts, hcut⟩ := regularize_shape hd hacyclic hrun
  have hdomain := hcut.domain_eq
  obtain ⟨part, others, hpart, hothers, rfl⟩ := List.forall₂_cons_left_iff.1 hcut.cascades
  obtain rfl := List.forall₂_nil_left_iff.1 hothers
  have htotal : byVan.TotallyOrdered := by decide
  obtain ⟨hsame, -⟩ | h := hpart
  · exact absurd hsame (not_or.2 ⟨by decide, not_not.2 htotal⟩)
  obtain ⟨head, rests, hmethods, -, -, -, hrests, sorted, hperm, hpair, hyields⟩ := h.head
  have hlen : rests.length = 2 := by
    have hlen := h.length_methods
    rw [hmethods] at hlen
    exact Nat.succ.inj (Nat.succ.inj hlen)
  obtain ⟨middle, last, rfl⟩ := List.length_eq_two.1 hlen
  obtain ⟨between₁, between₂, htasks⟩ :=
    List.length_eq_two.1 (Nat.succ.inj (Nat.succ.inj h.length_tasks))
  rw [htasks] at hrests
  obtain ⟨hmiddle, hlast⟩ := List.cons_eq_cons.1 hrests
  have hbyVan : byVan.Acyclic := hacyclic byVan (List.mem_singleton.2 rfl)
  have hsorted : sorted = byVan.steps.reverse :=
    (hbyVan.linearizes_iff byVan.steps.reverse_perm (by decide)).1
      ⟨hperm, hpair.imp fun hst => hbyVan.precedes_asymm hst⟩
  refine ⟨⟨hd, hacyclic, hrun⟩, head, middle, last, between₁, between₂, ?_, ?_, hmiddle,
    (List.cons_eq_cons.1 hlast).1, fun steps => hsorted ▸ hyields steps⟩
  · simp only [hdomain, List.flatMap_singleton, hmethods]
  · simp only [hdomain, List.flatMap_singleton, htasks]

end TaskNetwork
