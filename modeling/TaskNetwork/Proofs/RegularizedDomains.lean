import TaskNetwork.Proofs.Spreads
import TaskNetwork.Proofs.WalkEvents

namespace TaskNetwork

open Relation

namespace Method

/-- The second method has the steps of the first one in the same order, perhaps listed in another
way. -/
structure SameSteps (m chain : Method) : Prop where
  name : chain.name = m.name
  task : chain.task = m.task
  taskArguments : chain.taskArguments = m.taskArguments
  declarations : chain.declarations = m.declarations
  steps : ∀ s, s ∈ chain.steps ↔ s ∈ m.steps
  predecessors : ∀ s ∈ m.steps, ∀ e, e ∈ chain.predecessors s.id ↔ e ∈ m.predecessors s.id

variable {m chain : Method}

theorem SameSteps.refl (m : Method) : m.SameSteps m :=
  ⟨rfl, rfl, rfl, rfl, fun _ => .rfl, fun _ _ _ => .rfl⟩

theorem sameSteps_of_chain? (hm : m.Acyclic) (hc : m.Consistent) (h : m.chain? = some chain) :
    m.SameSteps chain := by
  have hnodup := (hc.of_chain? h).nodup_steps
  have horder := inListOrder_of_chain? h
  have hpair := horder.pairwise hnodup
  have hacyclic := horder.acyclic hnodup
  obtain ⟨rfl, hchain⟩ := chain?_eq_some h
  have hmem : ∀ s, s ∈ m.stepsByRank ↔ s ∈ m.steps := fun s => m.perm_stepsByRank.mem_iff
  refine ⟨rfl, rfl, rfl, rfl, hmem, fun s hs e => ?_⟩
  rw [mem_predecessors, mem_predecessors]
  refine (and_congr_left' (hmem e)).trans (and_congr_right fun he => ?_)
  exact (precedes_congr hm hacyclic (hm.pairwise hchain) hpair ((hmem e).2 he) ((hmem s).2 hs)).symm

end Method

/-- What a method becomes: nothing but itself, or a cascade. -/
inductive Becomes (given : List String) (m : Method) : Cascade → Prop
  | keep (hm : m.longChain? = none) : Becomes given m { methods := [m] }
  | cut {chain : Method} {taken : List String} {part : Cascade} (hm : m.longChain? = some chain)
      (hpart : Cascaded taken chain part) (hfault : part.fault? = none)
      (hgiven : ∀ n ∈ given, n ∈ taken) : Becomes given m part

/-- The head stands for the method. -/
structure Domain.Replaces (d : Domain) (given : List String) (m head : Method) : Prop where
  spreads : ∃ chain, m.SameSteps chain ∧ d.Spreads given chain head
  kept : m.longChain? = none → head = m

theorem Domain.Replaces.task {d : Domain} {given : List String} {m head : Method}
    (h : d.Replaces given m head) : head.task = m.task := by
  obtain ⟨chain, hsame, hspreads⟩ := h.spreads
  exact hspreads.task.trans hsame.task

section Becomes

variable {d : Domain} {given taken : List String} {m : Method} {ms : List Method} {c part : Cascade}

theorem CascadedEach.exists_parts (h : CascadedEach taken ms c) (hfault : c.fault? = none)
    (hgiven : ∀ n ∈ given, n ∈ taken) : ∃ parts, List.Forall₂ (Becomes given) ms parts ∧
      c.methods = parts.flatMap (·.methods) ∧ c.tasks = parts.flatMap (·.tasks) := by
  induction h with
  | nil => exact ⟨[], .nil, rfl, rfl⟩
  | keep hm _ ih =>
    obtain ⟨parts, hparts, hmethods, htasks⟩ := ih hfault hgiven
    exact ⟨_, .cons (.keep hm) hparts, congrArg _ hmethods, htasks⟩
  | stop _ _ hfault' => cases hfault.symm.trans hfault'
  | cut hm hfirst hfault' _ ih =>
    obtain ⟨parts, hparts, hmethods, htasks⟩ := ih hfault fun n hn =>
      List.mem_append_right _ (hgiven n hn)
    exact ⟨_, .cons (.cut hm hfirst hfault' hgiven) hparts, congrArg _ hmethods, congrArg _ htasks⟩

theorem Becomes.originName_eq (h : Becomes given m part)
    (hm : ¬restMethodMark.toList <+: m.name.toList) :
    ∀ r ∈ part.methods, originName r.name = m.name := by
  cases h with
  | keep _ => exact List.forall_mem_singleton.2 (originName_of_unmarked hm)
  | cut hlong hpart _ _ =>
    obtain ⟨rfl, -⟩ := Method.chain?_eq_some (Method.longChain?_eq_some hlong).2
    exact fun r hr => (hpart.originName_eq r hr).trans (originName_of_unmarked hm)

theorem Becomes.nodup_names (h : Becomes given m part)
    (hm : ¬restMethodMark.toList <+: m.name.toList) : (part.methods.map (·.name)).Nodup := by
  cases h with
  | keep _ => exact List.nodup_singleton _
  | cut hlong hpart hfault _ =>
    obtain ⟨rfl, -⟩ := Method.chain?_eq_some (Method.longChain?_eq_some hlong).2
    exact hpart.nodup_names hfault hm

theorem Becomes.consistent_tasks (h : Becomes given m part) : ∀ t ∈ part.tasks, t.Consistent := by
  cases h with
  | keep _ => exact fun t ht => by cases ht
  | cut _ hpart _ _ => exact hpart.consistent_tasks

theorem Becomes.declarations_subset (h : Becomes given m part) :
    ∀ r ∈ part.methods, r.declarations ⊆ m.declarations := by
  cases h with
  | keep _ => exact List.forall_mem_singleton.2 fun v hv => hv
  | cut hlong hpart _ _ =>
    obtain ⟨rfl, -⟩ := Method.chain?_eq_some (Method.longChain?_eq_some hlong).2
    exact hpart.declarations_subset

theorem Becomes.steps_or (h : Becomes given m part) : ∀ r ∈ part.methods, ∀ s ∈ r.steps,
    s ∈ m.steps ∨ s.task ∉ given ∧ ∃ r' ∈ part.methods, r'.task = s.task := by
  cases h with
  | keep _ => exact List.forall_mem_singleton.2 fun s hs => .inl hs
  | cut hlong hpart hfault hgiven =>
    obtain ⟨rfl, -⟩ := Method.chain?_eq_some (Method.longChain?_eq_some hlong).2
    intro r hr s hs
    exact (hpart.steps_or hfault r hr s hs).imp m.perm_stepsByRank.mem_iff.1
      (And.imp_left fun hnew hmem => hnew (hgiven _ hmem))

theorem Becomes.fits (h : Becomes given m part) (hm : d.Fits m)
    (htasks : ∀ t ∈ part.tasks, d.task? t.name = some t) : ∀ r ∈ part.methods, d.Fits r := by
  cases h with
  | keep _ => exact List.forall_mem_singleton.2 hm
  | cut hlong hpart hfault _ =>
    have hchain := (Method.longChain?_eq_some hlong).2
    have hconsistent := hm.consistent.of_chain? hchain
    obtain ⟨rfl, -⟩ := Method.chain?_eq_some hchain
    exact hpart.fits hfault ⟨hconsistent, hm.task, fun s hs =>
      hm.steps s (m.perm_stepsByRank.mem_iff.1 hs)⟩ htasks

theorem Becomes.replaces (h : Becomes given m part) (hm : m.Consistent) (hacyclic : m.Acyclic)
    (htask : m.task ∈ given) (hsteps : ∀ s ∈ m.steps, s.task ∈ given)
    (hmethods : ∀ r ∈ part.methods, r ∈ d.methods)
    (htasks : ∀ t ∈ part.tasks, t ∈ d.abstractTasks) :
    (∃ head ∈ part.methods, d.Replaces given m head) ∧
      ∀ r ∈ part.methods, r.task ∈ given → d.Replaces given m r := by
  cases h with
  | keep hlong =>
    have hself : d.Replaces given m m :=
      ⟨⟨m, .refl m, .whole (hmethods m List.mem_cons_self) hsteps⟩, fun _ => rfl⟩
    exact ⟨⟨m, List.mem_cons_self, hself⟩, List.forall_mem_singleton.2 fun _ => hself⟩
  | @cut chain taken part hlong hpart hfault hgiven =>
    have hsame := Method.sameSteps_of_chain? hacyclic hm (Method.longChain?_eq_some hlong).2
    obtain ⟨head, hhead, hspreads⟩ := hpart.exists_spreads hfault hgiven
      (fun s hs => hsteps s ((hsame.steps s).1 hs)) hmethods htasks
    have hnone : m.longChain? = none → ∀ r, r = m := fun h => by
      rw [hlong] at h
      cases h
    have hreplaces : d.Replaces given m head := ⟨⟨chain, hsame, hspreads⟩, fun h => hnone h head⟩
    refine ⟨⟨head, hhead, hreplaces⟩, fun r hr hrt => ?_⟩
    obtain ⟨first, rests, hparts, -, -, hrests⟩ := hpart.exists_head hfault
    have hfirst : ∀ r ∈ part.methods, r.task ∈ given → r = first := by
      intro r hr hrt
      rw [hparts] at hr
      exact (List.mem_cons.1 hr).resolve_right fun hr => hpart.rest_task hgiven hrests r hr hrt
    have hheadTask : head.task ∈ given := by rwa [hspreads.task, hsame.task]
    rwa [hfirst r hr hrt, ← hfirst head hhead hheadTask]

theorem nodup_names_parts {parts : List Cascade} (h : List.Forall₂ (Becomes given) ms parts)
    (hnodup : (ms.map (·.name)).Nodup)
    (hunmarked : ∀ m ∈ ms, ¬restMethodMark.toList <+: m.name.toList) :
    ((parts.flatMap (·.methods)).map (·.name)).Nodup ∧
      ∀ r ∈ parts.flatMap (·.methods), originName r.name ∈ ms.map (·.name) := by
  induction h with
  | nil => exact ⟨List.nodup_nil, fun r hr => by cases hr⟩
  | @cons m part ms parts hm _ ih =>
    obtain ⟨hfresh, hnodup⟩ := List.nodup_cons.1 hnodup
    obtain ⟨hmark, hunmarked⟩ := List.forall_mem_cons.1 hunmarked
    obtain ⟨hparts, horigins⟩ := ih hnodup hunmarked
    have horigin := hm.originName_eq hmark
    rw [List.flatMap_cons, List.map_append, List.nodup_append]
    refine ⟨⟨hm.nodup_names hmark, hparts, fun a ha b hb => ?_⟩, fun r hr => ?_⟩
    · rintro rfl
      obtain ⟨r, hr, rfl⟩ := List.mem_map.1 ha
      obtain ⟨r', hr', hname⟩ := List.mem_map.1 hb
      have hmem := horigins r' hr'
      rw [hname, horigin r hr] at hmem
      exact hfresh hmem
    · rw [List.map_cons, List.mem_cons]
      exact (List.mem_append.1 hr).imp (horigin r) (horigins r)

end Becomes

structure Domain.Parts (d : Domain) (parts : List Cascade) : Prop where
  becomes : List.Forall₂ (Becomes (d.tasks.map (·.name))) d.methods parts
  methods : d.regularize.1.methods = parts.flatMap (·.methods)
  abstractTasks : d.regularize.1.abstractTasks = d.abstractTasks ++ parts.flatMap (·.tasks)
  nodup : ((parts.flatMap (·.tasks)).map (·.name)).Nodup
  notMem : ∀ t ∈ parts.flatMap (·.tasks), t.name ∉ d.tasks.map (·.name)

theorem Domain.exists_parts {d : Domain} (hfits : ∀ m ∈ d.methods, d.Fits m)
    (hfault : (cascades (d.tasks.map (·.name)) d.methods).fault? = none) :
    ∃ parts, d.Parts parts := by
  have hc := d.cascadedEach hfits
  obtain ⟨parts, hparts, hmethods, htasks⟩ := hc.exists_parts hfault fun _ hn => hn
  exact ⟨parts, hparts, hmethods, congrArg _ htasks, htasks ▸ hc.nodup, htasks ▸ hc.notMem⟩

namespace Domain.Parts

variable {d : Domain} {parts : List Cascade} {part : Cascade} {m : Method} (h : d.Parts parts)
include h

theorem tasks : d.regularize.1.tasks = d.tasks ++ parts.flatMap (·.tasks) := by
  rw [Domain.tasks, h.abstractTasks, ← List.append_assoc]
  rfl

theorem domain_eq : d.regularize.1 = { d with
    methods := parts.flatMap (·.methods)
    abstractTasks := d.abstractTasks ++ parts.flatMap (·.tasks) } := by
  rw [← h.methods, ← h.abstractTasks]
  rfl

theorem methods_subset (hpart : part ∈ parts) : ∀ r ∈ part.methods, r ∈ d.regularize.1.methods :=
  fun _ hr => h.methods ▸ List.mem_flatMap.2 ⟨part, hpart, hr⟩

theorem tasks_subset (hpart : part ∈ parts) :
    ∀ t ∈ part.tasks, t ∈ d.regularize.1.abstractTasks := fun _ ht =>
  h.abstractTasks ▸ List.mem_append_right _ (List.mem_flatMap.2 ⟨part, hpart, ht⟩)

theorem exists_becomes {r : Method} (hr : r ∈ d.regularize.1.methods) : ∃ part ∈ parts,
    r ∈ part.methods ∧ ∃ m ∈ d.methods, Becomes (d.tasks.map (·.name)) m part := by
  rw [h.methods] at hr
  obtain ⟨part, hpart, hr⟩ := List.mem_flatMap.1 hr
  exact ⟨part, hpart, hr, exists_of_mem_right h.becomes hpart⟩

theorem task?_of_task? {n : String} {t : Task} (ht : d.task? n = some t) :
    d.regularize.1.task? n = some t := by
  rw [Domain.task?] at ht
  rw [Domain.task?, h.tasks, List.find?_append, ht, Option.some_or]

theorem task?_new {t : Task} (ht : t ∈ parts.flatMap (·.tasks)) :
    d.regularize.1.task? t.name = some t := by
  have hold : d.tasks.find? (·.name = t.name) = none := by
    rw [List.find?_eq_none]
    intro u hu hname
    exact h.notMem t ht (of_decide_eq_true hname ▸ List.mem_map_of_mem hu)
  rw [Domain.task?, h.tasks, List.find?_append, hold, Option.none_or]
  exact (find?_eq_some_of_nodup_map h.nodup).2 ⟨ht, rfl⟩

theorem consistent_tasks (htasks : ∀ t ∈ d.tasks, t.Consistent) :
    ∀ t ∈ d.regularize.1.tasks, t.Consistent := by
  rw [h.tasks]
  intro t ht
  obtain ht | ht := List.mem_append.1 ht
  · exact htasks t ht
  · obtain ⟨part, hpart, ht⟩ := List.mem_flatMap.1 ht
    obtain ⟨m, -, hbecomes⟩ := exists_of_mem_right h.becomes hpart
    exact hbecomes.consistent_tasks t ht

theorem fits (hfits : ∀ m ∈ d.methods, d.Fits m) :
    ∀ r ∈ d.regularize.1.methods, d.regularize.1.Fits r := by
  have harity : ∀ {n k}, d.HasArity n k → d.regularize.1.HasArity n k :=
    fun ⟨t, ht, hlen⟩ => ⟨t, h.task?_of_task? ht, hlen⟩
  intro r hr
  obtain ⟨part, hpart, hr, m, hm, hbecomes⟩ := h.exists_becomes hr
  have hfits := hfits m hm
  refine hbecomes.fits ⟨hfits.consistent, harity hfits.task, fun s hs => harity (hfits.steps s hs)⟩
    (fun t ht => h.task?_new (List.mem_flatMap.2 ⟨part, hpart, ht⟩)) r hr

variable (hd : d.WellFormed)
include hd

theorem namesDiffer (hunmarked : ∀ m ∈ d.methods, ¬restMethodMark.toList <+: m.name.toList) :
    d.regularize.1.NamesDiffer := by
  refine ⟨?_, h.methods ▸ (nodup_names_parts h.becomes hd.names.methods hunmarked).1⟩
  rw [h.tasks, List.map_append, List.nodup_append]
  refine ⟨hd.names.tasks, h.nodup, fun a ha b hb => ?_⟩
  rintro rfl
  obtain ⟨t, ht, rfl⟩ := List.mem_map.1 hb
  exact h.notMem t ht ha

theorem wellFormed (hunmarked : ∀ m ∈ d.methods, ¬restMethodMark.toList <+: m.name.toList) :
    d.regularize.1.WellFormed where
  tasks t ht := Task.check_eq_ok.2 (h.consistent_tasks (fun _ hu => hd.consistent hu) t ht)
  methods r hr := Domain.checkMethod_eq_ok.2 (h.fits (fun _ hm => hd.fits hm) r hr)
  names := h.namesDiffer hd hunmarked

theorem replaces (hacyclic : ∀ m ∈ d.methods, m.Acyclic) (hm : m ∈ d.methods)
    (hpart : part ∈ parts) (hbecomes : Becomes (d.tasks.map (·.name)) m part) :
    (∃ head ∈ part.methods, d.regularize.1.Replaces (d.tasks.map (·.name)) m head) ∧
      ∀ r ∈ part.methods, r.task ∈ d.tasks.map (·.name) →
        d.regularize.1.Replaces (d.tasks.map (·.name)) m r := by
  have hfits := hd.fits hm
  exact hbecomes.replaces hfits.consistent (hacyclic m hm) hfits.task.mem_names
    (fun s hs => (hfits.steps s hs).mem_names) (h.methods_subset hpart) (h.tasks_subset hpart)

end Domain.Parts

/-- The second domain is the first one with its long chains cut. -/
structure Domain.Regularized (d d' : Domain) : Prop where
  wellFormed : d.WellFormed
  wellFormed' : d'.WellFormed
  sorts : d'.sorts = d.sorts
  primitiveTasks : d'.primitiveTasks = d.primitiveTasks
  abstractTasks : ∃ new, d'.abstractTasks = d.abstractTasks ++ new
  oneEach : d'.OneEach (d.tasks.map (·.name))
  unmarked : ∀ m ∈ d.methods, originName m.name = m.name
  replaced : ∀ m ∈ d.methods, ∃ head ∈ d'.methods, d'.Replaces (d.tasks.map (·.name)) m head
  derived : ∀ r ∈ d'.methods, ∃ m ∈ d.methods, originName r.name = m.name ∧
    r.declarations ⊆ m.declarations ∧
    (r.task ∈ d.tasks.map (·.name) → d'.Replaces (d.tasks.map (·.name)) m r) ∧
    ∀ s ∈ r.steps, s ∈ m.steps ∨ s.task ∉ d.tasks.map (·.name) ∧
      ∃ r' ∈ d'.methods, r'.task = s.task ∧ originName r'.name = m.name

theorem regularized_of_regularize {d : Domain} (hd : d.WellFormed)
    (hacyclic : ∀ m ∈ d.methods, m.Acyclic)
    (hunmarked : ∀ m ∈ d.methods, ¬restMethodMark.toList <+: m.name.toList)
    (hrun : d.regularize.2 ≠ .error .overflow) : d.Regularized d.regularize.1 := by
  have hfits : ∀ m ∈ d.methods, d.Fits m := fun m hm => hd.fits hm
  have hfault := d.fault?_cascades hfits hrun
  obtain ⟨parts, h⟩ := Domain.exists_parts hfits hfault
  refine ⟨hd, h.wellFormed hd hunmarked, rfl, rfl, ⟨_, h.abstractTasks⟩,
    d.oneEach_regularize hfits hfault, fun m hm => originName_of_unmarked (hunmarked m hm),
    fun m hm => ?_, fun r hr => ?_⟩
  · obtain ⟨part, hpart, hbecomes⟩ := exists_of_mem_left h.becomes hm
    obtain ⟨⟨head, hhead, hreplaces⟩, -⟩ := h.replaces hd hacyclic hm hpart hbecomes
    exact ⟨head, h.methods_subset hpart head hhead, hreplaces⟩
  · obtain ⟨part, hpart, hr, m, hm, hbecomes⟩ := h.exists_becomes hr
    have hname := hbecomes.originName_eq (hunmarked m hm)
    refine ⟨m, hm, hname r hr, hbecomes.declarations_subset r hr,
      (h.replaces hd hacyclic hm hpart hbecomes).2 r hr, fun s hs => ?_⟩
    refine (hbecomes.steps_or r hr s hs).imp_right (And.imp_right ?_)
    rintro ⟨r', hr', htask⟩
    exact ⟨r', h.methods_subset hpart r' hr', htask, hname r' hr'⟩

theorem Domain.NamesDiffer.visits_iff {d : Domain} (hd : d.NamesDiffer) {top n : String} :
    d.Visits top n ↔ d.Reaches top n := by
  have hcontinues : d.Continues = d.Decomposes := by
    funext a b
    exact propext ⟨And.right, fun hab => ⟨hd.not_isPrimitive hab.1, hab⟩⟩
  rw [Domain.Visits, Domain.Reaches, hcontinues]

theorem not_cycle_of_acc {α : Type} {R : α → α → Prop} {a : α} (h : Acc (fun b a => R a b) a) :
    ¬TransGen R a a := by
  induction h with
  | intro a _ ih =>
    intro hcycle
    obtain ⟨b, hab, hba⟩ := TransGen.head'_iff.1 hcycle
    exact ih b hab (TransGen.tail' hba hab)

/-- The task is the same, or a new one for steps of a method for the other task. -/
inductive Domain.PartOf (d d' : Domain) : String → String → Prop
  | old {n : String} (hn : n ∈ d.tasks.map (·.name)) : PartOf d d' n n
  | new {m r : Method} (hr : r ∈ d'.methods) (hm : m ∈ d.methods)
      (hnew : r.task ∉ d.tasks.map (·.name)) (horigin : originName r.name = m.name)
      (habstract : m.task ∈ d.abstractTasks.map (·.name)) : PartOf d d' r.task m.task

namespace Domain.Regularized

variable {d d' : Domain} {a b n top whole other : String} {m : Method} (h : d.Regularized d')
include h

theorem isPrimitive : d'.IsPrimitive n ↔ d.IsPrimitive n := by
  rw [IsPrimitive, IsPrimitive, h.primitiveTasks]

theorem task?_eq (hn : n ∈ d.tasks.map (·.name)) : d'.task? n = d.task? n := by
  obtain ⟨t, ht, rfl⟩ := List.mem_map.1 hn
  obtain ⟨new, hnew⟩ := h.abstractTasks
  have hmem : t ∈ d'.tasks := by
    rw [tasks, h.primitiveTasks, hnew, ← List.append_assoc]
    exact List.mem_append_left _ ht
  rw [h.wellFormed'.names.task?_eq_some.2 ⟨hmem, rfl⟩, h.wellFormed.names.task?_eq_some.2 ⟨ht, rfl⟩]

theorem mem_abstractTasks (hn : n ∈ d.tasks.map (·.name)) :
    n ∈ d'.abstractTasks.map (·.name) ↔ n ∈ d.abstractTasks.map (·.name) := by
  obtain ⟨new, hnew⟩ := h.abstractTasks
  have hnodup := h.wellFormed'.names.tasks
  rw [tasks, h.primitiveTasks, hnew, ← List.append_assoc, List.map_append, List.nodup_append]
    at hnodup
  rw [hnew, List.map_append, List.mem_append]
  exact or_iff_left fun hmem => hnodup.2.2 n hn n hmem rfl

theorem task_mem (hm : m ∈ d.methods) : m.task ∈ d.tasks.map (·.name) :=
  (h.wellFormed.fits hm).task.mem_names

theorem step_mem (hm : m ∈ d.methods) {s : Step} (hs : s ∈ m.steps) :
    s.task ∈ d.tasks.map (·.name) :=
  ((h.wellFormed.fits hm).steps s hs).mem_names

theorem passed_eq (hm : m ∈ d.methods) {s : Step} (hs : s ∈ m.steps) :
    d'.passed s = d.passed s := by
  simp only [passed, h.task?_eq (h.step_mem hm hs)]

section Heads

variable {P Q : Method → Prop} (hn : n ∈ d.tasks.map (·.name))
  (hP : ∀ m ∈ d.methods, m.task = n → ∀ head, d'.Replaces (d.tasks.map (·.name)) m head →
    (Q head ↔ P m))
include hn hP

theorem exists_head_iff :
    (∃ head ∈ d'.methods, head.task = n ∧ Q head) ↔ ∃ m ∈ d.methods, m.task = n ∧ P m := by
  constructor
  · rintro ⟨head, hhead, rfl, hp⟩
    obtain ⟨m, hm, -, -, hreplaces, -⟩ := h.derived head hhead
    have htask := (hreplaces hn).task.symm
    exact ⟨m, hm, htask, (hP m hm htask head (hreplaces hn)).1 hp⟩
  · rintro ⟨m, hm, htask, hp⟩
    obtain ⟨head, hhead, hreplaces⟩ := h.replaced m hm
    exact ⟨head, hhead, hreplaces.task.trans htask, (hP m hm htask head hreplaces).2 hp⟩

theorem forall_head_iff :
    (∀ head ∈ d'.methods, head.task = n → Q head) ↔ ∀ m ∈ d.methods, m.task = n → P m := by
  have hnone := h.exists_head_iff (P := fun m => ¬P m) (Q := fun head => ¬Q head) hn
    fun m hm htask head hreplaces => not_congr (hP m hm htask head hreplaces)
  simpa only [not_exists, not_and, not_not] using not_congr hnone

end Heads

theorem below_of_decomposes (hab : d.Decomposes a b) : TransGen d'.Decomposes a b := by
  obtain ⟨ha, m, hm, rfl, s, hs, rfl⟩ := hab
  obtain ⟨head, -, hreplaces⟩ := h.replaced m hm
  obtain ⟨chain, hsame, hspreads⟩ := hreplaces.spreads
  have htask : chain.task ∈ d'.abstractTasks.map (·.name) := by
    rw [hsame.task]
    exact (h.mem_abstractTasks (h.task_mem hm)).2 ha
  have hpath := hspreads.steps_below htask s ((hsame.steps s).2 hs)
  rwa [hsame.task] at hpath

theorem partOf_unique (ha : d.PartOf d' n a) (hb : d.PartOf d' n b) : a = b := by
  cases ha with
  | old hn =>
    cases hb with
    | old _ => rfl
    | new _ _ hnew _ _ => exact absurd hn hnew
  | @new m r hr hm hnew horigin _ =>
    generalize hk : r.task = k at hb
    cases hb with
    | old hn => exact absurd hn (hk ▸ hnew)
    | @new m' r' hr' hm' hnew' horigin' _ =>
      obtain rfl := h.oneEach r hr r' hr' hk hnew
      rw [h.wellFormed.names.eq_of_name_eq hm hm' (horigin.symm.trans horigin')]

/-- A step of a method for a part leads below the whole, or to another part of it. -/
theorem partOf_step (hab : d'.Decomposes a b) (ha : d.PartOf d' a whole) : ∃ next,
    d.PartOf d' b next ∧
      (d.Decomposes whole next ∨ next = whole ∧ b ∉ d.tasks.map (·.name)) := by
  obtain ⟨habstract, r, hr, rfl, s, hs, rfl⟩ := hab
  obtain ⟨m, hm, horigin, -, hreplaces, hsteps⟩ := h.derived r hr
  -- a new task has one method, which belongs to the cascade of one method
  obtain ⟨rfl, hwhole⟩ : whole = m.task ∧ whole ∈ d.abstractTasks.map (·.name) := by
    generalize hk : r.task = k at ha
    cases ha with
    | old hn =>
      rw [hk] at hreplaces habstract
      exact ⟨hk.symm.trans (hreplaces hn).task, (h.mem_abstractTasks hn).1 habstract⟩
    | @new m' r' hr' hm' hnew horigin' hwhole =>
      obtain rfl := h.oneEach r hr r' hr' hk (hk ▸ hnew)
      obtain rfl := h.wellFormed.names.eq_of_name_eq hm hm' (horigin.symm.trans horigin')
      exact ⟨rfl, hwhole⟩
  obtain hs | ⟨hnew, r', hr', htask, horigin'⟩ := hsteps s hs
  · exact ⟨s.task, .old (h.step_mem hm hs), .inl ⟨hwhole, m, hm, rfl, s, hs, rfl⟩⟩
  · refine ⟨m.task, ?_, .inr ⟨rfl, hnew⟩⟩
    rw [← htask] at hnew ⊢
    exact .new hr' hm hnew horigin' hwhole

theorem partOf_path (hab : TransGen d'.Decomposes a b) (ha : d.PartOf d' a whole) : ∃ next,
    d.PartOf d' b next ∧ (TransGen d.Decomposes whole next ∨ next = whole ∧
      TransGen (fun x y => y ∉ d.tasks.map (·.name) ∧ d'.Decomposes x y) a b) := by
  induction hab with
  | single hab =>
    obtain ⟨next, hnext, hdec | ⟨heq, hnew⟩⟩ := h.partOf_step hab ha
    · exact ⟨next, hnext, .inl (.single hdec)⟩
    · exact ⟨next, hnext, .inr ⟨heq, .single ⟨hnew, hab⟩⟩⟩
  | tail _ hbc ih =>
    obtain ⟨between, hbetween, hpath⟩ := ih
    obtain ⟨next, hnext, hdec | ⟨rfl, hnew⟩⟩ := h.partOf_step hbc hbetween
    · obtain hpath | ⟨rfl, -⟩ := hpath
      · exact ⟨next, hnext, .inl (hpath.tail hdec)⟩
      · exact ⟨next, hnext, .inl (.single hdec)⟩
    · refine ⟨next, hnext, hpath.imp_right (And.imp_right fun hpath => ?_)⟩
      exact hpath.tail ⟨hnew, hbc⟩

theorem below_iff (ha : a ∈ d.tasks.map (·.name)) (hb : b ∈ d.tasks.map (·.name)) :
    TransGen d'.Decomposes a b ↔ TransGen d.Decomposes a b := by
  constructor
  · intro hab
    obtain ⟨next, hnext, hpath⟩ := h.partOf_path hab (.old ha)
    obtain rfl := h.partOf_unique hnext (.old hb)
    refine hpath.resolve_right fun hnew => ?_
    obtain ⟨_, -, hlast, -⟩ := TransGen.tail'_iff.1 hnew.2
    exact hlast hb
  · intro hab
    clear ha hb
    induction hab with
    | single hab => exact h.below_of_decomposes hab
    | tail _ hbc ih => exact ih.trans (h.below_of_decomposes hbc)

theorem recursive_iff (hn : n ∈ d.tasks.map (·.name)) : d'.Recursive n ↔ d.Recursive n :=
  h.below_iff hn hn

theorem visits_iff (htop : top ∈ d.tasks.map (·.name)) (hn : n ∈ d.tasks.map (·.name)) :
    d'.Visits top n ↔ d.Visits top n := by
  rw [h.wellFormed.names.visits_iff, h.wellFormed'.names.visits_iff, Reaches, Reaches,
    reflTransGen_iff_eq_or_transGen, reflTransGen_iff_eq_or_transGen, h.below_iff htop hn]

theorem retains : d.Retains d' :=
  ⟨fun _ => h.task?_eq, fun _ _ => h.isPrimitive, fun _ => h.recursive_iff,
    fun _ htop _ => h.visits_iff htop⟩

/-- The new tasks of a method are recursive only if the task of the method is. -/
theorem not_recursive_new {rest next : Method}
    (hspreads : d'.Spreads (d.tasks.map (·.name)) rest next)
    (hnew : next.task ∉ d.tasks.map (·.name)) (hm : m ∈ d.methods)
    (horigin : originName next.name = m.name) (habstract : m.task ∈ d.abstractTasks.map (·.name))
    (hrec : ¬d.Recursive m.task) : ¬d'.Recursive next.task := by
  intro hcycle
  have hpart : d.PartOf d' next.task m.task := .new hspreads.mem hm hnew horigin habstract
  obtain ⟨whole, hwhole, hpath⟩ := h.partOf_path hcycle hpart
  obtain rfl := h.partOf_unique hwhole hpart
  obtain hpath | ⟨-, hpath⟩ := hpath
  · exact hrec hpath
  · -- new tasks alone lead down the rest of the cascade, which comes to an end
    have hacc := hspreads.acc h.oneEach (hspreads.task ▸ hnew)
    rw [← hspreads.task] at hacc
    exact not_cycle_of_acc hacc hpath

end Domain.Regularized

end TaskNetwork
