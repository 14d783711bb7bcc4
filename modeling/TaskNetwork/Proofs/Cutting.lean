import TaskNetwork.Proofs.Chains
import TaskNetwork.Proofs.Numbering

namespace TaskNetwork

theorem mem_foldl_addNew {l k : List TypedName} {v : TypedName} :
    v ∈ l.foldl addNew k ↔ v ∈ k ∨ v ∈ l := by
  induction l generalizing k with
  | nil => simp
  | cons u l ih =>
    have hstep : v ∈ addNew k u ↔ v ∈ k ∨ v = u := by
      rw [addNew]
      split
      · next hu => exact ⟨.inl, fun h => h.elim id fun he => he ▸ hu⟩
      · rw [List.mem_append, List.mem_singleton]
    rw [List.foldl_cons, ih, hstep, List.mem_cons, or_assoc]

theorem nodup_foldl_addNew {l k : List TypedName} (hk : k.Nodup) : (l.foldl addNew k).Nodup := by
  induction l generalizing k with
  | nil => exact hk
  | cons u l ih =>
    rw [List.foldl_cons]
    apply ih
    rw [addNew]
    split
    · exact hk
    · next hu =>
      rw [List.nodup_append]
      refine ⟨hk, List.nodup_singleton u, fun a ha b hb => ?_⟩
      obtain rfl := List.mem_singleton.1 hb
      rintro rfl
      exact hu ha

theorem nodup_names {m : Method} (hm : m.variableNames.Nodup) {l : List TypedName} (hl : l.Nodup)
    (hsub : ∀ v ∈ l, v ∈ m.declarations) : (l.map (·.name)).Nodup :=
  hl.map_on fun _ hu _ hv h => List.inj_on_of_nodup_map hm (hsub _ hu) (hsub _ hv) h

theorem mem_of_belongsToRest {firstNames restNames : List String} {c : Literal}
    (h : belongsToRest firstNames restNames c) : ∀ a ∈ c.arguments, a ∈ restNames := by
  rw [belongsToRest, List.all_eq_true] at h
  exact fun a ha => (of_decide_eq_true (h a ha)).2

/-- A consistent chain of the first, the second and at least one later step. -/
structure Method.Splits (m : Method) (first second : Step) (later : List Step) : Prop where
  consistent : m.Consistent
  inListOrder : m.InListOrder
  steps : m.steps = first :: second :: later
  later_ne_nil : later ≠ []

def Method.HeadUses (m : Method) (first : Step) (restNames : List String) (name : String) : Prop :=
  name ∈ m.taskArguments ∨ name ∈ first.arguments ∨
    ∃ c ∈ m.constraints, ¬belongsToRest first.arguments restNames c ∧ name ∈ c.arguments

namespace Method

variable {m : Method} {taskName restName : String} {first second : Step} {later : List Step}
  {v : TypedName} {a : String}

theorem mem_cut_head :
    v ∈ (m.cut taskName restName first second later).head.declarations ↔ v ∈ m.declarations ∧
      m.HeadUses first ((second :: later).flatMap (·.arguments)) v.name := by
  simp only [cut, mem_foldl_addNew, List.mem_filter, List.mem_flatMap, decide_eq_true_eq, HeadUses,
    Bool.not_eq_true', Bool.not_eq_true]
  constructor
  · rintro (⟨hv, h | h⟩ | ⟨c, ⟨hc, hhead⟩, hv, h⟩)
    · exact ⟨hv, .inl h⟩
    · exact ⟨hv, .inr (.inl h)⟩
    · exact ⟨hv, .inr (.inr ⟨c, hc, hhead, h⟩)⟩
  · rintro ⟨hv, h | h | ⟨c, hc, hhead, h⟩⟩
    · exact .inl ⟨hv, .inl h⟩
    · exact .inl ⟨hv, .inr h⟩
    · exact .inr ⟨c, ⟨hc, hhead⟩, hv, h⟩

theorem mem_cut_rest :
    v ∈ (m.cut taskName restName first second later).rest.declarations ↔
      v ∈ m.declarations ∧ v.name ∈ (second :: later).flatMap (·.arguments) := by
  simp [cut, List.mem_filter]

theorem mem_cut_task :
    v ∈ (m.cut taskName restName first second later).task.parameters ↔
      v ∈ (m.cut taskName restName first second later).head.declarations ∧
        v.name ∈ (second :: later).flatMap (·.arguments) := by
  simp only [cut, Task.ofParameters, mem_foldl_addNew, List.mem_filter, decide_eq_true_eq,
    or_and_right]

theorem Splits.declared (h : m.Splits first second later) (ha : a ∈ m.usedNames) :
    ∃ v ∈ m.declarations, v.name = a :=
  List.mem_map.1 (h.consistent.declared a ha)

theorem Splits.mem_usedNames (h : m.Splits first second later)
    (ha : a ∈ first.arguments ∨ a ∈ (second :: later).flatMap (·.arguments)) :
    a ∈ m.usedNames := by
  rw [usedNames, h.steps, List.flatMap_cons]
  exact List.mem_append_left _ (List.mem_append_right _ (List.mem_append.2 ha))

theorem Splits.id_ne (h : m.Splits first second later) : first.id ≠ second.id := by
  have hnodup := h.consistent.nodup_steps
  rw [stepIds, h.steps] at hnodup
  intro he
  exact (List.nodup_cons.1 hnodup).1 (List.mem_map.2 ⟨second, List.mem_cons_self, he.symm⟩)

theorem Splits.consistent_task (h : m.Splits first second later) (taskName restName : String) :
    (m.cut taskName restName first second later).task.Consistent := by
  have hnodup : (m.cut taskName restName first second later).task.parameters.Nodup :=
    nodup_foldl_addNew ((h.consistent.nodup_variables.of_map.filter _).filter _)
  refine ⟨nodup_names h.consistent.nodup_variables hnodup fun v hv => ?_, ?_, fun l hl => ?_⟩
  · exact (mem_cut_head.1 (mem_cut_task.1 hv).1).1
  · exact Nat.mod_le _ _
  · cases hl

theorem Splits.consistent_head (h : m.Splits first second later) (taskName restName : String) :
    (m.cut taskName restName first second later).head.Consistent := by
  have hdecl : ∀ a ∈ m.usedNames,
      m.HeadUses first ((second :: later).flatMap (·.arguments)) a →
      a ∈ (m.cut taskName restName first second later).head.variableNames := by
    intro a ha huse
    obtain ⟨v, hv, rfl⟩ := h.declared ha
    exact List.mem_map.2 ⟨v, mem_cut_head.2 ⟨hv, huse⟩, rfl⟩
  have hids : [first.id, second.id].Nodup := List.nodup_cons.2
    ⟨fun hmem => h.id_ne (List.mem_singleton.1 hmem), List.nodup_singleton _⟩
  refine ⟨nodup_names h.consistent.nodup_variables ?_ fun v hv => (mem_cut_head.1 hv).1, hids,
    fun p hp => ?_, fun a ha => ?_⟩
  · exact nodup_foldl_addNew (h.consistent.nodup_variables.of_map.filter _)
  · obtain rfl := List.mem_singleton.1 hp
    exact ⟨List.mem_cons_self, List.mem_cons_of_mem _ List.mem_cons_self⟩
  · rw [usedNames, List.mem_append, List.mem_append] at ha
    obtain (ha | ha) | ha := ha
    · exact hdecl a (List.mem_append_left _ (List.mem_append_left _ ha)) (.inl ha)
    · have hsteps : a ∈ first.arguments ++
          ((m.cut taskName restName first second later).task.parameterNames ++ []) := ha
      rw [List.append_nil, List.mem_append] at hsteps
      obtain ha | ha := hsteps
      · exact hdecl a (h.mem_usedNames (.inl ha)) (.inr (.inl ha))
      · obtain ⟨v, hv, rfl⟩ := List.mem_map.1 ha
        exact List.mem_map.2 ⟨v, (mem_cut_task.1 hv).1, rfl⟩
    · obtain ⟨c, hc, ha⟩ := List.mem_flatMap.1 ha
      obtain ⟨hc, hhead⟩ := List.mem_filter.1 hc
      refine hdecl a (List.mem_append_right _ (List.mem_flatMap.2 ⟨c, hc, ha⟩)) ?_
      exact .inr (.inr ⟨c, hc, by simpa using hhead, ha⟩)

theorem Splits.inListOrder_rest (h : m.Splits first second later) :
    (m.cut taskName restName first second later).rest.InListOrder := by
  have hids : m.stepIds.tail = (second :: later).map (·.id) := by
    rw [stepIds, h.steps]
    rfl
  change m.ordering.tail = neighbours ((second :: later).map (·.id))
  rw [h.inListOrder, tail_neighbours, hids]

theorem Splits.consistent_rest (h : m.Splits first second later) (taskName restName : String) :
    (m.cut taskName restName first second later).rest.Consistent := by
  have hdecl : ∀ a ∈ (second :: later).flatMap (·.arguments),
      a ∈ (m.cut taskName restName first second later).rest.variableNames := by
    intro a ha
    obtain ⟨v, hv, rfl⟩ := h.declared (h.mem_usedNames (.inr ha))
    exact List.mem_map.2 ⟨v, mem_cut_rest.2 ⟨hv, ha⟩, rfl⟩
  have hids : ((second :: later).map (·.id)).Nodup := by
    have hnodup := h.consistent.nodup_steps
    rw [stepIds, h.steps] at hnodup
    exact hnodup.of_cons
  refine ⟨nodup_names h.consistent.nodup_variables (h.consistent.nodup_variables.of_map.filter _)
    fun v hv => (mem_cut_rest.1 hv).1, hids, fun p hp => ?_, fun a ha => ?_⟩
  · rw [h.inListOrder_rest] at hp
    obtain ⟨hp₁, hp₂⟩ := mem_of_mem_neighbours hp
    exact ⟨hp₁, List.mem_of_mem_tail hp₂⟩
  · rw [usedNames, List.mem_append, List.mem_append] at ha
    obtain (ha | ha) | ha := ha
    · have hparameter : a ∈ (m.cut taskName restName first second later).task.parameterNames := ha
      obtain ⟨v, hv, rfl⟩ := List.mem_map.1 hparameter
      exact hdecl _ (mem_cut_task.1 hv).2
    · exact hdecl a ha
    · obtain ⟨c, hc, ha⟩ := List.mem_flatMap.1 ha
      obtain ⟨-, hrest⟩ := List.mem_filter.1 hc
      exact hdecl a (mem_of_belongsToRest hrest a ha)

theorem Splits.fault?_cut (h : m.Splits first second later) :
    (m.cut taskName restName first second later).fault? = none := by
  have htask := reportViolation_eq_ok.1
    (Task.check_eq_ok.2 (h.consistent_task taskName restName))
  have hhead := reportViolation_eq_ok.1 (check_eq_ok.2 (h.consistent_head taskName restName))
  have hrest := reportViolation_eq_ok.1 (check_eq_ok.2 (h.consistent_rest taskName restName))
  rw [Cut.fault?, htask, hhead, hrest]
  rfl

def nextCounter (taken : List String) (m : Method) : ℕ :=
  freshCounter taken (nameSeed m.name).2 (nameSeed m.name).1

def nextCut (taken : List String) (m : Method) (first second : Step) (later : List Step) : Cut :=
  m.cut (restTaskName (m.nextCounter taken) (nameSeed m.name).2)
    (restMethodName (m.nextCounter taken) (nameSeed m.name).2) first second later

theorem nextCut_task_notMem (taken : List String) :
    (m.nextCut taken first second later).task.name ∉ taken :=
  (freshCounter_spec taken (nameSeed m.name).2 (nameSeed m.name).1).1

theorem exists_splits {n : ℕ} (hm : m.Consistent) (horder : m.InListOrder)
    (hlen : m.steps.length = n + 3) :
    ∃ first second later, m.Splits first second later ∧ later.length = n + 1 := by
  obtain ⟨first, steps, hsteps⟩ := List.exists_cons_of_length_eq_add_one hlen
  obtain ⟨second, later, rfl⟩ := List.exists_cons_of_length_eq_add_one (n := n + 1)
    (by simpa [hsteps] using hlen)
  have hlater : later.length = n + 1 := by simpa [hsteps] using hlen
  exact ⟨first, second, later,
    ⟨hm, horder, hsteps, List.ne_nil_of_length_eq_add_one hlater⟩, hlater⟩

theorem Splits.cascade_succ (h : m.Splits first second later) (taken : List String) (n : ℕ) :
    cascade taken m (n + 1) =
      if m.nextCounter taken < UInt64.size then
        let cut := m.nextCut taken first second later
        let c := cascade (cut.task.name :: taken) cut.rest n
        { c with methods := cut.head :: c.methods, tasks := cut.task :: c.tasks }
      else { fault? := some .overflow } := by
  rw [cascade, h.steps]
  dsimp only
  rw [h.fault?_cut]
  rfl

end Method

open Method

/-- How a cascade comes about. -/
inductive Cascaded : List String → Method → Cascade → Prop
  | short {taken : List String} {m : Method} (hsteps : m.steps.length ≤ 2) :
      Cascaded taken m { methods := [m] }
  | overflow {taken : List String} {m : Method} {first second : Step} {later : List Step}
      (h : m.Splits first second later) (hcounter : UInt64.size ≤ m.nextCounter taken) :
      Cascaded taken m { fault? := some .overflow }
  | cut {taken : List String} {m : Method} {first second : Step} {later : List Step} {c : Cascade}
      (h : m.Splits first second later) (hcounter : m.nextCounter taken < UInt64.size)
      (hrest : Cascaded ((m.nextCut taken first second later).task.name :: taken)
        (m.nextCut taken first second later).rest c) :
      Cascaded taken m { c with
        methods := (m.nextCut taken first second later).head :: c.methods
        tasks := (m.nextCut taken first second later).task :: c.tasks }

theorem cascaded_cascade {taken : List String} {m : Method} {n : ℕ} (hm : m.Consistent)
    (horder : m.InListOrder) (hlen : m.steps.length = n + 2) :
    Cascaded taken m (cascade taken m n) := by
  induction n generalizing taken m with
  | zero => exact .short (Nat.le_of_eq hlen)
  | succ n ih =>
    obtain ⟨first, second, later, h, hlater⟩ := exists_splits hm horder hlen
    rw [h.cascade_succ]
    split
    · next hcounter =>
      exact .cut h hcounter (ih (h.consistent_rest _ _) h.inListOrder_rest
        (congrArg (· + 1) hlater))
    · next hcounter => exact .overflow h (Nat.le_of_not_lt hcounter)

section Cascaded

variable {taken : List String} {m : Method} {c : Cascade}

theorem Cascaded.fault (h : Cascaded taken m c) : c.fault? = none ∨ c.fault? = some .overflow := by
  induction h with
  | short _ => exact .inl rfl
  | overflow _ _ => exact .inr rfl
  | cut _ _ _ ih => exact ih

theorem Cascaded.notMem (h : Cascaded taken m c) : ∀ t ∈ c.tasks, t.name ∉ taken := by
  induction h with
  | short _ => simp
  | overflow _ _ => simp
  | @cut taken m first second later c _ _ _ ih =>
    intro t ht
    obtain rfl | ht := List.mem_cons.1 ht
    · exact nextCut_task_notMem taken
    · exact fun hmem => ih t ht (List.mem_cons_of_mem _ hmem)

theorem Cascaded.nodup (h : Cascaded taken m c) : (c.tasks.map (·.name)).Nodup := by
  induction h with
  | short _ => simp
  | overflow _ _ => simp
  | @cut taken m first second later c _ _ hrest ih =>
    refine List.nodup_cons.2 ⟨fun hmem => ?_, ih⟩
    obtain ⟨t, ht, hname⟩ := List.mem_map.1 hmem
    exact hrest.notMem t ht (hname ▸ List.mem_cons_self)

theorem Cascaded.length_steps (h : Cascaded taken m c) : ∀ r ∈ c.methods, r.steps.length ≤ 2 := by
  induction h with
  | short hsteps => simpa using hsteps
  | overflow _ _ => simp
  | cut _ _ _ ih => exact List.forall_mem_cons.2 ⟨Nat.le_refl 2, ih⟩

theorem Cascaded.exists_head (h : Cascaded taken m c) (hfault : c.fault? = none) :
    ∃ head rests, c.methods = head :: rests ∧ head.name = m.name ∧ head.task = m.task ∧
      rests.map (·.task) = c.tasks.map (·.name) := by
  induction h with
  | @short _ m _ => exact ⟨m, [], rfl, rfl, rfl, rfl⟩
  | overflow _ _ => cases hfault
  | @cut taken m first second later c _ _ _ ih =>
    obtain ⟨head, rests, hmethods, -, htask, hrests⟩ := ih hfault
    refine ⟨_, c.methods, rfl, rfl, rfl, ?_⟩
    rw [hmethods, List.map_cons, List.map_cons, hrests, htask]
    rfl

end Cascaded

inductive CascadedEach : List String → List Method → Cascade → Prop
  | nil {taken : List String} : CascadedEach taken [] {}
  | keep {taken : List String} {m : Method} {ms : List Method} {c : Cascade}
      (hm : m.longChain? = none) (h : CascadedEach taken ms c) :
      CascadedEach taken (m :: ms) { c with methods := m :: c.methods }
  | stop {taken : List String} {m chain : Method} {ms : List Method} {c : Cascade}
      (hm : m.longChain? = some chain) (hc : Cascaded taken chain c)
      (hfault : c.fault? = some .overflow) : CascadedEach taken (m :: ms) c
  | cut {taken : List String} {m chain : Method} {ms : List Method} {first c : Cascade}
      (hm : m.longChain? = some chain) (hfirst : Cascaded taken chain first)
      (hfault : first.fault? = none)
      (h : CascadedEach (first.tasks.map (·.name) ++ taken) ms c) :
      CascadedEach taken (m :: ms) { c with
        methods := first.methods ++ c.methods
        tasks := first.tasks ++ c.tasks
        cutMethods := c.cutMethods + 1 }

theorem cascadedEach_cascades {taken : List String} {ms : List Method}
    (hms : ∀ m ∈ ms, m.Consistent) : CascadedEach taken ms (cascades taken ms) := by
  induction ms generalizing taken with
  | nil => exact .nil
  | cons m ms ih =>
    obtain ⟨hm, hms⟩ := List.forall_mem_cons.1 hms
    rw [cascades]
    split
    · next hlong => exact .keep hlong (ih hms)
    · next chain hlong =>
      obtain ⟨hchain, horder, hlen⟩ := hm.of_longChain? hlong
      have hfirst : Cascaded taken chain (cascade taken chain (chain.steps.length - 2)) :=
        cascaded_cascade hchain horder (by omega)
      obtain hfault | hfault := hfirst.fault
      · simp only [hfault, Option.isSome_none, Bool.false_eq_true, if_false]
        exact .cut hlong hfirst hfault (ih hms)
      · simp only [hfault, Option.isSome_some, if_true]
        exact .stop hlong hfirst hfault

section CascadedEach

variable {taken : List String} {ms : List Method} {c : Cascade}

theorem CascadedEach.fault (h : CascadedEach taken ms c) :
    c.fault? = none ∨ c.fault? = some .overflow := by
  induction h with
  | nil => exact .inl rfl
  | keep _ _ ih => exact ih
  | stop _ _ hfault => exact .inr hfault
  | cut _ _ _ _ ih => exact ih

theorem CascadedEach.notMem (h : CascadedEach taken ms c) : ∀ t ∈ c.tasks, t.name ∉ taken := by
  induction h with
  | nil => simp
  | keep _ _ ih => exact ih
  | stop _ hc _ => exact hc.notMem
  | cut _ hfirst _ _ ih =>
    intro t ht
    obtain ht | ht := List.mem_append.1 ht
    · exact hfirst.notMem t ht
    · exact fun hmem => ih t ht (List.mem_append_right _ hmem)

theorem CascadedEach.nodup (h : CascadedEach taken ms c) : (c.tasks.map (·.name)).Nodup := by
  induction h with
  | nil => exact List.nodup_nil
  | keep _ _ ih => exact ih
  | stop _ hc _ => exact hc.nodup
  | cut _ hfirst _ h ih =>
    rw [List.map_append, List.nodup_append]
    refine ⟨hfirst.nodup, ih, fun a ha b hb => ?_⟩
    rintro rfl
    obtain ⟨t, ht, rfl⟩ := List.mem_map.1 hb
    exact h.notMem t ht (List.mem_append_left _ ha)

end CascadedEach

end TaskNetwork
