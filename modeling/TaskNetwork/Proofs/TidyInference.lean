import TaskNetwork.Proofs.Guards
import TaskNetwork.Proofs.Tidiness

namespace TaskNetwork

theorem Task.parameterNames_widen (t : Task) (vs : List TypedName) (ls : List Literal) :
    (t.widen vs ls).parameterNames = t.parameterNames ++ vs.map (·.name) := by
  rw [parameterNames, widen, List.map_append, parameterNames]

theorem Task.Consistent.widen {t : Task} (ht : t.Consistent) {vs : List TypedName}
    {ls : List Literal} (hfresh : ∀ v ∈ vs, v.name ∉ t.parameterNames)
    (hnodup : (vs.map (·.name)).Nodup)
    (hls : ∀ l ∈ ls, ∀ a ∈ l.arguments, a ∈ (t.widen vs ls).parameterNames) :
    (t.widen vs ls).Consistent := by
  refine ⟨?_, ?_, fun l hl a ha => ?_⟩
  · rw [parameterNames_widen, List.nodup_append]
    refine ⟨ht.nodup_parameters, hnodup, fun a ha b hb => ?_⟩
    rintro rfl
    obtain ⟨v, hv, rfl⟩ := List.mem_map.1 hb
    exact hfresh v hv ha
  · apply Nat.le_trans ht.given_le
    rw [Task.widen, List.length_append]
    exact Nat.le_add_right _ _
  · have hold : l ∈ t.preconditions ++ t.effects → a ∈ (t.widen vs ls).parameterNames := by
      intro hl
      rw [parameterNames_widen]
      exact List.mem_append_left _ (ht.declared l hl a ha)
    obtain hl | hl := List.mem_append.1 hl
    · obtain hl | hl := List.mem_append.1 hl
      · exact hold (List.mem_append_left _ hl)
      · exact hls l hl a ha
    · exact hold (List.mem_append_right _ hl)

theorem Method.consistent_checkTask (m : Method) : m.checkTask.Consistent :=
  ⟨List.nodup_nil, Nat.zero_le _, fun l hl => by cases hl⟩

/-- What inference may make of a method: it stays as it is, its check step gets more arguments, or it
gets a check step. -/
inductive Refit (d : Domain) (w : Draft) (m : Method) : Method → Prop
  | same (hnone : w.slots.lookup m.name = none) : Refit d w m m
  | wider {front back : List Step} {s : Step} {t : Task} {vs : List TypedName} {ls : List Literal}
      (hsteps : m.steps = front ++ s :: back) (ht : t ∈ d.primitiveTasks) (hst : s.task = t.name)
      (hname : t.name = newCheckTaskMark ++ m.name) (hu : t.widen vs ls ∈ w.primitiveTasks)
      (hvs : ∀ v ∈ vs, d.sortOf m.name v.name = .ok v.sort) :
      Refit d w m { m with
        steps := front ++ { s with arguments := s.arguments ++ vs.map (·.name) } :: back }
  | checked {vs : List TypedName} {ls : List Literal} (hnone : ∀ s ∈ m.steps, ¬IsCheckTask s.task)
      (hu : m.checkTask.widen vs ls ∈ w.primitiveTasks)
      (hvs : ∀ v ∈ vs, d.sortOf m.name v.name = .ok v.sort) :
      Refit d w m (m.checkedBy (m.checkTask.widen vs ls))

theorem Refit.name {d : Domain} {w : Draft} {m m' : Method} (h : Refit d w m m') :
    m'.name = m.name ∧ m'.task = m.task := by
  cases h <;> exact ⟨rfl, rfl⟩

theorem Refit.exists_step {d : Domain} {w : Draft} {m m' : Method} (h : Refit d w m m') {s : Step}
    (hs : s ∈ m.steps) : ∃ s' ∈ m'.steps, s'.task = s.task := by
  cases h with
  | same _ => exact ⟨s, hs, rfl⟩
  | @wider front back r t vs ls hsteps _ _ _ _ _ =>
    rw [hsteps] at hs
    obtain hs | hs := List.mem_append.1 hs
    · exact ⟨s, List.mem_append_left _ hs, rfl⟩
    · obtain rfl | hs := List.mem_cons.1 hs
      · exact ⟨_, List.mem_append_right _ List.mem_cons_self, rfl⟩
      · exact ⟨s, List.mem_append_right _ (List.mem_cons_of_mem _ hs), rfl⟩
  | checked _ _ _ => exact ⟨s, List.mem_append_left _ hs, rfl⟩

theorem Domain.TidyMethod.not_isCheckTask {origin d : Domain} {m : Method}
    (h : origin.TidyMethod d m) {front back : List Step} {s r : Step}
    (hsteps : m.steps = front ++ s :: back) (hcheck : IsCheckTask s.task)
    (hr : r ∈ front ∨ r ∈ back) : r ∈ m.steps ∧ ¬IsCheckTask r.task := by
  have hnodup : (front.map (·.id) ++ s.id :: back.map (·.id)).Nodup := by
    have hnodup := h.fits.consistent.nodup_steps
    rwa [Method.stepIds, hsteps, List.map_append, List.map_cons] at hnodup
  have hs : s ∈ m.steps := hsteps ▸ List.mem_append_right _ List.mem_cons_self
  have hrmem : r ∈ m.steps := by
    rw [hsteps, List.mem_append, List.mem_cons]
    exact hr.imp id .inr
  refine ⟨hrmem, fun hrcheck => ?_⟩
  obtain ⟨hid, -⟩ := h.check s hs hcheck
  obtain ⟨hrid, -⟩ := h.check r hrmem hrcheck
  refine (List.nodup_cons.1 (List.perm_middle.nodup_iff.1 hnodup)).1 (List.mem_append.2 ?_)
  rw [hid, ← hrid]
  exact hr.imp List.mem_map_of_mem List.mem_map_of_mem

namespace Shaped

variable {origin d : Domain} {allowed : Method → Literal → Prop} {w : Draft} {m : Method}

theorem refit (h : Shaped d allowed none w) {i : ℕ} (hi : d.methods[i]? = some m) :
    ∃ m', w.methods[i]? = some m' ∧ Refit d w m m' := by
  cases hslot : w.slots.lookup m.name with
  | none => exact ⟨m, h.untouched i m hi hslot, .same hslot⟩
  | some slot =>
    obtain ⟨rfl, b, t, vs, ls, m', t', hm', ht', hgrown, -⟩ := h.slots i m slot hi hslot
    refine ⟨m', hm', ?_⟩
    have hu : t.widen vs ls ∈ w.primitiveTasks := hgrown.task ▸ List.mem_of_getElem? ht'
    rw [hgrown.method]
    cases hgrown.starts with
    | @old s _ hs ht hst hname =>
      obtain ⟨hlen, hget⟩ := List.getElem?_eq_some_iff.1 hs
      obtain ⟨front, r, back, hsteps, hfront, hmodify⟩ := List.exists_of_modify
        (fun s : Step => { s with arguments := s.arguments ++ vs.map (·.name) }) hlen
      have hr : m.steps[slot.step]? = some r := by
        rw [hsteps, ← hfront, List.getElem?_append_right (Nat.le_refl _), Nat.sub_self]
        rfl
      obtain rfl : s = r := Option.some.inj (hs.symm.trans hr)
      rw [Method.widen, hmodify]
      exact .wider hsteps (List.mem_of_getElem? ht) hst hname hu hgrown.sorts
    | new hstep _ hnone =>
      rw [hstep, m.addCheckStep_widen vs ls]
      exact .checked hnone hu hgrown.sorts

theorem map_name_methods (h : Shaped d allowed none w) :
    w.methods.map (·.name) = d.methods.map (·.name) := by
  apply List.ext_getElem?
  intro i
  rw [List.getElem?_map, List.getElem?_map]
  cases hi : d.methods[i]? with
  | none => rw [List.getElem?_eq_none (h.length_methods ▸ List.getElem?_eq_none_iff.1 hi)]
  | some m =>
    obtain ⟨m', hm', hrefit⟩ := h.refit hi
    rw [hm', Option.map_some, Option.map_some, hrefit.name.1]

theorem mem_tasks (h : Shaped d allowed none w) {t : Task} (ht : t ∈ d.tasks)
    (hkeep : ∀ m ∈ d.methods, t.name = newCheckTaskMark ++ m.name →
      w.slots.lookup m.name = none) : t ∈ (w.apply d).tasks := by
  obtain ht | ht := List.mem_append.1 ht
  · obtain ⟨j, hj⟩ := List.mem_iff_getElem?.1 ht
    obtain ⟨u, hu, hname⟩ := h.task_name hj
    apply List.mem_append_left _
    obtain hold | ⟨m, hm, slot, hslot, rfl⟩ := h.tasks j u hu
    · obtain rfl : t = u := Option.some.inj (hj.symm.trans hold)
      exact List.mem_of_getElem? hu
    · obtain ⟨b, _, vs, ls, m', u', -, -, hu', hgrown, -⟩ := h.exists_slot hm hslot
      obtain rfl : u = u' := Option.some.inj (hu.symm.trans hu')
      have hnone := hkeep m hm (hname.symm.trans hgrown.name)
      rw [hslot] at hnone
      cases hnone
  · exact List.mem_append_right _ ht

theorem mem_tasks_of_unchecked (h : Shaped d allowed none w) {t : Task} (ht : t ∈ d.tasks)
    (hclean : ¬IsCheckTask t.name) : t ∈ (w.apply d).tasks :=
  h.mem_tasks ht fun m _ hname => absurd (hname ▸ isCheckTask_newCheckTask m.name) hclean

theorem new_task (h : Shaped d allowed none w) {i : ℕ} {u : Task}
    (hu : (w.primitiveTasks.drop d.primitiveTasks.length)[i]? = some u) :
    ∃ m ∈ d.methods, ∃ slot, w.slots.lookup m.name = some slot ∧
      slot.task = d.primitiveTasks.length + i ∧ u.name = newCheckTaskMark ++ m.name ∧
      ∀ s ∈ m.steps, ¬IsCheckTask s.task := by
  rw [List.getElem?_drop] at hu
  obtain hold | ⟨m, hm, slot, hslot, htask⟩ := h.tasks _ u hu
  · have hlt := (List.getElem?_eq_some_iff.1 hold).1
    omega
  · obtain ⟨b, t, vs, ls, m', u', -, -, hu', hgrown, -⟩ := h.exists_slot hm hslot
    obtain rfl : u = u' := Option.some.inj (hu.symm.trans (htask ▸ hu'))
    refine ⟨m, hm, slot, hslot, htask, hgrown.name, ?_⟩
    cases hgrown.starts with
    | old _ ht _ _ =>
      have hlt := (List.getElem?_eq_some_iff.1 ht).1
      omega
    | new _ _ hnone => exact hnone

theorem nodup_new (h : Shaped d allowed none w) :
    ((w.primitiveTasks.drop d.primitiveTasks.length).map (·.name)).Nodup := by
  rw [List.nodup_iff_getElem?_ne_getElem?]
  intro i j hij hj heq
  rw [List.length_map] at hj
  rw [List.getElem?_map, List.getElem?_map, List.getElem?_eq_getElem hj,
    List.getElem?_eq_getElem (hij.trans hj)] at heq
  obtain ⟨m, hm, slot, hslot, hi, hname, -⟩ := h.new_task (List.getElem?_eq_getElem (hij.trans hj))
  obtain ⟨n, hn, other, hother, hj', hname', -⟩ := h.new_task (List.getElem?_eq_getElem hj)
  have hmn : m.name = n.name := newCheckTask_inj
    (hname.symm.trans ((Option.some.inj heq).trans hname'))
  obtain rfl : slot = other := Option.some.inj (hslot.symm.trans (hmn ▸ hother))
  omega

theorem map_name_old (h : Shaped d allowed none w) :
    (w.primitiveTasks.take d.primitiveTasks.length).map (·.name) =
      d.primitiveTasks.map (·.name) := by
  apply List.ext_getElem?
  intro j
  rw [List.getElem?_map, List.getElem?_map]
  obtain hlt | hge := Nat.lt_or_ge j d.primitiveTasks.length
  · obtain ⟨u, hu, hname⟩ := h.task_name (List.getElem?_eq_getElem hlt)
    rw [List.getElem?_take_of_lt hlt, hu, List.getElem?_eq_getElem hlt, Option.map_some,
      Option.map_some, hname]
  · rw [List.getElem?_eq_none hge, List.getElem?_eq_none]
    rw [List.length_take]
    exact Nat.le_trans (Nat.min_le_left _ _) hge

theorem perm_names (h : Shaped d allowed none w) : ((w.apply d).tasks.map (·.name)).Perm
    (d.tasks.map (·.name) ++ (w.primitiveTasks.drop d.primitiveTasks.length).map (·.name)) := by
  have hsplit : w.primitiveTasks.map (·.name) = d.primitiveTasks.map (·.name) ++
      (w.primitiveTasks.drop d.primitiveTasks.length).map (·.name) := by
    rw [← h.map_name_old, ← List.map_append, List.take_append_drop]
  have hall : (w.apply d).tasks.map (·.name) =
      w.primitiveTasks.map (·.name) ++ d.abstractTasks.map (·.name) := List.map_append
  rw [hall, hsplit, Domain.tasks, List.map_append, List.append_assoc, List.append_assoc]
  exact List.perm_append_comm.append_left _

section Tidy

variable (h : Shaped d allowed none w) (htidy : origin.Tidy d)
include h htidy

theorem new_notMem {u : Task} (hu : u ∈ w.primitiveTasks.drop d.primitiveTasks.length) :
    u.name ∉ d.tasks.map (·.name) := by
  intro hmem
  obtain ⟨i, hi⟩ := List.mem_iff_getElem?.1 hu
  obtain ⟨m, hm, -, -, -, hname, hnone⟩ := h.new_task hi
  obtain ⟨t, ht, htu⟩ := List.mem_map.1 hmem
  have hcheck : IsCheckTask t.name := by
    rw [htu, hname]
    exact isCheckTask_newCheckTask m.name
  obtain ⟨n, hn, s, hs, hst⟩ := htidy.used t ht hcheck
  obtain ⟨-, htask, -, -⟩ := (htidy.methods n hn).check s hs (hst ▸ hcheck)
  have hnm : n.name = m.name := newCheckTask_inj
    (htask.symm.trans (hst.trans (htu.trans hname)))
  obtain rfl := htidy.names.eq_of_name_eq hn hm hnm
  exact hnone s hs (hst ▸ hcheck)

theorem namesDiffer_apply : (w.apply d).NamesDiffer := by
  constructor
  · rw [h.perm_names.nodup_iff, List.nodup_append]
    refine ⟨htidy.names.tasks, h.nodup_new, fun a ha b hb => ?_⟩
    rintro rfl
    obtain ⟨u, hu, rfl⟩ := List.mem_map.1 hb
    exact h.new_notMem htidy hu ha
  · change (w.methods.map (·.name)).Nodup
    rw [h.map_name_methods]
    exact htidy.names.methods

theorem hasArity_of_unchecked {name : String} {n : ℕ} (hname : ¬IsCheckTask name)
    (hn : d.HasArity name n) : (w.apply d).HasArity name n := by
  obtain ⟨t, ht, rfl, hlen⟩ := htidy.names.hasArity_iff.1 hn
  exact (h.namesDiffer_apply htidy).hasArity_iff.2 ⟨t, h.mem_tasks_of_unchecked ht hname, rfl, hlen⟩

omit htidy in
theorem isPrimitive_apply {name : String} (hn : d.IsPrimitive name) :
    (w.apply d).IsPrimitive name := by
  rw [Domain.IsPrimitive, ← h.map_name_old] at hn
  obtain ⟨t, ht, rfl⟩ := List.mem_map.1 hn
  exact List.mem_map_of_mem (List.mem_of_mem_take ht)

theorem derives_apply (hm : m ∈ d.methods) : origin.Derives (w.apply d) m.name := by
  obtain hname | ⟨k, hk, s, hs, hname, htask⟩ := (htidy.methods m hm).name
  · exact .inl hname
  · exact .inr ⟨k, hk, s, hs, hname,
      h.perm_names.mem_iff.2 (List.mem_append_left _ htask)⟩

omit h in
theorem mem_variableNames (hm : m ∈ d.methods) {v : TypedName}
    (hv : d.sortOf m.name v.name = .ok v.sort) : v.name ∈ m.variableNames := by
  obtain ⟨n, hn, hname, hdecl⟩ := Domain.sortOf_eq_ok hv
  obtain rfl := htidy.names.eq_of_name_eq hn hm hname
  exact List.mem_map_of_mem hdecl

theorem tidyMethod_same (hm : m ∈ d.methods) (hnone : w.slots.lookup m.name = none) :
    origin.TidyMethod (w.apply d) m := by
  have hold := htidy.methods m hm
  refine ⟨⟨hold.fits.consistent, h.hasArity_of_unchecked htidy hold.task hold.fits.task,
    fun s hs => ?_⟩, h.derives_apply htidy hm, hold.task, fun s hs hcheck => ?_, hold.marked⟩
  · by_cases hcheck : IsCheckTask s.task
    · obtain ⟨-, htask, -, -⟩ := hold.check s hs hcheck
      obtain ⟨t, ht, hname, hlen⟩ := htidy.names.hasArity_iff.1 (hold.fits.steps s hs)
      refine (h.namesDiffer_apply htidy).hasArity_iff.2 ⟨t, h.mem_tasks ht ?_, hname, hlen⟩
      intro n _ hn
      rw [newCheckTask_inj (hn.symm.trans (hname.trans htask))]
      exact hnone
    · exact h.hasArity_of_unchecked htidy hcheck (hold.fits.steps s hs)
  · obtain ⟨hid, htask, hprimitive, horder⟩ := hold.check s hs hcheck
    exact ⟨hid, htask, h.isPrimitive_apply hprimitive, horder⟩

theorem hasArity_widen {t : Task} {n : ℕ} (ht : t ∈ d.primitiveTasks) (hn : d.HasArity t.name n)
    {vs : List TypedName} {ls : List Literal} (hu : t.widen vs ls ∈ w.primitiveTasks) :
    (w.apply d).HasArity t.name (n + vs.length) := by
  obtain ⟨t', ht', hname, hlen⟩ := htidy.names.hasArity_iff.1 hn
  obtain rfl : t' = t := eq_of_nodup_map htidy.names.tasks ht' (List.mem_append_left _ ht) hname
  refine (h.namesDiffer_apply htidy).hasArity_iff.2
    ⟨t'.widen vs ls, List.mem_append_left _ hu, rfl, ?_⟩
  rw [Task.widen, List.length_append, hlen]

theorem tidyMethod_wider (hm : m ∈ d.methods) {front back : List Step} {s : Step} {t : Task}
    {vs : List TypedName} {ls : List Literal} (hsteps : m.steps = front ++ s :: back)
    (ht : t ∈ d.primitiveTasks) (hst : s.task = t.name)
    (hname : t.name = newCheckTaskMark ++ m.name) (hu : t.widen vs ls ∈ w.primitiveTasks)
    (hvs : ∀ v ∈ vs, d.sortOf m.name v.name = .ok v.sort) :
    origin.TidyMethod (w.apply d) { m with
      steps := front ++ { s with arguments := s.arguments ++ vs.map (·.name) } :: back } := by
  have hold := htidy.methods m hm
  have hderives : origin.Derives (w.apply d) m.name := h.derives_apply htidy hm
  have hsmem : s ∈ m.steps := hsteps ▸ List.mem_append_right _ List.mem_cons_self
  have hcheck : IsCheckTask s.task := by
    rw [hst, hname]
    exact isCheckTask_newCheckTask m.name
  obtain ⟨hid, htask, hprimitive, horder⟩ := hold.check s hsmem hcheck
  have hothers : ∀ r, r ∈ front ∨ r ∈ back → r ∈ m.steps ∧ ¬IsCheckTask r.task :=
    fun r hr => hold.not_isCheckTask hsteps hcheck hr
  have hids : (front ++ { s with arguments := s.arguments ++ vs.map (·.name) } :: back).map
      (·.id) = m.steps.map (·.id) := by
    rw [hsteps, List.map_append, List.map_append, List.map_cons, List.map_cons]
  refine ⟨⟨⟨hold.fits.consistent.nodup_variables, ?_, fun p hp => ?_, fun a ha => ?_⟩,
    h.hasArity_of_unchecked htidy hold.task hold.fits.task, fun r hr => ?_⟩,
    hderives, hold.task, fun r hr hrcheck => ?_, fun r hr hmark => ?_⟩
  · rw [Method.stepIds, hids]
    exact hold.fits.consistent.nodup_steps
  · rw [Method.stepIds, hids]
    exact hold.fits.consistent.ordered p hp
  · have hused : a ∈ m.usedNames ∨ a ∈ vs.map (·.name) := by
      simp only [Method.usedNames, hsteps, List.mem_append, List.flatMap_append,
        List.flatMap_cons] at ha ⊢
      tauto
    obtain hused | hused := hused
    · exact hold.fits.consistent.declared a hused
    · obtain ⟨v, hv, rfl⟩ := List.mem_map.1 hused
      exact mem_variableNames htidy hm (hvs v hv)
  · have hother : r ∈ front ∨ r ∈ back → (w.apply d).HasArity r.task r.arguments.length :=
      fun hr => h.hasArity_of_unchecked htidy (hothers r hr).2
        (hold.fits.steps r (hothers r hr).1)
    obtain hr | hr := List.mem_append.1 hr
    · exact hother (.inl hr)
    · obtain rfl | hr := List.mem_cons.1 hr
      · have harity := h.hasArity_widen htidy ht (hst ▸ hold.fits.steps s hsmem) hu
        rw [← hst] at harity
        rwa [List.length_append, List.length_map]
      · exact hother (.inr hr)
  · obtain hr | hr := List.mem_append.1 hr
    · exact absurd hrcheck (hothers r (.inl hr)).2
    · obtain rfl | hr := List.mem_cons.1 hr
      · exact ⟨hid, htask, h.isPrimitive_apply hprimitive, horder⟩
      · exact absurd hrcheck (hothers r (.inr hr)).2
  · obtain hr | hr := List.mem_append.1 hr
    · exact hold.marked r (hothers r (.inl hr)).1 hmark
    · obtain rfl | hr := List.mem_cons.1 hr
      · exact hcheck
      · exact hold.marked r (hothers r (.inr hr)).1 hmark

theorem tidyMethod_checked (hm : m ∈ d.methods) (hnone : ∀ s ∈ m.steps, ¬IsCheckTask s.task)
    {vs : List TypedName} {ls : List Literal} (hu : m.checkTask.widen vs ls ∈ w.primitiveTasks)
    (hvs : ∀ v ∈ vs, d.sortOf m.name v.name = .ok v.sort) :
    origin.TidyMethod (w.apply d) (m.checkedBy (m.checkTask.widen vs ls)) := by
  have hold := htidy.methods m hm
  have hderives : origin.Derives (w.apply d) m.name := h.derives_apply htidy hm
  have hunmarked : ∀ s ∈ m.steps, s.id ≠ newCheckStepMark ++ m.name := by
    intro s hs he
    refine hnone s hs (hold.marked s hs ?_)
    rw [he, String.toList_append]
    exact List.prefix_append _ _
  have hids : (m.checkedBy (m.checkTask.widen vs ls)).stepIds =
      m.stepIds ++ [newCheckStepMark ++ m.name] := by
    rw [Method.stepIds, Method.checkedBy, List.map_append]
    rfl
  refine ⟨⟨⟨hold.fits.consistent.nodup_variables, ?_, fun p hp => ?_, fun a ha => ?_⟩,
    h.hasArity_of_unchecked htidy hold.task hold.fits.task, fun r hr => ?_⟩,
    hderives, hold.task, fun r hr hrcheck => ?_, fun r hr hmark => ?_⟩
  · rw [hids, List.nodup_append]
    refine ⟨hold.fits.consistent.nodup_steps, List.nodup_singleton _, fun a ha b hb => ?_⟩
    obtain rfl := List.mem_singleton.1 hb
    obtain ⟨s, hs, rfl⟩ := List.mem_map.1 ha
    exact hunmarked s hs
  · rw [hids, List.mem_append, List.mem_append]
    obtain hp | hp := List.mem_append.1 hp
    · obtain ⟨hp₁, hp₂⟩ := hold.fits.consistent.ordered p hp
      exact ⟨.inl hp₁, .inl hp₂⟩
    · obtain ⟨s, hs, rfl⟩ := List.mem_map.1 hp
      exact ⟨.inr List.mem_cons_self, .inl (List.mem_map_of_mem hs)⟩
  · have hused : a ∈ m.usedNames ∨ a ∈ vs.map (·.name) := by
      have hnames : (m.checkStep (m.checkTask.widen vs ls)).arguments = vs.map (·.name) := rfl
      simp only [Method.usedNames, Method.checkedBy, List.mem_append, List.flatMap_append,
        List.flatMap_cons, List.flatMap_nil, List.append_nil, hnames] at ha ⊢
      tauto
    obtain hused | hused := hused
    · exact hold.fits.consistent.declared a hused
    · obtain ⟨v, hv, rfl⟩ := List.mem_map.1 hused
      exact mem_variableNames htidy hm (hvs v hv)
  · obtain hr | hr := List.mem_append.1 hr
    · exact h.hasArity_of_unchecked htidy (hnone r hr) (hold.fits.steps r hr)
    · obtain rfl := List.mem_singleton.1 hr
      exact (h.namesDiffer_apply htidy).hasArity_iff.2
        ⟨_, List.mem_append_left _ hu, rfl, (List.length_map _).symm⟩
  · obtain hr | hr := List.mem_append.1 hr
    · exact absurd hrcheck (hnone r hr)
    · obtain rfl := List.mem_singleton.1 hr
      refine ⟨rfl, rfl, List.mem_map.2 ⟨_, hu, rfl⟩, fun p hp => ?_⟩
      obtain hp | hp := List.mem_append.1 hp
      · obtain ⟨s, hs, hps⟩ := List.mem_map.1 (hold.fits.consistent.ordered p hp).2
        rw [← hps]
        exact hunmarked s hs
      · obtain ⟨s, hs, rfl⟩ := List.mem_map.1 hp
        exact hunmarked s hs
  · obtain hr | hr := List.mem_append.1 hr
    · exact hold.marked r hr hmark
    · obtain rfl := List.mem_singleton.1 hr
      exact isCheckTask_newCheckTask m.name

theorem tidyMethod {m' : Method} (hm : m ∈ d.methods) (hrefit : Refit d w m m') :
    origin.TidyMethod (w.apply d) m' := by
  cases hrefit with
  | same hnone => exact h.tidyMethod_same htidy hm hnone
  | wider hsteps ht hst hname hu hvs =>
    exact h.tidyMethod_wider htidy hm hsteps ht hst hname hu hvs
  | checked hnone hu hvs => exact h.tidyMethod_checked htidy hm hnone hu hvs

theorem consistent_apply {t : Task} (ht : t ∈ (w.apply d).tasks) : t.Consistent := by
  obtain ht | ht := List.mem_append.1 ht
  · obtain ⟨j, hj⟩ := List.mem_iff_getElem?.1 ht
    obtain hold | ⟨m, hm, slot, hslot, rfl⟩ := h.tasks j t hj
    · exact htidy.tasks t (List.mem_append_left _ (List.mem_of_getElem? hold))
    · obtain ⟨b, u, vs, ls, m', t', -, -, ht', hgrown, -⟩ := h.exists_slot hm hslot
      obtain rfl : t = t' := Option.some.inj (hj.symm.trans ht')
      have hu : u.Consistent := by
        cases hgrown.starts with
        | old _ hu _ _ => exact htidy.tasks u (List.mem_append_left _ (List.mem_of_getElem? hu))
        | new _ _ _ => exact m.consistent_checkTask
      have hliterals := hgrown.literals
      rw [hgrown.task] at hliterals ⊢
      exact hu.widen hgrown.fresh hgrown.nodup fun l hl => (hliterals l hl).2
  · exact htidy.tasks t (List.mem_append_right _ ht)

theorem used_apply {t : Task} (ht : t ∈ (w.apply d).tasks) (hcheck : IsCheckTask t.name) :
    ∃ m ∈ (w.apply d).methods, ∃ s ∈ m.steps, s.task = t.name := by
  obtain hold | hnew := List.mem_append.1 (h.perm_names.mem_iff.1 (List.mem_map_of_mem ht))
  · obtain ⟨u, hu, hname⟩ := List.mem_map.1 hold
    obtain ⟨m, hm, s, hs, hst⟩ := htidy.used u hu (hname ▸ hcheck)
    obtain ⟨i, hi⟩ := List.mem_iff_getElem?.1 hm
    obtain ⟨m', hm', hrefit⟩ := h.refit hi
    obtain ⟨s', hs', htask⟩ := hrefit.exists_step hs
    exact ⟨m', List.mem_of_getElem? hm', s', hs', htask.trans (hst.trans hname)⟩
  · obtain ⟨u, hu, hname⟩ := List.mem_map.1 hnew
    obtain ⟨j, hj⟩ := List.mem_iff_getElem?.1 hu
    obtain ⟨m, hm, slot, hslot, -, huname, hnone⟩ := h.new_task hj
    obtain ⟨i, hi⟩ := List.mem_iff_getElem?.1 hm
    obtain ⟨m', hm', hrefit⟩ := h.refit hi
    refine ⟨m', List.mem_of_getElem? hm', ?_⟩
    cases hrefit with
    | same hslot' =>
      rw [hslot] at hslot'
      cases hslot'
    | wider hsteps _ hst hname' _ _ =>
      refine absurd ?_ (hnone _ (hsteps ▸ List.mem_append_right _ List.mem_cons_self))
      rw [hst, hname']
      exact isCheckTask_newCheckTask m.name
    | checked _ _ _ =>
      exact ⟨_, List.mem_append_right _ List.mem_cons_self, huname.symm.trans hname⟩

omit htidy in
theorem not_isRestTask_new {u : Task}
    (hu : u ∈ w.primitiveTasks.drop d.primitiveTasks.length) : ¬IsRestTask u.name := by
  intro hrest
  obtain ⟨i, hi⟩ := List.mem_iff_getElem?.1 hu
  obtain ⟨m, -, -, -, -, hname, -⟩ := h.new_task hi
  exact hrest.not_isCheckTask (hname ▸ isCheckTask_newCheckTask m.name)

omit htidy in
theorem restTaskName_mem {k : ℕ} {s : String} :
    restTaskName k s ∈ (w.apply d).tasks.map (·.name) ↔
      restTaskName k s ∈ d.tasks.map (·.name) := by
  rw [h.perm_names.mem_iff, List.mem_append, or_iff_left]
  intro hnew
  obtain ⟨u, hu, hname⟩ := List.mem_map.1 hnew
  exact h.not_isRestTask_new hu (hname ▸ isRestTask_restTaskName k s)

theorem tidy_apply : origin.Tidy (w.apply d) := by
  refine ⟨fun t ht => h.consistent_apply htidy ht, h.namesDiffer_apply htidy, fun m' hm' => ?_,
    fun t ht hcheck => h.used_apply htidy ht hcheck, fun k s hk j hj => ?_, fun t ht hrest => ?_,
    htidy.abstractTasks⟩
  · obtain ⟨i, hi⟩ := List.mem_iff_getElem?.1 hm'
    have hlt : i < d.methods.length := h.length_methods ▸ (List.getElem?_eq_some_iff.1 hi).1
    obtain ⟨n, hn, hrefit⟩ := h.refit (List.getElem?_eq_getElem hlt)
    obtain rfl : m' = n := Option.some.inj (hi.symm.trans hn)
    exact h.tidyMethod htidy (List.getElem_mem hlt) hrefit
  · rw [h.restTaskName_mem] at hk ⊢
    exact htidy.counted k s hk j hj
  · change t ∈ w.primitiveTasks at ht
    rw [← List.take_append_drop d.primitiveTasks.length w.primitiveTasks] at ht
    obtain ht | ht := List.mem_append.1 ht
    · have hname : t.name ∈ d.primitiveTasks.map (·.name) :=
        h.map_name_old ▸ List.mem_map_of_mem ht
      obtain ⟨u, hu, hut⟩ := List.mem_map.1 hname
      exact htidy.unmarked u hu (hut ▸ hrest)
    · exact h.not_isRestTask_new ht hrest

end Tidy

end Shaped

namespace Domain

variable {origin d : Domain}

theorem Tidy.inferPreconditions (h : Tidy origin d) {top : String} {d' : Domain} {tally : Tally}
    (hrun : d.inferPreconditions top = .ok (d', tally)) : Tidy origin d' := by
  obtain ⟨w, rfl, hshaped⟩ := shaped_of_inferPreconditions h.names h.checksOwn hrun
  exact hshaped.tidy_apply h

end Domain

end TaskNetwork
