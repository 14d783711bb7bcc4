import TaskNetwork.Proofs.CheckedTrees
import TaskNetwork.Proofs.Solutions
import TaskNetwork.Proofs.TidyInference

namespace TaskNetwork

open Relation

def Method.withCheck (check : Method → Option Task) (m : Method) : Method :=
  match check m with
  | none => m
  | some t => m.checkedBy t

section WithCheck

variable {check : Method → Option Task} {m : Method}

@[simp] theorem Method.withCheck_name : (m.withCheck check).name = m.name := by
  unfold withCheck
  cases check m <;> rfl

@[simp] theorem Method.withCheck_task : (m.withCheck check).task = m.task := by
  unfold withCheck
  cases check m <;> rfl

@[simp] theorem Method.withCheck_taskArguments :
    (m.withCheck check).taskArguments = m.taskArguments := by
  unfold withCheck
  cases check m <;> rfl

@[simp] theorem Method.withCheck_declarations :
    (m.withCheck check).declarations = m.declarations := by
  unfold withCheck
  cases check m <;> rfl

theorem Method.mem_withCheck_steps {s : Step} : s ∈ (m.withCheck check).steps ↔
    s ∈ m.steps ∨ ∃ t, check m = some t ∧ s = m.checkStep t := by
  unfold withCheck
  cases check m with
  | none => simp
  | some t => simp [checkedBy]

end WithCheck

/-- The second domain is the first one with check steps put in, and still consistent. -/
structure Domain.Checked (d d' : Domain) (allowed : Method → Literal → Prop)
    (check : Method → Option Task) : Prop where
  isOpen : Tree.Open d
  guarded : Guarded d d' allowed check
  methods : d'.methods = d.methods.map (·.withCheck check)
  abstractTasks : d'.abstractTasks = d.abstractTasks
  predicates : d'.predicates = d.predicates
  wellFormed : d'.WellFormed

section Shaped

variable {d : Domain} {allowed : Method → Literal → Prop} {w : Draft} {m : Method}

theorem Shaped.checkTask?_eq_some (hd : Tree.Open d) (h : Shaped d allowed none w)
    (hm : m ∈ d.methods) {t : Task} (ht : w.checkTask? m = some t) : ∃ vs ls,
      t = m.checkTask.widen vs ls ∧ t.Consistent ∧
      ∀ v ∈ t.parameterNames, v ∈ m.variableNames := by
  obtain ⟨slot, hslot, ht⟩ := Option.bind_eq_some_iff.1 ht
  obtain ⟨b, u, vs, ls, m', t', -, -, ht', hgrown, -⟩ := h.exists_slot hm hslot
  obtain rfl : t = t' := Option.some.inj (ht.symm.trans ht')
  obtain rfl := hgrown.task
  cases hgrown.starts with
  | old hs _ hst hname =>
    refine absurd ?_ (hd.step_task hm (List.mem_of_getElem? hs))
    rw [hst, hname]
    exact isCheckTask_newCheckTask m.name
  | new _ _ _ =>
    refine ⟨vs, ls, rfl, ?_, fun v hv => ?_⟩
    · exact m.consistent_checkTask.widen hgrown.fresh hgrown.nodup fun l hl =>
        (hgrown.literals l hl).2
    · obtain ⟨x, hx, rfl⟩ := List.mem_map.1 hv
      have hx : x ∈ vs := hx
      obtain ⟨n, hn, hname, hdecl⟩ := Domain.sortOf_eq_ok (hgrown.sorts x hx)
      obtain rfl := hd.wellFormed.names.eq_of_name_eq hn hm hname
      exact List.mem_map_of_mem hdecl

theorem Shaped.methods_eq (hd : Tree.Open d) (h : Shaped d allowed none w) :
    w.methods = d.methods.map (·.withCheck w.checkTask?) := by
  apply List.ext_getElem?
  intro i
  rw [List.getElem?_map]
  cases hi : d.methods[i]? with
  | none => exact List.getElem?_eq_none (h.length_methods ▸ List.getElem?_eq_none_iff.1 hi)
  | some m =>
    rw [Option.map_some, Method.withCheck]
    cases hslot : w.slots.lookup m.name with
    | none =>
      rw [h.untouched i m hi hslot, Draft.checkTask?, hslot]
      rfl
    | some slot =>
      obtain ⟨rfl, b, u, vs, ls, m', t', hm', ht', hgrown, -⟩ := h.slots i m slot hi hslot
      have hcheck : w.checkTask? m = some t' := by
        rw [Draft.checkTask?, hslot]
        exact ht'
      rw [hm', hcheck, hgrown.method, hgrown.task]
      cases hgrown.starts with
      | old hs _ hst hname =>
        refine absurd ?_ (hd.step_task (List.mem_of_getElem? hi) (List.mem_of_getElem? hs))
        rw [hst, hname]
        exact isCheckTask_newCheckTask m.name
      | new hstep _ _ => rw [hstep, m.addCheckStep_widen vs ls]

theorem Method.Consistent.checkedBy (hm : m.Consistent)
    (hid : newCheckStepMark ++ m.name ∉ m.stepIds) {t : Task}
    (ht : ∀ v ∈ t.parameterNames, v ∈ m.variableNames) : (m.checkedBy t).Consistent := by
  have hids : (m.checkedBy t).stepIds = m.stepIds ++ [newCheckStepMark ++ m.name] := by
    rw [Method.stepIds, Method.checkedBy, List.map_append]
    rfl
  refine ⟨hm.nodup_variables, ?_, fun p hp => ?_, fun a ha => ?_⟩
  · rw [hids, List.nodup_append]
    refine ⟨hm.nodup_steps, List.nodup_singleton _, fun a ha b hb => ?_⟩
    obtain rfl := List.mem_singleton.1 hb
    rintro rfl
    exact hid ha
  · rw [hids, List.mem_append, List.mem_append]
    obtain hp | hp := List.mem_append.1 hp
    · obtain ⟨hp₁, hp₂⟩ := hm.ordered p hp
      exact ⟨.inl hp₁, .inl hp₂⟩
    · obtain ⟨s, hs, rfl⟩ := List.mem_map.1 hp
      exact ⟨.inr List.mem_cons_self, .inl (List.mem_map_of_mem hs)⟩
  · have hused : a ∈ m.usedNames ∨ a ∈ t.parameterNames := by
      have hnames : (m.checkStep t).arguments = t.parameterNames := rfl
      simp only [Method.usedNames, Method.checkedBy, List.mem_append, List.flatMap_append,
        List.flatMap_cons, List.flatMap_nil, List.append_nil, hnames] at ha ⊢
      tauto
    exact hused.elim (hm.declared a) (ht a)

theorem Shaped.wellFormed_apply (hd : Tree.Open d) (h : Shaped d allowed none w) :
    (w.apply d).WellFormed := by
  have hsteps : ∀ m ∈ d.methods, ∀ s ∈ m.steps, ¬IsCheckTask s.task :=
    fun m hm s hs => hd.step_task hm hs
  have hg := h.guarded hd.tasks hsteps
  obtain ⟨new, hprim, hnew⟩ := h.primitiveTasks hsteps
  have harity : ∀ {n k}, ¬IsCheckTask n → d.HasArity n k → (w.apply d).HasArity n k := by
    rintro n k hn ⟨t, ht, hlen⟩
    exact ⟨t, (hg.task? n hn).trans ht, hlen⟩
  refine ⟨fun t ht => Task.check_eq_ok.2 ?_, fun m' hm' => Domain.checkMethod_eq_ok.2 ?_, ?_, ?_⟩
  · obtain ht | ht := List.mem_append.1 ht
    · obtain ⟨j, hj⟩ := List.mem_iff_getElem?.1 ht
      obtain hold | ⟨m, hm, slot, hslot, rfl⟩ := h.tasks j t hj
      · exact hd.wellFormed.consistent (List.mem_append_left _ (List.mem_of_getElem? hold))
      · have hcheck : w.checkTask? m = some t := by
          rw [Draft.checkTask?, hslot]
          exact hj
        obtain ⟨_, _, -, hconsistent, -⟩ := h.checkTask?_eq_some hd hm hcheck
        exact hconsistent
    · exact hd.wellFormed.consistent (List.mem_append_right _ ht)
  · change m' ∈ w.methods at hm'
    rw [h.methods_eq hd] at hm'
    obtain ⟨m, hm, rfl⟩ := List.mem_map.1 hm'
    have hfits := hd.wellFormed.fits hm
    refine ⟨?_, ?_, fun s hs => ?_⟩
    · rw [Method.withCheck]
      cases hcheck : w.checkTask? m with
      | none => exact hfits.consistent
      | some t =>
        obtain ⟨_, _, -, -, hvariables⟩ := h.checkTask?_eq_some hd hm hcheck
        exact hfits.consistent.checkedBy (hd.ids m hm) hvariables
    · rw [Method.withCheck_task, Method.withCheck_taskArguments]
      exact harity (hd.method_task hm) hfits.task
    · obtain hs | ⟨t, ht, rfl⟩ := Method.mem_withCheck_steps.1 hs
      · exact harity (hd.step_task hm hs) (hfits.steps s hs)
      · obtain ⟨-, htask, -⟩ := hg.checked m hm t ht
        exact ⟨t, htask, (List.length_map _).symm⟩
  · rw [h.perm_names.nodup_iff, List.nodup_append]
    refine ⟨hd.wellFormed.names.tasks, h.nodup_new, fun a ha b hb => ?_⟩
    rintro rfl
    obtain ⟨t, ht, rfl⟩ := List.mem_map.1 ha
    obtain ⟨u, hu, hname⟩ := List.mem_map.1 hb
    rw [hprim, List.drop_left] at hu
    exact hd.tasks t ht (hname ▸ hnew u hu)
  · change (w.methods.map (·.name)).Nodup
    rw [h.map_name_methods]
    exact hd.wellFormed.names.methods

theorem Shaped.checksOwn_apply (hd : Tree.Open d) (h : Shaped d allowed none w) :
    (w.apply d).ChecksOwn := by
  have hg := h.guarded hd.tasks fun m hm s hs => hd.step_task hm hs
  have hmethods : ∀ m', m' ∈ (w.apply d).methods ↔ ∃ m ∈ d.methods, m.withCheck w.checkTask? = m' := by
    intro m'
    change m' ∈ w.methods ↔ _
    rw [h.methods_eq hd, List.mem_map]
  refine ⟨fun m' hm' s hs hmark => ?_, fun t ht hmark => ?_⟩
  · obtain ⟨m, hm, rfl⟩ := (hmethods m').1 hm'
    obtain hs | ⟨t, ht, rfl⟩ := Method.mem_withCheck_steps.1 hs
    · exact absurd hmark (hd.step_task hm hs)
    · rw [Method.withCheck_name]
      exact ⟨rfl, (hg.checked m hm t ht).2.2.1⟩
  · obtain ht | ht := List.mem_append.1 ht
    · obtain ⟨j, hj⟩ := List.mem_iff_getElem?.1 ht
      obtain hold | ⟨m, hm, slot, hslot, rfl⟩ := h.tasks j t hj
      · exact absurd hmark (hd.tasks t (List.mem_append_left _ (List.mem_of_getElem? hold)))
      · have hcheck : w.checkTask? m = some t := by
          rw [Draft.checkTask?, hslot]
          exact hj
        obtain ⟨vs, ls, rfl, -⟩ := h.checkTask?_eq_some hd hm hcheck
        exact ⟨_, (hmethods _).2 ⟨m, hm, rfl⟩, _, Method.mem_withCheck_steps.2 (.inr ⟨_, hcheck, rfl⟩),
          rfl⟩
    · exact absurd hmark (hd.tasks t (List.mem_append_right _ ht))

theorem Shaped.checked (hd : Tree.Open d) (h : Shaped d allowed none w) :
    d.Checked (w.apply d) allowed w.checkTask? :=
  ⟨hd, h.guarded hd.tasks fun _ hm _ hs => hd.step_task hm hs, h.methods_eq hd, rfl, rfl,
    h.wellFormed_apply hd⟩

end Shaped

theorem Domain.Infers.visits {d : Domain} {top : String} {m : Method} {l : Literal}
    (h : d.Infers top m l) : m ∈ d.methods ∧ d.Visits top m.task ∧ ¬d.IsPrimitive m.task := by
  obtain ⟨w, hw, f, hf, rfl, -⟩ := h
  exact visits_of_finding hw hf

theorem Tree.Open.checksOwn {d : Domain} (hd : Tree.Open d) : d.ChecksOwn :=
  ⟨fun _ hm _ hs hmark => absurd hmark (hd.step_task hm hs),
    fun t ht hmark => absurd hmark (hd.tasks t ht)⟩

theorem checked_of_inferPreconditions {d d' : Domain} (hd : Tree.Open d) {top : String}
    {tally : Tally} (h : d.inferPreconditions top = .ok (d', tally)) :
    ∃ check, d.Checked d' (d.Infers top) check := by
  obtain ⟨w, rfl, hshaped⟩ := shaped_of_inferPreconditions hd.wellFormed.names hd.checksOwn h
  exact ⟨_, hshaped.checked hd⟩

namespace Domain.Checked

variable {d d' : Domain} {allowed : Method → Literal → Prop} {check : Method → Option Task}
  {m : Method} {a b n : String}

theorem mono {allowed' : Method → Literal → Prop} (h : d.Checked d' allowed check)
    (himp : ∀ m l, allowed m l → allowed' m l) : d.Checked d' allowed' check := by
  refine ⟨h.isOpen, ⟨h.guarded.sorts, h.guarded.task?, h.guarded.isPrimitive, h.guarded.unchecked,
    fun m hm t ht => ?_⟩, h.methods, h.abstractTasks, h.predicates, h.wellFormed⟩
  obtain ⟨hmem, htask, hprim, heffects, hne, hnodup, hliterals⟩ := h.guarded.checked m hm t ht
  exact ⟨hmem, htask, hprim, heffects, hne, hnodup, fun l hl => (hliterals l hl).imp_left (himp m l)⟩

theorem mem_methods (h : d.Checked d' allowed check) {m' : Method} :
    m' ∈ d'.methods ↔ ∃ m ∈ d.methods, m.withCheck check = m' := by
  rw [h.methods, List.mem_map]

theorem sortOf (h : d.Checked d' allowed check) (o v : String) : d'.sortOf o v = d.sortOf o v := by
  have hname : (fun m' : Method => decide (m'.name = o)) ∘ (·.withCheck check)
      = fun m : Method => decide (m.name = o) := by
    funext m
    simp
  rw [Domain.sortOf, Domain.sortOf, resolveMethod, resolveMethod, h.methods, ← List.map_reverse,
    List.find?_map, hname]
  cases d.methods.reverse.find? (·.name = o) with
  | none => rfl
  | some m =>
    change (m.withCheck check).sortOf v = m.sortOf v
    rw [Method.sortOf, Method.sortOf, Method.withCheck_declarations]
    cases m.declarations.reverse.find? (·.name = v) with
    | none => simp
    | some u => rfl

theorem not_isCheckTask (h : d.Checked d' allowed check)
    (ha : a ∈ d.abstractTasks.map (·.name)) : ¬IsCheckTask a := by
  obtain ⟨t, ht, rfl⟩ := List.mem_map.1 ha
  exact h.isOpen.tasks t (List.mem_append_right _ ht)

theorem decomposes (h : d.Checked d' allowed check) (hab : d.Decomposes a b) :
    d'.Decomposes a b := by
  obtain ⟨ha, m, hm, rfl, s, hs, rfl⟩ := hab
  exact ⟨h.abstractTasks ▸ ha, _, h.mem_methods.2 ⟨m, hm, rfl⟩, Method.withCheck_task, s,
    Method.mem_withCheck_steps.2 (.inl hs), rfl⟩

theorem decomposes_of (h : d.Checked d' allowed check) (hab : d'.Decomposes a b) :
    ¬IsCheckTask a ∧ (d.Decomposes a b ∨ IsCheckTask b ∧ d'.IsPrimitive b) := by
  obtain ⟨ha, m', hm', rfl, s, hs, rfl⟩ := hab
  obtain ⟨m, hm, rfl⟩ := h.mem_methods.1 hm'
  rw [h.abstractTasks] at ha
  refine ⟨h.not_isCheckTask ha, ?_⟩
  obtain hs | ⟨t, ht, rfl⟩ := Method.mem_withCheck_steps.1 hs
  · exact .inl ⟨ha, m, hm, Method.withCheck_task.symm, s, hs, rfl⟩
  · exact .inr ⟨isCheckTask_newCheckTask m.name, (h.guarded.checked m hm t ht).2.2.1⟩

theorem recursive_iff (h : d.Checked d' allowed check) (hn : ¬IsCheckTask n) :
    d'.Recursive n ↔ d.Recursive n := by
  constructor
  · suffices hpath : ∀ a, TransGen d'.Decomposes a n → TransGen d.Decomposes a n from hpath n
    intro a hpath
    induction hpath using TransGen.head_induction_on with
    | single hab => exact .single ((h.decomposes_of hab).2.resolve_right fun hc => hn hc.1)
    | head hab hbn ih =>
      obtain ⟨c, hbc, -⟩ := TransGen.head'_iff.1 hbn
      exact .head ((h.decomposes_of hab).2.resolve_right fun hc => (h.decomposes_of hbc).1 hc.1) ih
  · exact TransGen.mono (fun _ _ => h.decomposes) _ _

theorem visits (h : d.Checked d' allowed check) {top : String} (hn : d.Visits top n) :
    d'.Visits top n := by
  refine ReflTransGen.mono (fun a b hab => ⟨fun hp => hab.1 ?_, h.decomposes hab.2⟩) _ _ hn
  exact (h.guarded.isPrimitive a (h.not_isCheckTask hab.2.1)).1 hp

theorem visits_of (h : d.Checked d' allowed check) {top : String} (hn : d'.Visits top n) :
    d.Visits top n ∨ IsCheckTask n := by
  induction hn with
  | refl => exact .inl .refl
  | @tail a b _ hab ih =>
    obtain ⟨ha, hdec | hb⟩ := h.decomposes_of hab.2
    · refine .inl ((ih.resolve_right ha).tail ⟨fun hp => hab.1 ?_, hdec⟩)
      exact (h.guarded.isPrimitive a ha).2 hp
    · exact .inr hb.1

theorem retains (h : d.Checked d' allowed check) : d.Retains d' := by
  have hclean : ∀ n ∈ d.tasks.map (·.name), ¬IsCheckTask n := List.forall_mem_map.2 h.isOpen.tasks
  exact ⟨fun n hn => h.guarded.task? n (hclean n hn),
    fun n hn => h.guarded.isPrimitive n (hclean n hn), fun n hn => h.recursive_iff (hclean n hn),
    fun _ _ n hn => ⟨fun hv => (h.visits_of hv).resolve_right (hclean n hn), h.visits⟩⟩

end Domain.Checked

end TaskNetwork
