import TaskNetwork.Proofs.InjectedChecks

namespace TaskNetwork

open Draft

/-- When its turn comes among the offers, the literal is not redundant and is accepted for the method.
-/
def Domain.AcceptsAmong (d : Domain) (offers : List (Method × Literal)) (m : Method) (l : Literal) :
    Prop :=
  ∃ before after w, offers = before ++ (m, l) :: after ∧ Offers d before (Draft.ofDomain d) w ∧
    isRedundant d w m l (d.openingTasks m.name) = .ok false

def Domain.Accepts (d : Domain) (top : String) : Method → Literal → Prop :=
  d.AcceptsAmong (d.sweptPredicates.flatMap (d.offersOf top))

theorem Domain.AcceptsAmong.mem {d : Domain} {offers : List (Method × Literal)} {m : Method}
    {l : Literal} (h : d.AcceptsAmong offers m l) : (m, l) ∈ offers := by
  obtain ⟨before, after, w, rfl, -⟩ := h
  exact List.mem_append_right _ List.mem_cons_self

def Method.firstCheckStep? (m : Method) : Option Step := m.steps.find? (IsCheckTask ·.task)

/-- A literal that was accepted for a method, and the parameters that the task of its check step got
for it. -/
structure Acceptance where
  method : Method
  slot : CheckSlot
  literal : Literal
  added : List TypedName

namespace Acceptance

/-- What was added to the arguments of the check step of the method. -/
def addedFor (log : List Acceptance) (m : Method) : List TypedName :=
  (log.filter (·.method = m)).flatMap (·.added)

def addedTo (log : List Acceptance) (task : ℕ) : List TypedName :=
  (log.filter (·.slot.task = task)).flatMap (·.added)

def literalsOf (log : List Acceptance) (task : ℕ) : List Literal :=
  (log.filter (·.slot.task = task)).map (·.literal)

variable {log : List Acceptance} {e : Acceptance} {m : Method} {task : ℕ}

theorem addedFor_append :
    addedFor (log ++ [e]) m = addedFor log m ++ if e.method = m then e.added else [] := by
  by_cases h : e.method = m <;> simp [addedFor, List.filter_append, h]

theorem addedTo_append :
    addedTo (log ++ [e]) task = addedTo log task ++ if e.slot.task = task then e.added else [] := by
  by_cases h : e.slot.task = task <;> simp [addedTo, List.filter_append, h]

theorem literalsOf_append : literalsOf (log ++ [e]) task =
    literalsOf log task ++ if e.slot.task = task then [e.literal] else [] := by
  by_cases h : e.slot.task = task <;> simp [literalsOf, List.filter_append, h]

theorem mem_literalsOf {l : Literal} :
    l ∈ literalsOf log task ↔ ∃ e ∈ log, e.slot.task = task ∧ e.literal = l := by
  simp [literalsOf, and_assoc]

theorem addedFor_eq_nil (h : ∀ e ∈ log, e.method ≠ m) : addedFor log m = [] := by
  rw [addedFor, List.filter_eq_nil_iff.2 fun e he => by simpa using h e he, List.flatMap_nil]

theorem addedTo_eq_nil (h : ∀ e ∈ log, e.slot.task ≠ task) : addedTo log task = [] := by
  rw [addedTo, List.filter_eq_nil_iff.2 fun e he => by simpa using h e he, List.flatMap_nil]

theorem literalsOf_eq_nil : literalsOf log task = [] ↔ ∀ e ∈ log, e.slot.task ≠ task := by
  simp [literalsOf]

end Acceptance

open Acceptance

/-- The primitive tasks, then a task for the check step of each of the methods. -/
def Domain.tasksWith (d : Domain) (made : List Method) : List Task :=
  d.primitiveTasks ++ made.map Method.checkTask

/-- The check step of the method: the first one that it has, whose task is the first of that name
among the primitive tasks and those that were made; or else a new one, for which a task was made. -/
inductive Placed (d : Domain) (made : List Method) (m : Method) (slot : CheckSlot) : Method → Prop
  | found {s : Step} {t : Task} (hfirst : m.firstCheckStep? = some s)
      (hs : m.steps[slot.step]? = some s) (ht : (d.tasksWith made)[slot.task]? = some t)
      (hst : t.name = s.task)
      (hleast : ∀ j u, (d.tasksWith made)[j]? = some u → u.name = s.task → slot.task ≤ j) :
      Placed d made m slot m
  | made {k : ℕ} (hnone : ∀ s, m.firstCheckStep? = some s → ¬d.IsPrimitive s.task)
      (hstep : slot.step = m.steps.length) (hk : made[k]? = some m)
      (htask : slot.task = d.primitiveTasks.length + k) : Placed d made m slot m.addCheckStep

/-- What the acceptances in the log have made of the domain, if tasks were made for the check steps of
the methods in `made`. -/
structure Draft.Logs (d : Domain) (made : List Method) (log : List Acceptance) (w : Draft) :
    Prop where
  length_methods : w.methods.length = d.methods.length
  length_tasks : w.primitiveTasks.length = (d.tasksWith made).length
  tasks : ∀ (j : ℕ) (t : Task), (d.tasksWith made)[j]? = some t →
    w.primitiveTasks[j]? = some (t.widen (addedTo log j) (literalsOf log j))
  consistent : ∀ t ∈ w.primitiveTasks, t.Consistent
  untouched : ∀ (i : ℕ) (m : Method), d.methods[i]? = some m → w.slots.lookup m.name = none →
    w.methods[i]? = some m
  slots : ∀ (i : ℕ) (m : Method) (slot : CheckSlot), d.methods[i]? = some m →
    w.slots.lookup m.name = some slot → slot.method = i ∧ ∃ b, Placed d made m slot b ∧
      w.methods[i]? = some (b.widen slot.step (addedFor log m))
  nodup_made : made.Nodup
  slot_made : ∀ m ∈ made, m ∈ d.methods ∧ (w.slots.lookup m.name).isSome ∧
    ∀ s, m.firstCheckStep? = some s → ¬d.IsPrimitive s.task
  accepted : ∀ e ∈ log, e.method ∈ d.methods ∧ w.slots.lookup e.method.name = some e.slot ∧
    ∀ v ∈ e.added, d.sortOf e.method.name v.name = .ok v.sort

/-- The log has all that was accepted of the offers, and only methods for which something was accepted
have slots. -/
structure Draft.LogsOffers (d : Domain) (offers : List (Method × Literal)) (made : List Method)
    (log : List Acceptance) (w : Draft) : Prop extends Draft.Logs d made log w where
  complete : ∀ m l, (∃ e ∈ log, e.method = m ∧ e.literal = l) ↔ d.AcceptsAmong offers m l
  used : ∀ m ∈ d.methods, (w.slots.lookup m.name).isSome → ∃ e ∈ log, e.method = m

section Logs

variable {d : Domain} {made : List Method} {log : List Acceptance} {w w' : Draft} {m n : Method}
  {slot : CheckSlot} {l : Literal}

theorem Domain.tasksWith_append {new : List Method} :
    d.tasksWith (made ++ new) = d.tasksWith made ++ new.map Method.checkTask := by
  rw [tasksWith, List.map_append, ← List.append_assoc, tasksWith]

theorem Domain.getElem?_tasksWith_made {k : ℕ} (hk : made[k]? = some m) :
    (d.tasksWith made)[d.primitiveTasks.length + k]? = some m.checkTask := by
  rw [tasksWith, List.getElem?_append_right (Nat.le_add_right _ _), Nat.add_sub_cancel_left,
    List.getElem?_map, hk]
  rfl

theorem Placed.append {b : Method} (h : Placed d made m slot b) (new : List Method) :
    Placed d (made ++ new) m slot b := by
  cases h with
  | found hfirst hs ht hst hleast =>
    have hlt := (List.getElem?_eq_some_iff.1 ht).1
    refine .found hfirst hs ?_ hst fun j u hu hname => ?_
    · rw [Domain.tasksWith_append, List.getElem?_append_left hlt, ht]
    · obtain hj | hj := Nat.lt_or_ge j (d.tasksWith made).length
      · rw [Domain.tasksWith_append, List.getElem?_append_left hj] at hu
        exact hleast j u hu hname
      · exact Nat.le_trans hlt.le hj
  | made hnone hstep hk htask =>
    refine .made hnone hstep ?_ htask
    rw [List.getElem?_append_left (List.getElem?_eq_some_iff.1 hk).1, hk]

theorem Placed.exists_task {b : Method} (h : Placed d made m slot b) :
    ∃ t, (d.tasksWith made)[slot.task]? = some t := by
  cases h with
  | found _ _ ht _ _ => exact ⟨_, ht⟩
  | made _ _ hk htask => exact ⟨m.checkTask, htask ▸ Domain.getElem?_tasksWith_made hk⟩

theorem Draft.Logs.withTally (h : w.Logs d made log) (tally : Tally) :
    Draft.Logs d made log { w with tally } :=
  ⟨h.1, h.2, h.3, h.4, h.5, h.6, h.7, h.8, h.9⟩

theorem logs_ofDomain (hd : d.WellFormed) : (Draft.ofDomain d).Logs d [] [] where
  length_methods := rfl
  length_tasks := by simp [Domain.tasksWith, ofDomain]
  tasks j t ht := by
    rw [Domain.tasksWith, List.map_nil, List.append_nil] at ht
    exact ht.trans (congrArg some t.widen_nil.symm)
  consistent t ht := hd.consistent (List.mem_append_left _ ht)
  untouched i m hi _ := hi
  slots i m slot _ h := by cases h
  nodup_made := List.nodup_nil
  slot_made m hm := by cases hm
  accepted e he := by cases he

theorem Draft.Logs.map_name (h : w.Logs d made log) :
    w.primitiveTasks.map (·.name) = (d.tasksWith made).map (·.name) := by
  apply List.ext_getElem?
  intro j
  rw [List.getElem?_map, List.getElem?_map]
  cases hj : (d.tasksWith made)[j]? with
  | some t =>
    rw [h.tasks j t hj]
    rfl
  | none => rw [List.getElem?_eq_none (h.length_tasks ▸ List.getElem?_eq_none_iff.1 hj)]

theorem Draft.Logs.first_task (h : w.Logs d made log) {name : String} {k : ℕ}
    (hk : w.primitiveTasks.findIdx? (·.name = name) = some k) :
    ∃ t, (d.tasksWith made)[k]? = some t ∧ t.name = name ∧
      ∀ j u, (d.tasksWith made)[j]? = some u → u.name = name → k ≤ j := by
  have hbase : (d.tasksWith made).findIdx? (·.name = name) = some k := by
    have hmap : ∀ tasks : List Task, tasks.findIdx? (·.name = name) =
        (tasks.map (·.name)).findIdx? (· = name) := fun tasks => by
      rw [List.findIdx?_map]
      rfl
    rw [hmap, ← h.map_name, ← hmap, hk]
  obtain ⟨hlt, hname, hbefore⟩ := List.findIdx?_eq_some_iff_getElem.1 hbase
  refine ⟨_, List.getElem?_eq_getElem hlt, by simpa using hname, fun j u hu hju => ?_⟩
  by_contra hjk
  obtain ⟨hj, rfl⟩ := List.getElem?_eq_some_iff.1 hu
  exact hbefore j (Nat.lt_of_not_le hjk) (by simpa using hju)

theorem Method.firstCheckStep?_eq : m.firstCheckStep? =
    (m.steps.findIdx? fun s => checkTaskMark.toList.isPrefixOf s.task.toList).bind
      (m.steps[·]?) := by
  have hmark : (fun s : Step => decide (IsCheckTask s.task)) =
      fun s => checkTaskMark.toList.isPrefixOf s.task.toList := by
    funext s
    rw [Bool.eq_iff_iff, decide_eq_true_eq, List.isPrefixOf_iff_prefix, IsCheckTask]
  rw [firstCheckStep?, hmark]
  cases hj : m.steps.findIdx? fun s => checkTaskMark.toList.isPrefixOf s.task.toList with
  | none => exact List.find?_eq_none.2 fun s hs => by simp [List.findIdx?_eq_none_iff.1 hj s hs]
  | some j =>
    rw [List.find?_eq_getElem?_findIdx, (List.findIdx?_eq_some_iff_findIdx_eq.1 hj).2]
    rfl

theorem Draft.existingSlot?_eq_bind {i : ℕ} (hm : w.methods[i]? = some m) : w.existingSlot? i =
    (m.steps.findIdx? fun s => checkTaskMark.toList.isPrefixOf s.task.toList).bind fun step =>
      (m.steps[step]?).bind fun s =>
        (w.primitiveTasks.findIdx? (·.name = s.task)).map fun task => ⟨i, step, task⟩ := by
  simp only [existingSlot?, hm, Option.bind_eq_bind, Option.bind_some, Option.map_eq_bind]
  rfl

theorem Draft.firstCheckStep_of_existingSlot? {i : ℕ} (hm : w.methods[i]? = some m)
    (h : w.existingSlot? i = some slot) : slot.method = i ∧ ∃ s, m.firstCheckStep? = some s ∧
      m.steps[slot.step]? = some s ∧
      w.primitiveTasks.findIdx? (·.name = s.task) = some slot.task := by
  rw [existingSlot?_eq_bind hm] at h
  simp only [Option.bind_eq_some_iff, Option.map_eq_some_iff] at h
  obtain ⟨j, hj, s, hs, k, hk, rfl⟩ := h
  exact ⟨rfl, s, by rw [Method.firstCheckStep?_eq, hj]; exact hs, hs, hk⟩

theorem Draft.notMem_of_existingSlot? {i : ℕ} (hm : w.methods[i]? = some m)
    (h : w.existingSlot? i = none) {s : Step} (hs : m.firstCheckStep? = some s) :
    ∀ t ∈ w.primitiveTasks, t.name ≠ s.task := by
  rw [Method.firstCheckStep?_eq, Option.bind_eq_some_iff] at hs
  obtain ⟨j, hj, hs⟩ := hs
  rw [existingSlot?_eq_bind hm, hj, Option.bind_some, hs, Option.bind_some,
    Option.map_eq_none_iff, List.findIdx?_eq_none_iff] at h
  intro t ht
  simpa using h t ht

theorem Draft.Logs.exists_task (h : w.Logs d made log) (hm : m ∈ d.methods)
    (hslot : w.slots.lookup m.name = some slot) :
    ∃ t, (d.tasksWith made)[slot.task]? = some t := by
  obtain ⟨i, hi⟩ := List.mem_iff_getElem?.1 hm
  obtain ⟨-, b, hplaced, -⟩ := h.slots i m slot hi hslot
  exact hplaced.exists_task

theorem Draft.Logs.task_lt (h : w.Logs d made log) {e : Acceptance} (he : e ∈ log) :
    e.slot.task < (d.tasksWith made).length := by
  obtain ⟨hm, hslot, -⟩ := h.accepted e he
  obtain ⟨t, ht⟩ := h.exists_task hm hslot
  exact (List.getElem?_eq_some_iff.1 ht).1

theorem lookup_cons_of_ne {k name : String} (hk : k ≠ name) (slots : List (String × CheckSlot)) :
    ((name, slot) :: slots).lookup k = slots.lookup k := by
  rw [List.lookup_cons, beq_false_of_ne hk]

theorem Draft.Logs.addedFor_of_unslotted (h : w.Logs d made log)
    (hnone : w.slots.lookup m.name = none) : addedFor log m = [] := by
  refine addedFor_eq_nil ?_
  rintro e he rfl
  have hslot := (h.accepted e he).2.1
  rw [hnone] at hslot
  cases hslot

theorem Draft.Logs.tasks_append (h : w.Logs d made log) {new : List Method} {j : ℕ} {t : Task}
    (ht : (d.tasksWith (made ++ new))[j]? = some t) :
    (w.primitiveTasks ++ new.map Method.checkTask)[j]? =
      some (t.widen (addedTo log j) (literalsOf log j)) := by
  rw [Domain.tasksWith_append] at ht
  obtain hj | hj := Nat.lt_or_ge j (d.tasksWith made).length
  · rw [List.getElem?_append_left hj] at ht
    rw [List.getElem?_append_left (h.length_tasks ▸ hj), h.tasks j t ht]
  · have hlog : ∀ e ∈ log, e.slot.task ≠ j := fun e he => ((h.task_lt he).trans_le hj).ne
    rw [List.getElem?_append_right hj] at ht
    rw [List.getElem?_append_right (h.length_tasks ▸ hj), h.length_tasks, ht,
      addedTo_eq_nil hlog, literalsOf_eq_nil.2 hlog, Task.widen_nil]

theorem Draft.Logs.addSlot (hd : d.NamesDiffer) (h : w.Logs d made log)
    (hnone : w.slots.lookup m.name = none) (hi : d.methods[slot.method]? = some m)
    {f : Method → Method} {new : List Method} (hnodup : new.Nodup)
    (hnew : ∀ n ∈ new, n = m ∧ ∀ s, m.firstCheckStep? = some s → ¬d.IsPrimitive s.task)
    (hplaced : Placed d (made ++ new) m slot (f m)) :
    Draft.Logs d (made ++ new) log { w with
      methods := w.methods.modify slot.method f
      primitiveTasks := w.primitiveTasks ++ new.map Method.checkTask
      slots := (m.name, slot) :: w.slots } := by
  have hm : m ∈ d.methods := List.mem_of_getElem? hi
  have hself : ((m.name, slot) :: w.slots).lookup m.name = some slot := List.lookup_cons_self
  have hfree : ∀ {k : String}, (w.slots.lookup k).isSome → k ≠ m.name := by
    rintro k hk rfl
    rw [hnone] at hk
    cases hk
  exact {
    length_methods := (List.length_modify ..).trans h.length_methods
    length_tasks := by
      rw [List.length_append, h.length_tasks, Domain.tasksWith_append, List.length_append]
    tasks := fun j t ht => h.tasks_append ht
    consistent := fun t ht => by
      obtain ht | ht := List.mem_append.1 ht
      · exact h.consistent t ht
      · obtain ⟨n, -, rfl⟩ := List.mem_map.1 ht
        exact n.consistent_checkTask
    untouched := fun i n hn hk => by
      have hne : n.name ≠ m.name := by
        intro he
        rw [he, hself] at hk
        cases hk
      rw [lookup_cons_of_ne hne] at hk
      rw [List.getElem?_modify_ne _ _ (index_ne hi hn hne), h.untouched i n hn hk]
    slots := fun i n other hn hk => by
      by_cases hne : n.name = m.name
      · obtain rfl := hd.eq_of_name_eq (List.mem_of_getElem? hn) hm hne
        obtain rfl : slot = other := Option.some.inj (hself.symm.trans hk)
        obtain rfl : slot.method = i := hd.index_inj hi hn
        refine ⟨rfl, f n, hplaced, ?_⟩
        rw [List.getElem?_modify_eq, h.untouched _ n hn hnone, h.addedFor_of_unslotted hnone,
          Method.widen_nil]
        rfl
      · rw [lookup_cons_of_ne hne] at hk
        obtain ⟨rfl, b, hb, hw⟩ := h.slots i n other hn hk
        refine ⟨rfl, b, hb.append new, ?_⟩
        rw [List.getElem?_modify_ne _ _ (index_ne hi hn hne), hw]
    nodup_made := List.nodup_append.2 ⟨h.nodup_made, hnodup, fun a ha b hb heq =>
      hfree (h.slot_made a ha).2.1 (congrArg Method.name (heq.trans (hnew b hb).1))⟩
    slot_made := fun n hn => by
      obtain hn | hn := List.mem_append.1 hn
      · obtain ⟨hmem, hsome, hprim⟩ := h.slot_made n hn
        exact ⟨hmem, by rwa [lookup_cons_of_ne (hfree hsome)], hprim⟩
      · obtain ⟨rfl, hprim⟩ := hnew n hn
        exact ⟨hm, by rw [hself]; rfl, hprim⟩
    accepted := fun e he => by
      obtain ⟨hmem, hslot, hadded⟩ := h.accepted e he
      exact ⟨hmem, by rwa [lookup_cons_of_ne (hfree (by rw [hslot]; rfl))], hadded⟩ }

theorem Draft.Logs.opens (hd : d.NamesDiffer) (h : w.Logs d made log) (hm : m ∈ d.methods)
    (hopen : Opens d m w slot w') :
    (∃ made', w'.Logs d made' log) ∧ w'.slots.lookup m.name = some slot ∧
      ∀ k, k ≠ m.name → w'.slots.lookup k = w.slots.lookup k := by
  cases hopen with
  | known hslot => exact ⟨⟨made, h⟩, hslot, fun _ _ => rfl⟩
  | @found i slot hnone hi hold =>
    have hdi := hd.getElem?_methodIndex hm hi
    obtain ⟨rfl, s, hfirst, hs, htask⟩ :=
      firstCheckStep_of_existingSlot? (h.untouched i m hdi hnone) hold
    refine ⟨⟨made ++ [], ?_⟩, List.lookup_cons_self, fun _ hk => lookup_cons_of_ne hk w.slots⟩
    have hplaced : Placed d (made ++ []) m slot (id m) := by
      obtain ⟨t, ht, hname, hleast⟩ := h.first_task htask
      rw [List.append_nil]
      exact .found hfirst hs ht hname hleast
    simpa using h.addSlot hd hnone hdi List.nodup_nil (fun n hn => by cases hn) hplaced
  | @made i hnone hi hold =>
    have hdi := hd.getElem?_methodIndex hm hi
    have hwi := h.untouched i m hdi hnone
    have hslot : (w.addCheckStep i).2 = ⟨i, m.steps.length, w.primitiveTasks.length⟩ := by
      simp [Draft.addCheckStep, hwi]
    refine ⟨⟨made ++ [m], ?_⟩, List.lookup_cons_self, fun _ hk => lookup_cons_of_ne hk w.slots⟩
    have hprim : ∀ s, m.firstCheckStep? = some s → ¬d.IsPrimitive s.task := by
      intro s hs hprim
      have hmem : s.task ∈ w.primitiveTasks.map (·.name) := by
        rw [h.map_name, Domain.tasksWith, List.map_append]
        exact List.mem_append_left _ hprim
      obtain ⟨t, ht, hname⟩ := List.mem_map.1 hmem
      exact notMem_of_existingSlot? hwi hold hs t ht hname
    have hplaced : Placed d (made ++ [m]) m (w.addCheckStep i).2 m.addCheckStep := by
      rw [hslot]
      refine .made (k := made.length) hprim rfl (by simp) ?_
      rw [h.length_tasks, Domain.tasksWith, List.length_append, List.length_map]
    have hi : d.methods[(w.addCheckStep i).2.method]? = some m := by rwa [hslot]
    have hadd := h.addSlot hd hnone hi (List.nodup_singleton m)
      (fun n hn => ⟨List.mem_singleton.1 hn, hprim⟩) hplaced
    simpa [Draft.addCheckStep, hwi] using hadd

theorem nodup_eraseDups : (names : List String) → names.eraseDups.Nodup
  | [] => List.nodup_nil
  | a :: names => by
    rw [List.eraseDups_cons, List.nodup_cons]
    exact ⟨by simp, nodup_eraseDups _⟩
termination_by names => names.length
decreasing_by exact Nat.lt_succ_of_le (List.length_filter_le ..)

theorem Task.Consistent.accept {t : Task} (ht : t.Consistent) {vs : List TypedName}
    (hvs : vs.map (·.name) = (l.arguments.filter (· ∉ t.parameterNames)).eraseDups) :
    (t.widen vs [l]).Consistent := by
  refine ht.widen (fun v hv => ?_) (hvs ▸ nodup_eraseDups _) fun k hk a ha => ?_
  · have hmem := List.mem_map_of_mem (f := (·.name)) hv
    rw [hvs, List.mem_eraseDups, List.mem_filter] at hmem
    exact of_decide_eq_true hmem.2
  · obtain rfl := List.mem_singleton.1 hk
    rw [Task.parameterNames_widen, List.mem_append, hvs]
    by_cases hold : a ∈ t.parameterNames
    · exact .inl hold
    · exact .inr (by simp [ha, hold])

theorem Draft.Logs.slot_method (h : w.Logs d made log) (hslot : w.slots.lookup m.name = some slot)
    {i : ℕ} (hi : d.methods[i]? = some m) : slot.method = i :=
  (h.slots i m slot hi hslot).1

theorem Draft.Logs.accept (hd : d.NamesDiffer) (h : w.Logs d made log) (hm : m ∈ d.methods)
    (hslot : w.slots.lookup m.name = some slot) (hwiden : Widens d m slot l.arguments w w') :
    w'.slots = w.slots ∧
      ∃ vs, (w'.addPrecondition slot l).Logs d made (log ++ [⟨m, slot, l, vs⟩]) := by
  obtain ⟨t, ht⟩ := h.exists_task hm hslot
  have hwt := h.tasks _ t ht
  obtain ⟨vs, hvs, hsorts, rfl⟩ := hwiden.exists_widen hwt
  obtain ⟨i, hi⟩ := List.mem_iff_getElem?.1 hm
  obtain rfl := h.slot_method hslot hi
  have htasks : ((w.widen slot vs).addPrecondition slot l).primitiveTasks =
      w.primitiveTasks.modify slot.task (·.widen vs [l]) := by
    change (w.primitiveTasks.modify _ _).modify _ _ = _
    rw [List.modify_modify_eq]
    congr 1
    funext u
    simp [Task.widen, Task.withPrecondition]
  have hmethods : ((w.widen slot vs).addPrecondition slot l).methods =
      w.methods.modify slot.method (·.widen slot.step vs) := rfl
  exact ⟨rfl, vs, {
    length_methods := (List.length_modify ..).trans h.length_methods
    length_tasks := by rw [htasks, List.length_modify, h.length_tasks]
    tasks := fun j u hu => by
      rw [htasks, addedTo_append, literalsOf_append]
      by_cases hj : slot.task = j
      · rw [if_pos hj, if_pos hj, ← hj, List.getElem?_modify_eq, h.tasks _ u (hj ▸ hu)]
        simp [Task.widen]
      · rw [if_neg hj, if_neg hj, List.append_nil, List.append_nil, List.getElem?_modify_ne _ _ hj,
          h.tasks j u hu]
    consistent := fun u hu => by
      rw [htasks] at hu
      obtain ⟨j, hj⟩ := List.mem_iff_getElem?.1 hu
      by_cases hjt : slot.task = j
      · rw [← hjt, List.getElem?_modify_eq, hwt] at hj
        obtain rfl := Option.some.inj hj
        exact (h.consistent _ (List.mem_of_getElem? hwt)).accept hvs
      · rw [List.getElem?_modify_ne _ _ hjt] at hj
        exact h.consistent u (List.mem_of_getElem? hj)
    untouched := fun i n hn hk => by
      have hne : n.name ≠ m.name := by
        intro he
        rw [he] at hk
        cases hslot.symm.trans hk
      rw [hmethods, List.getElem?_modify_ne _ _ (index_ne hi hn hne), h.untouched i n hn hk]
    slots := fun i n other hn hk => by
      obtain ⟨hother, b, hb, hw⟩ := h.slots i n other hn hk
      refine ⟨hother, b, hb, ?_⟩
      rw [hmethods, addedFor_append]
      by_cases hne : n.name = m.name
      · obtain rfl := hd.eq_of_name_eq (List.mem_of_getElem? hn) hm hne
        obtain rfl : slot = other := Option.some.inj (hslot.symm.trans hk)
        rw [if_pos rfl, ← hother, List.getElem?_modify_eq, hother, hw, ← Method.widen_widen]
        rfl
      · rw [if_neg fun heq => hne (congrArg Method.name heq).symm, List.append_nil,
          List.getElem?_modify_ne _ _ (index_ne hi hn hne), hw]
    nodup_made := h.nodup_made
    slot_made := h.slot_made
    accepted := fun e he => by
      obtain he | he := List.mem_append.1 he
      · exact h.accepted e he
      · obtain rfl := List.mem_singleton.1 he
        exact ⟨hm, hslot, hsorts⟩ }⟩

end Logs

section Run

variable {d d' : Domain} {m n : Method} {l k : Literal} {w w₁ w' : Draft} {top : String}
  {offers : List (Method × Literal)} {tally : Tally} {made : List Method} {log : List Acceptance}

theorem Draft.Offers.unique (h : Offers d offers w w') (h' : Offers d offers w w₁) : w' = w₁ := by
  induction h with
  | nil =>
    cases h'
    rfl
  | cons hoffer _ ih =>
    cases h' with
    | cons hoffer' hrest => exact ih ((Prod.mk.inj (hoffer'.symm.trans hoffer)).2 ▸ hrest)

theorem Draft.Offers.split {others : List (Method × Literal)}
    (h : Offers d (offers ++ others) w w') :
    ∃ w₁, Offers d offers w w₁ ∧ Offers d others w₁ w' := by
  induction offers generalizing w with
  | nil => exact ⟨w, .nil, h⟩
  | cons o offers ih =>
    cases h with
    | cons hoffer hrest =>
      obtain ⟨w₁, hoffers, hothers⟩ := ih hrest
      exact ⟨w₁, .cons hoffer hoffers, hothers⟩

theorem Domain.acceptsAmong_append (hoffers : Offers d offers (Draft.ofDomain d) w) :
    d.AcceptsAmong (offers ++ [(m, l)]) n k ↔ d.AcceptsAmong offers n k ∨
      (n, k) = (m, l) ∧ isRedundant d w m l (d.openingTasks m.name) = .ok false := by
  constructor
  · rintro ⟨before, after, v, heq, hbefore, hred⟩
    obtain rfl | ⟨after, last, rfl⟩ := after.eq_nil_or_concat
    · obtain ⟨rfl, hlast⟩ := List.append_inj' heq rfl
      obtain ⟨rfl, rfl⟩ := Prod.mk.inj (List.cons.inj hlast).1
      rw [hoffers.unique hbefore]
      exact .inr ⟨rfl, hred⟩
    · rw [List.concat_eq_append, ← List.cons_append, ← List.append_assoc] at heq
      exact .inl ⟨before, after, v, (List.append_inj' heq rfl).1, hbefore, hred⟩
  · rintro (⟨before, after, v, rfl, hbefore, hred⟩ | ⟨heq, hred⟩)
    · exact ⟨before, after ++ [(m, l)], v, by simp, hbefore, hred⟩
    · obtain ⟨rfl, rfl⟩ := Prod.mk.inj heq
      exact ⟨offers, [], w, rfl, hoffers, hred⟩

theorem Draft.LogsOffers.offer (hd : d.NamesDiffer) (h : w.LogsOffers d offers made log)
    (hoffers : Offers d offers (Draft.ofDomain d) w) (hm : m ∈ d.methods)
    (hrun : (offer d (d.openingTasks m.name) m l).Runs w () w') :
    ∃ made' log', w'.LogsOffers d (offers ++ [(m, l)]) made' log' := by
  obtain ⟨hred, rfl⟩ | ⟨hred, slot, w₁, w₂, hopen, hwiden, rfl⟩ := offer_of_runs hrun
  · refine ⟨made, log, h.toLogs.withTally _, fun n k => ?_, h.used⟩
    rw [h.complete, Domain.acceptsAmong_append hoffers]
    refine (or_iff_left fun hno => ?_).symm
    cases hred.symm.trans hno.2
  · obtain ⟨⟨made', h₁⟩, hslot, hkept⟩ := (h.toLogs.withTally _).opens hd hm hopen
    obtain ⟨hslots, vs, h₂⟩ := h₁.accept hd hm hslot hwiden
    refine ⟨made', log ++ [⟨m, slot, l, vs⟩], h₂, fun n k => ?_, fun n hn hsome => ?_⟩
    · rw [Domain.acceptsAmong_append hoffers, ← h.complete]
      simp only [List.mem_append, List.mem_singleton, or_and_right, exists_or, exists_eq_left,
        hred, and_true, Prod.mk.injEq, eq_comm (a := n), eq_comm (a := k)]
    · by_cases hne : n.name = m.name
      · obtain rfl := hd.eq_of_name_eq hn hm hne
        exact ⟨_, List.mem_append_right _ List.mem_cons_self, rfl⟩
      · change (w₂.slots.lookup n.name).isSome at hsome
        rw [hslots, hkept _ hne] at hsome
        obtain ⟨e, he, hen⟩ := h.used n hn hsome
        exact ⟨e, List.mem_append_left _ he, hen⟩

/-- What offers have made of the domain is what those of them have made of it that were accepted. -/
theorem exists_log (hd : d.WellFormed) (hoffers : Offers d offers (Draft.ofDomain d) w)
    (hmethods : ∀ o ∈ offers, o.1 ∈ d.methods) : ∃ made log, w.LogsOffers d offers made log := by
  induction offers using List.reverseRecOn generalizing w with
  | nil =>
    cases hoffers
    refine ⟨[], [], logs_ofDomain hd, fun n k => ?_, fun n _ h => (by cases h)⟩
    simp [Domain.AcceptsAmong]
  | append_singleton offers o ih =>
    obtain ⟨w₁, hfirst, hlast⟩ := hoffers.split
    obtain ⟨made, log, hlogs⟩ := ih hfirst fun o ho => hmethods o (List.mem_append_left _ ho)
    have hm := hmethods o (List.mem_append_right _ List.mem_cons_self)
    cases hlast with
    | cons hrun hrest =>
      cases hrest
      exact hlogs.offer hd.names hfirst hm hrun

/-- Whatever check steps there are beforehand, the literals that were accepted tell what inference has
made of the domain. -/
theorem log_of_inferPreconditions (hd : d.WellFormed) (hs : d.SortsDeclared)
    (h : d.inferPreconditions top = .ok (d', tally)) : ∃ (w : Draft) (made : List Method)
      (log : List Acceptance), d' = w.apply d ∧
        w.LogsOffers d (d.sweptPredicates.flatMap (d.offersOf top)) made log := by
  obtain ⟨w, hoffers, rfl, -⟩ := offers_of_inferPreconditions h
  obtain ⟨made, log, hlogs⟩ := exists_log hd hoffers fun o ho => (mem_offersOf.1 ho).mem_methods hd hs
  exact ⟨w, made, log, rfl, hlogs⟩

end Run

end TaskNetwork
