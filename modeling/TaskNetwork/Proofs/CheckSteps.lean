import TaskNetwork.Proofs.DraftSteps

namespace TaskNetwork

def IsCheckTask (name : String) : Prop := checkTaskMark.toList <+: name.toList

instance (name : String) : Decidable (IsCheckTask name) :=
  inferInstanceAs (Decidable (_ <+: _))

theorem isCheckTask_newCheckTask (name : String) : IsCheckTask (newCheckTaskMark ++ name) := by
  have hmark : newCheckTaskMark = checkTaskMark ++ "inference_" := by decide
  rw [IsCheckTask, hmark, String.toList_append, String.toList_append, List.append_assoc]
  exact List.prefix_append _ _

theorem newCheckTask_inj {a b : String} (h : newCheckTaskMark ++ a = newCheckTaskMark ++ b) :
    a = b := by
  rw [← String.toList_inj, String.toList_append, String.toList_append] at h
  exact String.toList_inj.1 (List.append_cancel_left h)

/-- Each check step has a task of its own, and there are no other tasks of that kind. -/
structure Domain.ChecksOwn (d : Domain) : Prop where
  own : ∀ m ∈ d.methods, ∀ s ∈ m.steps, IsCheckTask s.task →
    s.task = newCheckTaskMark ++ m.name ∧ d.IsPrimitive s.task
  used : ∀ t ∈ d.tasks, IsCheckTask t.name → ∃ m ∈ d.methods, ∃ s ∈ m.steps, s.task = t.name

def Method.widen (m : Method) (step : Nat) (vs : List TypedName) : Method :=
  { m with steps := m.steps.modify step fun s =>
      { s with arguments := s.arguments ++ vs.map (·.name) } }

def Task.widen (t : Task) (vs : List TypedName) (ls : List Literal) : Task :=
  { t with parameters := t.parameters ++ vs, preconditions := t.preconditions ++ ls }

theorem Method.widen_nil (m : Method) (step : Nat) : m.widen step [] = m := by
  have hid : (fun s : Step => { s with
      arguments := s.arguments ++ ([] : List TypedName).map (·.name) }) = id := by
    funext s
    simp
  rw [widen, hid, List.modify_id]

theorem Method.widen_widen (m : Method) (step : Nat) (vs us : List TypedName) :
    (m.widen step vs).widen step us = m.widen step (vs ++ us) := by
  simp only [widen, List.modify_modify_eq, List.map_append, Function.comp_def, List.append_assoc]

theorem Task.widen_nil (t : Task) : t.widen [] [] = t := by
  simp [widen]

inductive Starts (d : Domain) (m : Method) (slot : CheckSlot) : Method → Task → Prop
  | old {s : Step} {t : Task} (hs : m.steps[slot.step]? = some s)
      (ht : d.primitiveTasks[slot.task]? = some t) (hst : s.task = t.name)
      (hname : t.name = newCheckTaskMark ++ m.name) : Starts d m slot m t
  | new (hs : slot.step = m.steps.length) (ht : d.primitiveTasks.length ≤ slot.task)
      (hnone : ∀ s ∈ m.steps, ¬IsCheckTask s.task) : Starts d m slot m.addCheckStep m.checkTask

theorem Starts.name {d : Domain} {m b : Method} {slot : CheckSlot} {t : Task}
    (h : Starts d m slot b t) : t.name = newCheckTaskMark ++ m.name := by
  cases h with
  | old _ _ _ hname => exact hname
  | new _ _ _ => rfl

/-- What inference has made of a method and the task of its check step. -/
structure Grown (d : Domain) (allowed : Literal → Prop) (m : Method) (slot : CheckSlot)
    (b : Method) (t : Task) (vs : List TypedName) (ls : List Literal) (m' : Method) (t' : Task) :
    Prop where
  starts : Starts d m slot b t
  method : m' = b.widen slot.step vs
  task : t' = t.widen vs ls
  fresh : ∀ v ∈ vs, v.name ∉ t.parameterNames
  nodup : (vs.map (·.name)).Nodup
  sorts : ∀ v ∈ vs, d.sortOf m.name v.name = .ok v.sort
  literals : ∀ l ∈ ls, allowed l ∧ ∀ a ∈ l.arguments, a ∈ t'.parameterNames

/-- How far inference has come with a draft. Each method that has a slot checks something, except
perhaps the one that is being worked on. -/
structure Shaped (d : Domain) (allowed : Method → Literal → Prop) (busy : Option String)
    (w : Draft) : Prop where
  length_methods : w.methods.length = d.methods.length
  length_tasks : d.primitiveTasks.length ≤ w.primitiveTasks.length
  untouched : ∀ (i : Nat) (m : Method), d.methods[i]? = some m →
    w.slots.lookup m.name = none → w.methods[i]? = some m
  slots : ∀ (i : Nat) (m : Method) (slot : CheckSlot), d.methods[i]? = some m →
    w.slots.lookup m.name = some slot → slot.method = i ∧ ∃ b t vs ls m' t', w.methods[i]? = some m' ∧
      w.primitiveTasks[slot.task]? = some t' ∧
      Grown d (allowed m) m slot b t vs ls m' t' ∧ (some m.name ≠ busy → ls ≠ [])
  tasks : ∀ (j : Nat) (t : Task), w.primitiveTasks[j]? = some t → d.primitiveTasks[j]? = some t ∨
    ∃ m ∈ d.methods, ∃ slot, w.slots.lookup m.name = some slot ∧ slot.task = j

section Shaped

variable {d : Domain} {allowed : Method → Literal → Prop} {busy : Option String} {w : Draft}
  {m : Method}

theorem shaped_ofDomain : Shaped d allowed busy (Draft.ofDomain d) where
  length_methods := rfl
  length_tasks := Nat.le_refl _
  untouched i m hi _ := hi
  slots i m slot _ h := by cases h
  tasks j t ht := .inl ht

theorem Shaped.exists_slot (h : Shaped d allowed busy w) (hm : m ∈ d.methods) {slot : CheckSlot}
    (hslot : w.slots.lookup m.name = some slot) :
    ∃ b t vs ls m' t', d.methods[slot.method]? = some m ∧ w.methods[slot.method]? = some m' ∧
      w.primitiveTasks[slot.task]? = some t' ∧
      Grown d (allowed m) m slot b t vs ls m' t' ∧ (some m.name ≠ busy → ls ≠ []) := by
  obtain ⟨i, hi⟩ := List.mem_iff_getElem?.1 hm
  obtain ⟨rfl, b, t, vs, ls, m', t', hm', ht', hgrown, hls⟩ := h.slots i m slot hi hslot
  exact ⟨b, t, vs, ls, m', t', hi, hm', ht', hgrown, hls⟩

theorem Grown.name {slot : CheckSlot} {b m' : Method} {t t' : Task} {vs : List TypedName}
    {ls : List Literal} {p : Literal → Prop} (h : Grown d p m slot b t vs ls m' t') :
    t'.name = newCheckTaskMark ++ m.name := by
  rw [h.task]
  exact h.starts.name

theorem Shaped.slot_inj (h : Shaped d allowed busy w) {n : Method} (hm : m ∈ d.methods)
    (hn : n ∈ d.methods) {slot other : CheckSlot} (hslot : w.slots.lookup m.name = some slot)
    (hother : w.slots.lookup n.name = some other) (htask : slot.task = other.task) :
    m.name = n.name := by
  obtain ⟨_, _, _, _, _, t, -, -, ht, hgrown, -⟩ := h.exists_slot hm hslot
  obtain ⟨_, _, _, _, _, u, -, -, hu, hgrown', -⟩ := h.exists_slot hn hother
  obtain rfl : t = u := Option.some.inj (ht.symm.trans (htask ▸ hu))
  exact newCheckTask_inj (hgrown.name.symm.trans hgrown'.name)

theorem index_ne {n : Method} {i j : Nat} (hi : d.methods[i]? = some m)
    (hj : d.methods[j]? = some n) (hne : n.name ≠ m.name) : i ≠ j := by
  rintro rfl
  exact hne (congrArg _ (Option.some.inj (hj.symm.trans hi)))

theorem Shaped.modify (busy' : Option String) (hd : d.NamesDiffer) (h : Shaped d allowed busy w)
    (hm : m ∈ d.methods) {slot : CheckSlot} (hslot : w.slots.lookup m.name = some slot)
    {f : Method → Method} {g : Task → Task}
    (hfg : ∀ b t vs ls m' t', w.primitiveTasks[slot.task]? = some t' →
      Grown d (allowed m) m slot b t vs ls m' t' → (some m.name ≠ busy → ls ≠ []) → ∃ us ks,
      Grown d (allowed m) m slot b t us ks (f m') (g t') ∧ (some m.name ≠ busy' → ks ≠ []))
    (hbusy : ∀ n, n ≠ m.name → some n ≠ busy' → some n ≠ busy) :
    Shaped d allowed busy' { w with
      methods := w.methods.modify slot.method f
      primitiveTasks := w.primitiveTasks.modify slot.task g } := by
  obtain ⟨b, t, vs, ls, m', t', hi, hm', ht', hgrown, hls⟩ := h.exists_slot hm hslot
  refine ⟨?_, ?_, fun j n hj hnone => ?_, fun j n other hj hother => ?_, fun j u hu => ?_⟩
  · rw [List.length_modify]
    exact h.length_methods
  · rw [List.length_modify]
    exact h.length_tasks
  · have hne : n.name ≠ m.name := by
      intro he
      rw [he, hslot] at hnone
      cases hnone
    rw [List.getElem?_modify_ne _ _ (index_ne hi hj hne)]
    exact h.untouched j n hj hnone
  · have hn : n ∈ d.methods := List.mem_of_getElem? hj
    obtain ⟨rfl, b₂, t₂, vs₂, ls₂, n', u', hn', hu', hgrown₂, hls₂⟩ := h.slots j n other hj hother
    refine ⟨rfl, b₂, t₂, ?_⟩
    by_cases hname : n.name = m.name
    · obtain rfl := hd.eq_of_name_eq hn hm hname
      obtain rfl : slot = other := Option.some.inj (hslot.symm.trans hother)
      obtain ⟨us, ks, hnew, hks⟩ := hfg _ _ _ _ _ _ hu' hgrown₂ hls₂
      refine ⟨us, ks, f n', g u', ?_, ?_, hnew, hks⟩
      · rw [List.getElem?_modify_eq, hn']
        rfl
      · rw [List.getElem?_modify_eq, hu']
        rfl
    · have htask : slot.task ≠ other.task := fun he =>
        hname (h.slot_inj hm hn hslot hother he).symm
      refine ⟨vs₂, ls₂, n', u', ?_, ?_, hgrown₂, fun hb => hls₂ (hbusy n.name hname hb)⟩
      · rw [List.getElem?_modify_ne _ _ (index_ne hi hj hname)]
        exact hn'
      · rw [List.getElem?_modify_ne _ _ htask]
        exact hu'
  · by_cases hj : slot.task = j
    · exact .inr ⟨m, hm, slot, hslot, hj⟩
    · rw [List.getElem?_modify_ne _ _ hj] at hu
      exact h.tasks j u hu

theorem Shaped.busy_none (h : Shaped d allowed none w) : Shaped d allowed busy w := by
  refine ⟨h.1, h.2, h.3, fun i m slot hi hslot => ?_, h.5⟩
  obtain ⟨hmethod, b, t, vs, ls, m', t', hm', ht', hgrown, hls⟩ := h.slots i m slot hi hslot
  exact ⟨hmethod, b, t, vs, ls, m', t', hm', ht', hgrown, fun _ => hls (by simp)⟩

theorem Shaped.task_name (h : Shaped d allowed busy w) {j : Nat} {t : Task}
    (ht : d.primitiveTasks[j]? = some t) : ∃ t', w.primitiveTasks[j]? = some t' ∧
      t'.name = t.name := by
  have hj : j < w.primitiveTasks.length :=
    Nat.lt_of_lt_of_le (List.getElem?_eq_some_iff.1 ht).1 h.length_tasks
  refine ⟨_, List.getElem?_eq_getElem hj, ?_⟩
  obtain hold | ⟨m, hm, slot, hslot, rfl⟩ := h.tasks j _ (List.getElem?_eq_getElem hj)
  · rw [Option.some.inj (hold.symm.trans ht)]
  · obtain ⟨b, u, vs, ls, m', u', -, -, hu', hgrown, -⟩ := h.exists_slot hm hslot
    obtain rfl : _ = u' := Option.some.inj ((List.getElem?_eq_getElem hj).symm.trans hu')
    cases hgrown.starts with
    | old hs hu _ _ =>
      obtain rfl := Option.some.inj (hu.symm.trans ht)
      rw [hgrown.task]
      rfl
    | new _ hlen _ => exact absurd (List.getElem?_eq_some_iff.1 ht).1 (Nat.not_lt.2 hlen)

theorem Draft.existingSlot?_eq_some {i : Nat} {slot : CheckSlot}
    (h : w.existingSlot? i = some slot) : slot.method = i ∧ ∃ m s t, w.methods[i]? = some m ∧
      m.steps[slot.step]? = some s ∧ IsCheckTask s.task ∧
      w.primitiveTasks[slot.task]? = some t ∧ t.name = s.task := by
  simp only [existingSlot?, Option.bind_eq_bind, Option.bind_eq_some_iff] at h
  obtain ⟨m, hm, j, hj, s, hs, k, hk, hslot⟩ := h
  obtain rfl : ({ method := i, step := j, task := k } : CheckSlot) = slot := Option.some.inj hslot
  obtain ⟨hjlen, hmark, -⟩ := List.findIdx?_eq_some_iff_getElem.1 hj
  obtain ⟨hklen, hname, -⟩ := List.findIdx?_eq_some_iff_getElem.1 hk
  obtain rfl : m.steps[j] = s := Option.some.inj ((List.getElem?_eq_getElem hjlen).symm.trans hs)
  exact ⟨rfl, m, _, _, hm, hs, List.isPrefixOf_iff_prefix.1 hmark, List.getElem?_eq_getElem hklen,
    by simpa using hname⟩

theorem Draft.existingSlot?_eq_none {i : Nat} (hm : w.methods[i]? = some m)
    (h : w.existingSlot? i = none) : (∀ s ∈ m.steps, ¬IsCheckTask s.task) ∨
      ∃ s ∈ m.steps, IsCheckTask s.task ∧ ∀ t ∈ w.primitiveTasks, t.name ≠ s.task := by
  cases hj : m.steps.findIdx? fun s => checkTaskMark.toList.isPrefixOf s.task.toList with
  | none =>
    refine .inl fun s hs hmark => ?_
    have hno := List.findIdx?_eq_none_iff.1 hj s hs
    rw [List.isPrefixOf_iff_prefix.2 hmark] at hno
    cases hno
  | some j =>
    obtain ⟨hjlen, hmark, -⟩ := List.findIdx?_eq_some_iff_getElem.1 hj
    refine .inr ⟨m.steps[j], List.getElem_mem hjlen, List.isPrefixOf_iff_prefix.1 hmark,
      fun t ht hname => ?_⟩
    cases hk : w.primitiveTasks.findIdx? (·.name = m.steps[j].task) with
    | none => simpa [hname] using List.findIdx?_eq_none_iff.1 hk t ht
    | some k =>
      simp [existingSlot?, hm, hj, List.getElem?_eq_getElem hjlen, hk] at h

theorem Shaped.addSlot (hd : d.NamesDiffer) (h : Shaped d allowed none w)
    (hnone : w.slots.lookup m.name = none) (slot : CheckSlot)
    (hi : d.methods[slot.method]? = some m) {f : Method → Method} (new : List Task) {b : Method}
    {t : Task} (hgrown : Grown d (allowed m) m slot b t [] [] (f m) t)
    (ht : (w.primitiveTasks ++ new)[slot.task]? = some t)
    (hnew : ∀ j u, (w.primitiveTasks ++ new)[j]? = some u → w.primitiveTasks[j]? = some u ∨
      slot.task = j) :
    Shaped d allowed (some m.name) { w with
      methods := w.methods.modify slot.method f
      primitiveTasks := w.primitiveTasks ++ new
      slots := (m.name, slot) :: w.slots } := by
  have hlookup : ∀ n, n ≠ m.name →
      ((m.name, slot) :: w.slots).lookup n = w.slots.lookup n := by
    intro n hn
    rw [List.lookup_cons, beq_false_of_ne hn]
  have hm : m ∈ d.methods := List.mem_of_getElem? hi
  have hself : ((m.name, slot) :: w.slots).lookup m.name = some slot := by
    simp
  refine ⟨?_, ?_, fun j n hj hn => ?_, fun j n other hj hother => ?_, fun j u hu => ?_⟩
  · rw [List.length_modify]
    exact h.length_methods
  · rw [List.length_append]
    exact Nat.le_add_right_of_le h.length_tasks
  · have hne : n.name ≠ m.name := by
      intro he
      rw [he, hself] at hn
      cases hn
    rw [hlookup _ hne] at hn
    rw [List.getElem?_modify_ne _ _ (index_ne hi hj hne)]
    exact h.untouched j n hj hn
  · have hn : n ∈ d.methods := List.mem_of_getElem? hj
    by_cases hname : n.name = m.name
    · obtain rfl := hd.eq_of_name_eq hn hm hname
      obtain rfl : slot = other := Option.some.inj (hself.symm.trans hother)
      obtain rfl : slot.method = j := hd.index_inj hi hj
      refine ⟨rfl, b, t, [], [], f n, t, ?_, ht, hgrown, fun hb => absurd rfl hb⟩
      rw [List.getElem?_modify_eq, h.untouched _ _ hi hnone]
      rfl
    · rw [hlookup _ hname] at hother
      obtain ⟨rfl, b₂, t₂, vs, ls, n', u', hn', hu', hgrown₂, hls⟩ := h.slots j n other hj hother
      refine ⟨rfl, b₂, t₂, vs, ls, n', u', ?_, ?_, hgrown₂, fun _ => hls (by simp)⟩
      · rw [List.getElem?_modify_ne _ _ (index_ne hi hj hname)]
        exact hn'
      · rw [List.getElem?_append_left (List.getElem?_eq_some_iff.1 hu').1]
        exact hu'
  · obtain hu | rfl := hnew j u hu
    · obtain hold | ⟨n, hn, other, hother, htask⟩ := h.tasks j u hu
      · exact .inl hold
      · refine .inr ⟨n, hn, other, ?_, htask⟩
        rw [hlookup]
        · exact hother
        · intro he
          rw [he, hnone] at hother
          cases hother
    · exact .inr ⟨m, hm, slot, hself, rfl⟩

theorem grown_nil {slot : CheckSlot} {b : Method} {t : Task} {p : Literal → Prop}
    (h : Starts d m slot b t) : Grown d p m slot b t [] [] b t where
  starts := h
  method := (b.widen_nil _).symm
  task := t.widen_nil.symm
  fresh v hv := by cases hv
  nodup := List.nodup_nil
  sorts v hv := by cases hv
  literals l hl := by cases hl

theorem Grown.addParameter {p : Literal → Prop} {slot : CheckSlot} {b m' : Method} {t t' : Task}
    {vs : List TypedName} {ls : List Literal} (h : Grown d p m slot b t vs ls m' t')
    {v : TypedName} (hno : v.name ∉ t'.parameterNames) (hs : d.sortOf m.name v.name = .ok v.sort) :
    Grown d p m slot b t (vs ++ [v]) ls
      { m' with steps := m'.steps.modify slot.step fun s =>
          { s with arguments := s.arguments ++ [v.name] } }
      { t' with parameters := t'.parameters ++ [v] } := by
  have hnames : t'.parameterNames = t.parameterNames ++ vs.map (·.name) := by
    rw [h.task, Task.parameterNames, Task.widen, List.map_append, Task.parameterNames]
  rw [hnames, List.mem_append, not_or] at hno
  refine ⟨h.starts, ?_, ?_, ?_, ?_, ?_, fun l hl => ?_⟩
  · rw [← Method.widen_widen, ← h.method]
    rfl
  · rw [h.task]
    simp [Task.widen]
  · intro u hu
    obtain hu | hu := List.mem_append.1 hu
    · exact h.fresh u hu
    · obtain rfl := List.mem_singleton.1 hu
      exact hno.1
  · rw [List.map_append, List.nodup_append]
    refine ⟨h.nodup, List.nodup_singleton _, fun a ha c hc => ?_⟩
    obtain rfl : c = v.name := List.mem_singleton.1 hc
    rintro rfl
    exact hno.2 ha
  · intro u hu
    obtain hu | hu := List.mem_append.1 hu
    · exact h.sorts u hu
    · obtain rfl := List.mem_singleton.1 hu
      exact hs
  · obtain ⟨hp, hargs⟩ := h.literals l hl
    refine ⟨hp, fun a ha => ?_⟩
    rw [Task.parameterNames, List.map_append]
    exact List.mem_append_left _ (hargs a ha)

theorem Grown.addPrecondition {p : Literal → Prop} {slot : CheckSlot} {b m' : Method}
    {t t' : Task} {vs : List TypedName} {ls : List Literal}
    (h : Grown d p m slot b t vs ls m' t') {l : Literal} (hl : p l)
    (hargs : ∀ a ∈ l.arguments, a ∈ t'.parameterNames) :
    Grown d p m slot b t vs (ls ++ [l]) m' (t'.withPrecondition l) := by
  refine ⟨h.starts, h.method, ?_, h.fresh, h.nodup, h.sorts, fun k hk => ?_⟩
  · rw [h.task]
    simp [Task.widen, Task.withPrecondition]
  · obtain hk | hk := List.mem_append.1 hk
    · exact h.literals k hk
    · obtain rfl := List.mem_singleton.1 hk
      exact ⟨hl, hargs⟩

theorem Shaped.task_of_unslotted (h : Shaped d allowed none w)
    (hnone : w.slots.lookup m.name = none) {j : Nat} {t : Task}
    (ht : w.primitiveTasks[j]? = some t) (hname : t.name = newCheckTaskMark ++ m.name) :
    d.primitiveTasks[j]? = some t := by
  obtain hold | ⟨k, hk, other, hother, rfl⟩ := h.tasks j t ht
  · exact hold
  · obtain ⟨b, u, vs, ls, k', u', -, -, hu', hgrown, -⟩ := h.exists_slot hk hother
    obtain rfl : t = u' := Option.some.inj (ht.symm.trans hu')
    have hkm : k.name = m.name := newCheckTask_inj (hgrown.name.symm.trans hname)
    rw [hkm, hnone] at hother
    cases hother

theorem Shaped.not_isCheckTask (hown : d.ChecksOwn) (h : Shaped d allowed none w)
    (hm : m ∈ d.methods) {i : Nat} (hi : w.methods[i]? = some m)
    (hnone : w.existingSlot? i = none) : ∀ s ∈ m.steps, ¬IsCheckTask s.task := by
  obtain hclean | ⟨s, hs, hmark, hno⟩ := Draft.existingSlot?_eq_none hi hnone
  · exact hclean
  · obtain ⟨-, hprim⟩ := hown.own m hm s hs hmark
    obtain ⟨t, ht, hname⟩ := List.mem_map.1 hprim
    obtain ⟨j, hj⟩ := List.mem_iff_getElem?.1 ht
    obtain ⟨t', ht', hname'⟩ := h.task_name hj
    exact absurd (hname'.trans hname) (hno t' (List.mem_of_getElem? ht'))

theorem Shaped.opens (hd : d.NamesDiffer) (hown : d.ChecksOwn) (h : Shaped d allowed none w)
    (hm : m ∈ d.methods) {slot : CheckSlot} {w' : Draft} (hopen : Draft.Opens d m w slot w') :
    Shaped d allowed (some m.name) w' ∧ w'.slots.lookup m.name = some slot := by
  have hself : ∀ slot : CheckSlot, ((m.name, slot) :: w.slots).lookup m.name = some slot := by
    simp
  cases hopen with
  | known hslot => exact ⟨h.busy_none, hslot⟩
  | @found i slot hnone hi hold =>
    obtain ⟨rfl, n, s, t, hn, hs, hmark, ht, hst⟩ := Draft.existingSlot?_eq_some hold
    have hdi := hd.getElem?_methodIndex hm hi
    obtain rfl : m = n := Option.some.inj ((h.untouched _ m hdi hnone).symm.trans hn)
    obtain ⟨hname, -⟩ := hown.own m hm s (List.mem_of_getElem? hs) hmark
    have hdt : d.primitiveTasks[slot.task]? = some t :=
      h.task_of_unslotted hnone ht (hst.trans hname)
    have hstarts : Starts d m slot m t := .old hs hdt hst.symm (hst.trans hname)
    have hadd := h.addSlot hd hnone slot hdi (f := id) [] (grown_nil hstarts)
      (by rwa [List.append_nil]) fun j u hu => .inl (by rwa [List.append_nil] at hu)
    simp only [List.modify_id, List.append_nil] at hadd
    exact ⟨hadd, hself slot⟩
  | @made i hnone hi hold =>
    have hdi : d.methods[i]? = some m := hd.getElem?_methodIndex hm hi
    have hwi : w.methods[i]? = some m := h.untouched i m hdi hnone
    have hclean : ∀ s ∈ m.steps, ¬IsCheckTask s.task := h.not_isCheckTask hown hm hwi hold
    have hslot : (w.addCheckStep i).2 =
        { method := i, step := m.steps.length, task := w.primitiveTasks.length } := by
      simp [Draft.addCheckStep, hwi]
    have hstarts : Starts d m (w.addCheckStep i).2 m.addCheckStep m.checkTask := by
      rw [hslot]
      exact .new rfl h.length_tasks hclean
    refine ⟨?_, by simp⟩
    have hadd := h.addSlot hd hnone (w.addCheckStep i).2 (by rwa [hslot]) (f := Method.addCheckStep)
      [m.checkTask] (grown_nil hstarts) (by simp [hslot]) fun j u hu => ?_
    · simpa [Draft.addCheckStep, hwi] using hadd
    · rw [hslot]
      obtain hlt | hle := Nat.lt_or_ge j w.primitiveTasks.length
      · rw [List.getElem?_append_left hlt] at hu
        exact .inl hu
      · rw [List.getElem?_append_right hle] at hu
        have hj : j - w.primitiveTasks.length < 1 := (List.getElem?_eq_some_iff.1 hu).1
        exact .inr (by dsimp only; omega)

theorem Shaped.widens (hd : d.NamesDiffer) (hm : m ∈ d.methods) {slot : CheckSlot}
    {names : List String} {w' : Draft} (hwiden : Draft.Widens d m slot names w w')
    (h : Shaped d allowed (some m.name) w) (hslot : w.slots.lookup m.name = some slot) :
    Shaped d allowed (some m.name) w' ∧ w'.slots.lookup m.name = some slot ∧
      (∀ a, w.HasParameter slot a → w'.HasParameter slot a) ∧
      ∀ a ∈ names, w'.HasParameter slot a := by
  induction hwiden with
  | nil => exact ⟨h, hslot, fun _ ha => ha, fun a ha => by cases ha⟩
  | has hhas _ ih =>
    obtain ⟨h', hslot', hkeep, hall⟩ := ih h hslot
    exact ⟨h', hslot', hkeep, List.forall_mem_cons.2 ⟨hkeep _ hhas, hall⟩⟩
  | @add name sort names w w' hno hsort _ ih =>
    obtain ⟨b, t, vs, ls, m', t', -, -, ht', -, -⟩ := h.exists_slot hm hslot
    have hnext : Shaped d allowed (some m.name) (w.addParameter slot { name, sort }) := by
      refine h.modify _ hd hm hslot (fun b t vs ls n u hu hgrown _ => ?_) fun n hn hb => hb
      have hnew : name ∉ u.parameterNames := fun ha => hno ⟨u, hu, ha⟩
      exact ⟨_, ls, hgrown.addParameter (v := { name, sort }) hnew hsort, fun hb => absurd rfl hb⟩
    have hpar : ∀ a, w.HasParameter slot a ∨ a = name →
        (w.addParameter slot { name, sort }).HasParameter slot a := by
      intro a ha
      refine ⟨{ t' with parameters := t'.parameters ++ [{ name, sort }] }, ?_, ?_⟩
      · simp only [Draft.addParameter, List.getElem?_modify_eq, ht']
        rfl
      · obtain ⟨u, hu, ha⟩ | rfl := ha
        · obtain rfl : t' = u := Option.some.inj (ht'.symm.trans hu)
          rw [Task.parameterNames, List.map_append]
          exact List.mem_append_left _ ha
        · simp [Task.parameterNames]
    obtain ⟨h', hslot', hkeep, hall⟩ := ih hnext hslot
    refine ⟨h', hslot', fun a ha => hkeep a (hpar a (.inl ha)), ?_⟩
    exact List.forall_mem_cons.2 ⟨hkeep _ (hpar name (.inr rfl)), hall⟩

theorem Shaped.offered (hd : d.NamesDiffer) (hown : d.ChecksOwn) (h : Shaped d allowed none w)
    (hm : m ∈ d.methods) {l : Literal} (hl : allowed m l) {w' : Draft}
    (hoffer : Draft.Offered d m l w w') : Shaped d allowed none w' := by
  cases hoffer with
  | redundant opening _ => exact ⟨h.1, h.2, h.3, h.4, h.5⟩
  | @accepted slot w₁ w₂ hopen hwiden =>
    have hcount : Shaped d allowed none { w with tally := w.tally.accept m.name } :=
      ⟨h.1, h.2, h.3, h.4, h.5⟩
    obtain ⟨h₁, hslot₁⟩ := hcount.opens hd hown hm hopen
    obtain ⟨h₂, hslot₂, -, hall⟩ := Shaped.widens hd hm hwiden h₁ hslot₁
    have hadd := h₂.modify none (f := id) (g := (·.withPrecondition l)) hd hm hslot₂
      (fun b t vs ls m' t' ht' hgrown _ => ?_) fun n hn _ he => hn (Option.some.inj he)
    · rw [List.modify_id] at hadd
      exact hadd
    · refine ⟨vs, ls ++ [l], hgrown.addPrecondition hl fun a ha => ?_, fun _ => by simp⟩
      obtain ⟨u, hu, hau⟩ := hall a ha
      obtain rfl := Option.some.inj (ht'.symm.trans hu)
      exact hau

end Shaped

open Relation in
/-- Inference gives each method at most one check step, with something to check that some sweep
infers for the method. -/
theorem shaped_of_inferPreconditions {d d' : Domain} (hd : d.NamesDiffer) (hown : d.ChecksOwn)
    {top : String} {tally : Tally} (h : d.inferPreconditions top = .ok (d', tally)) :
    ∃ w, d' = w.apply d ∧ Shaped d (d.Infers top) none w := by
  obtain ⟨w, rfl, -, hpath⟩ := offered_of_inferPreconditions h
  refine ⟨w, rfl, ?_⟩
  clear h
  induction hpath with
  | refl => exact shaped_ofDomain
  | tail _ hstep ih =>
    obtain ⟨m, l, hl, hoffer⟩ := hstep
    obtain ⟨v, hv, f, hf, rfl, -⟩ := id hl
    obtain ⟨seen, -, hwalked⟩ := walked_of_sweepAlong (sweep_eq_ok hv)
    exact ih.offered hd hown (hwalked.of_finding hf).1 hl hoffer

end TaskNetwork
