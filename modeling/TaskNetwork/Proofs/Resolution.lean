import Mathlib.Data.List.Nodup
import TaskNetwork.Proofs.Consistency

namespace TaskNetwork

variable {α : Type}

theorem lastIndex?_eq_some {p : α → Bool} {l : List α} {i : Nat} (h : lastIndex? p l = some i) :
    ∃ a, l[i]? = some a ∧ p a := by
  induction l generalizing i with
  | nil => simp [lastIndex?] at h
  | cons b l ih =>
    cases hl : lastIndex? p l with
    | some j =>
      simp only [lastIndex?, hl, Option.some.injEq] at h
      subst h
      simpa using ih hl
    | none =>
      by_cases hb : p b
      · simp only [lastIndex?, hl, hb, if_true, Option.some.injEq] at h
        subst h
        exact ⟨b, rfl, hb⟩
      · simp [lastIndex?, hl, hb] at h

theorem lastIndex?_eq_none {p : α → Bool} {l : List α} :
    lastIndex? p l = none ↔ ∀ a ∈ l, ¬p a := by
  induction l with
  | nil => simp [lastIndex?]
  | cons b l ih =>
    rw [List.forall_mem_cons, ← ih]
    cases hl : lastIndex? p l with
    | some j => simp [lastIndex?, hl]
    | none => by_cases hb : p b <;> simp [lastIndex?, hl, hb]

theorem eq_of_nodup_map {β : Type} {f : α → β} {l : List α} (hl : (l.map f).Nodup) {a b : α}
    (ha : a ∈ l) (hb : b ∈ l) (h : f a = f b) : a = b :=
  List.inj_on_of_nodup_map hl ha hb h

theorem find?_eq_some_of_nodup_map {f : α → String} {l : List α} (hl : (l.map f).Nodup)
    {name : String} {a : α} :
    l.find? (fun x => decide (f x = name)) = some a ↔ a ∈ l ∧ f a = name := by
  constructor
  · intro h
    exact ⟨List.mem_of_find?_eq_some h, by simpa using List.find?_some h⟩
  · rintro ⟨ha, rfl⟩
    cases h : l.find? (fun x => decide (f x = f a)) with
    | none => exact absurd (decide_eq_true rfl) (List.find?_eq_none.1 h a ha)
    | some b =>
      have hb : f b = f a := by simpa using List.find?_some h
      rw [eq_of_nodup_map hl (List.mem_of_find?_eq_some h) ha hb]

/-- No two tasks and no two methods have the same name. -/
structure Domain.NamesDiffer (d : Domain) : Prop where
  tasks : (d.tasks.map (·.name)).Nodup
  methods : (d.methods.map (·.name)).Nodup

/-- The tasks and methods pass their checks, and names are not repeated. -/
structure Domain.WellFormed (d : Domain) : Prop where
  tasks : ∀ t ∈ d.tasks, t.check = .ok ()
  methods : ∀ m ∈ d.methods, d.checkMethod m = .ok ()
  names : d.NamesDiffer

theorem Task.resolveParameter_eq_ok {t : Task} {parameter : String} {i : Nat}
    (h : t.resolveParameter parameter = .ok i) : t.parameterNames[i]? = some parameter := by
  rw [resolveParameter] at h
  split at h
  · next j hj =>
    obtain ⟨a, ha, hp⟩ := lastIndex?_eq_some hj
    cases h
    simpa [ha] using hp
  · cases h

namespace Method

variable {m : Method} {name : String}

theorem binding_eq_exposed {i : Nat} (h : m.binding name = .ok (.exposed i)) :
    m.taskArguments[i]? = some name := by
  rw [binding] at h
  split at h
  · next j hj =>
    obtain ⟨a, ha, hp⟩ := lastIndex?_eq_some hj
    cases h
    simpa [ha] using hp
  · split at h <;> cases h

theorem sortOf_eq_ok {sort : String} (h : m.sortOf name = .ok sort) :
    { name, sort } ∈ m.declarations := by
  rw [sortOf] at h
  split at h
  · next v hv =>
    cases h
    have hname : v.name = name := by simpa using List.find?_some hv
    have hmem : v ∈ m.declarations := List.mem_reverse.1 (List.mem_of_find?_eq_some hv)
    rwa [← hname]
  · cases h

end Method

namespace Domain

variable {d : Domain} {name : String}

theorem NamesDiffer.task?_eq_some (hd : d.NamesDiffer) {t : Task} :
    d.task? name = some t ↔ t ∈ d.tasks ∧ t.name = name :=
  find?_eq_some_of_nodup_map hd.tasks

theorem mem_of_task?_eq_some {t : Task} (h : d.task? name = some t) :
    t ∈ d.tasks ∧ t.name = name :=
  ⟨List.mem_of_find?_eq_some h, by simpa using List.find?_some h⟩

theorem name_mem_of_task?_eq_some {t : Task} (h : d.task? name = some t) :
    name ∈ d.tasks.map (·.name) := by
  obtain ⟨hmem, rfl⟩ := mem_of_task?_eq_some h
  exact List.mem_map_of_mem hmem

theorem HasArity.mem_names {n : Nat} (h : d.HasArity name n) : name ∈ d.tasks.map (·.name) := by
  obtain ⟨t, ht, -⟩ := h
  exact name_mem_of_task?_eq_some ht

theorem resolveMethod_eq_ok {m : Method} (h : d.resolveMethod name = .ok m) :
    m ∈ d.methods ∧ m.name = name := by
  rw [resolveMethod] at h
  split at h
  · next n hn =>
    cases h
    exact ⟨List.mem_reverse.1 (List.mem_of_find?_eq_some hn), by simpa using List.find?_some hn⟩
  · cases h

theorem sortOf_eq_ok {v sort : String} (h : d.sortOf name v = .ok sort) :
    ∃ m ∈ d.methods, m.name = name ∧ { name := v, sort } ∈ m.declarations := by
  simp only [sortOf, bind_eq_ok] at h
  obtain ⟨m, hm, hs⟩ := h
  obtain ⟨hmem, hname⟩ := resolveMethod_eq_ok hm
  exact ⟨m, hmem, hname, Method.sortOf_eq_ok hs⟩

theorem resolveMethod_of_nodup (hd : (d.methods.map (·.name)).Nodup) {m : Method}
    (hm : m ∈ d.methods) : d.resolveMethod m.name = .ok m := by
  have hr : (d.methods.reverse.map (·.name)).Nodup := by
    rw [List.map_reverse, List.nodup_reverse]
    exact hd
  have hf := (find?_eq_some_of_nodup_map hr).2 ⟨List.mem_reverse.2 hm, rfl⟩
  rw [Domain.resolveMethod, hf]

theorem NamesDiffer.resolveMethod (hd : d.NamesDiffer) {m : Method} (hm : m ∈ d.methods) :
    d.resolveMethod m.name = .ok m :=
  resolveMethod_of_nodup hd.methods hm

theorem NamesDiffer.eq_of_name_eq (hd : d.NamesDiffer) {m n : Method} (hm : m ∈ d.methods)
    (hn : n ∈ d.methods) (h : m.name = n.name) : m = n :=
  eq_of_nodup_map hd.methods hm hn h

theorem NamesDiffer.index_inj (hd : d.NamesDiffer) {m : Method} {i j : Nat}
    (hi : d.methods[i]? = some m) (hj : d.methods[j]? = some m) : i = j :=
  (List.getElem?_inj (List.getElem?_eq_some_iff.1 hi).1 hd.methods.of_map).1 (hi.trans hj.symm)

theorem methodIndex_eq_ok {i : Nat} (h : d.methodIndex name = .ok i) :
    ∃ m, d.methods[i]? = some m ∧ m.name = name := by
  rw [methodIndex] at h
  split at h
  · next j hj =>
    cases h
    obtain ⟨m, hm, hp⟩ := lastIndex?_eq_some hj
    exact ⟨m, hm, by simpa using hp⟩
  · cases h

theorem NamesDiffer.getElem?_methodIndex (hd : d.NamesDiffer) {m : Method} (hm : m ∈ d.methods)
    {i : Nat} (h : d.methodIndex m.name = .ok i) : d.methods[i]? = some m := by
  obtain ⟨n, hn, hname⟩ := methodIndex_eq_ok h
  rwa [hd.eq_of_name_eq (List.mem_of_getElem? hn) hm hname] at hn

theorem exists_methodIndex {m : Method} (hm : m ∈ d.methods) :
    ∃ i, d.methodIndex m.name = .ok i := by
  rw [methodIndex]
  cases hlast : lastIndex? (·.name = m.name) d.methods with
  | none => exact absurd (decide_eq_true rfl) (lastIndex?_eq_none.1 hlast m hm)
  | some i => exact ⟨i, rfl⟩

theorem WellFormed.consistent (h : d.WellFormed) {t : Task} (ht : t ∈ d.tasks) : t.Consistent :=
  Task.check_eq_ok.1 (h.tasks t ht)

theorem WellFormed.fits (h : d.WellFormed) {m : Method} (hm : m ∈ d.methods) : d.Fits m :=
  checkMethod_eq_ok.1 (h.methods m hm)

theorem WellFormed.nodup_parameters (h : d.WellFormed) {t : Task} (ht : d.task? name = some t) :
    t.parameterNames.Nodup :=
  (h.consistent (mem_of_task?_eq_some ht).1).nodup_parameters

theorem mem_methodsOf {task : String} {m : Method} {i : Nat} :
    (m, i) ∈ d.methodsOf task ↔ d.methods[i]? = some m ∧ m.task = task := by
  simp [methodsOf, List.mem_zipIdx_iff_getElem?]

end Domain

end TaskNetwork
