import TaskNetwork.Proofs.Renamings

namespace TaskNetwork

open PatternSet

theorem mapM_ok {ε α β : Type} {f : α → Except ε β} {l : List α} (h : ∀ a ∈ l, ∃ b, f a = .ok b) :
    ∃ bs, l.mapM f = .ok bs := by
  induction l with
  | nil => exact ⟨[], rfl⟩
  | cons a l ih =>
    obtain ⟨⟨b, hb⟩, hl⟩ := List.forall_mem_cons.1 h
    obtain ⟨bs, hbs⟩ := ih hl
    exact ⟨b :: bs, by simp only [List.mapM_cons, hb, hbs]; rfl⟩

theorem unionOver_ok {steps : List Step} {f : Step → Except Failure PatternSet}
    (h : ∀ s ∈ steps, ∃ u, f s = .ok u) : ∃ u, unionOver steps f = .ok u := by
  obtain ⟨sets, hsets⟩ := mapM_ok h
  exact ⟨unions sets, by rw [unionOver, hsets]; rfl⟩

/-- What is known of a task is about its parameters and, as to what may be added, about hidden
variables. -/
structure TaskRecord.Within (d : Domain) (names : List String) (r : TaskRecord) : Prop where
  needs : r.needs.Within d names
  ensures : r.ensures.Within d names
  mayAdd : r.mayAdd.Within d names

structure Domain.Scoped (d : Domain) (records : String → TaskRecord) : Prop where
  plain : ∀ n, (records n).Plain
  within : ∀ n t, d.task? n = some t → (records n).Within d t.parameterNames

namespace Method

def Needs (d : Domain) (records : String → TaskRecord) (m : Method) (policy : HiddenPolicy)
    (p : Pattern) : Prop :=
  ∃ s ∈ m.steps, ∃ q ∈ (records s.task).needs.toList, q.lowered d m policy s = some p

def Ensures (d : Domain) (records : String → TaskRecord) (m : Method) (policy : HiddenPolicy)
    (p : Pattern) : Prop :=
  ∃ s ∈ m.steps, ∃ q ∈ (records s.task).ensures.toList, q.lowered d m policy s = some p

/-- A step before this one ensures the pattern. -/
def EnsuresBefore (d : Domain) (records : String → TaskRecord) (m : Method) (s : Step)
    (p : Pattern) : Prop :=
  ∃ e ∈ m.predecessors s.id, ∃ q ∈ (records e.task).ensures.toList,
    q.lowered d m .qualify e = some p

/-- Some step of the method may add the pattern, and no step before it ensures it. -/
def Adds (d : Domain) (records : String → TaskRecord) (m : Method) (p : Pattern) : Prop :=
  ∃ s ∈ m.steps, (∃ q ∈ (records s.task).mayAdd.toList, q.lowered d m .qualify s = some p) ∧
    ¬m.EnsuresBefore d records s p

def AddsAnything (records : String → TaskRecord) (m : Method) : Prop :=
  ∃ s ∈ m.steps, (records s.task).mayAdd = anything

end Method

/-- What the method tells about the task. -/
structure Contributes (d : Domain) (records : String → TaskRecord) (t : Task) (m : Method)
    (c : Contribution) : Prop where
  needs : c.needs ≠ anything ∧ ∀ p, p ∈ c.needs.toList ↔
    ∃ q, m.Needs d records .drop q ∧ q.raised t m = p
  ensures : c.ensures ≠ anything ∧ ∀ p, p ∈ c.ensures.toList ↔
    ∃ q, m.Ensures d records .drop q ∧ q.raised t m = p
  adds_anything : c.mayAdd = anything ↔ m.AddsAnything records
  mayAdd : c.mayAdd ≠ anything → ∀ p, p ∈ c.mayAdd.toList ↔
    ∃ q, m.Adds d records q ∧ q.raised t m = p

section Sets

variable {d : Domain} {m : Method} {s : Step} {t : Task} {policy : HiddenPolicy}
  {u v : PatternSet} {records : String → TaskRecord} {p : Pattern}

theorem PatternSet.exists_lower (h : ∀ p ∈ u.toList, ∃ r, p.lower (d.resolveTask s.task)
    (d.resolveMethod m.name) m s policy = .ok r) : ∃ v, u.lower d m s policy = .ok v := by
  cases u with
  | anything => exact ⟨_, rfl⟩
  | listed ps =>
    obtain ⟨rs, hrs⟩ := mapM_ok h
    rw [toList_listed] at hrs
    exact ⟨ofList (rs.filterMap id), by simp only [lower, hrs]; rfl⟩

theorem PatternSet.lower_ok (policy : HiddenPolicy) (h : d.Calls m s t)
    (hu : u.Within d t.parameterNames) :
    ∃ v, u.lower d m s policy = .ok v ∧ (v = anything ↔ u = anything) ∧
      ∀ q, q ∈ v.toList ↔ ∃ p ∈ u.toList, p.lowered d m policy s = some q := by
  have hlower : ∀ p ∈ u.toList, p.lower (d.resolveTask s.task) (d.resolveMethod m.name) m s policy
      = .ok (p.lowered d m policy s) := fun p hp => Pattern.lower_eq h (hu p hp)
  obtain ⟨v, hv⟩ := exists_lower fun p hp => ⟨_, hlower p hp⟩
  have hlowers := lowers_of_lower hv
  refine ⟨v, hv, hlowers.anything_iff, fun q => (hlowers.mem_iff q).trans ?_⟩
  refine exists_congr fun p => and_congr_right fun hp => ?_
  rw [hlower p hp, Except.ok.injEq]

theorem PatternSet.raise_ok (h : d.Does m t) (hu : u.Within d m.taskArguments) :
    ∃ v, u.raise d t m = .ok v ∧ (v = anything ↔ u = anything) ∧
      (∀ q, q ∈ v.toList ↔ ∃ p ∈ u.toList, p.raised t m = q) ∧ v.Within d t.parameterNames := by
  have hraise : ∀ p ∈ u.toList, p.raise t (d.resolveMethod m.name) m = .ok (p.raised t m) :=
    fun p hp => Pattern.raise_eq h (hu p hp)
  obtain ⟨v, hv⟩ : ∃ v, u.raise d t m = .ok v := by
    cases u with
    | anything => exact ⟨_, rfl⟩
    | listed ps =>
      obtain ⟨qs, hqs⟩ := mapM_ok fun p hp => ⟨_, hraise p hp⟩
      rw [toList_listed] at hqs
      exact ⟨ofList qs, by simp only [raise, hqs]; rfl⟩
  have hraises := raises_of_raise hv
  have hmem : ∀ q, q ∈ v.toList ↔ ∃ p ∈ u.toList, p.raised t m = q := by
    refine fun q => (hraises.mem_iff q).trans (exists_congr fun p => and_congr_right fun hp => ?_)
    rw [hraise p hp, Except.ok.injEq]
  refine ⟨v, hv, hraises.anything_iff, hmem, fun q hq => ?_⟩
  obtain ⟨p, hp, rfl⟩ := (hmem q).1 hq
  exact Pattern.within_raised h (hu p hp)

theorem unionOver_lower_ok {f : Step → PatternSet}
    (hf : ∀ s ∈ m.steps, f s ≠ anything ∧ ∃ t, d.Calls m s t ∧ (f s).Within d t.parameterNames) :
    ∃ u, unionOver m.steps (fun s => (f s).lower d m s policy) = .ok u ∧ u ≠ anything ∧
      (∀ p, p ∈ u.toList ↔
        ∃ s ∈ m.steps, ∃ q ∈ (f s).toList, q.lowered d m policy s = some p) ∧
      u.Within d (m.scope policy) := by
  obtain ⟨u, hu⟩ := unionOver_ok (f := fun s => (f s).lower d m s policy) fun s hs => by
    obtain ⟨-, t, ht, hw⟩ := hf s hs
    obtain ⟨v, hv, -⟩ := lower_ok policy ht hw
    exact ⟨v, hv⟩
  obtain ⟨hne, hmem⟩ := Method.unionOver_lower hu fun s hs => (hf s hs).1
  have hmem' : ∀ p, p ∈ u.toList ↔
      ∃ s ∈ m.steps, ∃ q ∈ (f s).toList, q.lowered d m policy s = some p := by
    refine fun p => (hmem p).trans (exists_congr fun s => and_congr_right fun hs => ?_)
    obtain ⟨-, t, ht, hw⟩ := hf s hs
    refine exists_congr fun q => and_congr_right fun hq => ?_
    rw [Pattern.lower_eq ht (hw q hq), Except.ok.injEq]
  refine ⟨u, hu, hne, hmem', fun p hp => ?_⟩
  obtain ⟨s, hs, q, hq, hlow⟩ := (hmem' p).1 hp
  obtain ⟨-, t, ht, hw⟩ := hf s hs
  exact Pattern.within_lowered ht (hw q hq) hlow

variable (hd : d.WellFormed) (hm : m ∈ d.methods) (hr : d.Scoped records)
include hd hm hr

theorem Method.needs_ok (policy : HiddenPolicy) : ∃ u, m.needs d records policy = .ok u ∧
    u ≠ anything ∧ (∀ p, p ∈ u.toList ↔ m.Needs d records policy p) ∧
    u.Within d (m.scope policy) := by
  refine unionOver_lower_ok fun s hs => ⟨(hr.plain s.task).needs.1, ?_⟩
  obtain ⟨t, ht⟩ := hd.calls hm hs
  exact ⟨t, ht, (hr.within _ _ ht.task).needs⟩

theorem Method.Needs.names {p : Pattern} (h : m.Needs d records .keep p) :
    ∃ names, p = .ofNames names ∧ ∀ v ∈ names, v ∈ m.variableNames := by
  obtain ⟨s, hs, q, hq, hlow⟩ := h
  obtain ⟨t, ht⟩ := hd.calls hm hs
  have hwithin := (hr.within _ _ ht.task).needs q hq
  have hlower := (Pattern.lower_eq ht hwithin).trans (congrArg Except.ok hlow)
  obtain ⟨names, rfl⟩ := ((hr.plain s.task).needs.named q hq).lower (by decide) hlower
  refine ⟨names, rfl, fun v hv => ?_⟩
  exact Pattern.within_lowered ht hwithin hlow (.name v) (List.mem_map_of_mem hv)

theorem Method.ensures_ok : ∃ u, m.ensures d records = .ok u ∧ u ≠ anything ∧
    (∀ p, p ∈ u.toList ↔ m.Ensures d records .drop p) ∧ u.Within d m.taskArguments := by
  refine unionOver_lower_ok fun s hs => ⟨(hr.plain s.task).ensures.1, ?_⟩
  obtain ⟨t, ht⟩ := hd.calls hm hs
  exact ⟨t, ht, (hr.within _ _ ht.task).ensures⟩

theorem Method.stepMayAdd_ok {s : Step} (hs : s ∈ m.steps) :
    ∃ u, m.stepMayAdd d records s = .ok u := by
  obtain ⟨t, ht⟩ := hd.calls hm hs
  obtain ⟨a, ha, -⟩ := lower_ok .qualify ht (hr.within _ _ ht.task).mayAdd
  have hsub : ∀ e ∈ m.predecessors s.id, e ∈ m.steps := fun e he => (mem_predecessors.1 he).1
  rw [stepMayAdd, ha]
  change ∃ u, List.foldlM _ a _ = _
  generalize m.predecessors s.id = l at hsub
  clear ha
  induction l generalizing a with
  | nil => exact ⟨a, rfl⟩
  | cons e l ih =>
    obtain ⟨he, hl⟩ := List.forall_mem_cons.1 hsub
    obtain ⟨t', ht'⟩ := hd.calls hm he
    obtain ⟨v, hv, -⟩ := lower_ok .qualify ht' (hr.within _ _ ht'.task).ensures
    obtain ⟨u, hu⟩ := ih (a \ v) hl
    refine ⟨u, ?_⟩
    simp only [List.foldlM_cons, hv]
    exact hu

theorem Method.mayAdd_ok : ∃ u, m.mayAdd d records = .ok u ∧
    (u = anything ↔ m.AddsAnything records) ∧
    (u ≠ anything → ∀ p, p ∈ u.toList ↔ m.Adds d records p) ∧ u.Within d m.taskArguments := by
  obtain ⟨u, hu⟩ := unionOver_ok fun s hs => Method.stepMayAdd_ok hd hm hr hs
  obtain ⟨hany, hmem⟩ := Method.mayAdd_eq_ok hu fun e _ => (hr.plain e.task).ensures.1
  have hmem' : u ≠ anything → ∀ p, p ∈ u.toList ↔ m.Adds d records p := by
    intro hne p
    refine (hmem hne p).trans (exists_congr fun s => and_congr_right fun hs => ?_)
    obtain ⟨t, ht⟩ := hd.calls hm hs
    refine and_congr (exists_congr fun q => and_congr_right fun hq => ?_) ?_
    · rw [Pattern.lower_eq ht ((hr.within _ _ ht.task).mayAdd q hq), Except.ok.injEq]
    · simp only [EnsuresBefore, not_exists, not_and]
      refine forall₂_congr fun e he => ?_
      obtain ⟨t', ht'⟩ := hd.calls hm (mem_predecessors.1 he).1
      obtain ⟨v, hv, -, hv'⟩ := lower_ok .qualify ht' (hr.within _ _ ht'.task).ensures
      simp only [hv, Except.ok.injEq, forall_eq', hv', not_exists, not_and]
  refine ⟨u, hu, hany, hmem', fun p hp => ?_⟩
  have hne : u ≠ anything := by
    rintro rfl
    cases hp
  obtain ⟨s, hs, ⟨q, hq, hlow⟩, -⟩ := (hmem' hne p).1 hp
  obtain ⟨t, ht⟩ := hd.calls hm hs
  exact Pattern.within_lowered ht ((hr.within _ _ ht.task).mayAdd q hq) hlow

/-- What a method tells about its task can be computed, and is about the parameters of the task. -/
theorem Method.contribution_ok (ht : d.task? m.task = some t) :
    ∃ c, m.contribution d records t = .ok c ∧ Contributes d records t m c ∧
      c.needs.Within d t.parameterNames ∧ c.ensures.Within d t.parameterNames ∧
      c.mayAdd.Within d t.parameterNames := by
  obtain ⟨t', hdoes⟩ := hd.does hm
  obtain rfl : t' = t := Option.some.inj (hdoes.task.symm.trans ht)
  obtain ⟨n, hn, hnne, hnmem, hnw⟩ := Method.needs_ok hd hm hr .drop
  obtain ⟨e, he, hene, hemem, hew⟩ := Method.ensures_ok hd hm hr
  obtain ⟨a, ha, haany, hamem, haw⟩ := Method.mayAdd_ok hd hm hr
  obtain ⟨n', hn', hnany, hnmem', hnw'⟩ := raise_ok hdoes hnw
  obtain ⟨e', he', heany, hemem', hew'⟩ := raise_ok hdoes hew
  obtain ⟨a', ha', haany', hamem', haw'⟩ := raise_ok hdoes haw
  refine ⟨{ needs := n', ensures := e', mayAdd := a' }, ?_, ⟨⟨?_, fun p => ?_⟩, ⟨?_, fun p => ?_⟩,
    haany'.trans haany, fun hne p => ?_⟩, hnw', hew', haw'⟩
  · simp only [contribution, hn, he, ha, bind_eq_ok, liftM_eq_ok, pure_eq_ok, Except.ok.injEq,
      exists_eq_left', hn', he', ha']
  · exact fun h => hnne (hnany.1 h)
  · simp only [hnmem', hnmem]
  · exact fun h => hene (heany.1 h)
  · simp only [hemem', hemem]
  · simp only [hamem', hamem fun h => hne (haany'.2 h)]

end Sets

end TaskNetwork
