import TaskNetwork.Proofs.Constraining
import TaskNetwork.Proofs.Coverage
import TaskNetwork.Proofs.MethodSets

namespace TaskNetwork

open PatternSet

def Domain.SortsDeclared (d : Domain) : Prop :=
  ∀ m ∈ d.methods, ∀ v ∈ m.declarations, ∃ names, d.sorts.instances? v.sort = some names

instance (d : Domain) : Decidable d.SortsDeclared :=
  decidable_of_iff (∀ m ∈ d.methods, ∀ v ∈ m.declarations, (d.sorts.instances? v.sort).isSome) <| by
    simp only [Domain.SortsDeclared, Option.isSome_iff_exists]

section Overlap

variable {d : Domain} {m : Method} (hd : d.NamesDiffer) (hs : d.SortsDeclared)
include hd hs

theorem Domain.SortsDeclared.instances_ok (hm : m ∈ d.methods) {v : String}
    (hv : v ∈ m.variableNames) :
    ∃ sort names, d.sortOf m.name v = .ok sort ∧ d.instances sort = .ok names := by
  obtain ⟨u, hu, rfl⟩ := List.mem_map.1 hv
  cases hfind : m.declarations.reverse.find? (·.name = u.name) with
  | none =>
    exact absurd (decide_eq_true rfl) (List.find?_eq_none.1 hfind u (List.mem_reverse.2 hu))
  | some x =>
    have hx : x ∈ m.declarations := List.mem_reverse.1 (List.mem_of_find?_eq_some hfind)
    obtain ⟨names, hnames⟩ := hs m hm x hx
    refine ⟨x.sort, names, ?_, ?_⟩
    · rw [sortOf, hd.resolveMethod hm]
      change m.sortOf u.name = _
      rw [Method.sortOf, hfind]
    · rw [instances, hnames]

theorem Domain.SortsDeclared.declares (hm : m ∈ d.methods) {v : String}
    (hv : v ∈ m.variableNames) : d.Declares m.name v := by
  obtain ⟨sort, names, hsort, hnames⟩ := hs.instances_ok hd hm hv
  refine ⟨sort, hsort, names, ?_⟩
  rw [instances] at hnames
  split at hnames
  · next h => exact Except.ok.inj hnames ▸ h
  · cases hnames

theorem Argument.Within.declared (hm : m ∈ d.methods) {a : Argument}
    (ha : a.Within d m.variableNames) : a.Declared d m := by
  cases a with
  | name v => exact hs.declares hd hm ha
  | hidden o v =>
    obtain ⟨n, hn, rfl, hv⟩ := ha
    exact hs.declares hd hn hv

theorem PatternSet.Within.declared (hm : m ∈ d.methods) {s : PatternSet}
    (h : s.Within d m.variableNames) : s.Declared d m :=
  fun p hp a ha => (h p hp a ha).declared hd hs hm

theorem PatternSet.constrain_ok (hm : m ∈ d.methods) {candidates reachable : PatternSet}
    (hne : candidates ≠ anything) (hc : candidates.Within d m.variableNames)
    (hr : reachable.Within d m.variableNames) :
    ∃ r, constrain d m candidates reachable = .ok r ∧ r ≠ anything ∧ r.Normal ∧
      ∀ p, p ∈ r.toList ↔ p ∈ candidates.toList ∧ reachable ≠ anything ∧
        ∀ q ∈ reachable.toList, p.overlaps d m q = .ok false := by
  have hcd := hc.declared hd hs hm
  have hrd := hr.declared hd hs hm
  obtain ⟨r, hok, hnormal, hmem⟩ := constrain_of_declared hcd hrd
  have hrne : r ≠ anything := by
    rintro rfl
    exact hne (eq_anything_iff.2 fun p => ((hmem p).1 mem_anything).1)
  refine ⟨r, hok, hrne, hnormal, fun p => ?_⟩
  rw [← mem_iff_of_ne hrne, hmem, mem_iff_of_ne hne]
  refine and_congr_right fun hp => ?_
  cases reachable with
  | anything =>
    refine iff_of_false (fun h => ?_) fun h => h.1 rfl
    exact h [] mem_anything (keepsOut_nil candidates p)
  | listed qs =>
    have hlisted : listed qs ≠ anything := by simp
    rw [and_iff_right hlisted]
    exact forall₂_congr fun q hq => not_keepsOut_iff hne (hcd p hp) (hrd q hq)

end Overlap

section Scoped

variable {d : Domain} {names : List String} {r : TaskRecord} {c : Contribution}

theorem PatternSet.within_empty : Within d names ∅ := fun p hp => by cases hp

theorem PatternSet.Within.inter {s t : PatternSet} (hs : s.Plain) (ht : t.Plain)
    (h : s.Within d names) : (s ∩ t).Within d names :=
  fun p hp => h p ((mem_inter hs.1 ht.1).1 hp).1

theorem PatternSet.Within.union {s t : PatternSet} (hs : s.Within d names) (ht : t.Within d names) :
    (s ∪ t).Within d names := by
  intro p hp
  have hne : s ∪ t ≠ anything := by
    intro h
    rw [h] at hp
    cases hp
  exact ((mem_union hne).1 hp).elim (hs p) (ht p)

theorem TaskRecord.Within.add (hr : r.Within d names) (hplain : r.Plain) (hn : c.needs.Plain)
    (he : c.ensures.Plain) (hnw : c.needs.Within d names) (hew : c.ensures.Within d names)
    (haw : c.mayAdd.Within d names) : (r.add c).Within d names := by
  refine ⟨?_, ?_, ?_⟩
  · unfold TaskRecord.add addMethod
    split
    · exact hr.needs.inter hplain.needs hn
    · exact hnw
  · unfold TaskRecord.add addMethod
    split
    · exact hr.ensures.inter hplain.ensures he
    · exact hew
  · rw [TaskRecord.add_mayAdd]
    exact hr.mayAdd.union haw

theorem within_patternsOf {t : Task} {predicate : String} {positive : Bool}
    {literals : List Literal} (h : ∀ l ∈ literals, ∀ a ∈ l.arguments, a ∈ t.parameterNames) :
    (patternsOf predicate positive literals).Within d t.parameterNames := by
  intro p hp
  rw [patternsOf, toList_ofList_iff, List.mem_map] at hp
  obtain ⟨l, hl, rfl⟩ := hp
  intro a ha
  obtain ⟨v, hv, rfl⟩ := List.mem_map.1 ha
  exact h l (List.mem_filter.1 hl).1 v hv

theorem Task.Consistent.primitiveRecord_within {t : Task} (ht : t.Consistent) (predicate : String)
    (positive : Bool) : (t.primitiveRecord predicate positive).Within d t.parameterNames := by
  have hneeds : (patternsOf predicate positive t.preconditions).Within d t.parameterNames :=
    within_patternsOf fun l hl => ht.declared l (List.mem_append_left _ hl)
  have heffects : (patternsOf predicate positive t.effects).Within d t.parameterNames :=
    within_patternsOf fun l hl => ht.declared l (List.mem_append_right _ hl)
  refine ⟨hneeds, heffects.union hneeds, fun p hp => ?_⟩
  exact heffects p ((mem_sdiff ofList_ne_anything).1 hp).1

theorem Domain.firstRecord_within (d : Domain) (n : String) : (d.firstRecord n).Within d names := by
  unfold firstRecord TaskRecord.ofRecursive
  split
  · exact ⟨within_empty, within_empty, fun p hp => by cases hp⟩
  · exact ⟨within_empty, within_empty, within_empty⟩

variable {w w' : Sweep} (hd : d.WellFormed)
include hd

theorem Domain.WellFormed.record_start (predicate : String) (positive : Bool) {n : String}
    {t : Task} (ht : d.task? n = some t) (hn : d.IsPrimitive n) :
    (Sweep.start d predicate positive).record n = t.primitiveRecord predicate positive := by
  obtain ⟨hno, -⟩ | ⟨t', ht', hname, hrec⟩ := TaskNetwork.record_start d predicate positive n
  · exact absurd hn hno
  · have hfirst := hd.names.task?_eq_some.2 ⟨List.mem_append_left _ ht', hname⟩
    obtain rfl : t = t' := Option.some.inj (ht.symm.trans hfirst)
    exact hrec

theorem Domain.WellFormed.scoped_start (predicate : String) (positive : Bool) :
    d.Scoped (Sweep.start d predicate positive).record where
  plain := (walked_start d "" predicate positive).plain
  within n t ht := by
    by_cases hn : d.IsPrimitive n
    · rw [hd.record_start predicate positive ht hn]
      obtain ⟨hmem, rfl⟩ := Domain.mem_of_task?_eq_some ht
      exact (hd.consistent hmem).primitiveRecord_within predicate positive
    · obtain ⟨-, hrec⟩ | ⟨t', ht', rfl, -⟩ := TaskNetwork.record_start d predicate positive n
      · rw [hrec]
        exact ⟨within_empty, within_empty, within_empty⟩
      · exact absurd (List.mem_map_of_mem ht') hn

theorem Sweep.leaveStep_ok {m : Method} {s : Step} (hm : m ∈ d.methods) (hs : s ∈ m.steps)
    (hw : d.Scoped w.record) : w.leaveStep d m s = .ok () := by
  obtain ⟨t, ht⟩ := hd.calls hm hs
  have hr := hw.within _ _ ht.task
  obtain ⟨a, ha, -⟩ := lower_ok .drop ht hr.needs
  obtain ⟨b, hb, -⟩ := lower_ok .keep ht hr.needs
  obtain ⟨c, hc, -⟩ := lower_ok .drop ht hr.ensures
  rw [leaveStep, ha, hb, hc]
  rfl

theorem PatternSet.Within.variableNames {m : Method} (hm : m ∈ d.methods) {u : PatternSet}
    (hu : u.Within d m.taskArguments) : u.Within d m.variableNames := by
  intro p hp a ha
  have hw := hu p hp a ha
  cases a with
  | name v => exact (hd.fits hm).consistent.taskArguments_subset v hw
  | hidden o v => exact hw

theorem Sweep.conclude_ok (hs : d.SortsDeclared) {t : Task} {m : Method} {i : ℕ}
    (hm : m ∈ d.methods) (ht : d.task? t.name = some t) (htask : m.task = t.name)
    (hw : d.Scoped w.record) : ∃ w', w.conclude d t m i = .ok w' := by
  rw [← htask] at ht
  obtain ⟨c, hc, -⟩ := Method.contribution_ok hd hm hw ht
  obtain ⟨k, hk, hkne, -, hkw⟩ := Method.needs_ok hd hm hw .keep
  obtain ⟨a, ha, -, -, haw⟩ := Method.mayAdd_ok hd hm hw
  obtain ⟨inferred, hinferred, -⟩ :=
    constrain_ok hd.names hs hm hkne hkw (haw.variableNames hd hm)
  simp only [Method.contribution, bind_eq_ok, liftM_eq_ok, pure_eq_ok] at hc
  obtain ⟨n, hn, n', hn', e, he, e', he', a', ha', a'', ha'', rfl⟩ := hc
  obtain rfl : a = a' := Except.ok.inj (ha.symm.trans ha')
  simp only [conclude, hn, hn', he, he', ha, ha'', hk, hinferred, bind_eq_ok, liftM_eq_ok,
    Except.ok.injEq, exists_eq_left']
  exact ⟨_, rfl⟩

theorem Sweep.scoped_conclude {t : Task} {m : Method} {i : ℕ} (hm : m ∈ d.methods)
    (ht : d.task? t.name = some t) (htask : m.task = t.name) (hw : d.Scoped w.record)
    (h : w.conclude d t m i = .ok w') : d.Scoped w'.record := by
  obtain ⟨f, c, rfl, -, hfc, rfl⟩ := Sweep.conclude_eq_ok h
  obtain ⟨hnplain, heplain, -⟩ := hfc.plain hw.plain
  obtain ⟨c', hc', -, hnw, hew, haw⟩ := Method.contribution_ok hd hm hw (htask ▸ ht)
  obtain rfl : c = c' := Except.ok.inj (hfc.contribution.symm.trans hc')
  refine ⟨fun n => ?_, fun n u hu => ?_⟩
  · exact plain_setRecord hw.plain ((hw.plain t.name).add hnplain heplain) t.name n
  · change ((w.setRecord t.name _).record n).Within d u.parameterNames
    rw [Sweep.record_setRecord]
    split
    · next hn =>
      obtain rfl : t = u := Option.some.inj (ht.symm.trans (hn ▸ hu))
      exact (hw.within _ _ ht).add (hw.plain t.name) hnplain heplain hnw hew haw
    · exact hw.within n u hu

theorem Domain.WellFormed.exists_task? {top n : String} {t : Task} (ht : d.task? top = some t)
    (hn : d.Visits top n) : ∃ t, d.task? n = some t := by
  cases hn with
  | refl => exact ⟨t, ht⟩
  | tail _ h =>
    obtain ⟨-, -, m, hm, -, s, hs, rfl⟩ := h
    obtain ⟨t, ht⟩ := hd.calls hm hs
    exact ⟨t, ht.task⟩

theorem Sweep.advance_ok (hs : d.SortsDeclared) {top : String} {t : Task}
    (ht : d.task? top = some t) {e : WalkEvent} (he : d.Meets top (.emit e))
    (hw : d.Scoped w.record) : ∃ w', w.advance d d.recursiveTasks e = .ok w' := by
  cases e with
  | enter n => exact ⟨w.setRecord n (d.firstRecord n), rfl⟩
  | missing n =>
    obtain ⟨hvisits, hnone⟩ := he
    obtain ⟨u, hu⟩ := hd.exists_task? ht hvisits
    rw [hnone] at hu
    cases hu
  | leaveStep m s => exact ⟨w, by rw [advance, leaveStep_ok hd he.1 he.2.2.2 hw]; rfl⟩
  | conclude u m i =>
    obtain ⟨hmem, -, -, hu⟩ := he
    obtain ⟨hi, htask⟩ := Domain.mem_methodsOf.1 hmem
    exact conclude_ok hd hs (List.mem_of_getElem? hi) hu htask hw

theorem Sweep.scoped_advance {top : String} {e : WalkEvent} (he : d.Meets top (.emit e))
    (hw : d.Scoped w.record) (h : w.advance d d.recursiveTasks e = .ok w') :
    d.Scoped w'.record := by
  cases e with
  | enter n =>
    obtain rfl := pure_eq_ok.1 h
    refine ⟨fun k => ?_, fun k u hu => ?_⟩
    · exact plain_setRecord hw.plain (d.plain_firstRecord n) n k
    · rw [record_setRecord]
      split
      · exact d.firstRecord_within n
      · exact hw.within k u hu
  | missing n => exact absurd h throw_ne_ok
  | leaveStep m s =>
    simp only [advance, bind_eq_ok, pure_eq_ok] at h
    obtain ⟨-, -, rfl⟩ := h
    exact hw
  | conclude u m i =>
    obtain ⟨hmem, -, -, hu⟩ := he
    obtain ⟨hi, htask⟩ := Domain.mem_methodsOf.1 hmem
    exact scoped_conclude hd (List.mem_of_getElem? hi) hu htask hw h

theorem Sweep.foldlM_ok (hs : d.SortsDeclared) {top : String} {t : Task}
    (ht : d.task? top = some t) {events : List WalkEvent}
    (hevents : ∀ e ∈ events, d.Meets top (.emit e)) (hw : d.Scoped w.record) :
    ∃ w', events.foldlM (Sweep.advance d d.recursiveTasks) w = .ok w' := by
  induction events generalizing w with
  | nil => exact ⟨w, rfl⟩
  | cons e events ih =>
    obtain ⟨he, hevents⟩ := List.forall_mem_cons.1 hevents
    obtain ⟨w₁, hw₁⟩ := advance_ok hd hs ht he hw
    obtain ⟨w', hw'⟩ := ih hevents (scoped_advance hd he hw hw₁)
    exact ⟨w', by rw [List.foldlM_cons, hw₁]; exact hw'⟩

theorem Sweep.scoped_foldlM {top : String} {events : List WalkEvent}
    (hevents : ∀ e ∈ events, d.Meets top (.emit e)) (hw : d.Scoped w.record)
    (h : events.foldlM (Sweep.advance d d.recursiveTasks) w = .ok w') : d.Scoped w'.record := by
  induction events generalizing w with
  | nil =>
    obtain rfl := pure_eq_ok.1 h
    exact hw
  | cons e events ih =>
    obtain ⟨he, hevents⟩ := List.forall_mem_cons.1 hevents
    rw [List.foldlM_cons, bind_eq_ok] at h
    obtain ⟨w₁, hw₁, h⟩ := h
    exact ih hevents (scoped_advance hd he hw hw₁) h

/-- A sweep of a consistent domain succeeds below any task that is declared. -/
theorem Domain.WellFormed.sweep_ok (hs : d.SortsDeclared) {top : String} {t : Task}
    (ht : d.task? top = some t) (predicate : String) (positive : Bool) :
    ∃ w, d.sweep top predicate positive = .ok w := by
  obtain ⟨w, hw⟩ := Sweep.foldlM_ok hd hs ht meets_walk (hd.scoped_start predicate positive)
  refine ⟨w, ?_⟩
  rw [sweep, ht]
  exact hw

theorem Domain.WellFormed.scoped_of_sweep {top predicate : String} {positive : Bool}
    (h : d.sweep top predicate positive = .ok w) : d.Scoped w.record :=
  Sweep.scoped_foldlM hd meets_walk (hd.scoped_start predicate positive) (sweep_eq_ok h)

end Scoped

end TaskNetwork
