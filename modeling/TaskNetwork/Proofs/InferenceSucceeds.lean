import TaskNetwork.Proofs.Offers

namespace TaskNetwork

open DraftM Draft PatternSet

def DraftM.Succeeds {α : Type} (x : DraftM α) : Prop := ∀ w, ∃ a w', x.Runs w a w'

namespace DraftM

variable {α β : Type}

theorem succeeds_pure (a : α) : (pure a : DraftM α).Succeeds := fun w => ⟨a, w, runs_pure.2 ⟨rfl, rfl⟩⟩

theorem succeeds_bind {x : DraftM α} {f : α → DraftM β} (hx : x.Succeeds)
    (hf : ∀ a, (f a).Succeeds) : (x >>= f).Succeeds := by
  intro w
  obtain ⟨a, w₁, ha⟩ := hx w
  obtain ⟨b, w', hb⟩ := hf a w₁
  exact ⟨b, w', runs_bind.2 ⟨a, w₁, ha, hb⟩⟩

theorem succeeds_get : (get : DraftM Draft).Succeeds := fun w => ⟨w, w, runs_get.2 ⟨rfl, rfl⟩⟩

theorem succeeds_modify (f : Draft → Draft) : (modify f : DraftM PUnit).Succeeds :=
  fun w => ⟨⟨⟩, f w, runs_modify.2 rfl⟩

theorem succeeds_modifyGet (f : Draft → α × Draft) : (modifyGet f : DraftM α).Succeeds :=
  fun w => ⟨(f w).1, (f w).2, runs_modifyGet.2 rfl⟩

theorem succeeds_domainError {x : Except DomainError α} (h : ∃ a, x = .ok a) :
    (liftM x : DraftM α).Succeeds := by
  intro w
  obtain ⟨a, ha⟩ := h
  exact ⟨a, w, runs_domainError.2 ⟨ha, rfl⟩⟩

theorem succeeds_bind_failure {x : Except Failure α} {f : α → DraftM β} {a : α} (h : x = .ok a)
    (hf : (f a).Succeeds) : ((liftM x : DraftM α) >>= f).Succeeds := by
  intro w
  obtain ⟨b, w', hb⟩ := hf w
  exact ⟨b, w', runs_bind.2 ⟨a, w, runs_failure.2 ⟨h, rfl⟩, hb⟩⟩

theorem succeeds_forM {f : α → DraftM Unit} {l : List α} (h : ∀ a ∈ l, (f a).Succeeds) :
    (l.forM f : DraftM Unit).Succeeds := by
  induction l with
  | nil => exact succeeds_pure ()
  | cons a l ih =>
    obtain ⟨ha, hl⟩ := List.forall_mem_cons.1 h
    exact succeeds_bind ha fun _ => ih hl

end DraftM

section Succeeds

variable {d : Domain} {m : Method} {l : Literal} {records : String → TaskRecord}

theorem Draft.isRedundant_ok {tasks : List String} (h : ∀ n ∈ tasks, ∃ t, d.task? n = some t)
    (w : Draft) (m : Method) (l : Literal) : ∃ b, isRedundant d w m l tasks = .ok b ∧
      (b = true ↔ (∀ n ∈ tasks, ∃ t, d.task? n = some t ∧ l ∈ t.preconditions) ∨
        w.checks m.name l) := by
  induction tasks with
  | nil => exact ⟨true, rfl, by simp⟩
  | cons n tasks ih =>
    obtain ⟨⟨t, ht⟩, htasks⟩ := List.forall_mem_cons.1 h
    obtain ⟨b, hb, hiff⟩ := ih htasks
    have hresolve := Domain.resolveTask_eq_ok.2 ht
    by_cases hl : l ∈ t.preconditions
    · refine ⟨b, by simp only [isRedundant, hresolve, bind_eq_ok, Except.ok.injEq, exists_eq_left', hl,
        if_true, hb], hiff.trans (or_congr_left ?_)⟩
      rw [List.forall_mem_cons, and_iff_right ⟨t, ht, hl⟩]
    · refine ⟨w.checks m.name l, by simp only [isRedundant, hresolve, bind_eq_ok, Except.ok.injEq,
        exists_eq_left', hl, if_false, pure_eq_ok], (or_iff_right fun hall => ?_).symm⟩
      obtain ⟨u, hu, hlu⟩ := hall n List.mem_cons_self
      obtain rfl : t = u := Option.some.inj (ht.symm.trans hu)
      exact hl hlu

variable (hd : d.WellFormed) (hm : m ∈ d.methods)
include hd hm

theorem Domain.WellFormed.openingTasks_eq :
    d.openingTasks m.name = increasing (m.minimalSteps.map (·.task)) := by
  rw [openingTasks, hd.names.resolveMethod hm]

theorem Domain.WellFormed.exists_openingTask {n : String} (hn : n ∈ d.openingTasks m.name) :
    ∃ t, d.task? n = some t := by
  rw [hd.openingTasks_eq hm, mem_increasing] at hn
  obtain ⟨s, hs, rfl⟩ := List.mem_map.1 hn
  obtain ⟨t, ht⟩ := hd.calls hm (List.mem_filter.1 hs).1
  exact ⟨t, ht.task⟩

theorem Draft.isRedundant_iff (w : Draft) :
    (isRedundant d w m l (d.openingTasks m.name) = .ok true ↔
      d.AllDemand m l ∨ w.checks m.name l) ∧
    ∃ b, isRedundant d w m l (d.openingTasks m.name) = .ok b := by
  obtain ⟨b, hb, hiff⟩ := isRedundant_ok (fun n hn => hd.exists_openingTask hm hn) w m l
  exact ⟨by rw [hb, Except.ok.injEq, hiff, Domain.AllDemand], b, hb⟩

omit hd in
theorem Draft.slot_succeeds : (slot d m).Succeeds := by
  obtain ⟨i, hi⟩ := Domain.exists_methodIndex hm
  unfold slot
  refine succeeds_bind succeeds_get fun v => ?_
  cases v.slots.lookup m.name with
  | some slot => exact succeeds_pure slot
  | none =>
    refine succeeds_bind (succeeds_domainError ⟨i, hi⟩) fun j => succeeds_bind succeeds_get fun w => ?_
    cases w.existingSlot? j with
    | some slot =>
      exact succeeds_bind (succeeds_pure slot) fun slot =>
        succeeds_bind (succeeds_modify _) fun _ => succeeds_pure slot
    | none =>
      exact succeeds_bind (succeeds_modifyGet _) fun slot =>
        succeeds_bind (succeeds_modify _) fun _ => succeeds_pure slot

theorem Draft.offer_succeeds (hs : d.SortsDeclared) (hl : ∀ v ∈ l.arguments, v ∈ m.variableNames) :
    (offer d (d.openingTasks m.name) m l).Succeeds := by
  unfold offer
  refine succeeds_bind succeeds_get fun w => ?_
  refine succeeds_bind (succeeds_domainError (isRedundant_iff hd hm w).2) fun b => ?_
  cases b with
  | true => exact succeeds_modify _
  | false =>
    refine succeeds_bind (succeeds_modify _) fun _ => ?_
    refine succeeds_bind (slot_succeeds hm) fun slot => ?_
    refine succeeds_bind (succeeds_forM fun v hv => ?_) fun _ => succeeds_modify _
    refine succeeds_bind succeeds_get fun w => ?_
    split
    · exact succeeds_pure _
    · obtain ⟨sort, names, hsort, -⟩ := hs.instances_ok hd.names hm (hl v hv)
      exact succeeds_bind (succeeds_domainError ⟨sort, hsort⟩) fun _ => succeeds_modify _

theorem Draft.inject_succeeds (hs : d.SortsDeclared) {inferred : PatternSet}
    (h : ∀ p ∈ inferred.toList, ∃ names, p = .ofNames names ∧ ∀ v ∈ names, v ∈ m.variableNames)
    (predicate : String) (positive : Bool) : (inject d m inferred predicate positive).Succeeds := by
  unfold inject
  refine succeeds_forM fun p hp => ?_
  obtain ⟨names, rfl, hnames⟩ := h p hp
  exact succeeds_bind_failure Pattern.toLiteral_ofNames (offer_succeeds hd hm hs hnames)

omit hm in
theorem Domain.WellFormed.inferPreconditions_ok (hs : d.SortsDeclared) {top : String} {t : Task}
    (ht : d.task? top = some t) : ∃ d' tally, d.inferPreconditions top = .ok (d', tally) := by
  have hwork : (d.sweptPredicates.forM fun a =>
      d.draftPredicate d.recursiveTasks (d.walk top) a.1 a.2 : DraftM Unit).Succeeds := by
    refine succeeds_forM fun a _ => ?_
    obtain ⟨w, hw⟩ := hd.sweep_ok hs ht a.1 a.2
    refine succeeds_bind_failure (sweep_eq_ok hw) (succeeds_forM fun f hf => ?_)
    obtain ⟨hm, -⟩ := finds_of_sweep hd hs hw hf
    exact inject_succeeds hd hm hs (names_of_sweep hd hs hw hf) a.1 a.2
  obtain ⟨u, w, hrun⟩ := hwork (Draft.ofDomain d)
  refine ⟨w.apply d, w.tally, ?_⟩
  unfold inferPreconditions
  rw [ht]
  dsimp only
  split
  · next v hv =>
    obtain rfl : w = v := (Prod.mk.inj (hrun.symm.trans hv)).2
    rfl
  · next e v hv => cases hrun.symm.trans hv

end Succeeds

end TaskNetwork
