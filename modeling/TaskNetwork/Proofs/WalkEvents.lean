import TaskNetwork.Proofs.NormalSets
import TaskNetwork.Proofs.SweepWalk

namespace TaskNetwork

open Relation

namespace Domain

/-- A walk that meets the task `a` goes on to `b`. -/
def Continues (d : Domain) (a b : String) : Prop := ¬d.IsPrimitive a ∧ d.Decomposes a b

def Visits (d : Domain) (top : String) : String → Prop := ReflTransGen d.Continues top

def Meets (d : Domain) (top : String) : Pending → Prop
  | .visit n => d.Visits top n
  | .emit (.enter n) => d.Visits top n ∧ ¬d.IsPrimitive n ∧ ∃ t, d.task? n = some t
  | .emit (.missing n) => d.Visits top n ∧ d.task? n = none
  | .emit (.leaveStep m s) =>
    m ∈ d.methods ∧ d.Visits top m.task ∧ ¬d.IsPrimitive m.task ∧ s ∈ m.steps
  | .emit (.conclude t m i) =>
    (m, i) ∈ d.methodsOf t.name ∧ d.Visits top t.name ∧ ¬d.IsPrimitive t.name ∧
      d.task? t.name = some t

variable {d : Domain} {top n : String}

theorem meets_pendingTask {t : Task} (ht : d.task? n = some t) (hn : ¬d.IsPrimitive n)
    (hvisits : d.Visits top n) : ∀ p ∈ d.pendingTask t, d.Meets top p := by
  obtain rfl := (mem_of_task?_eq_some ht).2
  intro p hp
  obtain ⟨m, i, hm, rfl⟩ | ⟨m, i, hm, s, hs, rfl | rfl⟩ := mem_pendingTask hp
  · exact ⟨hm, hvisits, hn, ht⟩
  · exact hvisits.tail ⟨hn, decomposes_of_mem_methodsOf ht hn hm hs⟩
  · obtain ⟨hi, htask⟩ := mem_methodsOf.1 hm
    exact ⟨List.mem_of_getElem? hi, htask ▸ hvisits, htask ▸ hn, hs⟩

theorem meets_workOff {deeper : List String → List Pending → List WalkEvent}
    (hdeeper : ∀ seen pending, (∀ k, d.IsPrimitive k → k ∈ seen) →
      (∀ p ∈ pending, d.Meets top p) → ∀ e ∈ deeper seen pending, d.Meets top (.emit e))
    {seen : List String} {pending : List Pending} (hseen : ∀ k, d.IsPrimitive k → k ∈ seen)
    (hpending : ∀ p ∈ pending, d.Meets top p) :
    ∀ e ∈ d.workOff deeper seen pending, d.Meets top (.emit e) := by
  induction pending with
  | nil => exact fun e he => absurd he List.not_mem_nil
  | cons p rest ih =>
    obtain ⟨hp, hrest⟩ := List.forall_mem_cons.1 hpending
    cases p with
    | emit e => exact List.forall_mem_cons.2 ⟨hp, ih hrest⟩
    | visit n =>
      by_cases hn : n ∈ seen
      · rw [workOff, if_pos hn]
        exact ih hrest
      · rw [workOff, if_neg hn]
        have hnp : ¬d.IsPrimitive n := fun h => hn (hseen n h)
        cases ht : d.task? n with
        | none => exact List.forall_mem_singleton.2 ⟨hp, ht⟩
        | some t =>
          refine List.forall_mem_cons.2 ⟨⟨hp, hnp, t, ht⟩, hdeeper _ _ ?_ ?_⟩
          · exact fun k hk => List.mem_cons_of_mem n (hseen k hk)
          · exact List.forall_mem_append.2 ⟨meets_pendingTask ht hnp hp, hrest⟩

theorem meets_walkWithin {fuel : ℕ} {seen : List String} {pending : List Pending}
    (hseen : ∀ k, d.IsPrimitive k → k ∈ seen) (hpending : ∀ p ∈ pending, d.Meets top p) :
    ∀ e ∈ d.walkWithin fuel seen pending, d.Meets top (.emit e) := by
  induction fuel generalizing seen pending with
  | zero =>
    exact meets_workOff (fun _ _ _ _ e he => absurd he List.not_mem_nil) hseen hpending
  | succ fuel ih => exact meets_workOff (fun _ _ hseen hpending => ih hseen hpending) hseen hpending

theorem meets_walk : ∀ e ∈ d.walk top, d.Meets top (.emit e) :=
  meets_walkWithin (fun _ hk => hk) (List.forall_mem_singleton.2 ReflTransGen.refl)

end Domain

section Keys

variable {d : Domain} {top predicate n : String} {positive : Bool} {w w' : Sweep}

theorem Sweep.isSome_record?_setRecord {k : String} {r : TaskRecord} :
    ((w.setRecord k r).record? n).isSome ↔ n = k ∨ (w.record? n).isSome := by
  simp only [record?, setRecord, List.lookup_cons]
  by_cases h : n = k
  · simp [h]
  · simp [h, beq_false_of_ne h]

theorem Sweep.record?_eq_map {f : TaskRecord → TaskRecord}
    (hkeys : (w'.record? n).isSome ↔ (w.record? n).isSome)
    (hrecord : (w.record? n).isSome → w.record n = f (w'.record n)) :
    w.record? n = (w'.record? n).map f := by
  cases hrec : w.record? n with
  | none =>
    rw [hrec] at hkeys
    rw [Option.not_isSome_iff_eq_none.1 (mt hkeys.1 Bool.false_ne_true)]
    rfl
  | some r =>
    rw [hrec] at hkeys hrecord
    obtain ⟨r', hrec'⟩ := Option.isSome_iff_exists.1 (hkeys.2 rfl)
    have heq := hrecord rfl
    rw [record, record, hrec, hrec'] at heq
    rw [hrec', Option.map_some]
    exact congrArg some heq

theorem isSome_record?_start :
    ((Sweep.start d predicate positive).record? n).isSome → d.IsPrimitive n := by
  intro h
  obtain ⟨r, hr⟩ := Option.isSome_iff_exists.1 h
  obtain ⟨l, k, hl, -⟩ := List.lookup_eq_some_iff.1 hr
  have hmem : (n, r) ∈ (Sweep.start d predicate positive).records := by
    rw [hl]
    simp
  simp only [Sweep.start, List.mem_reverse, List.mem_map, Prod.mk.injEq] at hmem
  obtain ⟨t, ht, hn, -⟩ := hmem
  exact List.mem_map.2 ⟨t, ht, hn⟩

theorem visits_of_advance {e : WalkEvent} {recursive : List String}
    (he : d.Meets top (.emit e)) (h : w.advance d recursive e = .ok w')
    (hn : (w'.record? n).isSome) : (w.record? n).isSome ∨ d.Visits top n := by
  cases e with
  | enter k =>
    obtain rfl := pure_eq_ok.1 h
    obtain rfl | hn := Sweep.isSome_record?_setRecord.1 hn
    · exact .inr he.1
    · exact .inl hn
  | missing k => exact absurd h throw_ne_ok
  | leaveStep m s =>
    simp only [Sweep.advance, bind_eq_ok, pure_eq_ok] at h
    obtain ⟨-, -, rfl⟩ := h
    exact .inl hn
  | conclude t m i =>
    obtain ⟨f, c, -, -, -, rfl⟩ := Sweep.conclude_eq_ok h
    obtain rfl | hn := Sweep.isSome_record?_setRecord.1 hn
    · exact .inr he.2.1
    · exact .inl hn

theorem visits_of_foldlM {events : List WalkEvent} {recursive : List String}
    (hevents : ∀ e ∈ events, d.Meets top (.emit e))
    (h : events.foldlM (Sweep.advance d recursive) w = .ok w') (hn : (w'.record? n).isSome) :
    (w.record? n).isSome ∨ d.Visits top n := by
  induction events generalizing w with
  | nil =>
    obtain rfl := pure_eq_ok.1 h
    exact .inl hn
  | cons e events ih =>
    obtain ⟨he, hevents⟩ := List.forall_mem_cons.1 hevents
    simp only [List.foldlM_cons, bind_eq_ok] at h
    obtain ⟨w₁, hw₁, h⟩ := h
    obtain hn | hn := ih hevents h
    · exact visits_of_advance he hw₁ hn
    · exact .inr hn

theorem Walked.mem_of_visits {seen : List String} (h : Walked d top predicate positive seen [] w)
    (htop : top ∈ seen) (hn : d.Visits top n) : n ∈ seen := by
  induction hn with
  | refl => exact htop
  | @tail a b _ hab ih =>
    obtain ⟨hnp, -, m, hm, rfl, s, hs, rfl⟩ := hab
    obtain ⟨f, hf, rfl⟩ := h.exists_finding hm ih hnp
    exact ((h.findings f hf).2.2 s hs).1

theorem Walked.finished {seen : List String} {pending : List Pending}
    (h : Walked d top predicate positive seen pending w) (hn : n ∈ seen) :
    (w.record n).finished := by
  by_cases hp : d.IsPrimitive n
  · rw [(h.primitive n hp).2]
    obtain ⟨hnp, -⟩ | ⟨t, -, -, hr⟩ := record_start d predicate positive n
    · exact absurd hp hnp
    · rw [hr]
      rfl
  · obtain ⟨-, t, -, -, cs, -, hrec⟩ := h.entered n hn hp
    rw [hrec]
    exact (TaskRecord.foldl_add_flags (d.firstRecord_finished n)).2

theorem Walked.isSome_record? {seen : List String} {pending : List Pending}
    (h : Walked d top predicate positive seen pending w) (hn : n ∈ seen) :
    (w.record? n).isSome := by
  have hfinished := h.finished hn
  rw [Sweep.record] at hfinished
  cases hr : w.record? n with
  | none =>
    rw [hr] at hfinished
    cases hfinished
  | some r => rfl

theorem isSome_record?_of_sweep (h : d.sweep top predicate positive = .ok w) :
    (w.record? n).isSome ↔ d.IsPrimitive n ∨ d.Visits top n := by
  have halong := sweep_eq_ok h
  constructor
  · intro hn
    obtain hn | hn := visits_of_foldlM Domain.meets_walk halong hn
    · exact .inl (isSome_record?_start hn)
    · exact .inr hn
  · intro hn
    obtain ⟨seen, htop, hwalked⟩ := walked_of_sweepAlong halong
    exact hwalked.isSome_record? (hn.elim (fun hp => (hwalked.primitive n hp).1)
      (hwalked.mem_of_visits htop))

theorem visits_of_finding (h : d.sweep top predicate positive = .ok w) {f : Finding}
    (hf : f ∈ w.findings) :
    f.method ∈ d.methods ∧ d.Visits top f.method.task ∧ ¬d.IsPrimitive f.method.task := by
  obtain ⟨seen, -, hwalked⟩ := walked_of_sweepAlong (sweep_eq_ok h)
  obtain ⟨hm, hnp, -⟩ := hwalked.of_finding hf
  have hsome := hwalked.isSome_record? (hwalked.findings f hf).1
  exact ⟨hm, ((isSome_record?_of_sweep h).1 hsome).resolve_left hnp, hnp⟩

end Keys

end TaskNetwork
