import TaskNetwork.Proofs.CheckedSweeps
import TaskNetwork.Proofs.InferenceSucceeds

namespace TaskNetwork

open DraftM Draft

section Tally

theorem Tally.accepted_alter (name : String) (f : MethodTally → MethodTally) {k : ℕ}
    (hf : ∀ c, (f c).accepted = c.accepted + k) (entries : List (String × MethodTally)) :
    (alterTally name f entries).foldr (fun e n => e.2.accepted + n) 0
      = entries.foldr (fun e n => e.2.accepted + n) 0 + k := by
  induction entries with
  | nil => simp [alterTally, hf]
  | cons e entries ih =>
    rw [alterTally]
    split
    · simp only [List.foldr_cons, hf]
      omega
    · simp only [List.foldr_cons, ih]
      omega

@[simp] theorem Tally.accepted_accept (t : Tally) (name : String) :
    (t.accept name).accepted = t.accepted + 1 :=
  accepted_alter name _ (fun _ => rfl) _

@[simp] theorem Tally.accepted_reject (t : Tally) (name : String) :
    (t.reject name).accepted = t.accepted :=
  accepted_alter name (fun c => { c with redundant := c.redundant + 1 }) (k := 0) (fun _ => rfl) _

end Tally

section Checks

variable {d : Domain} {m : Method} {l : Literal} {w w' : Draft} {slot : CheckSlot} {n : String}

theorem Draft.checks_iff : w.checks m.name l ↔ ∃ t, w.checkTask? m = some t ∧ l ∈ t.preconditions := by
  rw [checks, checkTask?]
  cases w.slots.lookup m.name <;> simp [Option.any_eq_true]

theorem Draft.checks_iff_slot : w.checks n l ↔ ∃ slot, w.slots.lookup n = some slot ∧
    ∃ t, w.primitiveTasks[slot.task]? = some t ∧ l ∈ t.preconditions := by
  rw [checks]
  cases w.slots.lookup n <;> simp [Option.any_eq_true]

theorem Draft.checks_modify (h : w.checks n l) (hslots : w'.slots = w.slots) {i : ℕ} {f : Task → Task}
    (htasks : w'.primitiveTasks = w.primitiveTasks.modify i f)
    (hf : ∀ t, l ∈ t.preconditions → l ∈ (f t).preconditions) : w'.checks n l := by
  obtain ⟨slot, hslot, t, ht, hl⟩ := checks_iff_slot.1 h
  refine checks_iff_slot.2 ⟨slot, hslots ▸ hslot, ?_⟩
  by_cases hi : i = slot.task
  · exact ⟨f t, by rw [htasks, hi, List.getElem?_modify_eq, ht]; rfl, hf t hl⟩
  · exact ⟨t, by rw [htasks, List.getElem?_modify_ne _ _ hi, ht], hl⟩

theorem Draft.checks_addSlot (hnone : w.slots.lookup m.name = none)
    (hslots : w'.slots = (m.name, slot) :: w.slots) {new : List Task}
    (htasks : w'.primitiveTasks = w.primitiveTasks ++ new) (h : w.checks n l) : w'.checks n l := by
  obtain ⟨old, hold, t, ht, hl⟩ := checks_iff_slot.1 h
  have hne : n ≠ m.name := by
    rintro rfl
    rw [hnone] at hold
    cases hold
  refine checks_iff_slot.2 ⟨old, ?_, t, ?_, hl⟩
  · rw [hslots, List.lookup_cons, beq_false_of_ne hne]
    exact hold
  · rw [htasks, List.getElem?_append_left (List.getElem?_eq_some_iff.1 ht).1, ht]

theorem Draft.Opens.checks (hopen : Opens d m w slot w') (h : w.checks n l) : w'.checks n l := by
  cases hopen with
  | known _ => exact h
  | found hnone _ _ => exact checks_addSlot hnone rfl (List.append_nil _).symm h
  | made hnone _ _ => exact checks_addSlot hnone rfl rfl h

theorem Draft.Widens.checks {names : List String} (hwiden : Widens d m slot names w w')
    (h : w.checks n l) : w'.checks n l := by
  induction hwiden with
  | nil => exact h
  | has _ _ ih => exact ih h
  | add _ _ _ ih => exact ih (checks_modify h rfl rfl fun _ ht => ht)

theorem Draft.Widens.tally {names : List String} (hwiden : Widens d m slot names w w') :
    w'.tally = w.tally := by
  induction hwiden with
  | nil => rfl
  | has _ _ ih => exact ih
  | add _ _ _ ih => exact ih

theorem Draft.Opens.tally (hopen : Opens d m w slot w') : w'.tally = w.tally := by
  cases hopen <;> rfl

end Checks

section Settled

variable {d d' : Domain} {m : Method} {l : Literal} {w w' : Draft} {top : String}
  {allowed : Method → Literal → Prop} {offers : List (Method × Literal)} {tally : Tally}

theorem Shaped.offer (hd : d.WellFormed) (hown : d.ChecksOwn) (h : Shaped d allowed none w)
    (hm : m ∈ d.methods) (hl : ¬d.AllDemand m l → allowed m l)
    (hrun : (offer d (d.openingTasks m.name) m l).Runs w () w') :
    Shaped d allowed none w' ∧ (∀ n k, w.checks n k → w'.checks n k) ∧
      (d.AllDemand m l ∨ w'.checks m.name l) := by
  obtain ⟨hred, rfl⟩ | ⟨hred, slot, w₁, w₂, hopen, hwiden, rfl⟩ := offer_of_runs hrun
  · exact ⟨⟨h.1, h.2, h.3, h.4, h.5⟩, fun _ _ hk => hk, (isRedundant_iff hd hm w).1.1 hred⟩
  · have hno : ¬d.AllDemand m l := by
      intro hall
      have htrue := (isRedundant_iff hd hm w).1.2 (.inl hall)
      rw [hred] at htrue
      cases htrue
    have hcount : Shaped d allowed none { w with tally := w.tally.accept m.name } :=
      ⟨h.1, h.2, h.3, h.4, h.5⟩
    obtain ⟨h₁, hslot₁⟩ := hcount.opens hd.names hown hm hopen
    obtain ⟨h₂, hslot₂, -, -⟩ := Shaped.widens hd.names hm hwiden h₁ hslot₁
    obtain ⟨-, -, -, -, -, t, -, -, ht, -, -⟩ := h₂.exists_slot hm hslot₂
    refine ⟨h.offered hd.names hown hm (hl hno) (.accepted hopen hwiden), fun n k hk => ?_,
      .inr (checks_iff_slot.2 ⟨slot, hslot₂, t.withPrecondition l, ?_, ?_⟩)⟩
    · refine checks_modify (hwiden.checks (hopen.checks hk)) rfl rfl fun t ht => ?_
      exact List.mem_append_left _ ht
    · change (w₂.primitiveTasks.modify slot.task _)[slot.task]? = _
      rw [List.getElem?_modify_eq, ht]
      rfl
    · exact List.mem_append_right _ List.mem_cons_self

theorem Shaped.settled (hd : d.WellFormed) (hown : d.ChecksOwn) (h : Shaped d allowed none w)
    (hoffers : Offers d offers w w')
    (hl : ∀ m l, (m, l) ∈ offers → m ∈ d.methods ∧ (¬d.AllDemand m l → allowed m l)) :
    Shaped d allowed none w' ∧ (∀ n k, w.checks n k → w'.checks n k) ∧
      ∀ m l, (m, l) ∈ offers → d.AllDemand m l ∨ w'.checks m.name l := by
  induction hoffers with
  | nil => exact ⟨h, fun _ _ hk => hk, fun m l hmem => by cases hmem⟩
  | @cons m l offers w w₁ w' hoffer _ ih =>
    obtain ⟨hm, hallowed⟩ := hl m l List.mem_cons_self
    obtain ⟨h₁, hkeep₁, hsettled⟩ := h.offer hd hown hm hallowed hoffer
    obtain ⟨h', hkeep, hall⟩ := ih h₁ fun n k hmem => hl n k (List.mem_cons_of_mem _ hmem)
    refine ⟨h', fun n k hk => hkeep n k (hkeep₁ n k hk), fun n k hmem => ?_⟩
    obtain heq | hmem := List.mem_cons.1 hmem
    · cases heq
      exact hsettled.imp_right (hkeep _ _)
    · exact hall n k hmem

theorem Draft.Offers.idle (hd : d.WellFormed) (hoffers : Offers d offers w w')
    (hl : ∀ m l, (m, l) ∈ offers → m ∈ d.methods ∧ d.AllDemand m l) :
    w'.methods = w.methods ∧ w'.primitiveTasks = w.primitiveTasks ∧
      w'.tally.accepted = w.tally.accepted := by
  induction hoffers with
  | nil => exact ⟨rfl, rfl, rfl⟩
  | @cons m l offers w w₁ w' hoffer _ ih =>
    obtain ⟨hm, hall⟩ := hl m l List.mem_cons_self
    obtain ⟨-, rfl⟩ | ⟨hred, -⟩ := offer_of_runs hoffer
    · obtain ⟨hmethods, htasks, haccepted⟩ := ih fun n k hmem => hl n k (List.mem_cons_of_mem _ hmem)
      exact ⟨hmethods, htasks, haccepted.trans (Tally.accepted_reject _ _)⟩
    · have htrue := (isRedundant_iff hd hm w).1.2 (.inl hall)
      rw [hred] at htrue
      cases htrue

theorem Draft.Offers.counted (hoffers : Offers d offers w w')
    (h : w.tally.accepted = 0 → w.slots = []) : w'.tally.accepted = 0 → w'.slots = [] := by
  induction hoffers with
  | nil => exact h
  | @cons m l offers w w₁ w' hoffer _ ih =>
    refine ih ?_
    obtain ⟨-, rfl⟩ | ⟨-, slot, w₂, w₃, hopen, hwiden, rfl⟩ := offer_of_runs hoffer
    · exact fun hzero => h ((Tally.accepted_reject _ _).symm.trans hzero)
    · intro hzero
      have htally : (w₃.addPrecondition slot l).tally = w.tally.accept m.name :=
        hwiden.tally.trans hopen.tally
      rw [htally, Tally.accepted_accept] at hzero
      cases hzero

theorem Shaped.changed (h : Shaped d allowed none w) (hm : m ∈ d.methods)
    (hchecks : w.checks m.name l) : w.apply d ≠ d := by
  intro heq
  have htasks : w.primitiveTasks = d.primitiveTasks := congrArg Domain.primitiveTasks heq
  obtain ⟨slot, hslot, -⟩ := checks_iff_slot.1 hchecks
  obtain ⟨b, t, vs, ls, m', t', -, -, ht', hgrown, hls⟩ := h.exists_slot hm hslot
  rw [htasks] at ht'
  cases hgrown.starts with
  | old _ ht _ _ =>
    obtain rfl : t = t' := Option.some.inj (ht.symm.trans ht')
    have hpre := congrArg Task.preconditions hgrown.task
    exact hls (by simp) (List.self_eq_append_right.1 hpre)
  | new _ hlen _ => exact absurd (List.getElem?_eq_some_iff.1 ht').1 (Nat.not_lt.2 hlen)

variable (hd : d.WellFormed) (hs : d.SortsDeclared)
include hd hs

theorem Domain.Candidate.mem_methods (h : d.Candidate top m l) : m ∈ d.methods := by
  obtain ⟨-, v, hv, f, hf, rfl, -⟩ := h
  exact (finds_of_sweep hd hs hv hf).1

variable (hown : d.ChecksOwn) (hrun : d.inferPreconditions top = .ok (d', tally))
include hown hrun

/-- In the end each literal that was inferred is demanded by all tasks with which the method may
start, or else the method checks it; and it checks nothing else. -/
theorem settled_of_inferPreconditions : ∃ w, d' = w.apply d ∧
    Shaped d (fun m l => d.Candidate top m l ∧ ¬d.AllDemand m l) none w ∧
    ∀ m l, d.Candidate top m l →
      d.AllDemand m l ∨ ∃ t, w.checkTask? m = some t ∧ l ∈ t.preconditions := by
  obtain ⟨w, hoffers, rfl, -⟩ := offers_of_inferPreconditions hrun
  have hstart : Shaped d (fun m l => d.Candidate top m l ∧ ¬d.AllDemand m l) none
    (Draft.ofDomain d) := shaped_ofDomain
  obtain ⟨hshaped, -, hall⟩ := hstart.settled hd hown hoffers fun m l h =>
    ⟨(mem_offersOf.1 h).mem_methods hd hs, fun hno => ⟨mem_offersOf.1 h, hno⟩⟩
  exact ⟨w, rfl, hshaped, fun m l h => (hall m l (mem_offersOf.2 h)).imp_right checks_iff.1⟩

/-- Inference changes nothing just if all tasks with which a method may start demand whatever is
inferred for it. -/
theorem idle_iff_of_inferPreconditions :
    (d' = d ↔ ∀ m l, d.Candidate top m l → d.AllDemand m l) ∧
      (tally.accepted = 0 ↔ ∀ m l, d.Candidate top m l → d.AllDemand m l) := by
  obtain ⟨w, hoffers, rfl, rfl⟩ := offers_of_inferPreconditions hrun
  have hmethods : ∀ m l, (m, l) ∈ d.sweptPredicates.flatMap (d.offersOf top) → m ∈ d.methods :=
    fun m l h => (mem_offersOf.1 h).mem_methods hd hs
  have hstart : Shaped d (fun _ _ => True) none (Draft.ofDomain d) := shaped_ofDomain
  obtain ⟨hshaped, -, hall⟩ := hstart.settled hd hown hoffers
    fun m l h => ⟨hmethods m l h, fun _ => trivial⟩
  have hidle : (∀ m l, d.Candidate top m l → d.AllDemand m l) →
      w.apply d = d ∧ w.tally.accepted = 0 := by
    intro h
    obtain ⟨hms, hts, haccepted⟩ := hoffers.idle hd fun m l hml =>
      ⟨hmethods m l hml, h m l (mem_offersOf.1 hml)⟩
    exact ⟨by rw [Draft.apply, hms, hts]; rfl, haccepted⟩
  refine ⟨⟨fun heq m l hc => ?_, fun h => (hidle h).1⟩, ⟨fun hzero m l hc => ?_, fun h => (hidle h).2⟩⟩
  · refine (hall m l (mem_offersOf.2 hc)).resolve_right fun hchecks => ?_
    exact hshaped.changed (hc.mem_methods hd hs) hchecks heq
  · refine (hall m l (mem_offersOf.2 hc)).resolve_right fun hchecks => ?_
    obtain ⟨slot, hslot, -⟩ := checks_iff_slot.1 hchecks
    rw [hoffers.counted (fun _ => rfl) hzero] at hslot
    cases hslot

end Settled

section Again

variable {d d' : Domain} {m : Method} {l : Literal} {check : Method → Option Task}
  {allowed : Method → Literal → Prop} {top other : String}

theorem Domain.Checked.mem_minimalSteps (h : d.Checked d' allowed check) (hm : m ∈ d.methods)
    {t : Task} (ht : check m = some t) {s : Step} :
    s ∈ (m.withCheck check).minimalSteps ↔ s = m.checkStep t := by
  have hm' := (h.isOpen.wellFormed.fits hm).consistent
  have hcheck : m.withCheck check = m.checkedBy t := by rw [Method.withCheck, ht]
  rw [Method.minimalSteps, List.mem_filter, List.isEmpty_iff, Method.mem_withCheck_steps]
  constructor
  · rintro ⟨hs | ⟨u, hu, rfl⟩, hnone⟩
    · have hbefore := (h.mem_predecessors hm hs).2 (.inr ⟨t, ht, rfl⟩)
      rw [hnone] at hbefore
      cases hbefore
    · rw [Option.some.inj (ht.symm.trans hu)]
  · rintro rfl
    refine ⟨.inr ⟨t, ht, rfl⟩, List.eq_nil_iff_forall_not_mem.2 fun e he => ?_⟩
    obtain ⟨-, hprec⟩ := Method.mem_predecessors.1 he
    rw [hcheck] at hprec
    exact (Method.precedes_checkedBy hm' (h.isOpen.ids m hm) hprec hprec.1).2 rfl

theorem Domain.Checked.allDemand_iff (h : d.Checked d' allowed check) (hm : m ∈ d.methods) :
    d'.AllDemand (m.withCheck check) l ↔
      (check m = none → d.AllDemand m l) ∧ ∀ t, check m = some t → l ∈ t.preconditions := by
  have hm' : m.withCheck check ∈ d'.methods := h.mem_methods.2 ⟨m, hm, rfl⟩
  rw [Domain.AllDemand, h.wellFormed.openingTasks_eq hm']
  cases ht : check m with
  | none =>
    have hsame : m.withCheck check = m := by rw [Method.withCheck, ht]
    rw [hsame, ← h.isOpen.wellFormed.openingTasks_eq hm]
    simp only [forall_const, reduceCtorEq, false_implies, implies_true, and_true]
    refine forall₂_congr fun n hn => ?_
    rw [h.isOpen.wellFormed.openingTasks_eq hm, mem_increasing] at hn
    obtain ⟨s, hs, rfl⟩ := List.mem_map.1 hn
    rw [h.guarded.task? _ (h.isOpen.step_task hm (List.mem_filter.1 hs).1)]
  | some t =>
    obtain ⟨-, htask, -⟩ := h.guarded.checked m hm t ht
    simp only [mem_increasing, List.mem_map, h.mem_minimalSteps hm ht, exists_eq_left,
      forall_eq', htask, Option.some.injEq, reduceCtorEq, false_implies, true_and, exists_eq_left']

theorem Domain.Checked.infers_iff (h : d.Checked d' (d.Infers other) check)
    (hsorts : d.SortsInhabited) {u : Task} (hu : d.task? top = some u) {m' : Method} :
    d'.Infers top m' l ↔ ∃ m, m' = m.withCheck check ∧ d.Infers top m l := by
  obtain ⟨w, w', hw, hw', -, hfound, hfound'⟩ := h.exists_sweeps hsorts hu l.predicate l.positive
  constructor
  · rintro ⟨v, hv, f', hf', rfl, hl⟩
    obtain rfl : w' = v := Except.ok.inj (hw'.symm.trans hv)
    obtain ⟨f, hf, hsame⟩ := hfound' f' hf'
    exact ⟨f.method, hsame.method, w, hw, f, hf, rfl, hsame.inferred ▸ hl⟩
  · rintro ⟨m, rfl, v, hv, f, hf, rfl, hl⟩
    obtain rfl : w = v := Except.ok.inj (hw.symm.trans hv)
    obtain ⟨f', hf', hsame⟩ := hfound f hf
    exact ⟨w', hw', f', hf', hsame.method, hsame.inferred ▸ hl⟩

/-- A method to which the first inference gave something to check has something else inferred that
is redundant as long as the method has no check step. -/
def Domain.Mixes (d d' : Domain) (top : String) : Prop :=
  ∃ m ∈ d.methods, m ∉ d'.methods ∧ ∃ l, d.Candidate top m l ∧ d.AllDemand m l

theorem Domain.Checked.mem_iff (h : d.Checked d' allowed check) (hm : m ∈ d.methods) :
    m ∈ d'.methods ↔ check m = none := by
  refine ⟨fun hmem => ?_, h.guarded.unchecked m hm⟩
  obtain ⟨n, hn, hnm⟩ := h.mem_methods.1 hmem
  have hname : n.name = m.name := by rw [← hnm, Method.withCheck_name]
  obtain rfl := h.isOpen.wellFormed.names.eq_of_name_eq hn hm hname
  rw [Option.eq_none_iff_forall_ne_some]
  intro t ht
  have hs : n.checkStep t ∈ (n.withCheck check).steps :=
    Method.mem_withCheck_steps.2 (.inr ⟨t, ht, rfl⟩)
  rw [hnm] at hs
  exact h.isOpen.checkStep_notMem hn t hs

theorem Domain.Checked.candidate_iff (h : d.Checked d' (d.Infers other) check)
    (hsorts : d.SortsInhabited) {u : Task} (hu : d.task? top = some u) {m' : Method} :
    d'.Candidate top m' l ↔ ∃ m, m' = m.withCheck check ∧ d.Candidate top m l := by
  rw [Domain.Candidate, h.infers_iff hsorts hu, h.predicates]
  constructor
  · rintro ⟨hl, m, rfl, hinfers⟩
    exact ⟨m, rfl, hl, hinfers⟩
  · rintro ⟨m, rfl, hl, hinfers⟩
    exact ⟨hl, m, rfl, hinfers⟩

/-- Where methods check just those literals that were not redundant, all are redundant now unless
one was redundant for a method that has got a check step. -/
theorem Domain.Checked.redundant_iff
    (h : d.Checked d' (fun m l => d.Candidate top m l ∧ ¬d.AllDemand m l) check)
    (hsorts : d.SortsInhabited) {u : Task} (hu : d.task? top = some u)
    (hsettled : ∀ m l, d.Candidate top m l →
      d.AllDemand m l ∨ ∃ t, check m = some t ∧ l ∈ t.preconditions) :
    (∀ m l, d'.Candidate top m l → d'.AllDemand m l) ↔ ¬d.Mixes d' top := by
  have hinfers : d.Checked d' (d.Infers top) check := h.mono fun m l hl => hl.1.2
  constructor
  · rintro hall ⟨m, hm, hchanged, l, hl, hdemand⟩
    obtain ⟨t, ht⟩ := Option.ne_none_iff_exists'.1 (mt (h.mem_iff hm).2 hchanged)
    have hdemand' := hall _ l ((hinfers.candidate_iff hsorts hu).2 ⟨m, rfl, hl⟩)
    obtain ⟨-, -, -, -, -, -, hliterals⟩ := h.guarded.checked m hm t ht
    exact (hliterals l (((h.allDemand_iff hm).1 hdemand').2 t ht)).1.2 hdemand
  · intro hno m' l hl'
    obtain ⟨m, rfl, hl⟩ := (hinfers.candidate_iff hsorts hu).1 hl'
    have hm := hl.mem_methods h.isOpen.wellFormed hsorts.declared
    refine (h.allDemand_iff hm).2 ⟨fun hnone => ?_, fun t ht => ?_⟩
    · refine (hsettled m l hl).resolve_right fun ⟨t, ht, _⟩ => ?_
      rw [hnone] at ht
      cases ht
    · have hchanged : m ∉ d'.methods := fun hmem => by
        rw [(h.mem_iff hm).1 hmem] at ht
        cases ht
      obtain ⟨u, hu, hl⟩ := (hsettled m l hl).resolve_left fun hdemand =>
        hno ⟨m, hm, hchanged, l, hl, hdemand⟩
      rwa [Option.some.inj (ht.symm.trans hu)]

/-- Inference below the same task again succeeds. It accepts nothing and changes nothing, unless
there is a method whose first check step ended the redundancy of something. -/
theorem inferPreconditions_again (hd : d.WellFormed) (hsorts : d.SortsInhabited)
    (htasks : ∀ t ∈ d.tasks, ¬IsCheckTask t.name)
    (hids : ∀ m ∈ d.methods, newCheckStepMark ++ m.name ∉ m.stepIds) {tally : Tally}
    (h : d.inferPreconditions top = .ok (d', tally)) :
    ∃ d'' tally', d'.inferPreconditions top = .ok (d'', tally') ∧
      (d'' = d' ↔ ¬d.Mixes d' top) ∧ (tally'.accepted = 0 ↔ ¬d.Mixes d' top) := by
  have hopen : Tree.Open d := ⟨hd, htasks, hids⟩
  obtain ⟨w, rfl, hshaped, hsettled⟩ :=
    settled_of_inferPreconditions hd hsorts.declared hopen.checksOwn h
  have hchecked := hshaped.checked hopen
  obtain ⟨u, hu⟩ := exists_task?_of_inferPreconditions h
  have hu' : (w.apply d).task? top = some u := by
    obtain ⟨hmem, rfl⟩ := Domain.mem_of_task?_eq_some hu
    exact (hchecked.guarded.task? _ (htasks u hmem)).trans hu
  have hsorts' := hchecked.sortsDeclared hsorts.declared
  obtain ⟨d'', tally', hagain⟩ := hchecked.wellFormed.inferPreconditions_ok hsorts' hu'
  obtain ⟨hsame, hnothing⟩ := idle_iff_of_inferPreconditions hchecked.wellFormed hsorts'
    (hshaped.checksOwn_apply hopen) hagain
  have hredundant := hchecked.redundant_iff hsorts hu hsettled
  exact ⟨d'', tally', hagain, hsame.trans hredundant, hnothing.trans hredundant⟩

theorem inferPreconditions_again_clearing : ∃ tally tally',
    clearing.inferPreconditions "clear" = .ok (guardedClearing, tally) ∧
    guardedClearing.inferPreconditions "clear" = .ok (guardedClearing, tally') ∧
    tally'.accepted = 0 := by
  obtain ⟨tally, h⟩ := exists_tally_clearing
  have hmixes : ¬clearing.Mixes guardedClearing "clear" := by
    rintro ⟨m, hm, -, l, ⟨-, v, hv, f, hf, hmethod, hl⟩, hdemand⟩
    obtain rfl | hm := List.mem_cons.1 hm
    · -- what the method starts with demands nothing
      obtain ⟨t, ht, hlt⟩ := hdemand "move" (by decide)
      cases ht
      cases hlt
    · -- the only literal that the task demands is about the parameter of that
      obtain rfl := List.mem_singleton.1 hm
      obtain ⟨t, ht, hlt⟩ := hdemand "pick" (by decide)
      cases ht
      obtain rfl := List.mem_singleton.1 hlt
      cases hv
      revert hl
      revert hmethod
      revert f
      decide +kernel
  obtain ⟨d'', tally', hagain, hsame, hnothing⟩ :=
    inferPreconditions_again wellFormed_clearing sortsInhabited_clearing (by decide) (by decide) h
  obtain rfl := hsame.2 hmixes
  exact ⟨tally, tally', h, hagain, hnothing.2 hmixes⟩

theorem sortsInhabited_fetching : fetching.SortsInhabited := by
  intro m hm v hv
  obtain rfl := List.mem_singleton.1 hm
  obtain rfl := List.mem_singleton.1 hv
  exact ⟨"cup", NameSet.ofList ["cup"], rfl, by decide⟩

def readyFetching : Domain :=
  { fetching with
    predicates := { name := "ready", argumentSorts := [] } :: fetching.predicates
    primitiveTasks := fetching.primitiveTasks.map (·.withPrecondition (fact "ready")) }

def guardedReadyFetching : Domain :=
  { readyFetching with
    primitiveTasks := readyFetching.primitiveTasks ++ [freeCheck]
    methods := [byHand.checkedBy freeCheck] }

/-- The second time the check step is the one with which the method starts, and it does not demand
what the step after it demands. -/
theorem inferPreconditions_accepts_again :
    readyFetching.WellFormed ∧ readyFetching.SortsInhabited ∧
      (∀ t ∈ readyFetching.tasks, ¬IsCheckTask t.name) ∧
      (∀ m ∈ readyFetching.methods, m.Acyclic ∧ newCheckStepMark ++ m.name ∉ m.stepIds) ∧
      ∃ d d' tally tally', readyFetching.inferPreconditions "fetch" = .ok (d, tally) ∧
        d.inferPreconditions "fetch" = .ok (d', tally') ∧ d' ≠ d ∧ tally'.accepted ≠ 0 := by
  have hfirst : (readyFetching.inferPreconditions "fetch").toOption.map (·.1)
      = some guardedReadyFetching := by
    decide +kernel
  have hsecond : (guardedReadyFetching.inferPreconditions "fetch").toOption.any
      (fun r => r.1 ≠ guardedReadyFetching ∧ r.2.accepted ≠ 0) = true := by
    decide +kernel
  obtain ⟨tally, hfirst⟩ := exists_tally hfirst
  refine ⟨⟨by decide, by decide, by decide, by decide⟩, sortsInhabited_fetching, by decide,
    fun m hm => ⟨Method.acyclic_iff.2 ?_, ?_⟩, guardedReadyFetching, ?_⟩
  · revert m
    decide
  · revert m
    decide
  · cases hresult : guardedReadyFetching.inferPreconditions "fetch" with
    | error e => simp [hresult, Except.toOption] at hsecond
    | ok r =>
      simp only [hresult, Except.toOption, Option.any_some, decide_eq_true_eq] at hsecond
      exact ⟨r.1, tally, r.2, hfirst, rfl, hsecond⟩

end Again

end TaskNetwork
