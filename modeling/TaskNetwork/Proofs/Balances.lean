import TaskNetwork.Proofs.SetLaws
import TaskNetwork.Proofs.SharedChecks
import TaskNetwork.Proofs.Tallies
import TaskNetwork.Proofs.WalkOrder

namespace TaskNetwork

open DraftM Draft PatternSet

def preconditionCounts (tasks : List Task) : List ℕ := tasks.map (·.preconditions.length)

/-- The slot is that of a check step of a method of this name. -/
def CheckSlot.IsFor (slot : CheckSlot) (name : String) (w : Draft) : Prop :=
  ∃ m s t, w.methods[slot.method]? = some m ∧ m.name = name ∧ m.steps[slot.step]? = some s ∧
    IsCheckTask s.task ∧ w.primitiveTasks[slot.task]? = some t ∧ t.name = s.task

/-- What the log, which has the name and the slot of the method for each literal that was accepted,
has made of the domain. -/
structure Draft.Books (d : Domain) (log : List (String × CheckSlot)) (w : Draft) : Prop where
  names : w.methods.map (·.name) = d.methods.map (·.name)
  slots : ∀ name slot, w.slots.lookup name = some slot → slot.IsFor name w
  logged : ∀ e ∈ log, w.slots.lookup e.1 = some e.2
  preconditions : ∀ j, (preconditionCounts w.primitiveTasks)[j]?.getD 0 =
    (preconditionCounts d.primitiveTasks)[j]?.getD 0 + log.countP (·.2.task = j)
  total : (preconditionCounts w.primitiveTasks).sum =
    (preconditionCounts d.primitiveTasks).sum + log.length

section Counts

variable {tasks new : List Task} {g : Task → Task} {i j : ℕ}

theorem map_modify_of {α β : Type} {f : α → β} {g : α → α} (hg : ∀ a, f (g a) = f a)
    (l : List α) (i : ℕ) : (l.modify i g).map f = l.map f := by
  apply List.ext_getElem?
  intro j
  rw [List.getElem?_map, List.getElem?_map, List.getElem?_modify]
  cases l[j]? with
  | none => rfl
  | some a => by_cases hij : i = j <;> simp [hij, hg]

theorem preconditionCounts_modify (hg : ∀ t, (g t).preconditions = t.preconditions) :
    preconditionCounts (tasks.modify i g) = preconditionCounts tasks :=
  map_modify_of (fun t => by rw [hg]) tasks i

theorem preconditionCounts_append (hnew : ∀ t ∈ new, t.preconditions = []) :
    preconditionCounts (tasks ++ new) =
      preconditionCounts tasks ++ List.replicate new.length 0 := by
  have hzero : new.map (·.preconditions.length) = List.replicate new.length 0 := by
    rw [List.eq_replicate_iff]
    simpa using hnew
  rw [preconditionCounts, List.map_append, hzero, preconditionCounts]

theorem getD_append_zeros (counts : List ℕ) (n j : ℕ) :
    (counts ++ List.replicate n 0)[j]?.getD 0 = counts[j]?.getD 0 := by
  obtain hj | hj := Nat.lt_or_ge j counts.length
  · rw [List.getElem?_append_left hj]
  · rw [List.getElem?_append_right hj, List.getElem?_eq_none hj, List.getElem?_replicate]
    split <;> rfl

theorem preconditionCounts_withPrecondition (l : Literal) :
    preconditionCounts (tasks.modify i (·.withPrecondition l)) =
      (preconditionCounts tasks).modify i (· + 1) := by
  apply List.ext_getElem?
  intro j
  simp only [preconditionCounts, List.getElem?_map, List.getElem?_modify]
  cases tasks[j]? with
  | none => rfl
  | some t => by_cases hij : i = j <;> simp [hij, Task.withPrecondition]

theorem sum_modify_succ {counts : List ℕ} (hi : i < counts.length) :
    (counts.modify i (· + 1)).sum = counts.sum + 1 := by
  induction counts generalizing i with
  | nil => cases hi
  | cons c counts ih =>
    cases i with
    | zero => simp only [List.modify_zero_cons, List.sum_cons, Nat.add_right_comm]
    | succ i =>
      rw [List.modify_succ_cons, List.sum_cons, ih (Nat.lt_of_succ_lt_succ hi), List.sum_cons,
        Nat.add_assoc]

theorem getD_modify_succ {counts : List ℕ} (hi : i < counts.length) :
    (counts.modify i (· + 1))[j]?.getD 0 = counts[j]?.getD 0 + if i = j then 1 else 0 := by
  rw [List.getElem?_modify]
  by_cases hij : i = j
  · subst hij
    simp [List.getElem?_eq_getElem hi]
  · simp [hij]

end Counts

section Books

variable {d : Domain} {log : List (String × CheckSlot)} {m : Method} {l : Literal}
  {w w' : Draft} {slot : CheckSlot} {name : String}

theorem books_ofDomain : (Draft.ofDomain d).Books d [] where
  names := rfl
  slots _ _ h := by cases h
  logged _ h := by cases h
  preconditions _ := rfl
  total := rfl

theorem Draft.Books.withTally (h : w.Books d log) (tally : Tally) :
    Draft.Books d log { w with tally } :=
  ⟨h.1, h.2, h.3, h.4, h.5⟩

/-- The steps of a method ask for the tasks that they asked for, and there may be new ones. -/
structure KeepsSteps (f : Method → Method) : Prop where
  name : ∀ m : Method, (f m).name = m.name
  steps : ∀ (m : Method) (k : ℕ) (s : Step), m.steps[k]? = some s →
    ∃ s', (f m).steps[k]? = some s' ∧ s'.task = s.task

theorem CheckSlot.IsFor.modify (h : slot.IsFor name w) {f : Method → Method} (hf : KeepsSteps f)
    {g : Task → Task} (hg : ∀ t, (g t).name = t.name) (i j : ℕ) (new : List Task)
    (slots : List (String × CheckSlot)) (tally : Tally) :
    slot.IsFor name
      { methods := w.methods.modify i f, primitiveTasks := w.primitiveTasks.modify j g ++ new,
        slots, tally } := by
  obtain ⟨m, s, t, hm, hname, hs, hcheck, ht, hst⟩ := h
  obtain ⟨s', hs', htask⟩ : ∃ s', (if i = slot.method then f m else m).steps[slot.step]? = some s' ∧
      s'.task = s.task := by
    split
    · exact hf.steps m _ s hs
    · exact ⟨s, hs, rfl⟩
  refine ⟨if i = slot.method then f m else m, s', if j = slot.task then g t else t, ?_, ?_, hs',
    htask ▸ hcheck, ?_, ?_⟩
  · rw [List.getElem?_modify, hm]
    rfl
  · split
    · exact (hf.name m).trans hname
    · exact hname
  · have hlt : slot.task < (w.primitiveTasks.modify j g).length := by
      rw [List.length_modify]
      exact (List.getElem?_eq_some_iff.1 ht).1
    rw [List.getElem?_append_left hlt, List.getElem?_modify, ht]
    rfl
  · rw [htask, ← hst]
    split
    · exact hg t
    · rfl

theorem Draft.Books.modify (h : w.Books d log) {f : Method → Method} (hf : KeepsSteps f)
    {g : Task → Task} (hg : ∀ t, (g t).name = t.name ∧ (g t).preconditions = t.preconditions)
    (i j : ℕ) (new : List Task) (hnew : ∀ t ∈ new, t.preconditions = []) :
    Draft.Books d log { w with
      methods := w.methods.modify i f
      primitiveTasks := w.primitiveTasks.modify j g ++ new } where
  names := (map_modify_of hf.name _ _).trans h.names
  slots k slot hslot := (h.slots k slot hslot).modify hf (fun t => (hg t).1) i j new _ _
  logged := h.logged
  preconditions k := by
    rw [preconditionCounts_append hnew, preconditionCounts_modify fun t => (hg t).2,
      getD_append_zeros, h.preconditions k]
  total := by
    rw [preconditionCounts_append hnew, preconditionCounts_modify fun t => (hg t).2,
      List.sum_append, h.total]
    simp

theorem keepsSteps_id : KeepsSteps id :=
  ⟨fun _ => rfl, fun _ _ s hs => ⟨s, hs, rfl⟩⟩

theorem keepsSteps_addCheckStep : KeepsSteps Method.addCheckStep where
  name _ := rfl
  steps m k s hs := by
    refine ⟨s, ?_, rfl⟩
    rw [Method.addCheckStep, List.getElem?_append_left (List.getElem?_eq_some_iff.1 hs).1, hs]

theorem keepsSteps_addArgument (k : ℕ) (v : String) : KeepsSteps fun m =>
    { m with steps := m.steps.modify k fun s => { s with arguments := s.arguments ++ [v] } } where
  name _ := rfl
  steps m j s hs := by
    refine ⟨if k = j then { s with arguments := s.arguments ++ [v] } else s, ?_, ?_⟩
    · rw [List.getElem?_modify, hs]
      rfl
    · split <;> rfl

theorem Draft.Books.addSlot (h : w.Books d log) (hnone : w.slots.lookup name = none)
    (hslot : slot.IsFor name w) :
    Draft.Books d log { w with slots := (name, slot) :: w.slots } where
  names := h.names
  slots k other hother := by
    rw [List.lookup_cons] at hother
    split at hother
    · next heq =>
      obtain rfl := Option.some.inj hother
      exact eq_of_beq heq ▸ hslot
    · exact h.slots k other hother
  logged e he := by
    have hold := h.logged e he
    have hne : e.1 ≠ name := by
      rintro rfl
      rw [hnone] at hold
      cases hold
    exact (lookup_cons_of_ne hne _).trans hold
  preconditions := h.preconditions
  total := h.total

theorem Draft.Books.exists_method (h : w.Books d log) {i : ℕ} (hi : d.methodIndex name = .ok i) :
    ∃ n, w.methods[i]? = some n := by
  obtain ⟨m, hm, -⟩ := Domain.methodIndex_eq_ok hi
  have hlen := congrArg List.length h.names
  rw [List.length_map, List.length_map] at hlen
  exact ⟨_, List.getElem?_eq_getElem (hlen ▸ (List.getElem?_eq_some_iff.1 hm).1)⟩

theorem Draft.Books.name_of_methodIndex (h : w.Books d log) {i : ℕ}
    (hi : d.methodIndex name = .ok i) (hm : w.methods[i]? = some m) : m.name = name := by
  obtain ⟨n, hn, rfl⟩ := Domain.methodIndex_eq_ok hi
  have hnames := congrArg (·[i]?) h.names
  simpa [hm, hn] using hnames

theorem Draft.Books.opens (h : w.Books d log) (hopen : Opens d m w slot w') :
    w'.Books d log ∧ w'.slots.lookup m.name = some slot := by
  have hself : ∀ slot, ((m.name, slot) :: w.slots).lookup m.name = some slot :=
    fun _ => List.lookup_cons_self
  cases hopen with
  | known hslot => exact ⟨h, hslot⟩
  | @found i slot hnone hi hold =>
    refine ⟨h.addSlot hnone ?_, hself slot⟩
    obtain ⟨rfl, n, s, t, hn, hs, hcheck, ht, hst⟩ := existingSlot?_eq_some hold
    exact ⟨n, s, t, hn, h.name_of_methodIndex hi hn, hs, hcheck, ht, hst⟩
  | @made i hnone hi _ =>
    obtain ⟨n, hn⟩ := h.exists_method hi
    have hadd := h.modify keepsSteps_addCheckStep (g := id) (fun _ => ⟨rfl, rfl⟩) i 0
      (w.methods[i]?.toList.map Method.checkTask) (fun t ht => by
        obtain ⟨k, -, rfl⟩ := List.mem_map.1 ht
        rfl)
    rw [List.modify_id] at hadd
    refine ⟨Draft.Books.addSlot (w := (w.addCheckStep i).1) hadd hnone ?_, hself _⟩
    have hname : n.name = m.name := h.name_of_methodIndex hi hn
    refine ⟨n.addCheckStep,
      { id := newCheckStepMark ++ n.name, task := newCheckTaskMark ++ n.name, arguments := [] },
      n.checkTask, ?_, hname, ?_, isCheckTask_newCheckTask n.name, ?_, rfl⟩
    · simp [Draft.addCheckStep, hn]
    · simp [Draft.addCheckStep, Method.addCheckStep, hn]
    · simp [Draft.addCheckStep, hn]

theorem Draft.Books.addParameter (h : w.Books d log) (slot : CheckSlot) (v : TypedName) :
    (w.addParameter slot v).Books d log := by
  have hmodify := h.modify (keepsSteps_addArgument slot.step v.name)
    (g := fun t => { t with parameters := t.parameters ++ [v] }) (fun _ => ⟨rfl, rfl⟩) slot.method
    slot.task [] (fun t ht => by cases ht)
  rwa [List.append_nil] at hmodify

theorem Draft.Books.widens {names : List String} (h : w.Books d log)
    (hwiden : Widens d m slot names w w') (hslot : w.slots.lookup m.name = some slot) :
    w'.Books d log ∧ w'.slots.lookup m.name = some slot := by
  induction hwiden with
  | nil => exact ⟨h, hslot⟩
  | has _ _ ih => exact ih h hslot
  | add _ _ _ ih => exact ih (h.addParameter _ _) hslot

theorem Draft.Books.task_lt (h : w.Books d log) (hslot : w.slots.lookup name = some slot) :
    slot.task < (preconditionCounts w.primitiveTasks).length := by
  obtain ⟨-, -, t, -, -, -, -, ht, -⟩ := h.slots name slot hslot
  rw [preconditionCounts, List.length_map]
  exact (List.getElem?_eq_some_iff.1 ht).1

theorem Draft.Books.addPrecondition (h : w.Books d log) (hslot : w.slots.lookup name = some slot)
    (l : Literal) : (w.addPrecondition slot l).Books d ((name, slot) :: log) where
  names := h.names
  slots k other hother := by
    have hmodify := (h.slots k other hother).modify keepsSteps_id (g := (·.withPrecondition l))
      (fun _ => rfl) 0 slot.task [] w.slots w.tally
    rwa [List.append_nil, List.modify_id] at hmodify
  logged := List.forall_mem_cons.2 ⟨hslot, h.logged⟩
  preconditions k := by
    change (preconditionCounts (w.primitiveTasks.modify slot.task _))[k]?.getD 0 = _
    rw [preconditionCounts_withPrecondition, getD_modify_succ (h.task_lt hslot),
      h.preconditions k, List.countP_cons, Nat.add_assoc]
    simp
  total := by
    change (preconditionCounts (w.primitiveTasks.modify slot.task _)).sum = _
    rw [preconditionCounts_withPrecondition, sum_modify_succ (h.task_lt hslot), h.total,
      List.length_cons, Nat.add_assoc]

/-- What is offered to a method is accepted and entered into the log, or it is rejected. -/
theorem Draft.Books.offered (h : w.Books d log) {rejected : List String}
    (hcounts : w.tally.Counts d (log.map (·.1)) rejected) (hoffer : Offered d m l w w') :
    ∃ log' rejected', w'.Books d log' ∧ w'.tally.Counts d (log'.map (·.1)) rejected' ∧
      (log'.map (·.1) ++ rejected').Perm (m.name :: (log.map (·.1) ++ rejected)) := by
  cases hoffer with
  | redundant _ _ =>
    exact ⟨log, m.name :: rejected, h.withTally _, hcounts.reject m.name, List.perm_middle⟩
  | @accepted slot w₁ w₂ hopen hwiden =>
    obtain ⟨h₁, hslot₁⟩ := (h.withTally (w.tally.accept m.name)).opens hopen
    obtain ⟨h₂, hslot₂⟩ := h₁.widens hwiden hslot₁
    have htally : w₂.tally = w.tally.accept m.name := hwiden.tally.trans hopen.tally
    refine ⟨(m.name, slot) :: log, rejected, h₂.addPrecondition hslot₂ l, ?_, .refl _⟩
    change w₂.tally.Counts d _ _
    rw [htally]
    exact hcounts.accept m.name

theorem Draft.Books.offers {offers : List (Method × Literal)} (hrun : Offers d offers w w')
    (h : w.Books d log) {rejected : List String}
    (hcounts : w.tally.Counts d (log.map (·.1)) rejected) :
    ∃ log' rejected', w'.Books d log' ∧ w'.tally.Counts d (log'.map (·.1)) rejected' ∧
      (log'.map (·.1) ++ rejected').Perm
        (offers.map (·.1.name) ++ (log.map (·.1) ++ rejected)) := by
  induction hrun generalizing log rejected with
  | nil => exact ⟨log, rejected, h, hcounts, .refl _⟩
  | cons hoffer _ ih =>
    obtain ⟨log₁, rejected₁, h₁, hcounts₁, hperm₁⟩ := h.offered hcounts (offered_of_runs hoffer)
    obtain ⟨log', rejected', h', hcounts', hperm⟩ := ih h₁ hcounts₁
    refine ⟨log', rejected', h', hcounts', hperm.trans ?_⟩
    rw [List.map_cons, List.cons_append]
    exact (hperm₁.append_left _).trans List.perm_middle

end Books

section Sweeps

variable {d d' : Domain} {top : String} {tally : Tally} {w w' : Draft} {name : String}

theorem sweep_of_inferPreconditions (h : d.inferPreconditions top = .ok (d', tally))
    {swept : String × Bool} (hswept : swept ∈ d.sweptPredicates) :
    ∃ v, d.sweep top swept.1 swept.2 = .ok v ∧ ∀ f ∈ v.findings, ∀ p ∈ f.inferred.toList,
      ∃ l, p.toLiteral f.method swept.1 swept.2 = .ok l := by
  obtain ⟨t, ht⟩ := exists_task?_of_inferPreconditions h
  simp only [Domain.inferPreconditions, ht] at h
  split at h
  · next w hw =>
    obtain ⟨w₁, w₂, hrun⟩ := runs_of_mem_forM hw hswept
    obtain ⟨v, w₃, hlift, hrun⟩ := runs_bind.1 hrun
    obtain ⟨hv, -⟩ := runs_failure.1 hlift
    refine ⟨v, by rw [Domain.sweep, ht]; exact hv, fun f hf p hp => ?_⟩
    obtain ⟨w₄, w₅, hinject⟩ := runs_of_mem_forM hrun hf
    obtain ⟨w₆, w₇, hoffer⟩ := runs_of_mem_forM hinject hp
    obtain ⟨l, w₈, hlift, -⟩ := runs_bind.1 hoffer
    exact ⟨l, (runs_failure.1 hlift).1⟩
  · cases h

end Sweeps

def Sweep.inferredCount (v : Sweep) (method : String) : ℕ :=
  ((v.finding? method).map (·.inferred.toList.length)).getD 0

section Sizes

variable {d : Domain} {top predicate : String} {positive : Bool} {v : Sweep} {name : String}

theorem inferred_ne_anything (hv : d.sweep top predicate positive = .ok v) {f : Finding}
    (hf : f ∈ v.findings) : f.inferred ≠ anything := by
  obtain ⟨seen, -, hwalked⟩ := walked_of_sweepAlong (sweep_eq_ok hv)
  obtain ⟨-, -, -, t, c, -, hc, -⟩ := hwalked.of_finding hf
  have hneeds : f.needs.Plain := (hc.plain hwalked.plain).2.2
  exact (hneeds.constrain hc.inferred).ne_anything

theorem length_filterMap_toLiteral {m : Method} {ps : List Pattern}
    (h : ∀ p ∈ ps, ∃ l, p.toLiteral m predicate positive = .ok l) :
    (ps.filterMap fun p => (p.toLiteral m predicate positive).toOption).length = ps.length := by
  induction ps with
  | nil => rfl
  | cons p ps ih =>
    obtain ⟨⟨l, hl⟩, h⟩ := List.forall_mem_cons.1 h
    rw [List.filterMap_cons, hl]
    exact congrArg (· + 1) (ih h)

theorem countP_offers (hpair : v.findings.Pairwise fun f g => f.method.name ≠ g.method.name)
    (hliterals : ∀ f ∈ v.findings, ∀ p ∈ f.inferred.toList,
      ∃ l, p.toLiteral f.method predicate positive = .ok l) :
    (v.offers predicate positive).countP (·.1.name = name) = v.inferredCount name := by
  rw [Sweep.offers, Sweep.inferredCount, Sweep.finding?]
  generalize v.findings = findings at hpair hliterals ⊢
  induction findings with
  | nil => rfl
  | cons f findings ih =>
    obtain ⟨hothers, hpair⟩ := List.pairwise_cons.1 hpair
    obtain ⟨hf, hliterals⟩ := List.forall_mem_cons.1 hliterals
    rw [List.flatMap_cons, List.countP_append, List.countP_map, ih hpair hliterals]
    by_cases hname : f.method.name = name
    · have hnone : findings.find? (·.method.name = name) = none := by
        rw [List.find?_eq_none]
        intro g hg hgname
        exact hothers g hg (hname.trans (of_decide_eq_true hgname).symm)
      simp [Function.comp_def, hname, hnone, length_filterMap_toLiteral hf]
    · simp [Function.comp_def, hname]

theorem countP_offers_of_inferPreconditions {d' : Domain} {tally : Tally}
    (hnames : (d.methods.map (·.name)).Nodup) (h : d.inferPreconditions top = .ok (d', tally)) :
    ∃ sweeps, List.Forall₂ (fun swept v => d.sweep top swept.1 swept.2 = .ok v)
        d.sweptPredicates sweeps ∧
      (∀ v ∈ sweeps, ∀ f ∈ v.findings, f.inferred ≠ anything) ∧
      ∀ name, (d.sweptPredicates.flatMap (d.offersOf top)).countP (·.1.name = name) =
        (sweeps.map (·.inferredCount name)).sum := by
  refine ⟨d.sweptPredicates.map fun swept => (d.sweep top swept.1 swept.2).toOption.getD {},
    List.forall₂_map_right_iff.2 (List.forall₂_same.2 fun swept hswept => ?_),
    List.forall_mem_map.2 fun swept hswept => ?_, fun name => ?_⟩
  · obtain ⟨v, hv, -⟩ := sweep_of_inferPreconditions h hswept
    rw [hv]
    rfl
  · obtain ⟨v, hv, -⟩ := sweep_of_inferPreconditions h hswept
    rw [hv]
    exact fun f hf => inferred_ne_anything hv hf
  · rw [List.countP_flatMap, List.map_map]
    refine congrArg List.sum (List.map_congr_left fun swept hswept => ?_)
    obtain ⟨v, hv, hliterals⟩ := sweep_of_inferPreconditions h hswept
    rw [Function.comp_apply, Function.comp_apply, Domain.offersOf, hv]
    exact countP_offers (pairwise_names hnames hv) hliterals

end Sizes

/-- In the second domain the method of this name has a check step, and the task of that, at the
position, has more preconditions than in the first domain. -/
def Domain.ChecksMore (d d' : Domain) (name : String) (j : ℕ) : Prop :=
  ∃ m ∈ d'.methods, m.name = name ∧ ∃ s ∈ m.steps, IsCheckTask s.task ∧
    ∃ t ∈ d'.primitiveTasks[j]?, t.name = s.task ∧
      (preconditionCounts d.primitiveTasks)[j]?.getD 0 < t.preconditions.length

instance (d d' : Domain) (name : String) (j : ℕ) : Decidable (d.ChecksMore d' name j) :=
  inferInstanceAs (Decidable (∃ m ∈ d'.methods, m.name = name ∧ ∃ s ∈ m.steps, _ ∧
    ∃ t ∈ d'.primitiveTasks[j]?, _))

section Books

variable {d : Domain} {log : List (String × CheckSlot)} {w : Draft} {j : ℕ} {name : String}

theorem Draft.Books.lt_iff (h : w.Books d log) :
    (preconditionCounts d.primitiveTasks)[j]?.getD 0 <
      (preconditionCounts w.primitiveTasks)[j]?.getD 0 ↔ ∃ e ∈ log, e.2.task = j := by
  rw [h.preconditions, Nat.lt_add_right_iff_pos, List.countP_pos_iff]
  simp

theorem Draft.Books.checksMore (h : w.Books d log) {e : String × CheckSlot} (he : e ∈ log) :
    d.ChecksMore (w.apply d) e.1 e.2.task := by
  obtain ⟨m, s, t, hm, hname, hs, hcheck, ht, hst⟩ := h.slots _ _ (h.logged e he)
  refine ⟨m, List.mem_of_getElem? hm, hname, s, List.mem_of_getElem? hs, hcheck, t, ht, hst, ?_⟩
  have hlt := h.lt_iff.2 ⟨e, he, rfl⟩
  rwa [preconditionCounts, preconditionCounts, List.getElem?_map, List.getElem?_map, ht,
    ← List.getElem?_map] at hlt

theorem Draft.Books.exists_of_checksMore (h : w.Books d log)
    (hmore : d.ChecksMore (w.apply d) name j) : ∃ e ∈ log, e.2.task = j := by
  obtain ⟨m, -, -, s, -, -, t, ht, -, hlt⟩ := hmore
  refine h.lt_iff.1 (hlt.trans_eq ?_)
  have ht' : w.primitiveTasks[j]? = some t := ht
  rw [preconditionCounts, List.getElem?_map, ht']
  rfl

theorem Draft.Books.name_mem (h : w.Books d log) {e : String × CheckSlot} (he : e ∈ log) :
    e.1 ∈ d.methods.map (·.name) := by
  obtain ⟨m, s, t, hm, hname, -⟩ := h.slots _ _ (h.logged e he)
  rw [← h.names, ← hname]
  exact List.mem_map_of_mem (List.mem_of_getElem? hm)

end Books

/-- What sweeps infer for a method is counted as accepted or redundant, and what is accepted is one
precondition each. Methods for which something is accepted have a check step that checks more, and
check steps that check more have the task of that of a method for which something is accepted. -/
structure Tally.Balances (tally : Tally) (d d' : Domain) (top : String) : Prop where
  inferred : ∃ sweeps, List.Forall₂ (fun swept v => d.sweep top swept.1 swept.2 = .ok v)
      d.sweptPredicates sweeps ∧
    (∀ v ∈ sweeps, ∀ f ∈ v.findings, f.inferred ≠ anything) ∧
    ∀ m ∈ d.methods, (tally.ofMethod m.name).accepted + (tally.ofMethod m.name).redundant =
      (sweeps.map (·.inferredCount m.name)).sum
  preconditions : (preconditionCounts d.primitiveTasks).sum + tally.accepted =
    (preconditionCounts d'.primitiveTasks).sum
  checks_more : ∀ m ∈ d.methods, 0 < (tally.ofMethod m.name).accepted →
    ∃ j, d.ChecksMore d' m.name j
  accepted : ∀ m ∈ d.methods, ∀ j, d.ChecksMore d' m.name j →
    ∃ n ∈ d.methods, 0 < (tally.ofMethod n.name).accepted ∧ d.ChecksMore d' n.name j
  checkingMethods : tally.checkingMethods =
    d.methods.countP (fun m => 0 < (tally.ofMethod m.name).accepted)
  methods : tally.methods = d.methods.length
  tasks : tally.tasks = d.tasks.length

theorem statistics_balance {d d' : Domain} {top : String} {tally : Tally}
    (hnames : (d.methods.map (·.name)).Nodup) (h : d.inferPreconditions top = .ok (d', tally)) :
    tally.Balances d d' top := by
  obtain ⟨w, hoffers, rfl, rfl⟩ := offers_of_inferPreconditions h
  obtain ⟨log, rejected, hbooks, hcounts, hperm⟩ :=
    books_ofDomain.offers hoffers (Tally.counts_ofDomain d)
  rw [List.map_nil, List.nil_append, List.append_nil] at hperm
  have haccepted : ∀ n, 0 < (w.tally.ofMethod n).accepted ↔ ∃ e ∈ log, e.1 = n := by
    intro n
    rw [hcounts.ofMethod, List.count_pos_iff, List.mem_map]
  have hmethods : ∀ n ∈ log.map (·.1), n ∈ d.methods.map (·.name) :=
    List.forall_mem_map.2 fun e he => hbooks.name_mem he
  refine {
    inferred := ?_
    preconditions := ?_
    checks_more := fun m hm hpos => ?_
    accepted := fun m hm j hmore => ?_
    checkingMethods := ?_
    methods := hcounts.methods
    tasks := hcounts.tasks }
  · obtain ⟨sweeps, hsweeps, hlisted, hcount⟩ := countP_offers_of_inferPreconditions hnames h
    refine ⟨sweeps, hsweeps, hlisted, fun m _ => ?_⟩
    rw [hcounts.ofMethod, ← hcount, ← List.count_append, hperm.count_eq, List.count,
      List.countP_map]
    exact List.countP_congr fun _ _ => by simp
  · rw [hcounts.total, List.length_map]
    exact hbooks.total.symm
  · obtain ⟨e, he, hname⟩ := (haccepted m.name).1 hpos
    exact ⟨e.2.task, hname ▸ hbooks.checksMore he⟩
  · obtain ⟨e, he, rfl⟩ := hbooks.exists_of_checksMore hmore
    obtain ⟨n, hn, hname⟩ := List.mem_map.1 (hbooks.name_mem he)
    have hname' : n.name = e.1 := hname
    exact ⟨n, hn, (haccepted n.name).2 ⟨e, he, hname'.symm⟩, hname' ▸ hbooks.checksMore he⟩
  · rw [hcounts.checkingMethods_eq hnames hmethods, List.countP_map]
    rfl

theorem statistics_balance_apartFetching :
    (apartFetching.methods.map (·.name)).Nodup ∧ ∃ d' tally,
      apartFetching.inferPreconditions "fetch" = .ok (d', tally) ∧
      tally.ofMethod "by_hand" = { accepted := 1, redundant := 0 } ∧
      tally.ofMethod "by_asking" = { accepted := 0, redundant := 1 } ∧
      (∃ sweeps, List.Forall₂ (fun swept v => apartFetching.sweep "fetch" swept.1 swept.2 = .ok v)
          apartFetching.sweptPredicates sweeps ∧
        1 = (sweeps.map (·.inferredCount "by_hand")).sum ∧
        1 = (sweeps.map (·.inferredCount "by_asking")).sum) ∧
      (preconditionCounts apartFetching.primitiveTasks).sum + tally.accepted =
        (preconditionCounts d'.primitiveTasks).sum ∧
      (∃ j, apartFetching.ChecksMore d' "by_hand" j) ∧
      tally.checkingMethods = apartFetching.methods.countP
        (fun m => 0 < (tally.ofMethod m.name).accepted) := by
  have hnames : (apartFetching.methods.map (·.name)).Nodup := by decide
  have hcounts : (apartFetching.inferPreconditions "fetch").toOption.any fun r =>
      r.2.ofMethod "by_hand" = { accepted := 1, redundant := 0 } ∧
        r.2.ofMethod "by_asking" = { accepted := 0, redundant := 1 } := by
    decide +kernel
  obtain ⟨⟨d', tally⟩, h, hcounted⟩ := exists_ok_of_any hcounts
  obtain ⟨hhand, hasking⟩ := of_decide_eq_true hcounted
  have hmem : checkedByHand "z" [("c", "s")] ∈ apartFetching.methods := by decide
  have hbalances := statistics_balance hnames h
  obtain ⟨sweeps, hsweeps, -, hsizes⟩ := hbalances.inferred
  have hpos : 0 < (tally.ofMethod "by_hand").accepted := by
    rw [hhand]
    exact Nat.one_pos
  have hsize := hsizes (checkedByHand "z" [("c", "s")]) hmem
  have hsize' := hsizes byAsking (by decide)
  change (tally.ofMethod "by_hand").accepted + (tally.ofMethod "by_hand").redundant = _ at hsize
  change (tally.ofMethod "by_asking").accepted + (tally.ofMethod "by_asking").redundant = _ at hsize'
  rw [hhand] at hsize
  rw [hasking] at hsize'
  exact ⟨hnames, d', tally, h, hhand, hasking, ⟨sweeps, hsweeps, hsize, hsize'⟩,
    hbalances.preconditions, hbalances.checks_more _ hmem hpos, hbalances.checkingMethods⟩

/-- Nothing is accepted for a method whose check step checks more. -/
theorem statistics_balance_misses :
    (sharedFetching.methods.map (·.name)).Nodup ∧ ∃ d' tally,
      sharedFetching.inferPreconditions "fetch" = .ok (d', tally) ∧
      ∃ m ∈ sharedFetching.methods,
        ¬(0 < (tally.ofMethod m.name).accepted ↔ ∃ j, sharedFetching.ChecksMore d' m.name j) := by
  have hmisses : (sharedFetching.inferPreconditions "fetch").toOption.any fun r =>
      (r.2.ofMethod "just_checking").accepted = 0 ∧
        sharedFetching.ChecksMore r.1 "just_checking" 1 := by
    decide +kernel
  obtain ⟨⟨d', tally⟩, h, hmiss⟩ := exists_ok_of_any hmisses
  obtain ⟨hzero, hmore⟩ := of_decide_eq_true hmiss
  refine ⟨by decide, d', tally, h, justChecking, by decide, fun hiff => ?_⟩
  have hpos := hiff.2 ⟨1, hmore⟩
  exact Nat.ne_of_gt hpos hzero

end TaskNetwork
