import TaskNetwork.Proofs.CheckedSweeps

namespace TaskNetwork

open PatternSet Relation

def Domain.LeadsToRecursion (d : Domain) (n : String) : Prop := ∃ k, d.Reaches n k ∧ d.Recursive k

/-- Some step of the method leads to recursion. -/
def Method.LeadsToRecursion (d : Domain) (m : Method) : Prop :=
  ∃ s ∈ m.steps, d.LeadsToRecursion s.task

section Reachability

variable {d : Domain} {a b n : String}

theorem Domain.Decomposes.leadsToRecursion (h : d.Decomposes a b) (hb : d.LeadsToRecursion b) :
    d.LeadsToRecursion a := by
  obtain ⟨k, hreach, hrec⟩ := hb
  exact ⟨k, .head h hreach, hrec⟩

theorem Domain.LeadsToRecursion.exists_decomposes (h : d.LeadsToRecursion n) :
    ∃ b, d.Decomposes n b := by
  obtain ⟨k, hreach, hrec⟩ := h
  obtain rfl | ⟨b, hb, -⟩ := ReflTransGen.cases_head hreach
  · obtain ⟨b, hb, -⟩ := TransGen.head'_iff.1 hrec
    exact ⟨b, hb⟩
  · exact ⟨b, hb⟩

variable (hd : (d.tasks.map (·.name)).Nodup)
include hd

theorem Domain.Decomposes.not_isPrimitive (h : d.Decomposes a b) : ¬d.IsPrimitive a := by
  have hnames : Domain.NamesDiffer { d with methods := [] } := ⟨hd, List.nodup_nil⟩
  exact hnames.not_isPrimitive h.1

theorem Domain.LeadsToRecursion.not_isPrimitive (h : d.LeadsToRecursion n) : ¬d.IsPrimitive n := by
  obtain ⟨b, hb⟩ := h.exists_decomposes
  exact hb.not_isPrimitive hd

end Reachability

section Records

variable {d : Domain} {top predicate n : String} {positive : Bool} {seen : List String} {w : Sweep}

theorem Task.primitiveRecord_mayAdd (t : Task) :
    (t.primitiveRecord predicate positive).mayAdd ≠ anything :=
  mt sdiff_eq_anything.1 ofList_ne_anything

theorem Walked.mayAdd_primitive (h : Walked d top predicate positive seen [] w)
    (hn : d.IsPrimitive n) : (w.record n).mayAdd ≠ anything := by
  rw [(h.primitive n hn).2]
  obtain ⟨hnp, -⟩ | ⟨t, -, -, hr⟩ := record_start d predicate positive n
  · exact absurd hn hnp
  · rw [hr]
    exact t.primitiveRecord_mayAdd

theorem Walked.contribution_mayAdd (h : Walked d top predicate positive seen [] w) {m : Method}
    {t : Task} {c : Contribution} (hc : m.contribution d w.record t = .ok c) :
    c.mayAdd = anything ↔ ∃ s ∈ m.steps, (w.record s.task).mayAdd = anything := by
  simp only [Method.contribution, bind_eq_ok, liftM_eq_ok, pure_eq_ok] at hc
  obtain ⟨_, -, _, -, _, -, _, -, u, hu, a, ha, rfl⟩ := hc
  exact (raises_of_raise ha).anything_iff.trans
    (Method.mayAdd_eq_ok hu fun e _ => (h.plain e.task).ensures.1).1

theorem Walked.mayAdd_gathered (h : Walked d top predicate positive seen [] w) (hn : n ∈ seen)
    (hnp : ¬d.IsPrimitive n) (hrec : ¬d.Recursive n) : (w.record n).mayAdd = anything ↔
      ∃ m ∈ d.methods, m.task = n ∧ ∃ s ∈ m.steps, (w.record s.task).mayAdd = anything := by
  obtain ⟨t, cs, -, hcs, hrecord⟩ := h.record_gathered hn hnp hrec
  rw [hrecord, unions_eq_anything, List.mem_map, exists_contribution hcs]
  refine exists_congr fun m => and_congr_right fun hm => and_congr_right fun htask => ?_
  obtain ⟨i, hi⟩ := List.mem_iff_getElem?.1 hm
  obtain ⟨c, hc⟩ := ok_of_mapM_eq_ok hcs (Domain.mem_methodsOf.2 ⟨hi, htask⟩)
  rw [← h.contribution_mayAdd hc]
  constructor
  · rintro ⟨c', hc', hany⟩
    rwa [Except.ok.inj (hc.symm.trans hc')]
  · exact fun hany => ⟨c, hc, hany⟩

theorem Walked.step_mem (h : Walked d top predicate positive seen [] w) {m : Method}
    (hm : m ∈ d.methods) (hseen : m.task ∈ seen) (hnp : ¬d.IsPrimitive m.task) {s : Step}
    (hs : s ∈ m.steps) : s.task ∈ seen := by
  obtain ⟨f, hf, rfl⟩ := h.exists_finding hm hseen hnp
  exact ((h.findings f hf).2.2 s hs).1

/-- What may add anything leads to recursion: tasks that do not lead there have listed sets below
them only. -/
theorem Walked.leadsToRecursion_of_mayAdd (h : Walked d top predicate positive seen [] w)
    (hn : n ∈ seen) (hnp : ¬d.IsPrimitive n) (hany : (w.record n).mayAdd = anything) :
    d.LeadsToRecursion n := by
  induction n using d.decomposition_induction with
  | hrec n hrec => exact ⟨n, .refl, hrec⟩
  | hstep n hrec ih =>
    obtain ⟨m, hm, rfl, s, hs, hbelow⟩ := (h.mayAdd_gathered hn hnp hrec).1 hany
    obtain ⟨-, t, ht, -⟩ := h.entered _ hn hnp
    obtain ⟨habstract, hname⟩ := mem_abstractTasks ht hnp
    have hdec : d.Decomposes m.task s.task :=
      ⟨List.mem_map.2 ⟨t, habstract, hname⟩, m, hm, rfl, s, hs, rfl⟩
    exact hdec.leadsToRecursion
      (ih _ hdec (h.step_mem hm hn hnp hs) (fun hp => h.mayAdd_primitive hp hbelow) hbelow)

variable (hd : (d.tasks.map (·.name)).Nodup)
include hd

theorem Walked.mayAdd_of_leadsToRecursion (h : Walked d top predicate positive seen [] w)
    (hn : n ∈ seen) (hleads : d.LeadsToRecursion n) : (w.record n).mayAdd = anything := by
  obtain ⟨k, hreach, hrec⟩ := hleads
  induction hreach using ReflTransGen.head_induction_on with
  | refl =>
    have hnp := Domain.LeadsToRecursion.not_isPrimitive hd ⟨k, .refl, hrec⟩
    rw [h.record_recursive hn hnp hrec]
    rfl
  | @head a b hab _ ih =>
    have hnp := hab.not_isPrimitive hd
    by_cases ha : d.Recursive a
    · rw [h.record_recursive hn hnp ha]
      rfl
    · obtain ⟨-, m, hm, rfl, s, hs, rfl⟩ := hab
      exact (h.mayAdd_gathered hn hnp ha).2 ⟨m, hm, rfl, s, hs, ih (h.step_mem hm hn hnp hs)⟩

theorem Walked.mayAdd_eq_anything_iff (h : Walked d top predicate positive seen [] w) (hn : n ∈ seen)
    (hnp : ¬d.IsPrimitive n) : (w.record n).mayAdd = anything ↔ d.LeadsToRecursion n :=
  ⟨h.leadsToRecursion_of_mayAdd hn hnp, h.mayAdd_of_leadsToRecursion hd hn⟩

theorem inferred_of_leadsToRecursion (h : d.sweep top predicate positive = .ok w) {f : Finding}
    (hf : f ∈ w.findings) (hleads : f.method.LeadsToRecursion d) : f.inferred = ∅ := by
  obtain ⟨seen, -, hwalked⟩ := walked_of_sweepAlong (sweep_eq_ok h)
  obtain ⟨-, -, hsteps, t, c, -, hc, -⟩ := hwalked.of_finding hf
  obtain ⟨s, hs, hbelow⟩ := hleads
  have hany : f.mayAdd = anything := (hwalked.mayAdd_eq_anything hf).2
    ⟨s, hs, hwalked.mayAdd_of_leadsToRecursion hd (hsteps s hs) hbelow⟩
  have hinferred := hc.inferred
  rw [hany] at hinferred
  exact (pure_eq_ok.1 hinferred).symm

theorem Method.LeadsToRecursion.not_infers {m : Method} (hleads : m.LeadsToRecursion d)
    (l : Literal) : ¬d.Infers top m l := by
  rintro ⟨w, hw, f, hf, rfl, hl⟩
  rw [inferred_of_leadsToRecursion hd hw hf hleads] at hl
  cases hl

end Records

theorem fst_mem_alterTally {name : String} {f : MethodTally → MethodTally}
    {entries : List (String × MethodTally)} {e : String × MethodTally}
    (he : e ∈ alterTally name f entries) : e.1 = name ∨ e ∈ entries := by
  induction entries with
  | nil => exact .inl (congrArg Prod.fst (List.mem_singleton.1 he))
  | cons e' entries ih =>
    rw [alterTally] at he
    split at he
    · obtain rfl | he := List.mem_cons.1 he
      · exact .inl rfl
      · exact .inr (List.mem_cons_of_mem e' he)
    · obtain rfl | he := List.mem_cons.1 he
      · exact .inr List.mem_cons_self
      · exact (ih he).imp_right (List.mem_cons_of_mem e')

/-- The method at the position is as it was, no slot is for it, and nothing was counted for it. -/
structure Draft.Spares (w : Draft) (m : Method) (i : Nat) : Prop where
  method : w.methods[i]? = some m
  slots : ∀ name slot, w.slots.lookup name = some slot → slot.method ≠ i
  tally : ∀ e ∈ w.tally.perMethod, e.1 ≠ m.name

section Spares

open Draft

variable {d : Domain} {m n : Method} {i : Nat} {slot : CheckSlot} {w w' : Draft}

theorem Draft.Spares.count (h : w.Spares m i) (hne : n.name ≠ m.name)
    (f : MethodTally → MethodTally) : Draft.Spares { w with tally := { w.tally with
      perMethod := alterTally n.name f w.tally.perMethod } } m i where
  method := h.method
  slots := h.slots
  tally e he := by
    obtain heq | he := fst_mem_alterTally he
    · exact heq ▸ hne
    · exact h.tally e he

theorem Draft.Spares.addSlot (h : w.Spares m i) (name : String) (hslot : slot.method ≠ i) :
    Draft.Spares { w with slots := (name, slot) :: w.slots } m i where
  method := h.method
  slots k other hother := by
    rw [List.lookup_cons] at hother
    split at hother
    · obtain rfl := Option.some.inj hother
      exact hslot
    · exact h.slots k other hother
  tally := h.tally

theorem Draft.Spares.modify (h : w.Spares m i) {j : Nat} (hj : j ≠ i) (f : Method → Method)
    (tasks : List Task) :
    Draft.Spares { w with methods := w.methods.modify j f, primitiveTasks := tasks } m i where
  method := by
    rw [List.getElem?_modify_ne _ _ hj]
    exact h.method
  slots := h.slots
  tally := h.tally

theorem Draft.Opens.spares (hopen : Opens d n w slot w') (h : w.Spares m i)
    (hi : ∀ j, d.methodIndex n.name = .ok j → j ≠ i) : w'.Spares m i ∧ slot.method ≠ i := by
  cases hopen with
  | known hslot => exact ⟨h, h.slots _ _ hslot⟩
  | @found j slot _ hj hold =>
    obtain ⟨rfl, -⟩ := Draft.existingSlot?_eq_some hold
    exact ⟨h.addSlot n.name (hi _ hj), hi _ hj⟩
  | @made j _ hj _ => exact ⟨(h.modify (hi j hj) Method.addCheckStep _).addSlot n.name (hi j hj), hi j hj⟩

theorem Draft.Widens.spares {names : List String} (hwiden : Widens d n slot names w w')
    (h : w.Spares m i) (hslot : slot.method ≠ i) : w'.Spares m i := by
  induction hwiden with
  | nil => exact h
  | has _ _ ih => exact ih h
  | add _ _ _ ih => exact ih (h.modify hslot _ _)

theorem Draft.Offered.spares {l : Literal} (hoffer : Offered d n l w w') (h : w.Spares m i)
    (hi : d.methods[i]? = some m) (hne : n.name ≠ m.name) : w'.Spares m i := by
  have hindex : ∀ j, d.methodIndex n.name = .ok j → j ≠ i := by
    rintro j hj rfl
    obtain ⟨k, hk, hname⟩ := Domain.methodIndex_eq_ok hj
    obtain rfl : k = m := Option.some.inj (hk.symm.trans hi)
    exact hne hname.symm
  cases hoffer with
  | redundant _ _ => exact h.count hne _
  | accepted hopen hwiden =>
    obtain ⟨h₁, hslot⟩ := hopen.spares (h.count hne _) hindex
    have h₂ := hwiden.spares h₁ hslot
    exact ⟨h₂.method, h₂.slots, h₂.tally⟩

theorem spares_of_inferPreconditions {d' : Domain} {top : String} {tally : Tally}
    (h : d.inferPreconditions top = .ok (d', tally)) (hi : d.methods[i]? = some m)
    (hnever : ∀ n l, d.Infers top n l → n.name ≠ m.name) :
    d'.methods[i]? = some m ∧ ∀ e ∈ tally.perMethod, e.1 ≠ m.name := by
  obtain ⟨w, rfl, rfl, hpath⟩ := offered_of_inferPreconditions h
  suffices hspares : w.Spares m i from ⟨hspares.method, hspares.tally⟩
  clear h
  induction hpath with
  | refl =>
    refine ⟨hi, fun name slot hslot => ?_, fun e he => ?_⟩
    · cases hslot
    · cases he
  | tail _ hstep ih =>
    obtain ⟨n, l, hinfers, hoffer⟩ := hstep
    exact hoffer.spares ih hi (hnever n l hinfers)

end Spares

/-- A task that is visited may add anything just if it leads to recursion. Nothing is inferred for
methods that lead there: inference counts nothing for them and does not change them. -/
theorem recursion_left_alone {d : Domain} (hd : (d.tasks.map (·.name)).Nodup) :
    (∀ top predicate positive w, d.sweep top predicate positive = .ok w →
      (∀ n, d.Visits top n → ¬d.IsPrimitive n → ∃ r, w.record? n = some r ∧
        (r.mayAdd = anything ↔ d.LeadsToRecursion n)) ∧
      ∀ f ∈ w.findings, f.method.LeadsToRecursion d → f.inferred = ∅) ∧
    ((d.methods.map (·.name)).Nodup → ∀ top d' tally, d.inferPreconditions top = .ok (d', tally) →
      ∀ (m : Method) (i : Nat), d.methods[i]? = some m → m.LeadsToRecursion d →
        (∀ e ∈ tally.perMethod, e.1 ≠ m.name) ∧ d'.methods[i]? = some m) := by
  refine ⟨fun top predicate positive w hw => ⟨fun n hn hnp => ?_, fun f hf hleads =>
    inferred_of_leadsToRecursion hd hw hf hleads⟩, fun hmethods top d' tally h m i hi hleads => ?_⟩
  · obtain ⟨seen, htop, hwalked⟩ := walked_of_sweepAlong (sweep_eq_ok hw)
    obtain ⟨r, hr⟩ := Option.isSome_iff_exists.1 ((isSome_record?_of_sweep hw).2 (.inr hn))
    have hiff := hwalked.mayAdd_eq_anything_iff hd (hwalked.mem_of_visits htop hn) hnp
    rw [Sweep.record, hr] at hiff
    exact ⟨r, hr, hiff⟩
  · refine And.symm (spares_of_inferPreconditions h hi fun n l hinfers hname => ?_)
    obtain rfl := eq_of_nodup_map hmethods hinfers.visits.1 (List.mem_of_getElem? hi) hname
    exact hleads.not_infers hd l hinfers

def guardedTouring : Domain :=
  { touring with
    primitiveTasks := touring.primitiveTasks ++ [freeCheck]
    methods := [byHand.checkedBy freeCheck, goOn, goRound] }

theorem recursion_left_alone_touring : ¬touring.Recursive "round" ∧
    (∃ w r, touring.sweep "round" "free" true = .ok w ∧ w.record? "round" = some r ∧
      r.mayAdd = anything ∧ ∀ f ∈ w.findings, f.method = goRound → f.inferred = ∅) ∧
    ∃ tally, touring.inferPreconditions "round" = .ok (guardedTouring, tally) ∧
      (∀ e ∈ tally.perMethod, e.1 ≠ "go_round") ∧ guardedTouring.methods[2]? = some goRound := by
  have htour : touring.Recursive "tour" := Domain.mem_recursiveTasks.1 (by decide)
  have hround : goRound.LeadsToRecursion touring :=
    ⟨_, List.mem_cons_of_mem _ List.mem_cons_self, "tour", .refl, htour⟩
  have hleads : touring.LeadsToRecursion "round" := by
    refine Domain.Decomposes.leadsToRecursion (b := "tour") ?_ ⟨"tour", .refl, htour⟩
    exact ⟨by decide, goRound, by decide, rfl, _, List.mem_cons_of_mem _ List.mem_cons_self, rfl⟩
  have hinfer : (touring.inferPreconditions "round").toOption.map (·.1) = some guardedTouring := by
    decide +kernel
  obtain ⟨tally, h⟩ := exists_tally hinfer
  obtain ⟨w, hw⟩ : ∃ w, touring.sweep "round" "free" true = .ok w := ⟨_, rfl⟩
  obtain ⟨hsweeps, hinference⟩ := recursion_left_alone (d := touring) (by decide)
  obtain ⟨hrecords, hfindings⟩ := hsweeps _ _ _ w hw
  obtain ⟨r, hr, hany⟩ := hrecords "round" .refl (by decide)
  obtain ⟨hcounts, hkept⟩ := hinference (by decide) _ _ _ h goRound 2 rfl hround
  exact ⟨mt Domain.mem_recursiveTasks.2 (by decide), ⟨w, r, hw, hr, hany.2 hleads,
    fun f hf hmethod => hfindings f hf (hmethod ▸ hround)⟩, tally, h, hcounts, hkept⟩

end TaskNetwork
