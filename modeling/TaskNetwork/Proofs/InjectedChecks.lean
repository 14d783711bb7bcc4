import TaskNetwork.Proofs.Reordering
import TaskNetwork.Proofs.SecondInference

namespace TaskNetwork

open DraftM Draft

def Domain.startsDemand (d : Domain) (m : Method) (l : Literal) : Bool :=
  m.minimalSteps.all fun s => (d.task? s.task).any (l ∈ ·.preconditions)

/-- Those of the literals that not all tasks demand with which the method may start, once each. -/
def Domain.unmet (d : Domain) (m : Method) (literals : List Literal) : List Literal :=
  (literals.filter (!d.startsDemand m ·)).eraseDups

/-- What inference below the task makes the method check. -/
def Domain.toCheck (d : Domain) (top : String) (m : Method) : List Literal :=
  d.unmet m (d.inferredFor top m)

namespace Method

def typed (m : Method) (v : String) : TypedName where
  name := v
  sort := (m.sortOf v).toOption.getD ""

def checkOf (m : Method) (literals : List Literal) : Task :=
  m.checkTask.widen ((literals.flatMap (·.arguments)).eraseDups.map m.typed) literals

variable {m : Method} {ls : List Literal} {l : Literal} {t : Task} {vs : List TypedName}

theorem parameters_checkOf :
    (m.checkOf ls).parameters = (ls.flatMap (·.arguments)).eraseDups.map m.typed :=
  List.nil_append _

theorem parameterNames_checkOf :
    (m.checkOf ls).parameterNames = (ls.flatMap (·.arguments)).eraseDups := by
  simp [Task.parameterNames, parameters_checkOf, typed, Function.comp_def]

theorem preconditions_checkOf : (m.checkOf ls).preconditions = ls := rfl

theorem checkOf_nil : m.checkOf [] = m.checkTask := Task.widen_nil _

theorem addCheckStep_eq : m.addCheckStep = m.checkedBy (m.checkOf []) := by
  have h := m.addCheckStep_widen [] []
  rwa [widen_nil] at h

theorem checkOf_append
    (hvs : vs = ((l.arguments.filter (· ∉ (m.checkOf ls).parameterNames)).eraseDups).map m.typed) :
    (m.checkOf ls).widen vs [l] = m.checkOf (ls ++ [l]) := by
  have hnames : ((ls ++ [l]).flatMap (·.arguments)).eraseDups =
      (ls.flatMap (·.arguments)).eraseDups ++
        (l.arguments.filter (· ∉ (m.checkOf ls).parameterNames)).eraseDups := by
    have hremove : l.arguments.removeAll (ls.flatMap (·.arguments)) =
        l.arguments.filter (· ∉ (m.checkOf ls).parameterNames) :=
      List.filter_congr fun a _ => by rw [Bool.eq_iff_iff]; simp [parameterNames_checkOf]
    rw [List.flatMap_append, List.flatMap_singleton, List.eraseDups_append, hremove]
  rw [checkOf, checkOf, hnames, List.map_append, ← hvs, Task.widen, Task.widen, Task.widen,
    List.append_assoc, List.append_assoc]

theorem checkedBy_widen :
    (m.checkedBy (m.checkOf ls)).widen m.steps.length vs =
      m.checkedBy ((m.checkOf ls).widen vs [l]) := by
  rw [checkOf, ← m.addCheckStep_widen, widen_widen, m.addCheckStep_widen _ (ls ++ [l])]
  simp [Task.widen]

end Method

namespace Draft

def widen (w : Draft) (slot : CheckSlot) (vs : List TypedName) : Draft :=
  { w with
    methods := w.methods.modify slot.method (·.widen slot.step vs)
    primitiveTasks := w.primitiveTasks.modify slot.task (·.widen vs []) }

variable {d : Domain} {m : Method} {w w' : Draft} {slot : CheckSlot}

theorem widen_nil : w.widen slot [] = w := by
  have hmethods : (fun m : Method => m.widen slot.step []) = id := funext fun m => m.widen_nil _
  have htasks : (fun t : Task => t.widen [] []) = id := funext Task.widen_nil
  rw [widen, hmethods, htasks, List.modify_id, List.modify_id]

theorem widen_addParameter (v : TypedName) (vs : List TypedName) :
    (w.addParameter slot v).widen slot vs = w.widen slot (v :: vs) := by
  simp [widen, addParameter, List.modify_modify_eq, Function.comp_def, Method.widen, Task.widen]

theorem Widens.exists_widen {names : List String} (h : Widens d m slot names w w') {t : Task}
    (ht : w.primitiveTasks[slot.task]? = some t) : ∃ vs : List TypedName,
      vs.map (·.name) = (names.filter (· ∉ t.parameterNames)).eraseDups ∧
      (∀ v ∈ vs, d.sortOf m.name v.name = .ok v.sort) ∧ w' = w.widen slot vs := by
  induction h generalizing t with
  | nil => exact ⟨[], rfl, fun v hv => (by cases hv), widen_nil.symm⟩
  | has hhas _ ih =>
    obtain ⟨u, hu, hname⟩ := hhas
    obtain rfl := Option.some.inj (ht.symm.trans hu)
    rw [List.filter_cons_of_neg (by simpa using hname)]
    exact ih ht
  | @add name sort names w w' hno hsort _ ih =>
    have hnew : name ∉ t.parameterNames := fun hname => hno ⟨t, ht, hname⟩
    obtain ⟨vs, hvs, hsorts, rfl⟩ := ih
      (t := { t with parameters := t.parameters ++ [{ name, sort }] })
      (by simp [addParameter, ht])
    refine ⟨{ name, sort } :: vs, ?_, List.forall_mem_cons.2 ⟨hsort, hsorts⟩,
      widen_addParameter _ _⟩
    rw [List.filter_cons_of_pos (by simpa using hnew), List.eraseDups_cons, List.map_cons, hvs,
      List.filter_filter]
    congr 2
    refine List.filter_congr fun a _ => ?_
    rw [Bool.eq_iff_iff, Bool.and_eq_true, decide_eq_true_eq, decide_eq_true_eq]
    simp [Task.parameterNames, and_comm]

end Draft

theorem modify_map {α β : Type} [DecidableEq α] {l : List α} (hl : l.Nodup) {i : ℕ} {a : α}
    (hi : l[i]? = some a) {f h : α → β} {g : β → β} (ha : h a = g (f a))
    (hne : ∀ b ∈ l, b ≠ a → h b = f b) : (l.map f).modify i g = l.map h := by
  apply List.ext_getElem?
  intro j
  rw [List.getElem?_modify, List.getElem?_map, List.getElem?_map]
  cases hj : l[j]? with
  | none => rfl
  | some b =>
    by_cases hij : i = j
    · obtain rfl : a = b := Option.some.inj (hi.symm.trans (hij ▸ hj))
      simp [hij, ha]
    · have hba : b ≠ a := by
        rintro rfl
        exact hij ((List.getElem?_inj (List.getElem?_eq_some_iff.1 hi).1 hl).1 (hi.trans hj.symm))
      simp [hij, hne b (List.mem_of_getElem? hj) hba]

/-- The draft is the domain in which each of the methods in `order` checks what it got; the tasks of
their check steps stand in the same order behind the others. -/
structure Draft.Tracks (d : Domain) (got : Method → List Literal) (order : List Method)
    (w : Draft) : Prop where
  nodup : order.Nodup
  subset : ∀ m ∈ order, m ∈ d.methods
  methods : w.methods =
    d.methods.map fun m => if m ∈ order then m.checkedBy (m.checkOf (got m)) else m
  primitiveTasks : w.primitiveTasks = d.primitiveTasks ++ order.map fun m => m.checkOf (got m)
  fresh : ∀ m ∈ d.methods, m ∉ order → w.slots.lookup m.name = none
  slots : ∀ (m : Method) (i j : ℕ), d.methods[i]? = some m → order[j]? = some m →
    w.slots.lookup m.name =
      some { method := i, step := m.steps.length, task := d.primitiveTasks.length + j }

section Tracks

variable {d : Domain} {got : Method → List Literal} {order : List Method} {w w' : Draft}
  {m : Method} {l : Literal} {slot : CheckSlot}

theorem tracks_ofDomain : (Draft.ofDomain d).Tracks d got [] where
  nodup := List.nodup_nil
  subset m hm := by cases hm
  methods := by simp [Draft.ofDomain]
  primitiveTasks := (List.append_nil _).symm
  fresh m _ _ := rfl
  slots m i j _ hj := by cases hj

theorem Draft.Tracks.withTally (h : w.Tracks d got order) (tally : Tally) :
    Draft.Tracks d got order { w with tally } :=
  ⟨h.nodup, h.subset, h.methods, h.primitiveTasks, h.fresh, h.slots⟩

theorem Draft.Tracks.congr (h : w.Tracks d got order) {got' : Method → List Literal}
    (hgot : ∀ m ∈ order, got' m = got m) : w.Tracks d got' order where
  nodup := h.nodup
  subset := h.subset
  methods := by
    rw [h.methods]
    refine List.map_congr_left fun m _ => ?_
    split
    · next hm => rw [hgot m hm]
    · rfl
  primitiveTasks := by
    rw [h.primitiveTasks, List.map_congr_left fun m hm => congrArg m.checkOf (hgot m hm).symm]
  fresh := h.fresh
  slots := h.slots

theorem Draft.Tracks.task_at (h : w.Tracks d got order) {j : ℕ} (hj : order[j]? = some m) :
    w.primitiveTasks[d.primitiveTasks.length + j]? = some (m.checkOf (got m)) := by
  rw [h.primitiveTasks, List.getElem?_append_right (Nat.le_add_right _ _), Nat.add_sub_cancel_left,
    List.getElem?_map, hj]
  rfl

theorem Draft.Tracks.checks_iff (h : w.Tracks d got order) (hm : m ∈ d.methods) :
    w.checks m.name l ↔ m ∈ order ∧ l ∈ got m := by
  rw [checks_iff_slot]
  by_cases hmem : m ∈ order
  · obtain ⟨i, hi⟩ := List.mem_iff_getElem?.1 hm
    obtain ⟨j, hj⟩ := List.mem_iff_getElem?.1 hmem
    rw [h.slots m i j hi hj]
    simp [h.task_at hj, Method.preconditions_checkOf, hmem]
  · simp [h.fresh m hm hmem, hmem]

theorem Draft.Tracks.addCheckStep (h : w.Tracks d got order) (hd : d.NamesDiffer)
    (hmem : m ∉ order) (hgot : got m = []) {i : ℕ} (hi : d.methods[i]? = some m) :
    Draft.Tracks d got (order ++ [m]) { (w.addCheckStep i).1 with
      slots := (m.name, (w.addCheckStep i).2) :: (w.addCheckStep i).1.slots } := by
  have hm : m ∈ d.methods := List.mem_of_getElem? hi
  have hwi : w.methods[i]? = some m := by
    rw [h.methods, List.getElem?_map, hi, Option.map_some, if_neg hmem]
  have hslot : (w.addCheckStep i).2 =
      ⟨i, m.steps.length, d.primitiveTasks.length + order.length⟩ := by
    simp [Draft.addCheckStep, hwi, h.primitiveTasks]
  have hlookup : ∀ n ∈ d.methods, n ≠ m →
      ((m.name, (w.addCheckStep i).2) :: w.slots).lookup n.name = w.slots.lookup n.name := by
    intro n hn hne
    rw [List.lookup_cons, beq_false_of_ne fun he => hne (hd.eq_of_name_eq hn hm he)]
  refine ⟨?_, ?_, ?_, ?_, fun n hn hno => ?_, fun n k j hk hj => ?_⟩
  · rw [List.nodup_append]
    refine ⟨h.nodup, List.nodup_singleton m, fun a ha b hb => ?_⟩
    obtain rfl := List.mem_singleton.1 hb
    rintro rfl
    exact hmem ha
  · intro n hn
    obtain hn | hn := List.mem_append.1 hn
    · exact h.subset n hn
    · exact List.mem_singleton.1 hn ▸ hm
  · change w.methods.modify i Method.addCheckStep = _
    rw [h.methods]
    refine modify_map hd.methods.of_map hi ?_ fun n _ hne => ?_
    · rw [if_pos (List.mem_append_right _ List.mem_cons_self), if_neg hmem, hgot,
        Method.addCheckStep_eq]
    · simp [hne]
  · have hnew : (w.addCheckStep i).1.primitiveTasks = w.primitiveTasks ++ [m.checkTask] := by
      simp [Draft.addCheckStep, hwi]
    change (w.addCheckStep i).1.primitiveTasks = _
    rw [hnew, h.primitiveTasks, List.map_append, List.append_assoc, List.map_singleton, hgot,
      Method.checkOf_nil]
  · have hne : n ≠ m := fun he => hno (he ▸ List.mem_append_right _ List.mem_cons_self)
    exact (hlookup n hn hne).trans (h.fresh n hn fun hmem => hno (List.mem_append_left _ hmem))
  · obtain hlt | hle := Nat.lt_or_ge j order.length
    · rw [List.getElem?_append_left hlt] at hj
      have hne : n ≠ m := fun he => hmem (he ▸ List.mem_of_getElem? hj)
      exact (hlookup n (List.mem_of_getElem? hk) hne).trans (h.slots n k j hk hj)
    · rw [List.getElem?_append_right hle] at hj
      have hlast : j - order.length < 1 := (List.getElem?_eq_some_iff.1 hj).1
      obtain rfl : j = order.length := by omega
      rw [Nat.sub_self] at hj
      obtain rfl : m = n := Option.some.inj hj
      obtain rfl : k = i := hd.index_inj hk hi
      rw [List.lookup_cons_self, hslot]

theorem Draft.Tracks.opens (h : w.Tracks d got order) (hd : d.NamesDiffer)
    (hclean : ∀ s ∈ m.steps, ¬IsCheckTask s.task) (hm : m ∈ d.methods)
    (hgot : m ∉ order → got m = []) (hopen : Opens d m w slot w') :
    w'.Tracks d got (if m ∈ order then order else order ++ [m]) ∧
      w'.slots.lookup m.name = some slot := by
  by_cases hmem : m ∈ order
  · obtain ⟨i, hi⟩ := List.mem_iff_getElem?.1 hm
    obtain ⟨j, hj⟩ := List.mem_iff_getElem?.1 hmem
    have hknown := h.slots m i j hi hj
    rw [if_pos hmem]
    cases hopen with
    | known hslot => exact ⟨h, hslot⟩
    | found hnone _ _ => cases hknown.symm.trans hnone
    | made hnone _ _ => cases hknown.symm.trans hnone
  · have hnone := h.fresh m hm hmem
    rw [if_neg hmem]
    cases hopen with
    | known hslot => cases hslot.symm.trans hnone
    | found _ hi hold =>
      -- the step that was found would have to be one of the method's own
      obtain ⟨rfl, n, s, t, hn, hs, hmark, -⟩ := Draft.existingSlot?_eq_some hold
      rw [h.methods, List.getElem?_map, hd.getElem?_methodIndex hm hi, Option.map_some,
        if_neg hmem] at hn
      obtain rfl := Option.some.inj hn
      exact absurd hmark (hclean s (List.mem_of_getElem? hs))
    | made _ hi _ =>
      exact ⟨h.addCheckStep hd hmem (hgot hmem) (hd.getElem?_methodIndex hm hi),
        List.lookup_cons_self⟩

theorem Draft.Tracks.accept (h : w.Tracks d got order) (hd : d.NamesDiffer) (hmem : m ∈ order)
    (hslot : w.slots.lookup m.name = some slot) (hwiden : Widens d m slot l.arguments w w') :
    (w'.addPrecondition slot l).Tracks d (fun n => if n = m then got m ++ [l] else got n)
      order := by
  have hm := h.subset m hmem
  obtain ⟨i, hi⟩ := List.mem_iff_getElem?.1 hm
  obtain ⟨j, hj⟩ := List.mem_iff_getElem?.1 hmem
  obtain rfl := Option.some.inj (hslot.symm.trans (h.slots m i j hi hj))
  obtain ⟨vs, hnames, hsorts, rfl⟩ := hwiden.exists_widen (h.task_at hj)
  have htyped : vs = (vs.map (·.name)).map m.typed := by
    rw [List.map_map]
    refine (List.map_id vs).symm.trans (List.map_congr_left fun v hv => ?_)
    have hsort := hsorts v hv
    rw [Domain.sortOf, hd.resolveMethod hm] at hsort
    have hsort : m.sortOf v.name = .ok v.sort := hsort
    simp [Method.typed, hsort, Except.toOption]
  have htask : (m.checkOf (got m)).widen vs [l] = m.checkOf (got m ++ [l]) :=
    Method.checkOf_append (by rw [htyped, hnames])
  refine ⟨h.nodup, h.subset, ?_, ?_, h.fresh, h.slots⟩
  · change w.methods.modify i _ = _
    rw [h.methods]
    refine modify_map hd.methods.of_map hi ?_ fun n _ hne => ?_
    · rw [if_pos hmem, if_pos hmem, if_pos rfl, Method.checkedBy_widen, htask]
    · rw [if_neg hne]
  · change (w.primitiveTasks.modify _ _).modify _ _ = _
    rw [List.modify_modify_eq, h.primitiveTasks, modify_append,
      modify_map h.nodup hj ?_ fun n _ hne => ?_]
    · rw [if_pos rfl, ← htask]
      simp [Task.widen, Task.withPrecondition]
    · rw [if_neg hne]

end Tracks

section Offers

variable {d d' : Domain} {order : List Method} {w w' : Draft} {m : Method} {l : Literal}
  {ls : List Literal} {told offers : List (Method × Literal)} {top : String} {tally : Tally}

theorem Domain.WellFormed.startsDemand_iff (hd : d.WellFormed) (hm : m ∈ d.methods) :
    d.startsDemand m l ↔ d.AllDemand m l := by
  simp only [Domain.startsDemand, Domain.AllDemand, hd.openingTasks_eq hm, mem_increasing,
    List.all_eq_true, List.forall_mem_map, Option.any_eq_true, decide_eq_true_eq]

theorem mem_unmet : l ∈ d.unmet m ls ↔ l ∈ ls ∧ ¬d.startsDemand m l := by
  simp [Domain.unmet]

theorem unmet_append_of_redundant (h : d.startsDemand m l ∨ l ∈ d.unmet m ls) :
    d.unmet m (ls ++ [l]) = d.unmet m ls := by
  rw [Domain.unmet, List.filter_append, List.eraseDups_append]
  by_cases hdemand : d.startsDemand m l
  · simp [hdemand, Domain.unmet]
  · have hmem := mem_unmet.1 (h.resolve_left hdemand)
    simp [hdemand, hmem.1, Domain.unmet, List.removeAll]

theorem unmet_append (h : ¬d.startsDemand m l) (hnew : l ∉ d.unmet m ls) :
    d.unmet m (ls ++ [l]) = d.unmet m ls ++ [l] := by
  have hls : l ∉ ls := fun hl => hnew (mem_unmet.2 ⟨hl, h⟩)
  rw [Domain.unmet, List.filter_append, List.eraseDups_append]
  simp [h, hls, Domain.unmet, List.removeAll, List.eraseDups_cons]

/-- What is offered next to a method goes to the end of what it checks, unless all its first steps
demand it or it is there. -/
theorem Draft.Tracks.offer (hd : d.WellFormed)
    (hclean : ∀ m ∈ d.methods, ∀ s ∈ m.steps, ¬IsCheckTask s.task)
    (h : w.Tracks d (fun n => d.unmet n (offeredTo n told)) order)
    (horder : ∀ n ∈ d.methods, n ∈ order ↔ d.unmet n (offeredTo n told) ≠ []) (hm : m ∈ d.methods)
    (hrun : (offer d (d.openingTasks m.name) m l).Runs w () w') :
    ∃ order', w'.Tracks d (fun n => d.unmet n (offeredTo n (told ++ [(m, l)]))) order' ∧
      ∀ n ∈ d.methods, n ∈ order' ↔ d.unmet n (offeredTo n (told ++ [(m, l)])) ≠ [] := by
  have hothers : ∀ n, n ≠ m → offeredTo n (told ++ [(m, l)]) = offeredTo n told := by
    intro n hn
    rw [offeredTo_append, offeredTo_singleton, if_neg hn.symm, List.append_nil]
  have hself : offeredTo m (told ++ [(m, l)]) = offeredTo m told ++ [l] := by
    rw [offeredTo_append, offeredTo_singleton, if_pos rfl]
  have hredundant : isRedundant d w m l (d.openingTasks m.name) = .ok true ↔
      d.startsDemand m l ∨ l ∈ d.unmet m (offeredTo m told) := by
    rw [(isRedundant_iff hd hm w).1, hd.startsDemand_iff hm, h.checks_iff hm]
    refine or_congr_right (and_iff_right_of_imp fun hl => ?_)
    exact (horder m hm).2 (List.ne_nil_of_mem hl)
  obtain ⟨hred, rfl⟩ | ⟨hred, slot, w₁, w₂, hopen, hwiden, rfl⟩ := offer_of_runs hrun
  · have hsame : ∀ n, d.unmet n (offeredTo n (told ++ [(m, l)])) =
        d.unmet n (offeredTo n told) := by
      intro n
      by_cases hn : n = m
      · rw [hn, hself, unmet_append_of_redundant (hredundant.1 hred)]
      · rw [hothers n hn]
    simp only [hsame]
    exact ⟨order, h.withTally _, horder⟩
  · have hno := mt hredundant.2 (by rw [hred]; simp)
    rw [not_or] at hno
    have hgrown := unmet_append hno.1 hno.2
    obtain ⟨h₁, hslot⟩ := (h.withTally _).opens hd.names (hclean m hm) hm
      (fun hnot => not_not.1 (mt (horder m hm).2 hnot)) hopen
    have hmem : m ∈ if m ∈ order then order else order ++ [m] := by
      split
      · assumption
      · exact List.mem_append_right _ List.mem_cons_self
    refine ⟨_, (h₁.accept hd.names hmem hslot hwiden).congr fun n _ => ?_, fun n hn => ?_⟩
    · split
      · next heq => rw [heq, hself, hgrown]
      · next hne => rw [hothers n hne]
    · by_cases heq : n = m
      · rw [heq, hself, hgrown]
        exact iff_of_true hmem (by simp)
      · rw [hothers n heq, ← horder n hn]
        split
        · rfl
        · rw [List.mem_append, List.mem_singleton, or_iff_left heq]

theorem Draft.Tracks.run (hd : d.WellFormed)
    (hclean : ∀ m ∈ d.methods, ∀ s ∈ m.steps, ¬IsCheckTask s.task) (hoffers : Offers d offers w w')
    (hmethods : ∀ m l, (m, l) ∈ offers → m ∈ d.methods)
    (h : w.Tracks d (fun n => d.unmet n (offeredTo n told)) order)
    (horder : ∀ n ∈ d.methods, n ∈ order ↔ d.unmet n (offeredTo n told) ≠ []) :
    ∃ order', w'.Tracks d (fun n => d.unmet n (offeredTo n (told ++ offers))) order' ∧
      ∀ n ∈ d.methods, n ∈ order' ↔ d.unmet n (offeredTo n (told ++ offers)) ≠ [] := by
  induction hoffers generalizing told order with
  | nil =>
    rw [List.append_nil]
    exact ⟨order, h, horder⟩
  | @cons m l offers w w₁ w' hoffer _ ih =>
    obtain ⟨order₁, h₁, horder₁⟩ :=
      h.offer hd hclean horder (hmethods m l List.mem_cons_self) hoffer
    rw [List.append_cons]
    exact ih (fun n k hk => hmethods n k (List.mem_cons_of_mem _ hk)) h₁ horder₁

/-- In the end the draft tracks what the methods are to check. -/
theorem tracks_of_inferPreconditions (hd : d.WellFormed) (hs : d.SortsDeclared)
    (htasks : ∀ t ∈ d.tasks, ¬IsCheckTask t.name)
    (h : d.inferPreconditions top = .ok (d', tally)) :
    ∃ (w : Draft) (order : List Method), d' = w.apply d ∧ w.Tracks d (d.toCheck top) order ∧
      ∀ m ∈ d.methods, m ∈ order ↔ d.toCheck top m ≠ [] := by
  obtain ⟨w, hoffers, rfl, -⟩ := offers_of_inferPreconditions h
  have hclean : ∀ m ∈ d.methods, ∀ s ∈ m.steps, ¬IsCheckTask s.task := by
    intro m hm s hs hmark
    obtain ⟨t, ht, hname⟩ := List.mem_map.1 ((hd.fits hm).steps s hs).mem_names
    exact htasks t ht (hname ▸ hmark)
  have hmethods : ∀ m l, (m, l) ∈ d.sweptPredicates.flatMap (d.offersOf top) → m ∈ d.methods :=
    fun m l hml => (mem_offersOf.1 hml).mem_methods hd hs
  have hstart : (Draft.ofDomain d).Tracks d (fun n => d.unmet n (offeredTo n [])) [] :=
    tracks_ofDomain
  obtain ⟨order, htracks, horder⟩ :=
    hstart.run hd hclean hoffers hmethods fun n _ => by simp [offeredTo, Domain.unmet]
  simp only [List.nil_append, offeredTo_offersOf] at htracks horder
  exact ⟨w, order, rfl, htracks, horder⟩

end Offers

/-- The task has these preconditions and no others, over the variables of the method that they
mention, each where it comes up first. -/
structure Method.ChecksExactly (m : Method) (literals : List Literal) (t : Task) : Prop where
  name : t.name = newCheckTaskMark ++ m.name
  preconditions : t.preconditions = literals
  effects : t.effects = []
  parameterNames : t.parameterNames = (literals.flatMap (·.arguments)).eraseDups
  declared : ∀ v ∈ t.parameters, v ∈ m.declarations

/-- The second domain is the first one, of which the methods that are to check anything have a step
that checks it; the tasks of these steps come behind the primitive tasks. -/
structure Domain.Injects (d : Domain) (top : String) (check : Method → Option Task)
    (d' : Domain) : Prop where
  methods : d'.methods = d.methods.map (·.withCheck check)
  primitiveTasks : ∃ new, d'.primitiveTasks = d.primitiveTasks ++ new ∧
    new.Perm (d.methods.filterMap check)
  others : d' = { d with methods := d'.methods, primitiveTasks := d'.primitiveTasks }
  unchecked : ∀ m ∈ d.methods, check m = none ↔ d.toCheck top m = []
  checked : ∀ m ∈ d.methods, ∀ t, check m = some t → m.ChecksExactly (d.toCheck top m) t

def Domain.checkFor (d : Domain) (top : String) (m : Method) : Option Task :=
  if d.toCheck top m = [] then none else some (m.checkOf (d.toCheck top m))

section Injects

variable {d d' e : Domain} {top : String} {m : Method} {l : Literal}
  {check : Method → Option Task} {tally : Tally}

theorem Domain.Injects.checks_iff (h : d.Injects top check d') (hm : m ∈ d.methods) :
    (∃ t, check m = some t ∧ l ∈ t.preconditions) ↔ l ∈ d.toCheck top m := by
  cases ht : check m with
  | none => simp [(h.unchecked m hm).1 ht]
  | some t => simp [(h.checked m hm t ht).preconditions]

theorem mem_toCheck :
    l ∈ d.toCheck top m ↔ d.Candidate top m l ∧ ¬d.startsDemand m l := by
  rw [Domain.toCheck, mem_unmet, mem_inferredFor]

theorem Domain.Candidate.declared (hd : d.WellFormed) (hs : d.SortsDeclared)
    (h : d.Candidate top m l) : ∀ v ∈ l.arguments, m.typed v ∈ m.declarations := by
  obtain ⟨-, w, hw, f, hf, rfl, hl⟩ := h
  obtain ⟨hm, -⟩ := finds_of_sweep hd hs hw hf
  obtain ⟨names, hnames, hdeclared⟩ := names_of_sweep hd hs hw hf _ hl
  obtain rfl := Pattern.ofNames_injective hnames
  intro v hv
  obtain ⟨sort, -, hsort, -⟩ := hs.instances_ok hd.names hm (hdeclared v hv)
  rw [Domain.sortOf, hd.names.resolveMethod hm] at hsort
  have hsort : f.method.sortOf v = .ok sort := hsort
  rw [Method.typed, hsort]
  exact Method.sortOf_eq_ok hsort

theorem checksExactly_checkOf (hd : d.WellFormed) (hs : d.SortsDeclared) :
    m.ChecksExactly (d.toCheck top m) (m.checkOf (d.toCheck top m)) where
  name := rfl
  preconditions := rfl
  effects := rfl
  parameterNames := Method.parameterNames_checkOf
  declared := by
    rw [Method.parameters_checkOf, List.forall_mem_map]
    intro v hv
    obtain ⟨l, hl, hv⟩ := List.mem_flatMap.1 (List.mem_eraseDups.1 hv)
    exact (mem_toCheck.1 hl).1.declared hd hs v hv

theorem checkFor_eq_none : d.checkFor top m = none ↔ d.toCheck top m = [] := by
  simp [Domain.checkFor]

theorem filterMap_checkFor {methods : List Method} : methods.filterMap (d.checkFor top) =
    (methods.filter fun m => d.toCheck top m ≠ []).map fun m => m.checkOf (d.toCheck top m) := by
  induction methods with
  | nil => rfl
  | cons m ms ih => by_cases hnil : d.toCheck top m = [] <;> simp [Domain.checkFor, hnil, ih]

theorem injects_of_inferPreconditions (hd : d.WellFormed) (hs : d.SortsDeclared)
    (htasks : ∀ t ∈ d.tasks, ¬IsCheckTask t.name)
    (h : d.inferPreconditions top = .ok (d', tally)) : d.Injects top (d.checkFor top) d' := by
  obtain ⟨w, order, rfl, htracks, horder⟩ := tracks_of_inferPreconditions hd hs htasks h
  have hperm : order.Perm (d.methods.filter fun m => d.toCheck top m ≠ []) := by
    refine (List.perm_ext_iff_of_nodup htracks.nodup (hd.names.methods.of_map.filter _)).2
      fun m => ?_
    rw [List.mem_filter, decide_eq_true_eq]
    exact ⟨fun hm => ⟨htracks.subset m hm, (horder m (htracks.subset m hm)).1 hm⟩,
      fun hm => (horder m hm.1).2 hm.2⟩
  refine ⟨?_, ⟨_, htracks.primitiveTasks, filterMap_checkFor ▸ hperm.map _⟩, rfl,
    fun m _ => checkFor_eq_none, fun m _ t ht => ?_⟩
  · refine htracks.methods.trans (List.map_congr_left fun m hm => ?_)
    by_cases hnil : d.toCheck top m = []
    · rw [if_neg (mt (horder m hm).1 (not_not.2 hnil)), Method.withCheck, checkFor_eq_none.2 hnil]
    · rw [if_pos ((horder m hm).2 hnil), Method.withCheck, Domain.checkFor, if_neg hnil]
  · obtain ⟨-, ht⟩ := Option.ite_none_left_eq_some.1 ht
    exact Option.some.inj ht ▸ checksExactly_checkOf hd hs

theorem Domain.Reorders.mem_toCheck_iff (h : d.Reorders e) (hd : d.WellFormed)
    (hs : d.SortsDeclared) : l ∈ e.toCheck top m ↔ l ∈ d.toCheck top m := by
  rw [mem_toCheck, mem_toCheck, h.candidate_iff hd hs, Domain.startsDemand, Domain.startsDemand]
  simp only [h.task?_eq hd.names]

end Injects

/-- What inference puts into a domain without check steps. What each method gets to check is what is
inferred for it and not all tasks demand with which it may start, so that this does not depend on
the order in which the domain is listed. -/
theorem injected_checks {d d' : Domain} (hd : d.WellFormed) (hs : d.SortsDeclared)
    (htasks : ∀ t ∈ d.tasks, ¬IsCheckTask t.name) {top : String} {tally : Tally}
    (h : d.inferPreconditions top = .ok (d', tally)) :
    ∃ check, d.Injects top check d' ∧
      ∀ e, d.Reorders e → ∃ e' tally' check', e.inferPreconditions top = .ok (e', tally') ∧
        e.Injects top check' e' ∧ ∀ m ∈ d.methods, ∀ l : Literal,
          (∃ t, check' m = some t ∧ l ∈ t.preconditions) ↔
            ∃ t, check m = some t ∧ l ∈ t.preconditions := by
  have hinjects := injects_of_inferPreconditions hd hs htasks h
  refine ⟨_, hinjects, fun e he => ?_⟩
  have hd' := he.wellFormed hd
  have hs' := he.sortsDeclared hs
  obtain ⟨t, ht⟩ := exists_task?_of_inferPreconditions h
  obtain ⟨e', tally', h'⟩ :=
    hd'.inferPreconditions_ok hs' ((he.task?_eq hd.names (n := top)).trans ht)
  have hinjects' := injects_of_inferPreconditions hd' hs'
    (fun t ht => htasks t (he.tasks.mem_iff.1 ht)) h'
  refine ⟨e', tally', _, h', hinjects', fun m hm l => ?_⟩
  rw [hinjects'.checks_iff (he.methods.mem_iff.2 hm), hinjects.checks_iff hm,
    he.mem_toCheck_iff hd hs]

theorem wellFormed_readyFetching : readyFetching.WellFormed :=
  ⟨by decide, by decide, by decide, by decide⟩

def fetchingReady : Domain := { readyFetching with predicates := readyFetching.predicates.reverse }

theorem injected_checks_readyFetching : ∃ tally check,
    readyFetching.inferPreconditions "fetch" = .ok (guardedReadyFetching, tally) ∧
    readyFetching.Injects "fetch" check guardedReadyFetching ∧
    readyFetching.toCheck "fetch" byHand = freeCheck.preconditions ∧
    ∃ (e : Domain) (tally' : Tally) (check' : Method → Option Task),
      fetchingReady.inferPreconditions "fetch" = .ok (e, tally') ∧ ∀ l : Literal,
        (∃ t, check' byHand = some t ∧ l ∈ t.preconditions) ↔ l ∈ freeCheck.preconditions := by
  have hinfer : (readyFetching.inferPreconditions "fetch").toOption.map (·.1)
      = some guardedReadyFetching := by
    decide +kernel
  have hcheck : readyFetching.toCheck "fetch" byHand = freeCheck.preconditions := by decide +kernel
  obtain ⟨tally, h⟩ := exists_tally hinfer
  obtain ⟨check, hinjects, hreorders⟩ :=
    injected_checks wellFormed_readyFetching sortsInhabited_fetching.declared (by decide) h
  have hm : byHand ∈ readyFetching.methods := List.mem_singleton.2 rfl
  have hreversed : readyFetching.Reorders fetchingReady :=
    ⟨rfl, List.reverse_perm _, .refl _, .refl _, .refl _⟩
  obtain ⟨e, tally', check', h', -, hsame⟩ := hreorders fetchingReady hreversed
  refine ⟨tally, check, h, hinjects, hcheck, e, tally', check', h', fun l => ?_⟩
  rw [hsame byHand hm, hinjects.checks_iff hm, hcheck]

end TaskNetwork
