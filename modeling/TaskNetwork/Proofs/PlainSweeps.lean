import TaskNetwork.Proofs.FailureKinds
import TaskNetwork.Proofs.Offers

namespace TaskNetwork

open DraftM Draft PatternSet

structure Sweep.Plain (w : Sweep) : Prop where
  records : ∀ n, (w.record n).Plain
  findings : ∀ f ∈ w.findings, f.needs.Plain ∧ f.inferred.Plain

/-- The states that a sweep passes through, whether or not it gets to the end of its walk: those
between two events, and within a conclusion that in which the record of the task has changed and it
is still open what is inferred. -/
inductive Domain.Passes (d : Domain) (top predicate : String) (positive : Bool) : Sweep → Prop
  | between {past : List WalkEvent} {w : Sweep} (hpast : past <+: d.walk top)
      (hw : d.sweepAlong d.recursiveTasks past predicate positive = .ok w) :
      Passes d top predicate positive w
  | within {past : List WalkEvent} {t : Task} {m : Method} {i : ℕ} {w : Sweep} {c : Contribution}
      (hpast : past ++ [.conclude t m i] <+: d.walk top)
      (hw : d.sweepAlong d.recursiveTasks past predicate positive = .ok w)
      (hc : m.contribution d w.record t = .ok c) :
      Passes d top predicate positive (w.setRecord t.name ((w.record t.name).add c))

section Sweeps

variable {d : Domain} {top predicate : String} {positive : Bool} {t : Task} {m : Method} {i : ℕ}
  {w w' : Sweep} {c : Contribution}

theorem Sweep.conclude_eq (w : Sweep) (d : Domain) (t : Task) (m : Method) (i : ℕ) :
    w.conclude d t m i = (do
      let c ← m.contribution d w.record t
      let mayAdd ← m.mayAdd d w.record
      let needs ← m.needs d w.record .keep
      let inferred ← needs.constrain d m mayAdd
      return { w.setRecord t.name ((w.record t.name).add c) with
        findings := w.findings ++ [{ method := m, position := i, needs, mayAdd, inferred }] }) := by
  simp only [Sweep.conclude, Method.contribution, bind_assoc, pure_bind]
  refine bind_congr fun u => bind_congr fun n => bind_congr fun v => bind_congr fun e => ?_
  -- what may be added is worked out for the record, and once more for the finding
  cases m.mayAdd d w.record with
  | error e => rfl
  | ok a => rfl

theorem Method.contribution_plain {records : String → TaskRecord} (hr : ∀ n, (records n).Plain)
    (h : m.contribution d records t = .ok c) : c.needs.Plain ∧ c.ensures.Plain := by
  simp only [contribution, bind_eq_ok, liftM_eq_ok, pure_eq_ok] at h
  obtain ⟨u, hu, n, hn, v, hv, e, he, -, -, -, -, rfl⟩ := h
  exact ⟨(m.plain_needs hr (by decide) hu).raise hn, (m.plain_ensures hr hv).raise he⟩

theorem Sweep.plain_contribute (h : ∀ n, (w.record n).Plain)
    (hc : m.contribution d w.record t = .ok c) (n : String) :
    ((w.setRecord t.name ((w.record t.name).add c)).record n).Plain := by
  obtain ⟨hneeds, hensures⟩ := Method.contribution_plain h hc
  exact plain_setRecord h ((h t.name).add hneeds hensures) t.name n

theorem Sweep.Plain.conclude (h : w.Plain) (hw : w.conclude d t m i = .ok w') : w'.Plain := by
  rw [conclude_eq] at hw
  simp only [bind_eq_ok, liftM_eq_ok, pure_eq_ok] at hw
  obtain ⟨c, hc, a, -, k, hk, inferred, hinferred, rfl⟩ := hw
  have hneeds : k.Plain := m.plain_needs h.records (by decide) hk
  refine ⟨plain_contribute h.records hc, fun f hf => ?_⟩
  obtain hf | hf := List.mem_append.1 hf
  · exact h.findings f hf
  · obtain rfl := List.mem_singleton.1 hf
    exact ⟨hneeds, hneeds.constrain hinferred⟩

theorem Sweep.Plain.advance {e : WalkEvent} (h : w.Plain)
    (hw : w.advance d d.recursiveTasks e = .ok w') : w'.Plain := by
  cases e with
  | enter n =>
    obtain rfl := pure_eq_ok.1 hw
    exact ⟨plain_setRecord h.records (d.plain_firstRecord n) n, h.findings⟩
  | missing n => exact absurd hw throw_ne_ok
  | leaveStep m s =>
    simp only [Sweep.advance, bind_eq_ok, pure_eq_ok] at hw
    obtain ⟨-, -, rfl⟩ := hw
    exact h
  | conclude t m i => exact h.conclude hw

theorem Sweep.Plain.foldlM {events : List WalkEvent} (h : w.Plain)
    (hw : events.foldlM (Sweep.advance d d.recursiveTasks) w = .ok w') : w'.Plain := by
  induction events generalizing w with
  | nil =>
    obtain rfl := pure_eq_ok.1 hw
    exact h
  | cons e events ih =>
    rw [List.foldlM_cons, bind_eq_ok] at hw
    obtain ⟨w₁, he, hw⟩ := hw
    exact ih (h.advance he) hw

theorem Domain.plain_of_sweepAlong {past : List WalkEvent}
    (hw : d.sweepAlong d.recursiveTasks past predicate positive = .ok w) : w.Plain :=
  Sweep.Plain.foldlM ⟨Sweep.plain_start d predicate positive, fun _ hf => by cases hf⟩ hw

theorem Domain.Passes.plain (h : d.Passes top predicate positive w) : w.Plain := by
  cases h with
  | between _ hw => exact plain_of_sweepAlong hw
  | within _ hw hc =>
    have h := plain_of_sweepAlong hw
    exact ⟨Sweep.plain_contribute h.records hc, h.findings⟩

end Sweeps

def Draft.offerAll (d : Domain) (offers : List (Method × Literal)) : DraftM Unit :=
  offers.forM fun o => offer d (d.openingTasks o.1.name) o.1 o.2

section Offers

variable {d : Domain} {top predicate : String} {positive : Bool} {m : Method} {l : Literal}
  {w : Sweep} {offers others : List (Method × Literal)}

theorem PatternSet.Plain.toLiteral_ok {s : PatternSet} (hs : s.Plain) (m : Method)
    (predicate : String) (positive : Bool) {p : Pattern} (hp : p ∈ s) :
    ∃ l, p.toLiteral m predicate positive = .ok l := by
  obtain ⟨names, rfl⟩ := plain_iff.1 hs p hp
  exact ⟨_, Pattern.toLiteral_ofNames⟩

theorem Sweep.mem_offers : (m, l) ∈ w.offers predicate positive ↔
    ∃ f ∈ w.findings, f.method = m ∧ ∃ p ∈ f.inferred.toList,
      p.toLiteral m predicate positive = .ok l := by
  simp only [offers, List.mem_flatMap, List.mem_map, List.mem_filterMap, toOption_eq_some,
    Prod.mk.injEq]
  constructor
  · rintro ⟨f, hf, l, ⟨p, hp, hl⟩, rfl, rfl⟩
    exact ⟨f, hf, rfl, p, hp, hl⟩
  · rintro ⟨f, hf, rfl, p, hp, hl⟩
    exact ⟨f, hf, l, ⟨p, hp, hl⟩, rfl, rfl⟩

theorem Draft.offerAll_append :
    offerAll d (offers ++ others) = offerAll d offers >>= fun _ => offerAll d others := by
  simp only [offerAll, List.forM_eq_forM, List.forM_append]

theorem Draft.offerAll_singleton : offerAll d [(m, l)] = offer d (d.openingTasks m.name) m l :=
  bind_pure_unit

/-- Work on items of which each stands for a list of offers makes all of these, failures included. -/
theorem Draft.forM_eq_offerAll {α : Type} {f : α → DraftM Unit} {told : α → List (Method × Literal)}
    {items : List α} (hf : ∀ a ∈ items, f a = offerAll d (told a)) :
    items.forM f = offerAll d (items.flatMap told) := by
  induction items with
  | nil => rfl
  | cons a items ih =>
    obtain ⟨ha, hf⟩ := List.forall_mem_cons.1 hf
    rw [List.flatMap_cons, offerAll_append, ← ih hf, ← ha]
    rfl

theorem Draft.inject_eq_offerAll {inferred : PatternSet} (h : inferred.Plain) :
    inject d m inferred predicate positive = offerAll d ((inferred.toList.filterMap fun p =>
      (p.toLiteral m predicate positive).toOption).map (m, ·)) := by
  rw [List.filterMap_eq_flatMap_toList, List.map_flatMap]
  refine forM_eq_offerAll fun p hp => ?_
  obtain ⟨l, hl⟩ := h.toLiteral_ok m predicate positive (mem_of_mem_toList hp)
  rw [hl]
  exact offerAll_singleton.symm

theorem Sweep.Plain.forM_inject (h : w.Plain) :
    (w.findings.forM fun f => inject d f.method f.inferred predicate positive) =
      offerAll d (w.offers predicate positive) :=
  forM_eq_offerAll fun f hf => inject_eq_offerAll (h.findings f hf).2

theorem Domain.draftPredicate_stopsOnly (d : Domain) (top predicate : String) (positive : Bool) :
    (d.draftPredicate d.recursiveTasks (d.walk top) predicate positive).StopsOnly
      Failure.OfDeclarations := by
  refine stopsOnly_bind_failure (d.sweepAlong_failsOnly _ _ predicate positive) fun w hw => ?_
  rw [(plain_of_sweepAlong hw).forM_inject]
  exact stopsOnly_forM fun o _ => offer_stopsOnly _ o.2

theorem Domain.inferPreconditions_failsOnly (d : Domain) (top : String) :
    FailsOnly (fun e => e = .unknownTopTask top ∨ e.OfDeclarations) (d.inferPreconditions top) := by
  intro e he
  unfold inferPreconditions at he
  split at he
  · cases he
    exact .inl rfl
  · dsimp only at he
    split at he
    · cases he
    · next e' w hrun =>
      cases he
      have hstops := stopsOnly_forM fun swept (_ : swept ∈ d.sweptPredicates) =>
        d.draftPredicate_stopsOnly top swept.1 swept.2
      exact .inr (hstops _ e w hrun)

end Offers

/-- Whatever the domain, and whether or not it is consistent: in each state of each sweep what tasks
need and ensure, what methods need and what is inferred for them is listed and about names, and so is
what a method needs when it is done with some of its steps only. So inference never fails because of
a hidden variable in what is to be checked, and of what a sweep infers each pattern is offered. -/
theorem inferred_are_literals (d : Domain) (top : String) :
    (∀ predicate positive,
      (∀ w, d.Passes top predicate positive w →
        (∀ n, (w.record n).needs.Plain ∧ (w.record n).ensures.Plain) ∧
        ∀ f ∈ w.findings, f.needs.Plain ∧ f.inferred.Plain) ∧
      ∀ m sets, (∀ u ∈ sets, ∃ w s, d.Passes top predicate positive w ∧
        (w.record s.task).needs.lower d m s .keep = .ok u) → (PatternSet.unions sets).Plain) ∧
    (∀ method predicate argument,
      d.inferPreconditions top ≠ .error (.opaqueArgument method predicate argument)) ∧
    ∀ predicate positive w, d.sweep top predicate positive = .ok w →
      d.draftPredicate d.recursiveTasks (d.walk top) predicate positive =
        Draft.offerAll d (w.offers predicate positive) ∧
      ∀ f ∈ w.findings, ∀ p ∈ f.inferred, ∃ l, p.toLiteral f.method predicate positive = .ok l ∧
        (f.method, l) ∈ w.offers predicate positive := by
  refine ⟨fun predicate positive => ⟨fun w hw => ?_, fun m sets hsets => plain_unions fun u hu => ?_⟩,
    fun method predicate argument h => ?_, fun predicate positive w hw => ⟨?_, fun f hf p hp => ?_⟩⟩
  · obtain ⟨hrecords, hfindings⟩ := hw.plain
    exact ⟨fun n => ⟨(hrecords n).needs, (hrecords n).ensures⟩, hfindings⟩
  · obtain ⟨w, s, hw, hlower⟩ := hsets u hu
    exact (hw.plain.records s.task).needs.lower (by decide) hlower
  · obtain htop | hdeclarations := d.inferPreconditions_failsOnly top _ h
    · cases htop
    · cases hdeclarations
  · have hwalk := sweep_eq_ok hw
    rw [← (Domain.plain_of_sweepAlong hwalk).forM_inject, Domain.draftPredicate, hwalk]
    rfl
  · have hplain := (Domain.plain_of_sweepAlong (sweep_eq_ok hw)).findings f hf
    obtain ⟨l, hl⟩ := hplain.2.toLiteral_ok f.method predicate positive hp
    have hlisted : p ∈ f.inferred.toList := mem_toList_of_mem hplain.2.ne_anything hp
    exact ⟨l, hl, Sweep.mem_offers.2 ⟨f, hf, rfl, p, hlisted, hl⟩⟩

def byFreeHand : Method :=
  { byHand with
    declarations := byHand.declarations ++ [{ name := "k", sort := "tool" }]
    steps := byHand.steps ++ [{ id := "t", task := "put", arguments := ["k"] }] }

def tidyUp : Method :=
  { byFreeHand with
    task := "tidy"
    steps := [
      { id := "s", task := "fetch", arguments := ["z"] },
      { id := "t", task := "pick", arguments := ["lost"] }] }

def tidying : Domain :=
  { fetching with
    sorts := { entries := [("thing", NameSet.ofList ["cup"]), ("tool", NameSet.ofList ["peg"])] }
    primitiveTasks := fetching.primitiveTasks ++ [
      { Task.ofParameters "put" [{ name := "x", sort := "tool" }] with
        effects := [{ predicate := "free", positive := true, arguments := ["x"] }] }]
    abstractTasks := ["fetch", "tidy"].map fun name =>
      Task.ofParameters name [{ name := "y", sort := "thing" }]
    methods := [byFreeHand, tidyUp] }

theorem inferred_are_literals_tidying :
    (∃ w, tidying.Passes "tidy" "free" true w ∧
      [.hidden "by_hand" "k"] ∈ (w.record "fetch").mayAdd ∧ (w.record "fetch").needs.Plain ∧
      (∃ f ∈ w.findings, f.method = byFreeHand ∧ f.needs.Plain ∧ f.inferred.Plain) ∧
      ∃ u, (w.record "fetch").needs.lower tidying tidyUp tidyUp.steps[0] .keep = .ok u ∧
        (PatternSet.unions [u]).Plain) ∧
    (tidying.inferPreconditions "tidy" = .error (.domain (.unknownVariable "by_hand" "lost")) ∧
      ∀ method predicate argument, tidying.inferPreconditions "tidy" ≠
        .error (.opaqueArgument method predicate argument)) ∧
    ∃ w, tidying.sweep "fetch" "free" true = .ok w ∧
      tidying.draftPredicate tidying.recursiveTasks (tidying.walk "fetch") "free" true =
        Draft.offerAll tidying (w.offers "free" true) ∧
      ∃ f ∈ w.findings, [.name "z"] ∈ f.inferred ∧ ∃ l,
        Pattern.toLiteral f.method "free" true [.name "z"] = .ok l ∧
          (f.method, l) ∈ w.offers "free" true := by
  obtain ⟨hpasses, hfails, -⟩ := inferred_are_literals tidying "tidy"
  obtain ⟨hstates, hsets⟩ := hpasses "free" true
  obtain ⟨-, -, hoffers⟩ := inferred_are_literals tidying "fetch"
  refine ⟨?_, ⟨by decide +kernel, hfails⟩, ?_⟩
  · obtain ⟨w, hw, hhidden, f, hf, hmethod⟩ : ∃ w, tidying.sweepAlong tidying.recursiveTasks
          ((tidying.walk "tidy").take 5) "free" true = .ok w ∧
        [.hidden "by_hand" "k"] ∈ (w.record "fetch").mayAdd ∧
        ∃ f ∈ w.findings, f.method = byFreeHand := ⟨_, rfl, by decide +kernel⟩
    have hstate : tidying.Passes "tidy" "free" true w := .between (List.take_prefix 5 _) hw
    obtain ⟨hrecords, hfindings⟩ := hstates w hstate
    obtain ⟨u, hu⟩ : ∃ u, (w.record "fetch").needs.lower tidying tidyUp tidyUp.steps[0] .keep
        = .ok u := by
      cases hw
      exact ⟨_, rfl⟩
    have hfirst : ∀ v ∈ [u], ∃ w s, tidying.Passes "tidy" "free" true w ∧
        (w.record s.task).needs.lower tidying tidyUp s .keep = .ok v := by
      intro v hv
      obtain rfl := List.mem_singleton.1 hv
      exact ⟨w, tidyUp.steps[0], hstate, hu⟩
    exact ⟨w, hstate, hhidden, (hrecords "fetch").1, ⟨f, hf, hmethod, hfindings f hf⟩, u, hu,
      hsets tidyUp [u] hfirst⟩
  · obtain ⟨w, hw, f, hf, hz⟩ : ∃ w, tidying.sweep "fetch" "free" true = .ok w ∧
      ∃ f ∈ w.findings, [.name "z"] ∈ f.inferred := ⟨_, rfl, by decide +kernel⟩
    obtain ⟨hdraft, hall⟩ := hoffers "free" true w hw
    exact ⟨w, hw, hdraft, f, hf, hz, hall f hf _ hz⟩

end TaskNetwork
