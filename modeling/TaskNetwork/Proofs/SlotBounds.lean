import TaskNetwork.Proofs.InferenceSucceeds
import TaskNetwork.Proofs.Necessity

namespace TaskNetwork

open DraftM Draft PatternSet

def CheckSlot.InBounds (slot : CheckSlot) (w : Draft) : Prop :=
  (∃ m, w.methods[slot.method]? = some m ∧ slot.step < m.steps.length) ∧
    slot.task < w.primitiveTasks.length

/-- Positions in the domain are positions in the draft, and all known slots are in bounds. -/
structure Draft.InBounds (d : Domain) (w : Draft) : Prop where
  length_methods : w.methods.length = d.methods.length
  slots : ∀ name slot, w.slots.lookup name = some slot → slot.InBounds w

/-- Making the method check the literal goes through, and each list that is indexed on the way is
long enough: that of the methods for the position of the method, and those of the draft for its
slot, whichever parameters the check step has got so far. -/
structure Draft.OffersSafely (d : Domain) (w : Draft) (m : Method) (l : Literal) : Prop where
  position : ∃ i, d.methodIndex m.name = .ok i ∧ i < w.methods.length
  slot : ∃ slot w₁, (Draft.slot d m).Runs w slot w₁ ∧
    ∀ names w₂, Widens d m slot names w₁ w₂ → slot.InBounds w₂
  offer : ∃ w', (Draft.offer d (d.openingTasks m.name) m l).Runs w () w' ∧ w'.InBounds d

section InBounds

variable {d : Domain} {m : Method} {slot : CheckSlot} {w w' : Draft}

theorem inBounds_ofDomain : (Draft.ofDomain d).InBounds d where
  length_methods := rfl
  slots _ _ h := by cases h

theorem CheckSlot.InBounds.modify (h : slot.InBounds w) (i j : Nat) {f : Method → Method}
    (hf : ∀ m, m.steps.length ≤ (f m).steps.length) (g : Task → Task) (new : List Task)
    (slots : List (String × CheckSlot)) (tally : Tally) :
    slot.InBounds
      { methods := w.methods.modify i f, primitiveTasks := w.primitiveTasks.modify j g ++ new,
        slots, tally } := by
  obtain ⟨⟨m, hm, hstep⟩, htask⟩ := h
  refine ⟨⟨if i = slot.method then f m else m, ?_, ?_⟩, ?_⟩
  · rw [List.getElem?_modify, hm]
    rfl
  · split
    · exact Nat.lt_of_lt_of_le hstep (hf m)
    · exact hstep
  · rw [List.length_append, List.length_modify]
    exact Nat.lt_add_right _ htask

theorem Draft.InBounds.modify (h : w.InBounds d) (i j : Nat) {f : Method → Method}
    (hf : ∀ m, m.steps.length ≤ (f m).steps.length) (g : Task → Task) (new : List Task)
    (tally : Tally) :
    Draft.InBounds d
      { methods := w.methods.modify i f, primitiveTasks := w.primitiveTasks.modify j g ++ new,
        slots := w.slots, tally } where
  length_methods := by
    rw [List.length_modify]
    exact h.length_methods
  slots name slot hslot := (h.slots name slot hslot).modify i j hf g new w.slots tally

theorem Draft.InBounds.withTally (h : w.InBounds d) (tally : Tally) :
    Draft.InBounds d { w with tally } := ⟨h.length_methods, h.slots⟩

theorem Draft.InBounds.addSlot (h : w.InBounds d) (name : String) (hslot : slot.InBounds w) :
    Draft.InBounds d { w with slots := (name, slot) :: w.slots } where
  length_methods := h.length_methods
  slots n other hother := by
    rw [List.lookup_cons] at hother
    split at hother
    · obtain rfl := Option.some.inj hother
      exact hslot
    · exact h.slots n other hother

theorem Draft.InBounds.addCheckStep (h : w.InBounds d) {i : Nat} (hi : i < w.methods.length) :
    (w.addCheckStep i).1.InBounds d ∧ (w.addCheckStep i).2.InBounds (w.addCheckStep i).1 := by
  have hm : w.methods[i]? = some w.methods[i] := List.getElem?_eq_getElem hi
  constructor
  · have hmodify := h.modify i 0 (f := Method.addCheckStep) (fun m => by simp [Method.addCheckStep])
      id (w.methods[i]?.toList.map Method.checkTask) w.tally
    rwa [List.modify_id] at hmodify
  · refine ⟨⟨w.methods[i].addCheckStep, ?_, ?_⟩, ?_⟩
    · simp [Draft.addCheckStep, hm]
    · simp [Draft.addCheckStep, Method.addCheckStep, hm]
    · simp [Draft.addCheckStep, hm]

theorem Draft.Opens.inBounds (h : Opens d m w slot w') (hw : w.InBounds d) :
    w'.InBounds d ∧ w'.slots.lookup m.name = some slot := by
  cases h with
  | known hslot => exact ⟨hw, hslot⟩
  | @found i slot hnone hi hold =>
    obtain ⟨rfl, n, s, t, hn, hs, -, ht, -⟩ := Draft.existingSlot?_eq_some hold
    have hslot : slot.InBounds w :=
      ⟨⟨n, hn, (List.getElem?_eq_some_iff.1 hs).1⟩, (List.getElem?_eq_some_iff.1 ht).1⟩
    exact ⟨hw.addSlot m.name hslot, by simp⟩
  | @made i hnone hi hno =>
    obtain ⟨n, hn, -⟩ := Domain.methodIndex_eq_ok hi
    have hlen : i < w.methods.length := hw.length_methods ▸ (List.getElem?_eq_some_iff.1 hn).1
    obtain ⟨hnew, hslot⟩ := hw.addCheckStep hlen
    exact ⟨hnew.addSlot m.name hslot, by simp⟩

theorem Draft.InBounds.addParameter (h : w.InBounds d) (slot : CheckSlot) (v : TypedName) :
    (w.addParameter slot v).InBounds d := by
  have hmodify := h.modify slot.method slot.task (f := fun m =>
      { m with steps := m.steps.modify slot.step fun s =>
          { s with arguments := s.arguments ++ [v.name] } }) (fun m => by simp)
    (fun t => { t with parameters := t.parameters ++ [v] }) [] w.tally
  rwa [List.append_nil] at hmodify

theorem Draft.InBounds.addPrecondition (h : w.InBounds d) (slot : CheckSlot) (l : Literal) :
    (w.addPrecondition slot l).InBounds d := by
  have hmodify := h.modify 0 slot.task (f := id) (fun m => Nat.le_refl _) (·.withPrecondition l) []
    w.tally
  rwa [List.append_nil, List.modify_id] at hmodify

theorem Draft.Widens.inBounds {names : List String} (h : Widens d m slot names w w')
    (hw : w.InBounds d) (hslot : w.slots.lookup m.name = some slot) :
    w'.InBounds d ∧ w'.slots.lookup m.name = some slot := by
  induction h with
  | nil => exact ⟨hw, hslot⟩
  | has _ _ ih => exact ih hw hslot
  | add _ _ _ ih => exact ih (hw.addParameter _ _) hslot

theorem Draft.Offered.inBounds {l : Literal} (h : Offered d m l w w') (hw : w.InBounds d) :
    w'.InBounds d := by
  cases h with
  | redundant _ _ => exact hw.withTally _
  | accepted hopen hwiden =>
    obtain ⟨hw₁, hslot⟩ := hopen.inBounds (hw.withTally _)
    exact (hwiden.inBounds hw₁ hslot).1.addPrecondition _ _

theorem Draft.InBounds.offersSafely (hw : w.InBounds d) (hd : d.WellFormed) (hs : d.SortsDeclared)
    (hm : m ∈ d.methods) {l : Literal} (hl : ∀ v ∈ l.arguments, v ∈ m.variableNames) :
    w.OffersSafely d m l where
  position := by
    obtain ⟨i, hi⟩ := Domain.exists_methodIndex hm
    obtain ⟨n, hn, -⟩ := Domain.methodIndex_eq_ok hi
    exact ⟨i, hi, hw.length_methods ▸ (List.getElem?_eq_some_iff.1 hn).1⟩
  slot := by
    obtain ⟨slot, w₁, hrun⟩ := slot_succeeds hm w
    obtain ⟨hw₁, hslot⟩ := (opens_of_runs hrun).inBounds hw
    refine ⟨slot, w₁, hrun, fun names w₂ hwiden => ?_⟩
    obtain ⟨hw₂, hslot₂⟩ := hwiden.inBounds hw₁ hslot
    exact hw₂.slots _ _ hslot₂
  offer := by
    obtain ⟨u, w', hrun⟩ := offer_succeeds hd hm hs hl w
    exact ⟨w', hrun, (offered_of_runs hrun).inBounds hw⟩

end InBounds

/-- Whatever the orderings and the recursion: below a declared task all sweeps come to an end
without a failure, each pattern they infer is a literal over the method's variables, no slot is ever
out of bounds, and inference as a whole succeeds. -/
theorem inference_succeeds {d : Domain} (hd : d.WellFormed) (hs : d.SortsDeclared) {top : String}
    {t : Task} (ht : d.task? top = some t) :
    (∀ predicate positive, ∃ v, d.sweep top predicate positive = .ok v ∧
      ∀ f ∈ v.findings, ∀ p ∈ f.inferred.toList,
        ∃ l, p.toLiteral f.method predicate positive = .ok l ∧
          ∀ w : Draft, w.InBounds d → w.OffersSafely d f.method l) ∧
      (Draft.ofDomain d).InBounds d ∧
      ∃ d' tally, d.inferPreconditions top = .ok (d', tally) := by
  refine ⟨fun predicate positive => ?_, inBounds_ofDomain, hd.inferPreconditions_ok hs ht⟩
  obtain ⟨v, hv⟩ := hd.sweep_ok hs ht predicate positive
  refine ⟨v, hv, fun f hf p hp => ?_⟩
  obtain ⟨hm, -⟩ := finds_of_sweep hd hs hv hf
  obtain ⟨names, rfl, hnames⟩ := names_of_sweep hd hs hv hf p hp
  exact ⟨_, Pattern.toLiteral_ofNames, fun w hw => hw.offersSafely hd hs hm hnames⟩

def inCircles : Method :=
  { byHand with
    name := "in_circles"
    steps := byHand.steps ++ [{ id := "t", task := "fetch", arguments := ["z"] }]
    ordering := [("s", "t"), ("t", "s")] }

def circling : Domain := { fetching with methods := [byHand, inCircles] }

theorem inference_succeeds_circling :
    (∃ v, circling.sweep "fetch" "free" true = .ok v ∧ ∃ f ∈ v.findings, f.method = byHand ∧
      ∃ l, Pattern.toLiteral f.method "free" true [.name "z"] = .ok l ∧
        (Draft.ofDomain circling).OffersSafely circling f.method l) ∧
      ∃ d' tally, circling.inferPreconditions "fetch" = .ok (d', tally) := by
  have hd : circling.WellFormed := ⟨by decide, by decide, by decide, by decide⟩
  have hsorts : circling.SortsDeclared := by
    intro m hm v hv
    have hsort : v.sort = "thing" := by
      revert m v
      decide
    rw [hsort]
    exact ⟨_, rfl⟩
  have htop : circling.task? "fetch" = some fetching.abstractTasks[0] := rfl
  obtain ⟨hsweeps, hstart, hinfer⟩ := inference_succeeds hd hsorts htop
  obtain ⟨v, hv, hliterals⟩ := hsweeps "free" true
  obtain ⟨f, hf, hmethod, hz⟩ : ∃ f ∈ v.findings, f.method = byHand ∧
      [.name "z"] ∈ f.inferred.toList := by
    cases hv
    decide +kernel
  obtain ⟨l, hl, hsafe⟩ := hliterals f hf _ hz
  exact ⟨⟨v, hv, f, hf, hmethod, l, hl, hsafe _ hstart⟩, hinfer⟩

end TaskNetwork
