import Mathlib.Logic.Relation
import TaskNetwork.Inference
import TaskNetwork.Proofs.SweepWalk

namespace TaskNetwork

open Relation

/-- The work succeeds on the first draft, with this outcome, and leaves the second one. -/
def DraftM.Runs {α : Type} (x : DraftM α) (w : Draft) (a : α) (w' : Draft) : Prop :=
  x.run w = (.ok a, w')

namespace DraftM

variable {α β : Type} {w w' : Draft} {a : α} {b : β}

theorem run_bind {x : DraftM α} {f : α → DraftM β} :
    (x >>= f).run w = match x.run w with
      | (.ok a, w₁) => (f a).run w₁
      | (.error e, w₁) => (.error e, w₁) := by
  change (do let r ← x.run; ExceptT.bindCont f r : StateM Draft _) w = _
  simp only [bind, StateT.bind]
  rcases x.run w with ⟨r, w₁⟩
  cases r <;> rfl

theorem runs_bind {x : DraftM α} {f : α → DraftM β} :
    (x >>= f).Runs w b w' ↔ ∃ a w₁, x.Runs w a w₁ ∧ (f a).Runs w₁ b w' := by
  unfold Runs
  rw [run_bind]
  rcases x.run w with ⟨r, w₁⟩
  constructor
  · intro h
    cases r with
    | error e => cases h
    | ok c => exact ⟨c, w₁, rfl, h⟩
  · rintro ⟨a, w₂, h, hf⟩
    cases h
    exact hf

theorem runs_pure {c : α} : (pure c : DraftM α).Runs w a w' ↔ c = a ∧ w = w' := by
  constructor
  · intro h
    cases h
    exact ⟨rfl, rfl⟩
  · rintro ⟨rfl, rfl⟩
    rfl

theorem runs_get {v : Draft} : (get : DraftM Draft).Runs w v w' ↔ w = v ∧ w = w' := by
  constructor
  · intro h
    cases h
    exact ⟨rfl, rfl⟩
  · rintro ⟨rfl, rfl⟩
    rfl

theorem runs_modify {f : Draft → Draft} {u : PUnit} :
    (modify f : DraftM PUnit).Runs w u w' ↔ f w = w' := by
  constructor
  · intro h
    cases h
    rfl
  · rintro rfl
    rfl

theorem runs_modifyGet {f : Draft → α × Draft} :
    (modifyGet f : DraftM α).Runs w a w' ↔ f w = (a, w') := by
  constructor
  · intro h
    cases h
    rfl
  · intro h
    change ((Except.ok (f w).1, (f w).2) : Except Failure α × Draft) = _
    rw [h]

theorem runs_failure {x : Except Failure α} :
    (liftM x : DraftM α).Runs w a w' ↔ x = .ok a ∧ w = w' := by
  cases x with
  | error e =>
    constructor
    · intro h
      cases h
    · rintro ⟨h, -⟩
      cases h
  | ok c =>
    constructor
    · intro h
      cases h
      exact ⟨rfl, rfl⟩
    · rintro ⟨h, rfl⟩
      cases h
      rfl

theorem runs_domainError {x : Except DomainError α} :
    (liftM x : DraftM α).Runs w a w' ↔ x = .ok a ∧ w = w' := by
  cases x with
  | error e =>
    constructor
    · intro h
      cases h
    · rintro ⟨h, -⟩
      cases h
  | ok c =>
    constructor
    · intro h
      cases h
      exact ⟨rfl, rfl⟩
    · rintro ⟨h, rfl⟩
      cases h
      rfl

theorem runs_forM {f : α → DraftM Unit} {l : List α} {r : Draft → Draft → Prop}
    (hf : ∀ a ∈ l, ∀ w w', (f a).Runs w () w' → ReflTransGen r w w') {u : Unit}
    (h : (l.forM f : DraftM Unit).Runs w u w') : ReflTransGen r w w' := by
  induction l generalizing w with
  | nil =>
    obtain ⟨-, rfl⟩ := runs_pure.1 h
    exact .refl
  | cons a l ih =>
    obtain ⟨_, w₁, ha, hl⟩ := runs_bind.1 h
    exact (hf a List.mem_cons_self w w₁ ha).trans
      (ih (fun b hb => hf b (List.mem_cons_of_mem a hb)) hl)

theorem runs_of_mem_forM {α : Type} {f : α → DraftM Unit} {l : List α} {u : Unit}
    (h : (l.forM f : DraftM Unit).Runs w u w') {a : α} (ha : a ∈ l) :
    ∃ w₁ w₂, (f a).Runs w₁ () w₂ := by
  induction l generalizing w with
  | nil => cases ha
  | cons b l ih =>
    obtain ⟨_, w₁, hb, hl⟩ := runs_bind.1 h
    obtain rfl | ha := List.mem_cons.1 ha
    · exact ⟨w, w₁, hb⟩
    · exact ih hl ha

end DraftM

namespace Draft

def HasParameter (w : Draft) (slot : CheckSlot) (name : String) : Prop :=
  ∃ t, w.primitiveTasks[slot.task]? = some t ∧ name ∈ t.parameterNames

/-- How a draft comes to know the check step of a method. -/
inductive Opens (d : Domain) (m : Method) (w : Draft) : CheckSlot → Draft → Prop
  | known {slot : CheckSlot} (h : w.slots.lookup m.name = some slot) : Opens d m w slot w
  | found {i : Nat} {slot : CheckSlot} (hnone : w.slots.lookup m.name = none)
      (hi : d.methodIndex m.name = .ok i) (h : w.existingSlot? i = some slot) :
      Opens d m w slot { w with slots := (m.name, slot) :: w.slots }
  | made {i : Nat} (hnone : w.slots.lookup m.name = none) (hi : d.methodIndex m.name = .ok i)
      (h : w.existingSlot? i = none) :
      Opens d m w (w.addCheckStep i).2
        { (w.addCheckStep i).1 with slots := (m.name, (w.addCheckStep i).2) :: w.slots }

/-- Those of the names that are no parameters yet become parameters. -/
inductive Widens (d : Domain) (m : Method) (slot : CheckSlot) :
    List String → Draft → Draft → Prop
  | nil {w : Draft} : Widens d m slot [] w w
  | has {name : String} {names : List String} {w w' : Draft} (h : w.HasParameter slot name)
      (hnames : Widens d m slot names w w') : Widens d m slot (name :: names) w w'
  | add {name sort : String} {names : List String} {w w' : Draft}
      (h : ¬w.HasParameter slot name) (hs : d.sortOf m.name name = .ok sort)
      (hnames : Widens d m slot names (w.addParameter slot { name, sort }) w') :
      Widens d m slot (name :: names) w w'

inductive Offered (d : Domain) (m : Method) (l : Literal) (w : Draft) : Draft → Prop
  | redundant (opening : List String) (h : isRedundant d w m l opening = .ok true) :
      Offered d m l w { w with tally := w.tally.reject m.name }
  | accepted {slot : CheckSlot} {w₁ w₂ : Draft}
      (hslot : Opens d m { w with tally := w.tally.accept m.name } slot w₁)
      (hparameters : Widens d m slot l.arguments w₁ w₂) :
      Offered d m l w (w₂.addPrecondition slot l)

open DraftM

variable {d : Domain} {m : Method} {l : Literal} {w w' : Draft}

theorem opens_of_runs {slot : CheckSlot} (h : (Draft.slot d m).Runs w slot w') :
    Opens d m w slot w' := by
  unfold Draft.slot at h
  obtain ⟨v, w₁, hv, h⟩ := runs_bind.1 h
  obtain ⟨rfl, rfl⟩ := runs_get.1 hv
  cases hlookup : w.slots.lookup m.name with
  | some known =>
    simp only [hlookup] at h
    obtain ⟨rfl, rfl⟩ := runs_pure.1 h
    exact .known hlookup
  | none =>
    simp only [hlookup] at h
    obtain ⟨i, w₁, hindex, h⟩ := runs_bind.1 h
    obtain ⟨hi, rfl⟩ := runs_domainError.1 hindex
    obtain ⟨v, w₁, hv, h⟩ := runs_bind.1 h
    obtain ⟨rfl, rfl⟩ := runs_get.1 hv
    cases hold : w.existingSlot? i with
    | some old =>
      simp only [hold, pure_bind] at h
      obtain ⟨u, w₁, hu, h⟩ := runs_bind.1 h
      obtain rfl := runs_modify.1 hu
      obtain ⟨rfl, rfl⟩ := runs_pure.1 h
      exact .found hlookup hi hold
    | none =>
      simp only [hold] at h
      obtain ⟨new, w₁, hnew, h⟩ := runs_bind.1 h
      have hadd : ((w.addCheckStep i).2, (w.addCheckStep i).1) = (new, w₁) :=
        runs_modifyGet.1 hnew
      cases hadd
      obtain ⟨u, w₁, hu, h⟩ := runs_bind.1 h
      obtain rfl := runs_modify.1 hu
      obtain ⟨rfl, rfl⟩ := runs_pure.1 h
      exact .made hlookup hi hold

theorem hasParameter_iff {slot : CheckSlot} {name : String} :
    w.HasParameter slot name ↔
      w.primitiveTasks[slot.task]?.any (name ∈ ·.parameterNames) = true := by
  simp [HasParameter, Option.any_eq_true]

theorem widens_of_runs {slot : CheckSlot} {names : List String} {u : Unit}
    (h : DraftM.Runs (names.forM fun name => do
      unless (← get).primitiveTasks[slot.task]?.any (name ∈ ·.parameterNames) do
        let sort ← d.sortOf m.name name
        modify (·.addParameter slot { name, sort })) w u w') : Widens d m slot names w w' := by
  induction names generalizing w with
  | nil =>
    obtain ⟨-, rfl⟩ := runs_pure.1 h
    exact .nil
  | cons name names ih =>
    obtain ⟨_, w₁, hname, h⟩ := runs_bind.1 h
    obtain ⟨v, w₂, hv, hname⟩ := runs_bind.1 hname
    obtain ⟨rfl, rfl⟩ := runs_get.1 hv
    by_cases hhas : w.primitiveTasks[slot.task]?.any (name ∈ ·.parameterNames) = true
    · rw [if_pos hhas] at hname
      obtain ⟨-, rfl⟩ := runs_pure.1 hname
      exact .has (hasParameter_iff.2 hhas) (ih h)
    · rw [if_neg hhas] at hname
      obtain ⟨sort, w₂, hsort, hname⟩ := runs_bind.1 hname
      obtain ⟨hs, rfl⟩ := runs_domainError.1 hsort
      obtain rfl := runs_modify.1 hname
      exact .add (fun hp => hhas (hasParameter_iff.1 hp)) hs (ih h)

theorem offer_of_runs {opening : List String} {u : Unit}
    (h : (Draft.offer d opening m l).Runs w u w') :
    (isRedundant d w m l opening = .ok true ∧ w' = { w with tally := w.tally.reject m.name }) ∨
    isRedundant d w m l opening = .ok false ∧ ∃ slot w₁ w₂,
      Opens d m { w with tally := w.tally.accept m.name } slot w₁ ∧
      Widens d m slot l.arguments w₁ w₂ ∧ w' = w₂.addPrecondition slot l := by
  unfold Draft.offer at h
  obtain ⟨v, w₁, hv, h⟩ := runs_bind.1 h
  obtain ⟨rfl, rfl⟩ := runs_get.1 hv
  obtain ⟨b, w₁, hred, h⟩ := runs_bind.1 h
  obtain ⟨hb, rfl⟩ := runs_domainError.1 hred
  cases b with
  | true =>
    obtain rfl := runs_modify.1 h
    exact .inl ⟨hb, rfl⟩
  | false =>
    obtain ⟨_, w₁, hacc, h⟩ := runs_bind.1 h
    obtain rfl := runs_modify.1 hacc
    obtain ⟨slot, w₁, hslot, h⟩ := runs_bind.1 h
    unfold Draft.addLiteral at h
    obtain ⟨_, w₂, hnames, h⟩ := runs_bind.1 h
    obtain rfl := runs_modify.1 h
    exact .inr ⟨hb, slot, w₁, w₂, opens_of_runs hslot, widens_of_runs hnames, rfl⟩

theorem offered_of_runs {opening : List String} {u : Unit}
    (h : (Draft.offer d opening m l).Runs w u w') : Offered d m l w w' := by
  obtain ⟨hred, rfl⟩ | ⟨-, slot, w₁, w₂, hslot, hnames, rfl⟩ := offer_of_runs h
  · exact .redundant opening hred
  · exact .accepted hslot hnames

end Draft

theorem Pattern.toLiteral_eq_ok {m : Method} {predicate : String} {positive : Bool} {p : Pattern}
    {l : Literal} (h : p.toLiteral m predicate positive = .ok l) :
    l.predicate = predicate ∧ l.positive = positive ∧ p = .ofNames l.arguments := by
  simp only [toLiteral, bind_eq_ok, pure_eq_ok] at h
  obtain ⟨names, hnames, rfl⟩ := h
  refine ⟨rfl, rfl, ?_⟩
  rw [mapM_eq_ok] at hnames
  change p = ofNames names
  induction hnames with
  | nil => rfl
  | @cons a v p names hav _ ih =>
    cases a with
    | name x =>
      obtain rfl := pure_eq_ok.1 hav
      rw [ih]
      rfl
    | hidden o x => exact absurd hav throw_ne_ok

theorem Pattern.toLiteral_ofNames {m : Method} {predicate : String} {positive : Bool}
    {names : List String} : (Pattern.ofNames names).toLiteral m predicate positive
      = .ok { predicate, positive, arguments := names } := by
  simp only [toLiteral, bind_eq_ok, pure_eq_ok]
  refine ⟨names, ?_, rfl⟩
  rw [mapM_eq_ok, ofNames, List.forall₂_map_left_iff, List.forall₂_same]
  exact fun v _ => rfl

/-- A sweep below the task infers the literal for the method. -/
def Domain.Infers (d : Domain) (top : String) (m : Method) (l : Literal) : Prop :=
  ∃ w, d.sweep top l.predicate l.positive = .ok w ∧
    ∃ f ∈ w.findings, f.method = m ∧ .ofNames l.arguments ∈ f.inferred.toList

open DraftM Draft in
/-- When inference succeeds, each literal that a method is to check is inferred for it. -/
theorem offered_of_inferPreconditions {d d' : Domain} {top : String} {tally : Tally}
    (h : d.inferPreconditions top = .ok (d', tally)) :
    ∃ w, d' = w.apply d ∧ tally = w.tally ∧
      ReflTransGen (fun w w' => ∃ m l, d.Infers top m l ∧ Offered d m l w w')
        (Draft.ofDomain d) w := by
  unfold Domain.inferPreconditions at h
  split at h
  · cases h
  next t ht =>
    dsimp only at h
    split at h
    · next w hw =>
      cases h
      refine ⟨w, rfl, rfl, runs_forM ?_ hw⟩
      rintro ⟨predicate, positive⟩ - w w' hrun
      unfold Domain.draftPredicate at hrun
      obtain ⟨sweep, w₁, hliftSweep, hrun⟩ := runs_bind.1 hrun
      obtain ⟨hsweep, rfl⟩ := runs_failure.1 hliftSweep
      refine runs_forM (fun f hf w w' hrun => ?_) hrun
      refine runs_forM (fun p hp w w' hrun => ?_) hrun
      obtain ⟨l, w₁, hliftLiteral, hoffer⟩ := runs_bind.1 hrun
      obtain ⟨hl, rfl⟩ := runs_failure.1 hliftLiteral
      obtain ⟨rfl, rfl, rfl⟩ := Pattern.toLiteral_eq_ok hl
      have htop : d.sweep top l.predicate l.positive = .ok sweep := by
        rw [Domain.sweep, ht]
        exact hsweep
      exact .single ⟨f.method, l, ⟨sweep, htop, f, hf, rfl, hp⟩, offered_of_runs hoffer⟩
    · cases h

end TaskNetwork
