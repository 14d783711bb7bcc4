import Mathlib.Data.List.Basic
import TaskNetwork.Domain.Names
import TaskNetwork.Proofs.Outcomes

namespace TaskNetwork

theorem firstRepeat?_go_eq_none {seen l : List String} :
    firstRepeat?.go seen l = none ↔ l.Nodup ∧ ∀ a ∈ l, a ∉ seen := by
  induction l generalizing seen with
  | nil => simp [firstRepeat?.go]
  | cons a l ih =>
    by_cases ha : a ∈ seen
    · simp [firstRepeat?.go, ha]
    · simp only [firstRepeat?.go, ha, if_false, ih, List.nodup_cons, List.mem_cons, not_or]
      constructor
      · rintro ⟨hl, hseen⟩
        refine ⟨⟨fun hal => (hseen a hal).1 rfl, hl⟩, ?_⟩
        rintro b (rfl | hb)
        · exact ha
        · exact (hseen b hb).2
      · rintro ⟨⟨hal, hl⟩, hseen⟩
        exact ⟨hl, fun b hb => ⟨fun hba => hal (hba ▸ hb), hseen b (.inr hb)⟩⟩

theorem firstRepeat?_eq_none {l : List String} : firstRepeat? l = none ↔ l.Nodup := by
  simp [firstRepeat?, firstRepeat?_go_eq_none]

theorem reportViolation_eq_ok {entity : String} {v : Option Violation} :
    reportViolation entity v = .ok () ↔ v = none := by
  cases v <;> simp [reportViolation]

theorem orElse_eq_none {α : Type} {o k : Option α} : (o <|> k) = none ↔ o = none ∧ k = none := by
  cases o <;> simp

structure Task.Consistent (t : Task) : Prop where
  nodup_parameters : t.parameterNames.Nodup
  given_le : t.givenParameters.toNat ≤ t.parameters.length
  declared : ∀ l ∈ t.preconditions ++ t.effects, ∀ a ∈ l.arguments, a ∈ t.parameterNames

theorem Task.check_eq_ok {t : Task} : t.check = .ok () ↔ t.Consistent := by
  have hgiven : (if t.parameters.length < t.givenParameters.toNat then
      some (Violation.missingParameters t.givenParameters.toNat t.parameters.length)
      else none) = none ↔ t.givenParameters.toNat ≤ t.parameters.length := by
    split <;> simp <;> omega
  rw [check, reportViolation_eq_ok, violation?, orElse_eq_none, orElse_eq_none, hgiven]
  simp only [Option.map_eq_none_iff, firstRepeat?_eq_none, List.findSome?_eq_none_iff,
    List.find?_eq_none, decide_eq_true_eq, not_not]
  exact ⟨fun ⟨h₁, h₂, h₃⟩ => ⟨h₁, h₂, h₃⟩, fun h => ⟨h.1, h.2, h.3⟩⟩

/-- The variables differ, the step ids differ, and what is used is declared. -/
structure Method.Consistent (m : Method) : Prop where
  nodup_variables : m.variableNames.Nodup
  nodup_steps : m.stepIds.Nodup
  ordered : ∀ p ∈ m.ordering, p.1 ∈ m.stepIds ∧ p.2 ∈ m.stepIds
  declared : ∀ a ∈ m.usedNames, a ∈ m.variableNames

theorem Method.check_eq_ok {m : Method} : m.check = .ok () ↔ m.Consistent := by
  rw [check, reportViolation_eq_ok, violation?, orElse_eq_none, orElse_eq_none, orElse_eq_none]
  simp only [Option.map_eq_none_iff, firstRepeat?_eq_none, List.find?_eq_none, decide_eq_true_eq,
    not_or, not_not]
  exact ⟨fun ⟨h₁, h₂, h₃, h₄⟩ => ⟨h₁, h₂, h₃, h₄⟩, fun h => ⟨h.1, h.2, h.3, h.4⟩⟩

namespace Domain

variable {d : Domain} {m : Method}

theorem resolveTask_eq_ok {name : String} {t : Task} :
    d.resolveTask name = .ok t ↔ d.task? name = some t := by
  rw [resolveTask]
  cases d.task? name <;> simp

def HasArity (d : Domain) (name : String) (n : Nat) : Prop :=
  ∃ t, d.task? name = some t ∧ t.parameters.length = n

structure Fits (d : Domain) (m : Method) : Prop where
  consistent : m.Consistent
  task : d.HasArity m.task m.taskArguments.length
  steps : ∀ s ∈ m.steps, d.HasArity s.task s.arguments.length

theorem checkStep_eq_ok {s : Step} :
    d.checkStep m s = .ok () ↔ d.HasArity s.task s.arguments.length := by
  simp only [checkStep, bind_eq_ok, resolveTask_eq_ok, HasArity]
  refine exists_congr fun t => and_congr_right fun _ => ?_
  split <;> simp_all [pure_eq_ok, throw_ne_ok]

theorem checkMethod_eq_ok : d.checkMethod m = .ok () ↔ d.Fits m := by
  simp only [checkMethod, bind_eq_ok, resolveTask_eq_ok]
  constructor
  · rintro ⟨_, hm, t, ht, h⟩
    by_cases hl : t.parameters.length = m.taskArguments.length
    · simp only [hl, ne_eq, not_true, if_false] at h
      exact ⟨Method.check_eq_ok.1 hm, ⟨t, ht, hl⟩, fun s hs => checkStep_eq_ok.1 (forM_eq_ok.1 h s hs)⟩
    · simp [hl, throw_ne_ok, bind_eq_ok] at h
  · intro h
    obtain ⟨t, ht, hl⟩ := h.task
    have hs : m.steps.forM (d.checkStep m) = .ok () :=
      forM_eq_ok.2 fun s hm => checkStep_eq_ok.2 (h.steps s hm)
    exact ⟨(), Method.check_eq_ok.2 h.consistent, t, ht, by simp [hl, hs]⟩

end Domain

end TaskNetwork
