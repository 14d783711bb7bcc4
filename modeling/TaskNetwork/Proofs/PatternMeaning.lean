import TaskNetwork.Proofs.Decomposition
import TaskNetwork.Sweep.Record

namespace TaskNetwork

theorem Task.valuation_eq {t : Task} (ht : t.parameterNames.Nodup) {constants : List String}
    {i : Nat} {p c : String} (hp : t.parameterNames[i]? = some p) (hc : constants[i]? = some c) :
    t.valuation constants p = c := by
  rw [valuation]
  suffices h : (t.parameterNames.zip constants).lookup p = some c by rw [h, Option.getD_some]
  generalize t.parameterNames = names at ht hp
  induction names generalizing constants i with
  | nil => simp at hp
  | cons a names ih =>
    cases constants with
    | nil => simp at hc
    | cons b constants =>
      have hnd := List.nodup_cons.1 ht
      cases i with
      | zero =>
        simp only [List.getElem?_cons_zero, Option.some.injEq] at hp hc
        simp [hp, hc]
      | succ i =>
        simp only [List.getElem?_cons_succ] at hp hc
        have hne : p ≠ a := by
          rintro rfl
          exact hnd.1 (List.mem_of_getElem? hp)
        simpa [List.zip_cons_cons, List.lookup_cons, beq_false_of_ne hne] using ih hc hnd.2 hp

/-- The constant for which an argument stands. Names are read off the valuation, and `H` tells what
hidden variables may stand for. -/
def Argument.Denotes (σ : Valuation) (H : String → String → String → Prop) :
    Argument → String → Prop
  | .name v, c => σ v = c
  | .hidden method v, c => H method v c

namespace Pattern

def Denotes (σ : Valuation) (H : String → String → String → Prop) (p : Pattern)
    (constants : List String) : Prop :=
  List.Forall₂ (Argument.Denotes σ H) p constants

def Named (p : Pattern) : Prop := ∃ names, p = Pattern.ofNames names

variable {σ τ : Valuation} {H K : String → String → String → Prop} {constants : List String}

@[simp] theorem denotes_ofNames {names : List String} :
    (Pattern.ofNames names).Denotes σ H constants ↔ constants = names.map σ := by
  rw [Denotes, ofNames, List.forall₂_map_left_iff]
  constructor
  · intro h
    induction h with
    | nil => rfl
    | cons hab _ ih => rw [List.map_cons, ih, ← hab]
  · rintro rfl
    rw [List.forall₂_map_right_iff]
    exact List.forall₂_same.2 fun _ _ => rfl

theorem Denotes.mono {p : Pattern} (hHK : ∀ m v c, H m v c → K m v c)
    (h : p.Denotes σ H constants) : p.Denotes σ K constants := by
  refine List.Forall₂.imp (fun a c hac => ?_) h
  cases a with
  | name v => exact hac
  | hidden m v => exact hHK m v c hac

theorem named_nil : Named [] := ⟨[], rfl⟩

theorem named_cons {a : Argument} {p : Pattern} :
    Named (a :: p) ↔ (∃ v, a = .name v) ∧ p.Named := by
  constructor
  · rintro ⟨_ | ⟨v, names⟩, h⟩
    · cases h
    · cases h
      exact ⟨⟨v, rfl⟩, names, rfl⟩
  · rintro ⟨⟨v, rfl⟩, names, rfl⟩
    exact ⟨v :: names, rfl⟩

end Pattern

namespace Argument

variable {t : Task} {m : Method} {s : Step} {policy : HiddenPolicy} {σ : Valuation}
  {H K : String → String → String → Prop}

theorem lower_name {p : String} {r : Option Argument}
    (h : (Argument.name p).lower (.ok t) (.ok m) m s policy = .ok r) :
    ∃ (i : ℕ) (v : String), t.parameterNames[i]? = some p ∧ s.arguments[i]? = some v ∧
      (r = some (.name v) ∨ r = policy.apply m.name v) := by
  simp only [lower, bind_eq_ok, liftM_eq_ok, Except.ok.injEq, exists_eq_left'] at h
  obtain ⟨i, hi, h⟩ := h
  cases hv : s.arguments[i]? with
  | none => simp [hv, throw_ne_ok] at h
  | some v =>
    simp only [hv, bind_eq_ok, liftM_eq_ok, Except.ok.injEq, exists_eq_left'] at h
    obtain ⟨b, hb, h⟩ := h
    refine ⟨i, v, Task.resolveParameter_eq_ok hi, hv, ?_⟩
    cases b with
    | hidden => exact .inr (pure_eq_ok.1 h).symm
    | exposed j =>
      have hj : m.taskArguments[j]? = some v := Method.binding_eq_exposed hb
      simp only [hj] at h
      exact .inl (pure_eq_ok.1 h).symm

theorem lower_name_shape {task : Except DomainError Task} {owner : Except DomainError Method}
    {p : String} {r : Option Argument}
    (h : (Argument.name p).lower task owner m s policy = .ok r) :
    ∃ v, r = some (.name v) ∨ r = policy.apply m.name v := by
  simp only [lower, bind_eq_ok] at h
  obtain ⟨_, -, i, -, h⟩ := h
  cases hv : s.arguments[i]? with
  | none => simp [hv, throw_ne_ok] at h
  | some v =>
    simp only [hv, bind_eq_ok] at h
    obtain ⟨_, -, b, -, h⟩ := h
    cases b with
    | hidden => exact ⟨v, .inr (pure_eq_ok.1 h).symm⟩
    | exposed j =>
      cases hw : m.taskArguments[j]? with
      | none => simp [hw, throw_ne_ok] at h
      | some w =>
        simp only [hw] at h
        exact ⟨w, .inl (pure_eq_ok.1 h).symm⟩

theorem lower_hidden {task : Except DomainError Task} {owner : Except DomainError Method}
    {method v : String} {r : Option Argument}
    (h : (Argument.hidden method v).lower task owner m s policy = .ok r) :
    r = some (.hidden method v) := (pure_eq_ok.1 h).symm

theorem raise_name {v : String} {r : Argument}
    (h : (Argument.name v).raise t (.ok m) m = .ok r) :
    ∃ (i : ℕ) (p : String), m.taskArguments[i]? = some v ∧ t.parameterNames[i]? = some p ∧ r = .name p := by
  simp only [raise, bind_eq_ok, Except.ok.injEq, exists_eq_left'] at h
  obtain ⟨b, hb, h⟩ := h
  cases b with
  | hidden => exact absurd h throw_ne_ok
  | exposed i =>
    cases hp : t.parameters[i]? with
    | none => simp [hp, throw_ne_ok] at h
    | some p =>
      simp only [hp, pure_eq_ok] at h
      exact ⟨i, p.name, Method.binding_eq_exposed hb, by simp [Task.parameterNames, hp], h.symm⟩

theorem raise_name_shape {owner : Except DomainError Method} {v : String} {r : Argument}
    (h : (Argument.name v).raise t owner m = .ok r) : ∃ p, r = .name p := by
  simp only [raise, bind_eq_ok] at h
  obtain ⟨_, -, b, -, h⟩ := h
  cases b with
  | hidden => exact absurd h throw_ne_ok
  | exposed i =>
    cases hp : t.parameters[i]? with
    | none => simp [hp, throw_ne_ok] at h
    | some p =>
      simp only [hp, pure_eq_ok] at h
      exact ⟨p.name, h.symm⟩

theorem raise_hidden {owner : Except DomainError Method} {method v : String} {r : Argument}
    (h : (Argument.hidden method v).raise t owner m = .ok r) : r = .hidden method v :=
  (pure_eq_ok.1 h).symm

end Argument

namespace Pattern

variable {t : Task} {m : Method} {s : Step} {policy : HiddenPolicy} {σ : Valuation}
  {H K : String → String → String → Prop} {constants : List String}

theorem lower_cons {task : Except DomainError Task} {owner : Except DomainError Method}
    {a : Argument} {p : Pattern} {r : Option Pattern}
    (h : lower task owner m s policy (a :: p) = .ok r) :
    (a.lower task owner m s policy = .ok none ∧ r = none) ∨
    ∃ b q, a.lower task owner m s policy = .ok (some b) ∧
      lower task owner m s policy p = .ok q ∧ r = q.map (b :: ·) := by
  simp only [lower, bind_eq_ok] at h
  obtain ⟨b, hb, h⟩ := h
  cases b with
  | none => exact .inl ⟨hb, (pure_eq_ok.1 h).symm⟩
  | some b =>
    simp only [bind_eq_ok] at h
    obtain ⟨q, hq, h⟩ := h
    exact .inr ⟨b, q, hb, hq, (pure_eq_ok.1 h).symm⟩

theorem lower_cons_of {task : Except DomainError Task} {owner : Except DomainError Method}
    {a : Argument} {p : Pattern} {b : Option Argument} {r : Option Pattern}
    (hb : a.lower task owner m s policy = .ok b) (hr : lower task owner m s policy p = .ok r) :
    lower task owner m s policy (a :: p) = .ok (b.bind fun b => r.map (b :: ·)) := by
  cases b with
  | none => simp only [lower, hb, bind_eq_ok, Except.ok.injEq, exists_eq_left', pure_eq_ok,
      Option.bind_none]
  | some b => simp only [lower, hb, hr, bind_eq_ok, Except.ok.injEq, exists_eq_left', pure_eq_ok,
      Option.bind_some]

/-- Lowering keeps the meaning of a pattern if the policy keeps that of the method's variables. -/
theorem Denotes.lower (ht : t.parameterNames.Nodup) (hHK : ∀ o v c, H o v c → K o v c)
    (hpolicy : ∀ v b, policy.apply m.name v = some b → b.Denotes σ K (σ v)) {p q : Pattern}
    (h : p.lower (.ok t) (.ok m) m s policy = .ok (some q))
    (hp : p.Denotes (t.valuation (s.call σ).constants) H constants) : q.Denotes σ K constants := by
  induction p generalizing q constants with
  | nil =>
    obtain rfl : constants = [] := List.forall₂_nil_left_iff.1 hp
    cases h
    exact .nil
  | cons a p ih =>
    obtain ⟨c, cs, hac, hcs, rfl⟩ := List.forall₂_cons_left_iff.1 hp
    obtain ⟨_, h⟩ | ⟨b, r, hb, hr, h⟩ := lower_cons h
    · cases h
    · obtain ⟨q, rfl, rfl⟩ := Option.map_eq_some_iff.1 h.symm
      refine .cons ?_ (ih hr hcs)
      cases a with
      | hidden o v =>
        cases Argument.lower_hidden hb
        exact hHK o v c hac
      | name x =>
        obtain ⟨i, v, hi, hv, hbv⟩ := Argument.lower_name hb
        have hc : σ v = c := by
          rw [← hac]
          exact (Task.valuation_eq ht hi (by simp [Step.call, hv])).symm
        obtain hbv | hbv := hbv
        · cases hbv
          exact hc
        · exact hc ▸ hpolicy v b hbv.symm

theorem Denotes.of_lower (ht : t.parameterNames.Nodup)
    (hpolicy : ∀ v b c, policy.apply m.name v = some b → b.Denotes σ K c → σ v = c)
    {p q : Pattern} (hnamed : p.Named) (h : p.lower (.ok t) (.ok m) m s policy = .ok (some q))
    (hq : q.Denotes σ K constants) : p.Denotes (t.valuation (s.call σ).constants) H constants := by
  induction p generalizing q constants with
  | nil =>
    cases h
    obtain rfl : constants = [] := List.forall₂_nil_left_iff.1 hq
    exact .nil
  | cons a p ih =>
    obtain ⟨⟨x, rfl⟩, hrest⟩ := named_cons.1 hnamed
    obtain ⟨_, h⟩ | ⟨b, r, hb, hr, h⟩ := lower_cons h
    · cases h
    · obtain ⟨q, rfl, rfl⟩ := Option.map_eq_some_iff.1 h.symm
      obtain ⟨c, cs, hbc, hcs, rfl⟩ := List.forall₂_cons_left_iff.1 hq
      refine .cons ?_ (ih hrest hr hcs)
      obtain ⟨i, v, hi, hv, hbv⟩ := Argument.lower_name hb
      have hx : t.valuation (s.call σ).constants x = σ v :=
        Task.valuation_eq ht hi (by simp [Step.call, hv])
      apply hx.trans
      obtain hbv | hbv := hbv
      · cases hbv
        exact hbc
      · exact hpolicy v b c hbv.symm hbc

theorem Named.lower {task : Except DomainError Task} {owner : Except DomainError Method}
    (hpolicy : policy ≠ .qualify) {p q : Pattern} (hp : p.Named)
    (h : p.lower task owner m s policy = .ok (some q)) : q.Named := by
  induction p generalizing q with
  | nil =>
    cases h
    exact named_nil
  | cons a p ih =>
    obtain ⟨⟨x, rfl⟩, hrest⟩ := named_cons.1 hp
    obtain ⟨_, h⟩ | ⟨b, r, hb, hr, h⟩ := lower_cons h
    · cases h
    · obtain ⟨q, rfl, rfl⟩ := Option.map_eq_some_iff.1 h.symm
      refine named_cons.2 ⟨?_, ih hrest hr⟩
      obtain ⟨v, hbv | hbv⟩ := Argument.lower_name_shape hb
      · exact ⟨v, Option.some.inj hbv⟩
      · cases policy with
        | drop => cases hbv
        | qualify => exact absurd rfl hpolicy
        | keep => exact ⟨v, Option.some.inj hbv⟩

theorem lower_ne_none {task : Except DomainError Task} {owner : Except DomainError Method}
    (hpolicy : policy ≠ .drop) {p : Pattern} {r : Option Pattern}
    (h : p.lower task owner m s policy = .ok r) : ∃ q, r = some q := by
  induction p generalizing r with
  | nil => exact ⟨[], (pure_eq_ok.1 h).symm⟩
  | cons a p ih =>
    obtain ⟨ha, -⟩ | ⟨b, r, hb, hr, rfl⟩ := lower_cons h
    · cases a with
      | hidden o v => cases Argument.lower_hidden ha
      | name x =>
        obtain ⟨v, hbv | hbv⟩ := Argument.lower_name_shape ha
        · cases hbv
        · cases policy with
          | drop => exact absurd rfl hpolicy
          | qualify => cases hbv
          | keep => cases hbv
    · obtain ⟨q, rfl⟩ := ih hr
      exact ⟨b :: q, rfl⟩

theorem denotes_raise (ht : t.parameterNames.Nodup) {p q : Pattern}
    (h : p.raise t (.ok m) m = .ok q) :
    q.Denotes (t.valuation (m.call σ).constants) H constants ↔ p.Denotes σ H constants := by
  rw [raise, mapM_eq_ok] at h
  have harg : ∀ a b c, Argument.raise t (.ok m) m a = .ok b →
      (b.Denotes (t.valuation (m.call σ).constants) H c ↔ a.Denotes σ H c) := by
    intro a b c hab
    cases a with
    | hidden o v => rw [Argument.raise_hidden hab]; rfl
    | name v =>
      obtain ⟨i, x, hv, hx, rfl⟩ := Argument.raise_name hab
      have he : t.valuation (m.call σ).constants x = σ v :=
        Task.valuation_eq ht hx (by simp [Method.call, hv])
      simp only [Argument.Denotes, he]
  unfold Denotes
  induction h generalizing constants with
  | nil => simp only [List.forall₂_nil_left_iff]
  | cons hab _ ih => simp only [List.forall₂_cons_left_iff, ih, harg _ _ _ hab]

theorem Named.raise {owner : Except DomainError Method} {p q : Pattern} (hp : p.Named)
    (h : p.raise t owner m = .ok q) : q.Named := by
  rw [Pattern.raise, mapM_eq_ok] at h
  induction h with
  | nil => exact named_nil
  | @cons a b p q hab _ ih =>
    obtain ⟨⟨v, rfl⟩, hrest⟩ := named_cons.1 hp
    exact named_cons.2 ⟨Argument.raise_name_shape hab, ih hrest⟩

end Pattern

end TaskNetwork
