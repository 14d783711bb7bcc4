import TaskNetwork.Proofs.RecordEquations

namespace TaskNetwork

open PatternSet

/-- The variable that the step passes for a parameter of its task. -/
def Domain.passed (d : Domain) (s : Step) : Valuation :=
  match d.task? s.task with
  | some t => t.valuation s.arguments
  | none => fun _ => ""

/-- A variable of the method as it appears in patterns that are lowered into the method. -/
def Method.seen (m : Method) (policy : HiddenPolicy) (v : String) : Option Argument :=
  if v ∈ m.taskArguments then some (.name v) else policy.apply m.name v

/-- The parameter for which a variable is passed to the method, the last one. -/
def Method.parameterOf (m : Method) (t : Task) (v : String) : String :=
  ((lastIndex? (· = v) m.taskArguments).bind (t.parameterNames[·]?)).getD ""

namespace Argument

def lowered (d : Domain) (m : Method) (policy : HiddenPolicy) (s : Step) :
    Argument → Option Argument
  | .name p => m.seen policy (d.passed s p)
  | .hidden o v => some (.hidden o v)

def raised (t : Task) (m : Method) : Argument → Argument
  | .name v => .name (m.parameterOf t v)
  | .hidden o v => .hidden o v

/-- Either one of the names or a hidden variable that its method declares. -/
def Within (d : Domain) (names : List String) : Argument → Prop
  | .name v => v ∈ names
  | .hidden o v => ∃ m ∈ d.methods, m.name = o ∧ v ∈ m.variableNames

end Argument

namespace Pattern

def lowered (d : Domain) (m : Method) (policy : HiddenPolicy) (s : Step) : Pattern → Option Pattern
  | [] => some []
  | a :: p => (a.lowered d m policy s).bind fun b => (lowered d m policy s p).map (b :: ·)

def raised (t : Task) (m : Method) (p : Pattern) : Pattern := p.map (·.raised t m)

def Within (d : Domain) (names : List String) (p : Pattern) : Prop := ∀ a ∈ p, a.Within d names

end Pattern

def PatternSet.Within (d : Domain) (names : List String) (s : PatternSet) : Prop :=
  ∀ p ∈ s.toList, p.Within d names

def Method.scope (m : Method) : HiddenPolicy → List String
  | .keep => m.variableNames
  | _ => m.taskArguments

/-- The method has a step with the task, and passes on its variables. -/
structure Domain.Calls (d : Domain) (m : Method) (s : Step) (t : Task) : Prop where
  resolved : d.resolveMethod m.name = .ok m
  mem : m ∈ d.methods
  consistent : m.Consistent
  task : d.task? s.task = some t
  nodup : t.parameterNames.Nodup
  length : s.arguments.length = t.parameters.length
  declared : ∀ v ∈ s.arguments, v ∈ m.variableNames

structure Domain.Does (d : Domain) (m : Method) (t : Task) : Prop where
  resolved : d.resolveMethod m.name = .ok m
  task : d.task? m.task = some t
  nodup : t.parameterNames.Nodup
  length : m.taskArguments.length = t.parameters.length

section WellFormed

variable {d : Domain} {m : Method} {s : Step} {t : Task} {p : String} {policy : HiddenPolicy}

theorem Domain.WellFormed.calls (hd : d.WellFormed) (hm : m ∈ d.methods) (hs : s ∈ m.steps) :
    ∃ t, d.Calls m s t := by
  have hfits := hd.fits hm
  obtain ⟨t, ht, hlen⟩ := hfits.steps s hs
  refine ⟨t, hd.names.resolveMethod hm, hm, hfits.consistent, ht, hd.nodup_parameters ht, hlen.symm,
    fun v hv => hfits.consistent.declared v ?_⟩
  have hargs : v ∈ m.steps.flatMap (·.arguments) := List.mem_flatMap.2 ⟨s, hs, hv⟩
  exact List.mem_append_left _ (List.mem_append_right _ hargs)

theorem Domain.WellFormed.does (hd : d.WellFormed) (hm : m ∈ d.methods) : ∃ t, d.Does m t := by
  obtain ⟨t, ht, hlen⟩ := (hd.fits hm).task
  exact ⟨t, hd.names.resolveMethod hm, ht, hd.nodup_parameters ht, hlen.symm⟩

theorem lastIndex?_of_nodup {l : List String} (hl : l.Nodup) {i : ℕ} (h : l[i]? = some p) :
    lastIndex? (· = p) l = some i := by
  cases hlast : lastIndex? (· = p) l with
  | none => exact absurd (decide_eq_true rfl) (lastIndex?_eq_none.1 hlast p (List.mem_of_getElem? h))
  | some j =>
    obtain ⟨a, ha, hp⟩ := lastIndex?_eq_some hlast
    obtain rfl : a = p := by simpa using hp
    have hi : i < l.length := (List.getElem?_eq_some_iff.1 h).1
    rw [(List.getElem?_inj hi hl).1 (h.trans ha.symm)]

theorem Method.Consistent.taskArguments_subset (hm : m.Consistent) :
    ∀ v ∈ m.taskArguments, v ∈ m.variableNames := fun v hv =>
  hm.declared v (List.mem_append_left _ (List.mem_append_left _ hv))

theorem Domain.Calls.passed_eq (h : d.Calls m s t) : d.passed s = t.valuation s.arguments := by
  simp only [passed, h.task]

theorem Domain.Calls.exists_passed (h : d.Calls m s t) (hp : p ∈ t.parameterNames) :
    ∃ i : ℕ, t.parameterNames[i]? = some p ∧ s.arguments[i]? = some (d.passed s p) := by
  obtain ⟨i, hi⟩ := List.mem_iff_getElem?.1 hp
  have hlt : i < s.arguments.length := by
    rw [h.length]
    simpa [Task.parameterNames] using (List.getElem?_eq_some_iff.1 hi).1
  refine ⟨i, hi, ?_⟩
  rw [h.passed_eq, Task.valuation_eq h.nodup hi (List.getElem?_eq_getElem hlt)]
  exact List.getElem?_eq_getElem hlt

theorem Domain.Calls.passed_mem (h : d.Calls m s t) (hp : p ∈ t.parameterNames) :
    d.passed s p ∈ s.arguments := by
  obtain ⟨i, -, hi⟩ := h.exists_passed hp
  exact List.mem_of_getElem? hi

theorem Method.binding_eq (m : Method) (v : String) (hv : v ∈ m.variableNames) :
    m.binding v = .ok (((lastIndex? (· = v) m.taskArguments).map .exposed).getD .hidden) := by
  rw [binding]
  cases lastIndex? (· = v) m.taskArguments with
  | none => simp [hv]
  | some i => rfl

theorem Argument.lower_eq (h : d.Calls m s t) {a : Argument} (ha : a.Within d t.parameterNames) :
    a.lower (d.resolveTask s.task) (d.resolveMethod m.name) m s policy
      = .ok (a.lowered d m policy s) := by
  cases a with
  | hidden o v => rfl
  | name p =>
    obtain ⟨i, hi, hv⟩ := h.exists_passed ha
    have hdecl := h.declared _ (h.passed_mem ha)
    rw [Domain.resolveTask_eq_ok.2 h.task, h.resolved]
    simp only [lower, bind_eq_ok, liftM_eq_ok, Except.ok.injEq, exists_eq_left', Task.resolveParameter,
      lastIndex?_of_nodup h.nodup hi, hv, Method.binding_eq m _ hdecl, lowered, Method.seen]
    cases hlast : lastIndex? (· = d.passed s p) m.taskArguments with
    | none =>
      have hno : d.passed s p ∉ m.taskArguments := fun hmem =>
        lastIndex?_eq_none.1 hlast _ hmem (decide_eq_true rfl)
      rw [if_neg hno]
      rfl
    | some j =>
      obtain ⟨w, hj, hw⟩ := lastIndex?_eq_some hlast
      obtain rfl : w = d.passed s p := by simpa using hw
      rw [if_pos (List.mem_of_getElem? hj)]
      simp only [Option.map_some, Option.getD_some, hj]
      rfl

theorem Argument.within_lowered (h : d.Calls m s t) {a b : Argument}
    (ha : a.Within d t.parameterNames) (hb : a.lowered d m policy s = some b) :
    b.Within d (m.scope policy) := by
  cases a with
  | hidden o v =>
    cases hb
    exact ha
  | name p =>
    have hdecl := h.declared _ (h.passed_mem ha)
    rw [lowered, Method.seen] at hb
    split at hb
    · next hmem =>
      cases hb
      cases policy with
      | keep => exact hdecl
      | drop => exact hmem
      | qualify => exact hmem
    · cases policy with
      | drop => cases hb
      | qualify =>
        cases hb
        exact ⟨m, h.mem, rfl, hdecl⟩
      | keep =>
        cases hb
        exact hdecl

theorem Domain.Does.exists_position (h : d.Does m t) {v : String} (hv : v ∈ m.taskArguments) :
    ∃ i, lastIndex? (· = v) m.taskArguments = some i ∧ m.taskArguments[i]? = some v ∧
      t.parameterNames[i]? = some (m.parameterOf t v) := by
  cases hlast : lastIndex? (· = v) m.taskArguments with
  | none => exact absurd (decide_eq_true rfl) (lastIndex?_eq_none.1 hlast v hv)
  | some i =>
    obtain ⟨w, hi, hw⟩ := lastIndex?_eq_some hlast
    obtain rfl : w = v := by simpa using hw
    have hlt : i < t.parameterNames.length := by
      rw [Task.parameterNames, List.length_map, ← h.length]
      exact (List.getElem?_eq_some_iff.1 hi).1
    refine ⟨i, rfl, hi, ?_⟩
    rw [Method.parameterOf, hlast, Option.bind_some, List.getElem?_eq_getElem hlt,
      Option.getD_some]

theorem Argument.raise_name_eq (h : d.Does m t) {v : String} (hv : v ∈ m.taskArguments) :
    (Argument.name v).raise t (d.resolveMethod m.name) m = .ok (.name (m.parameterOf t v)) := by
  obtain ⟨i, hlast, -, hi⟩ := h.exists_position hv
  obtain ⟨x, hx, hname⟩ := Option.map_eq_some_iff.1 ((List.getElem?_map ..).symm.trans hi)
  simp only [raise, h.resolved, bind_eq_ok, Except.ok.injEq, exists_eq_left', Method.binding, hlast,
    hx, hname, pure_eq_ok]

theorem Argument.raise_eq (h : d.Does m t) {a : Argument} (ha : a.Within d m.taskArguments) :
    a.raise t (d.resolveMethod m.name) m = .ok (a.raised t m) := by
  cases a with
  | hidden o v => rfl
  | name v => exact raise_name_eq h ha

theorem Method.parameterOf_mem (h : d.Does m t) {v : String} (hv : v ∈ m.taskArguments) :
    m.parameterOf t v ∈ t.parameterNames := by
  obtain ⟨i, -, -, hi⟩ := h.exists_position hv
  exact List.mem_of_getElem? hi

theorem Argument.within_raised (h : d.Does m t) {a : Argument} (ha : a.Within d m.taskArguments) :
    (a.raised t m).Within d t.parameterNames := by
  cases a with
  | hidden o v => exact ha
  | name v => exact Method.parameterOf_mem h ha

end WellFormed

namespace Pattern

variable {d : Domain} {m : Method} {s : Step} {t : Task} {policy : HiddenPolicy} {p q : Pattern}
  {names : List String}

theorem within_cons {a : Argument} :
    Within d names (a :: p) ↔ a.Within d names ∧ p.Within d names := List.forall_mem_cons

theorem lowered_eq_some : p.lowered d m policy s = some q ↔
    List.Forall₂ (fun a b => Argument.lowered d m policy s a = some b) p q := by
  induction p generalizing q with
  | nil => simp [lowered, eq_comm]
  | cons a p ih =>
    simp only [lowered, Option.bind_eq_some_iff, Option.map_eq_some_iff, ih,
      List.forall₂_cons_left_iff]
    constructor
    · rintro ⟨b, hb, q, hq, rfl⟩
      exact ⟨b, q, hb, hq, rfl⟩
    · rintro ⟨b, q, hb, hq, rfl⟩
      exact ⟨b, hb, q, hq, rfl⟩

/-- How a pattern is lowered depends on what the step passes and on what the method shows. -/
theorem lowered_congr {d' : Domain} {m' : Method} (hpassed : d'.passed s = d.passed s)
    (hname : m'.name = m.name) (harguments : m'.taskArguments = m.taskArguments) :
    p.lowered d' m' policy s = p.lowered d m policy s := by
  induction p with
  | nil => rfl
  | cons a p ih =>
    rw [lowered, lowered, ih]
    cases a with
    | hidden o v => rfl
    | name x => simp only [Argument.lowered, Method.seen, hpassed, hname, harguments]

theorem raised_congr {m' : Method} (harguments : m'.taskArguments = m.taskArguments) :
    p.raised t m' = p.raised t m := by
  refine List.map_congr_left fun a _ => ?_
  cases a with
  | hidden o v => rfl
  | name v => simp only [Argument.raised, Method.parameterOf, harguments]

theorem lower_eq (h : d.Calls m s t) (hp : p.Within d t.parameterNames) :
    p.lower (d.resolveTask s.task) (d.resolveMethod m.name) m s policy
      = .ok (p.lowered d m policy s) := by
  induction p with
  | nil => rfl
  | cons a p ih =>
    obtain ⟨ha, hp⟩ := within_cons.1 hp
    exact lower_cons_of (Argument.lower_eq h ha) (ih hp)

theorem within_lowered (h : d.Calls m s t) (hp : p.Within d t.parameterNames)
    (hq : p.lowered d m policy s = some q) : q.Within d (m.scope policy) := by
  intro b hb
  obtain ⟨a, ha, hab⟩ := exists_of_mem_right (lowered_eq_some.1 hq) hb
  exact Argument.within_lowered h (hp a ha) hab

theorem raise_eq (h : d.Does m t) (hp : p.Within d m.taskArguments) :
    p.raise t (d.resolveMethod m.name) m = .ok (p.raised t m) := by
  rw [raise, mapM_eq_ok, raised, List.forall₂_map_right_iff, List.forall₂_same]
  exact fun a ha => Argument.raise_eq h (hp a ha)

theorem within_raised (h : d.Does m t) (hp : p.Within d m.taskArguments) :
    (p.raised t m).Within d t.parameterNames := by
  intro b hb
  obtain ⟨a, ha, rfl⟩ := List.mem_map.1 hb
  exact Argument.within_raised h (hp a ha)

end Pattern

end TaskNetwork
