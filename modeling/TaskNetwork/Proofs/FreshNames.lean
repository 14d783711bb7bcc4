import Mathlib.Order.Bounds.Defs
import TaskNetwork.Proofs.Groundings

namespace TaskNetwork

section Counters

variable {taken : List String} {suffix : String} {seed n : ℕ}

theorem freshCounter_bounds (taken : List String) (suffix : String) (seed : ℕ) :
    seed ≤ freshCounter taken suffix seed ∧
      freshCounter taken suffix seed ≤ seed + taken.length := by
  rw [freshCounter]
  cases hfind : (List.range' seed taken.length).find? fun k => restTaskName k suffix ∉ taken with
  | some k =>
    obtain ⟨hle, hlt⟩ := List.mem_range'_1.1 (List.mem_of_find?_eq_some hfind)
    exact ⟨hle, hlt.le⟩
  | none => exact ⟨Nat.le_add_right _ _, Nat.le_refl _⟩

theorem freshCounter_isLeast (taken : List String) (suffix : String) (seed : ℕ) :
    IsLeast {k | seed ≤ k ∧ restTaskName k suffix ∉ taken} (freshCounter taken suffix seed) := by
  obtain ⟨hfree, hleast⟩ := freshCounter_spec taken suffix seed
  refine ⟨⟨(freshCounter_bounds taken suffix seed).1, hfree⟩, fun k hk => ?_⟩
  by_contra hlt
  exact hk.2 (hleast k hk.1 (Nat.lt_of_not_le hlt))

def newCounters (suffix : String) : ℕ → List String → ℕ → List ℕ
  | 0, _, _ => []
  | n + 1, taken, seed =>
    let k := freshCounter taken suffix seed
    k :: newCounters suffix n (restTaskName k suffix :: taken) (k + 1)

theorem length_newCounters : (newCounters suffix n taken seed).length = n := by
  induction n generalizing taken seed with
  | zero => rfl
  | succ n ih => exact congrArg (· + 1) ih

/-- The counters are the first ones from the seed on with which a name is free, one after the other.
-/
structure FirstFree (taken : List String) (suffix : String) (seed : ℕ) (counters : List ℕ) :
    Prop where
  increasing : counters.Pairwise (· < ·)
  free : ∀ k ∈ counters, seed ≤ k ∧ restTaskName k suffix ∉ taken
  first : ∀ k ∈ counters, ∀ j, seed ≤ j → j < k → restTaskName j suffix ∉ taken → j ∈ counters

theorem FirstFree.cons {counters : List ℕ}
    (h : FirstFree (restTaskName (freshCounter taken suffix seed) suffix :: taken) suffix
      (freshCounter taken suffix seed + 1) counters) :
    FirstFree taken suffix seed (freshCounter taken suffix seed :: counters) := by
  obtain ⟨hfree, hleast⟩ := freshCounter_isLeast taken suffix seed
  refine ⟨List.pairwise_cons.2 ⟨fun k hk => (h.free k hk).1, h.increasing⟩,
    List.forall_mem_cons.2 ⟨hfree, fun k hk => ?_⟩, fun k hk j hj hjk hjfree => ?_⟩
  · obtain ⟨hlt, hk⟩ := h.free k hk
    exact ⟨hfree.1.trans (Nat.le_of_succ_le hlt), fun hmem => hk (List.mem_cons_of_mem _ hmem)⟩
  · obtain hlt | heq := Nat.lt_or_eq_of_le (hleast ⟨hj, hjfree⟩)
    -- a greater counter that is free is free when the name with the first one is taken
    · have hkmem : k ∈ counters := by
        obtain rfl | hk := List.mem_cons.1 hk
        · exact absurd hjk (Nat.lt_asymm hlt)
        · exact hk
      refine List.mem_cons_of_mem _ (h.first k hkmem j hlt hjk fun hmem => ?_)
      obtain heq | hmem := List.mem_cons.1 hmem
      · exact hlt.ne' (numberedName_inj heq).1
      · exact hjfree hmem
    · rw [← heq]
      exact List.mem_cons_self

theorem firstFree_newCounters : FirstFree taken suffix seed (newCounters suffix n taken seed) := by
  induction n generalizing taken seed with
  | zero =>
    have hnone : ∀ k, k ∉ newCounters suffix 0 taken seed := fun _ => List.not_mem_nil
    exact ⟨.nil, fun k hk => absurd hk (hnone k), fun k hk => absurd hk (hnone k)⟩
  | succ n ih => exact ih.cons

end Counters

namespace Method

variable {m : Method} {taken : List String} {n : ℕ} {first second : Step} {later : List Step}

def newCounters (m : Method) (taken : List String) (n : ℕ) : List ℕ :=
  TaskNetwork.newCounters (nameSeed m.name).2 n taken (nameSeed m.name).1

theorem nameSeed_nextCut (h : m.nextCounter taken < UInt64.size) :
    nameSeed (m.nextCut taken first second later).rest.name =
      (m.nextCounter taken + 1, (nameSeed m.name).2) :=
  nameSeed_restMethodName h _

theorem newCounters_succ (h : m.nextCounter taken < UInt64.size) :
    m.newCounters taken (n + 1) = m.nextCounter taken ::
      (m.nextCut taken first second later).rest.newCounters
        ((m.nextCut taken first second later).task.name :: taken) n := by
  rw [newCounters, newCounters, nameSeed_nextCut h]
  rfl

theorem cascade_of_short (h : m.steps.length < 2) : cascade taken m n = { methods := [m] } := by
  cases n with
  | zero => rfl
  | succ n =>
    rw [cascade]
    split
    · next first second later hsteps =>
      rw [hsteps] at h
      exact absurd h (Nat.not_lt.2 (Nat.le_add_left 2 _))
    · rfl

theorem cascade_of_steps (hsteps : m.steps = first :: second :: later) :
    cascade taken m (n + 1) =
      if m.nextCounter taken < UInt64.size then
        let cut := m.nextCut taken first second later
        match cut.fault? with
        | some fault => { fault? := some fault }
        | none =>
          let c := cascade (cut.task.name :: taken) cut.rest n
          { c with methods := cut.head :: c.methods, tasks := cut.task :: c.tasks }
      else { fault? := some .overflow } := by
  rw [cascade, hsteps]
  rfl

/-- The methods and tasks have the numbers, up to where a fault stopped the cascade. -/
structure Numbers (m : Method) (made : List ℕ) (c : Cascade) : Prop where
  tasks : c.tasks.map (·.name) = made.map (restTaskName · (nameSeed m.name).2)
  methods : c.fault? = none →
    c.methods.map (·.name) = m.name :: made.map (restMethodName · (nameSeed m.name).2)

theorem Numbers.cons {made : List ℕ} {c : Cascade} (hcounter : m.nextCounter taken < UInt64.size)
    (h : (m.nextCut taken first second later).rest.Numbers made c) :
    m.Numbers (m.nextCounter taken :: made) { c with
      methods := (m.nextCut taken first second later).head :: c.methods
      tasks := (m.nextCut taken first second later).task :: c.tasks } := by
  obtain ⟨htasks, hmethods⟩ := h
  rw [nameSeed_nextCut hcounter] at htasks hmethods
  refine ⟨?_, fun hfault => ?_⟩
  · rw [List.map_cons, htasks]
    rfl
  · rw [List.map_cons, hmethods hfault]
    rfl

end Method

open Method

theorem Cut.fault?_ne_overflow (c : Cut) : c.fault? ≠ some .overflow := by
  rw [fault?]
  cases c.task.violation? with
  | some v => simp
  | none =>
    cases c.head.violation? with
    | some v => simp
    | none => cases c.rest.violation? <;> simp

theorem exists_two_le {α : Type} {l : List α} (h : 2 ≤ l.length) :
    ∃ first second later, l = first :: second :: later := by
  match l, h with
  | first :: second :: later, _ => exact ⟨first, second, later, rfl⟩

/-- A cascade uses up the counters one by one. Only a counter that is too large for a machine word
makes it overflow. -/
theorem exists_numbers_cascade (taken : List String) (m : Method) (n : ℕ) :
    ∃ made, made <+: m.newCounters taken n ∧ m.Numbers made (cascade taken m n) ∧
      ((cascade taken m n).fault? = none → n + 2 ≤ m.steps.length →
        made = m.newCounters taken n) ∧
      ((∀ k ∈ m.newCounters taken n, k < UInt64.size) →
        (cascade taken m n).fault? ≠ some .overflow) := by
  induction n generalizing taken m with
  | zero =>
    exact ⟨[], List.nil_prefix, ⟨rfl, fun _ => rfl⟩, fun _ _ => rfl, fun _ h => nomatch h⟩
  | succ n ih =>
    by_cases hshort : m.steps.length < 2
    · rw [cascade_of_short hshort]
      refine ⟨[], List.nil_prefix, ⟨rfl, fun _ => rfl⟩, fun _ hlen => ?_, fun _ h => nomatch h⟩
      omega
    obtain ⟨first, second, later, hsteps⟩ := exists_two_le (Nat.not_lt.1 hshort)
    rw [cascade_of_steps hsteps]
    by_cases hcounter : m.nextCounter taken < UInt64.size
    · rw [if_pos hcounter]
      dsimp only
      cases hfault : (m.nextCut taken first second later).fault? with
      | some fault =>
        refine ⟨[], List.nil_prefix, ⟨rfl, ?_⟩, ?_, fun _ h => ?_⟩
        · rintro ⟨⟩
        · rintro ⟨⟩
        · exact Cut.fault?_ne_overflow _ (hfault.trans h)
      | none =>
        obtain ⟨made, hmade, hnumbers, hall, hword⟩ :=
          ih ((m.nextCut taken first second later).task.name :: taken)
            (m.nextCut taken first second later).rest
        rw [newCounters_succ hcounter]
        refine ⟨m.nextCounter taken :: made, List.cons_prefix_cons.2 ⟨rfl, hmade⟩,
          hnumbers.cons hcounter, fun hnone hlen => ?_, fun hfits => ?_⟩
        · rw [hsteps] at hlen
          rw [hall hnone (Nat.le_of_succ_le_succ hlen)]
        · exact hword (List.forall_mem_cons.1 hfits).2
    · rw [if_neg hcounter]
      refine ⟨[], List.nil_prefix, ⟨rfl, ?_⟩, ?_, fun hfits => ?_⟩
      · rintro ⟨⟩
      · rintro ⟨⟩
      · exact absurd (hfits _ List.mem_cons_self) hcounter

/-- The search for a counter comes to the least one from the seed on with which the name of a task
is not taken, and the counter and the suffix are read off the name of the method for the rest of the
chain, whatever is in the suffix. So a cascade takes the free counters in order, its names have the
suffix of the first one, and its tasks are named differently from each other and from those there
were. -/
structure Method.CascadeNames (taken : List String) (m : Method) (n : ℕ) : Prop where
  least : IsLeast {k | (nameSeed m.name).1 ≤ k ∧ restTaskName k (nameSeed m.name).2 ∉ taken}
    (m.nextCounter taken)
  counter_le : m.nextCounter taken ≤ (nameSeed m.name).1 + taken.length
  rest_name : ∀ first second later, (m.nextCut taken first second later).rest.name =
    restMethodName (m.nextCounter taken) (nameSeed m.name).2
  read_back : ∀ k suffix, k < UInt64.size - 1 → nameSeed (restMethodName k suffix) = (k + 1, suffix)
  length_counters : (m.newCounters taken n).length = n
  first_free : FirstFree taken (nameSeed m.name).2 (nameSeed m.name).1 (m.newCounters taken n)
  numbers : ∃ made, made <+: m.newCounters taken n ∧ m.Numbers made (cascade taken m n) ∧
    ((cascade taken m n).fault? = none → n + 2 ≤ m.steps.length → made = m.newCounters taken n)
  nodup_tasks : ((cascade taken m n).tasks.map (·.name)).Nodup
  new_tasks : ∀ t ∈ (cascade taken m n).tasks, t.name ∉ taken
  no_overflow : (cascade taken m n).fault? ≠ some .overflow
  no_fault : m.Consistent → m.InListOrder → m.steps.length = n + 2 →
    (cascade taken m n).fault? = none

theorem names_of_cascade (taken : List String) (m : Method) (n : ℕ)
    (hfits : ∀ k ∈ m.newCounters taken n, k < UInt64.size - 1) : m.CascadeNames taken n := by
  have hword : ∀ {k}, k < UInt64.size - 1 → k < UInt64.size := fun h =>
    Nat.lt_of_lt_of_le h (Nat.sub_le _ _)
  have hfirst : FirstFree taken (nameSeed m.name).2 (nameSeed m.name).1 (m.newCounters taken n) :=
    firstFree_newCounters
  obtain ⟨made, hmade, hnumbers, hall, hoverflow⟩ := exists_numbers_cascade taken m n
  have hrun : (cascade taken m n).fault? ≠ some .overflow :=
    hoverflow fun k hk => hword (hfits k hk)
  refine {
    least := freshCounter_isLeast _ _ _
    counter_le := (freshCounter_bounds _ _ _).2
    rest_name := fun _ _ _ => rfl
    read_back := fun k suffix hk => nameSeed_restMethodName (hword hk) suffix
    length_counters := length_newCounters
    first_free := hfirst
    numbers := ⟨made, hmade, hnumbers, hall⟩
    nodup_tasks := ?_
    new_tasks := fun t ht => ?_
    no_overflow := hrun
    no_fault := fun hm horder hlen => (cascaded_cascade hm horder hlen).fault.resolve_right hrun }
  · rw [hnumbers.tasks]
    have hincreasing : made.Pairwise (· < ·) := hfirst.increasing.sublist hmade.sublist
    exact (hincreasing.imp Nat.ne_of_lt).map _ fun _ _ hne heq => hne (numberedName_inj heq).1
  · have hname : t.name ∈ made.map (restTaskName · (nameSeed m.name).2) :=
      hnumbers.tasks ▸ List.mem_map_of_mem ht
    obtain ⟨k, hk, hname⟩ := List.mem_map.1 hname
    exact hname ▸ (hfirst.free k (hmade.subset hk)).2

def byVanAgain : Method :=
  { byVan with
    name := "_two_reg_method4___two_reg_method0__by_van"
    steps := byVan.steps.reverse }

theorem names_of_cascade_byVanAgain :
    let taken := ["_two_reg_task5___two_reg_method0__by_van",
      "_two_reg_task7___two_reg_method0__by_van"]
    byVanAgain.newCounters taken 2 = [6, 8] ∧ (∀ k ∈ [6, 8], k < UInt64.size - 1) ∧
      (cascade taken byVanAgain 2).fault? = none ∧
      (cascade taken byVanAgain 2).methods.map (·.name) =
        ["_two_reg_method4___two_reg_method0__by_van",
          "_two_reg_method6___two_reg_method0__by_van",
          "_two_reg_method8___two_reg_method0__by_van"] := by
  intro taken
  have hcounters : byVanAgain.newCounters taken 2 = [6, 8] := by decide +kernel
  have hfits : ∀ k ∈ [6, 8], k < UInt64.size - 1 := by decide
  have h : byVanAgain.CascadeNames taken 2 := names_of_cascade taken byVanAgain 2 (hcounters ▸ hfits)
  have hfault := h.no_fault (Method.check_eq_ok.1 (by decide)) rfl rfl
  obtain ⟨made, -, hnumbers, hall⟩ := h.numbers
  refine ⟨hcounters, hfits, hfault, ?_⟩
  rw [hnumbers.methods hfault, hall hfault (Nat.le_refl _), hcounters]
  decide +kernel

end TaskNetwork
