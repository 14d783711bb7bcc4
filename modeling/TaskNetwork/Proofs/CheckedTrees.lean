import Mathlib.Data.List.Pairwise
import Mathlib.Order.Lattice.Nat
import TaskNetwork.Proofs.Guards
import TaskNetwork.Proofs.Insertion

namespace TaskNetwork

namespace Tree

open Classical in
/-- The calls of check steps that belong right before a position, from the outside to the inside. -/
noncomputable def checksBefore (check : Method → Option Task) : Tree → ℕ → List Call
  | leaf _ _, _ => []
  | node m σ below, i =>
    (if i = sInf (node m σ below).positions then
      (check m).toList.map fun t => (m.checkStep t).call σ else []) ++
    m.steps.flatMap fun s =>
      if i ∈ (below s).positions then (below s).checksBefore check i else []

noncomputable def checkPosition (check : Method → Option Task) (move : ℕ → ℕ) (tree : Tree) : ℕ :=
  move (sInf tree.positions) - (tree.checksBefore check (sInf tree.positions)).length

/-- The tree with check steps, when its positions have moved. -/
noncomputable def withChecks (check : Method → Option Task) (move : ℕ → ℕ) : Tree → Tree
  | leaf c i => leaf c (move i)
  | node m σ below =>
    match check m with
    | none => node m σ fun s => (below s).withChecks check move
    | some t =>
      let first := leaf ((m.checkStep t).call σ) ((node m σ below).checkPosition check move)
      node (m.checkedBy t) σ
        (Function.update (fun s => (below s).withChecks check move) (m.checkStep t) first)

variable {d : Domain} {truth : Literal → Prop} {plan : List Call} {check : Method → Option Task}
  {m : Method} {σ : Valuation} {below : Step → Tree}

theorem flatMap_eq_of_unique {l : List Step} {f : Step → List Call} (hl : l.Nodup) {s : Step}
    (hs : s ∈ l) (h : ∀ r ∈ l, r ≠ s → f r = []) : l.flatMap f = f s := by
  induction l with
  | nil => cases hs
  | cons a l ih =>
    obtain ⟨ha, hl⟩ := List.nodup_cons.1 hl
    rw [List.flatMap_cons]
    obtain rfl | hs := List.mem_cons.1 hs
    · have hrest : l.flatMap f = [] := by
        rw [List.flatMap_eq_nil_iff]
        exact fun r hr => h r (List.mem_cons_of_mem s hr) fun he => ha (he ▸ hr)
      rw [hrest, List.append_nil]
    · have hne : a ≠ s := fun he => ha (he ▸ hs)
      rw [h a List.mem_cons_self hne, List.nil_append]
      exact ih hl hs fun r hr => h r (List.mem_cons_of_mem a hr)

theorem Valid.pairwise_ne (htree : (node m σ below).Valid d truth plan) {s r : Step}
    (hs : s ∈ m.steps) (hr : r ∈ m.steps) (hne : s ≠ r) :
    Disjoint (below s).positions (below r).positions := by
  obtain ⟨-, -, -, -, -, hdisjoint, -⟩ := htree
  have hsymm : Std.Symm fun s r : Step => Disjoint (below s).positions (below r).positions :=
    ⟨fun _ _ h => h.symm⟩
  exact hdisjoint.forall hs hr hne

theorem checksBefore_step (hd : d.WellFormed) (htree : (node m σ below).Valid d truth plan)
    {s : Step} (hs : s ∈ m.steps) {i : ℕ} (hi : i ∈ (below s).positions) :
    (node m σ below).checksBefore check i =
      (if i = sInf (node m σ below).positions then
        (check m).toList.map fun t => (m.checkStep t).call σ else []) ++
      (below s).checksBefore check i := by
  have hnodup : m.steps.Nodup := (hd.fits htree.1).consistent.nodup_steps.of_map
  rw [checksBefore, flatMap_eq_of_unique hnodup hs, if_pos hi]
  intro r hr hne
  have hdis := htree.pairwise_ne hr hs hne
  rw [if_neg fun hir => Set.disjoint_left.1 hdis hir hi]

theorem exists_of_mem_checksBefore (hd : d.WellFormed) {tree : Tree}
    (htree : tree.Valid d truth plan) (hcalm : tree.Undisturbed d plan) {i : ℕ}
    (hi : i ∈ tree.positions) {c : Call} (hc : c ∈ tree.checksBefore check i) :
    ∃ m σ below t, (node m σ below).Valid d truth plan ∧ (node m σ below).Undisturbed d plan ∧
      i = sInf (node m σ below).positions ∧ check m = some t ∧ c = (m.checkStep t).call σ := by
  induction tree with
  | leaf e j => cases hc
  | node m σ below ih =>
    obtain ⟨s, hs, his⟩ := hi
    rw [checksBefore_step hd htree hs his] at hc
    obtain hc | hc := List.mem_append.1 hc
    · by_cases hfirst : i = sInf (node m σ below).positions
      · rw [if_pos hfirst] at hc
        obtain ⟨t, ht, rfl⟩ := List.mem_map.1 hc
        exact ⟨m, σ, below, t, htree, hcalm, hfirst, Option.mem_toList.1 ht, rfl⟩
      · rw [if_neg hfirst] at hc
        cases hc
    · obtain ⟨-, -, -, -, hbelow, -, -⟩ := htree
      exact ih s (hbelow s hs).2 (hcalm.2 s hs) his hc

theorem Valid.position_lt {tree : Tree} (htree : tree.Valid d truth plan) {i : ℕ}
    (hi : i ∈ tree.positions) : i < plan.length := by
  induction tree with
  | leaf c j =>
    obtain rfl : i = j := hi
    exact (List.getElem?_eq_some_iff.1 htree.1).1
  | node m σ below ih =>
    obtain ⟨s, hs, hi⟩ := hi
    obtain ⟨-, -, -, -, hbelow, -, -⟩ := htree
    exact ih s (hbelow s hs).2 hi

theorem withChecks_call (move : ℕ → ℕ) (tree : Tree) :
    (tree.withChecks check move).call = tree.call := by
  cases tree with
  | leaf c i => rfl
  | node m σ below =>
    rw [withChecks]
    cases check m <;> rfl

/-- The domain has no check steps, and the ids that they would get are free. -/
structure Open (d : Domain) : Prop where
  wellFormed : d.WellFormed
  tasks : ∀ t ∈ d.tasks, ¬IsCheckTask t.name
  ids : ∀ m ∈ d.methods, newCheckStepMark ++ m.name ∉ m.stepIds

def Fills (d : Domain) (truth : Literal → Prop) (plan : List Call)
    (check : Method → Option Task) : Prop :=
  ∀ m σ below, (node m σ below).Valid d truth plan → check m ≠ none →
    (node m σ below).positions.Nonempty

variable {B : ℕ → List Call}

theorem Open.checkStep_notMem (hd : Open d) (hm : m ∈ d.methods) (t : Task) :
    m.checkStep t ∉ m.steps := fun hs =>
  hd.ids m hm (List.mem_map.2 ⟨_, hs, rfl⟩)

theorem suffix_step (hd : d.WellFormed) (htree : (node m σ below).Valid d truth plan)
    (hB : ∀ i ∈ (node m σ below).positions, (node m σ below).checksBefore check i <:+ B i)
    {s : Step} (hs : s ∈ m.steps) :
    ∀ i ∈ (below s).positions, (below s).checksBefore check i <:+ B i := by
  intro i hi
  have hle := hB i ⟨s, hs, hi⟩
  rw [checksBefore_step hd htree hs hi] at hle
  exact (List.suffix_append _ _).trans hle

theorem mem_positions_node (hnew : ∀ t, m.checkStep t ∉ m.steps) {move : ℕ → ℕ} {p : ℕ} :
    p ∈ ((node m σ below).withChecks check move).positions ↔
      (check m ≠ none ∧ p = (node m σ below).checkPosition check move) ∨
      ∃ s ∈ m.steps, p ∈ ((below s).withChecks check move).positions := by
  rw [withChecks]
  cases ht : check m with
  | none => simp [positions]
  | some t =>
    have hne : ∀ s ∈ m.steps, s ≠ m.checkStep t := fun s hs he => hnew t (he ▸ hs)
    simp only [positions, Method.checkedBy, Set.mem_ofPred_eq]
    constructor
    · rintro ⟨s, hs, hp⟩
      obtain hs | hs := List.mem_append.1 hs
      · rw [Function.update_of_ne (hne s hs)] at hp
        exact .inr ⟨s, hs, hp⟩
      · obtain rfl := List.mem_singleton.1 hs
        rw [Function.update_self] at hp
        exact .inl ⟨Option.some_ne_none t, hp⟩
    · rintro (⟨-, hp⟩ | ⟨s, hs, hp⟩)
      · refine ⟨m.checkStep t, List.mem_append_right _ List.mem_cons_self, ?_⟩
        rw [Function.update_self]
        exact hp
      · refine ⟨s, List.mem_append_left _ hs, ?_⟩
        rwa [Function.update_of_ne (hne s hs)]

theorem length_checksBefore (check : Method → Option Task) (hd : d.WellFormed)
    (htree : (node m σ below).Valid d truth plan) {s : Step} (hs : s ∈ m.steps) {i : ℕ}
    (hi : i ∈ (below s).positions) :
    ((node m σ below).checksBefore check i).length =
      (if i = sInf (node m σ below).positions ∧ check m ≠ none then 1 else 0) +
        ((below s).checksBefore check i).length := by
  rw [checksBefore_step hd htree hs hi, List.length_append]
  by_cases hfirst : i = sInf (node m σ below).positions
  · cases ht : check m <;> simp [hfirst]
  · simp [hfirst]

/-- Each position becomes a block that ends where it has moved to. -/
theorem mem_positions_withChecks (hd : Open d) (hfill : Fills d truth plan check) {tree : Tree}
    (htree : tree.Valid d truth plan)
    (hB : ∀ i ∈ tree.positions, tree.checksBefore check i <:+ B i) {p : ℕ} :
    p ∈ (tree.withChecks check (shifted B)).positions ↔ ∃ i ∈ tree.positions,
      shifted B i ≤ p + (tree.checksBefore check i).length ∧ p ≤ shifted B i := by
  induction tree generalizing p with
  | leaf c j =>
    simp only [withChecks, positions, checksBefore, Set.mem_singleton_iff, exists_eq_left,
      List.length_nil, Nat.add_zero]
    omega
  | node m σ below ih =>
    have hstep : ∀ s ∈ m.steps, ∀ {p}, p ∈ ((below s).withChecks check (shifted B)).positions ↔
        ∃ i ∈ (below s).positions,
          shifted B i ≤ p + ((below s).checksBefore check i).length ∧ p ≤ shifted B i :=
      fun s hs => ih s (htree.2.2.2.2.1 s hs).2 (suffix_step hd.wellFormed htree hB hs)
    rw [mem_positions_node (hd.checkStep_notMem htree.1), checkPosition]
    constructor
    · rintro (⟨hcheck, hp⟩ | ⟨s, hs, hp⟩)
      · have hfirst := Nat.sInf_mem (hfill m σ below htree hcheck)
        have hbound := Nat.le_trans (hB _ hfirst).length_le (length_le_shifted B _)
        exact ⟨_, hfirst, by omega, by omega⟩
      · obtain ⟨i, hi, hlow, hhigh⟩ := (hstep s hs).1 hp
        have hl := length_checksBefore check hd.wellFormed htree hs hi
        exact ⟨i, ⟨s, hs, hi⟩, by omega, hhigh⟩
    · rintro ⟨i, ⟨s, hs, hi⟩, hlow, hhigh⟩
      have hl := length_checksBefore check hd.wellFormed htree hs hi
      by_cases hin : shifted B i ≤ p + ((below s).checksBefore check i).length
      · exact .inr ⟨s, hs, (hstep s hs).2 ⟨i, hi, hin, hhigh⟩⟩
      -- the block of the method is longer than that of the step only where the method starts
      · split at hl
        · next hfirst =>
          obtain ⟨rfl, hcheck⟩ := hfirst
          exact .inl ⟨hcheck, by omega⟩
        · omega

theorem block_lt {i j p q n : ℕ} (hij : i < j) (hn : n ≤ (B j).length) (hp : p ≤ shifted B i)
    (hq : shifted B j ≤ q + n) : p < q := by
  have hlt := shifted_add_lt (B := B) hij
  omega

theorem Open.step_task (hd : Open d) (hm : m ∈ d.methods) {s : Step} (hs : s ∈ m.steps) :
    ¬IsCheckTask s.task := by
  obtain ⟨t, ht, -⟩ := (hd.wellFormed.fits hm).steps s hs
  obtain ⟨hmem, hname⟩ := Domain.mem_of_task?_eq_some ht
  exact hname ▸ hd.tasks t hmem

theorem Open.method_task (hd : Open d) (hm : m ∈ d.methods) : ¬IsCheckTask m.task := by
  obtain ⟨t, ht, -⟩ := (hd.wellFormed.fits hm).task
  obtain ⟨hmem, hname⟩ := Domain.mem_of_task?_eq_some ht
  exact hname ▸ hd.tasks t hmem

theorem Open.primitive (hd : Open d) {n : String} (hn : d.IsPrimitive n) : ¬IsCheckTask n := by
  obtain ⟨t, ht, rfl⟩ := List.mem_map.1 hn
  exact hd.tasks t (List.mem_append_left _ ht)

theorem checksBefore_first (hd : d.WellFormed) (htree : (node m σ below).Valid d truth plan)
    {t : Task} (ht : check m = some t) {s : Step} (hs : s ∈ m.steps)
    (hi : sInf (node m σ below).positions ∈ (below s).positions) :
    (node m σ below).checksBefore check (sInf (node m σ below).positions) =
      (m.checkStep t).call σ ::
        (below s).checksBefore check (sInf (node m σ below).positions) := by
  rw [checksBefore_step hd htree hs hi, if_pos rfl, ht]
  rfl

theorem getElem?_checkPosition (hd : d.WellFormed) (htree : (node m σ below).Valid d truth plan)
    {t : Task} (ht : check m = some t) (hne : (node m σ below).positions.Nonempty)
    (hB : ∀ i ∈ (node m σ below).positions, (node m σ below).checksBefore check i <:+ B i) :
    (insertBefore B plan)[(node m σ below).checkPosition check (shifted B)]?
      = some ((m.checkStep t).call σ) := by
  have hfirst := Nat.sInf_mem hne
  have hat := getElem?_insertBefore_suffix (htree.position_lt hfirst) (hB _ hfirst)
  obtain ⟨s, hs, hi⟩ := hfirst
  rw [checkPosition, hat, checksBefore_first hd htree ht hs hi]
  rfl

theorem checkPosition_lt (hd : d.WellFormed) (htree : (node m σ below).Valid d truth plan)
    {t : Task} (ht : check m = some t)
    (hB : ∀ i ∈ (node m σ below).positions, (node m σ below).checksBefore check i <:+ B i)
    {s : Step} (hs : s ∈ m.steps) {i q : ℕ} (hi : i ∈ (below s).positions)
    (hq : shifted B i ≤ q + ((below s).checksBefore check i).length) :
    (node m σ below).checkPosition check (shifted B) < q := by
  have hmem : i ∈ (node m σ below).positions := ⟨s, hs, hi⟩
  rw [checkPosition]
  obtain hfirst | hfirst := Nat.eq_or_lt_of_le (Nat.sInf_le hmem)
  · rw [← hfirst] at hi hq hmem
    have hbound := Nat.le_trans (hB _ hmem).length_le (length_le_shifted B _)
    rw [checksBefore_first hd htree ht hs hi, List.length_cons] at hbound ⊢
    omega
  · exact block_lt hfirst (suffix_step hd htree hB hs i hi).length_le (Nat.sub_le _ _) hq

theorem positions_withChecks_lt (hd : Open d) (hfill : Fills d truth plan check) {s r : Tree}
    (hs : s.Valid d truth plan) (hr : r.Valid d truth plan)
    (hBs : ∀ i ∈ s.positions, s.checksBefore check i <:+ B i)
    (hBr : ∀ i ∈ r.positions, r.checksBefore check i <:+ B i)
    (h : ∀ i ∈ s.positions, ∀ j ∈ r.positions, i < j) :
    ∀ p ∈ (s.withChecks check (shifted B)).positions,
      ∀ q ∈ (r.withChecks check (shifted B)).positions, p < q := by
  intro p hp q hq
  obtain ⟨i, hi, -, hihigh⟩ := (mem_positions_withChecks hd hfill hs hBs).1 hp
  obtain ⟨j, hj, hjlow, -⟩ := (mem_positions_withChecks hd hfill hr hBr).1 hq
  exact block_lt (h i hi j hj) (hBr j hj).length_le hihigh hjlow

theorem disjoint_withChecks (hd : Open d) (hfill : Fills d truth plan check) {s r : Tree}
    (hs : s.Valid d truth plan) (hr : r.Valid d truth plan)
    (hBs : ∀ i ∈ s.positions, s.checksBefore check i <:+ B i)
    (hBr : ∀ i ∈ r.positions, r.checksBefore check i <:+ B i)
    (h : Disjoint s.positions r.positions) :
    Disjoint (s.withChecks check (shifted B)).positions
      (r.withChecks check (shifted B)).positions := by
  apply Set.disjoint_left.2
  intro p hps hpr
  obtain ⟨i, hi, hilow, hihigh⟩ := (mem_positions_withChecks hd hfill hs hBs).1 hps
  obtain ⟨j, hj, hjlow, hjhigh⟩ := (mem_positions_withChecks hd hfill hr hBr).1 hpr
  obtain hij | rfl | hji := lt_trichotomy i j
  · exact Nat.lt_irrefl p (block_lt hij (hBr j hj).length_le hihigh hjlow)
  · exact Set.disjoint_left.1 h hi hj
  · exact Nat.lt_irrefl p (block_lt hji (hBs i hi).length_le hjhigh hilow)

/-- A check can be put before all that a method does. -/
theorem Valid.checkedBy {t : Task} {p : ℕ} (hm : m.Consistent)
    (hid : newCheckStepMark ++ m.name ∉ m.stepIds) (hmem : m.checkedBy t ∈ d.methods)
    (hprim : ¬d.IsPrimitive m.task) (hσ : d.Grounds m σ)
    (hconstraints : ∀ l ∈ m.constraints, truth (l.ground σ))
    (hbelow : ∀ s ∈ m.steps, (below s).call = s.call σ ∧ (below s).Valid d truth plan)
    (hdisjoint : m.steps.Pairwise fun s r => Disjoint (below s).positions (below r).positions)
    (horder : ∀ s ∈ m.steps, ∀ r ∈ m.steps, m.Precedes s.id r.id →
      ∀ i ∈ (below s).positions, ∀ j ∈ (below r).positions, i < j)
    (hcheck : (leaf ((m.checkStep t).call σ) p).Valid d truth plan)
    (hfirst : ∀ s ∈ m.steps, ∀ i ∈ (below s).positions, p < i) :
    (node (m.checkedBy t) σ (Function.update below (m.checkStep t)
      (leaf ((m.checkStep t).call σ) p))).Valid d truth plan := by
  have hnew : ∀ s ∈ m.steps, s ≠ m.checkStep t := by
    rintro s hs rfl
    exact hid (List.mem_map.2 ⟨_, hs, rfl⟩)
  refine ⟨hmem, hprim, hσ, hconstraints, fun s hs => ?_, ?_, fun s hs r hr hsr => ?_⟩
  · obtain hs | hs := List.mem_append.1 hs
    · rw [Function.update_of_ne (hnew s hs)]
      exact hbelow s hs
    · obtain rfl := List.mem_singleton.1 hs
      rw [Function.update_self]
      exact ⟨rfl, hcheck⟩
  · refine List.pairwise_append.2 ⟨?_, List.pairwise_singleton _ _, fun s hs r hr => ?_⟩
    · refine hdisjoint.imp_of_mem fun {s r} hs hr hsr => ?_
      rw [Function.update_of_ne (hnew s hs), Function.update_of_ne (hnew r hr)]
      exact hsr
    · obtain rfl := List.mem_singleton.1 hr
      rw [Function.update_of_ne (hnew s hs), Function.update_self]
      apply Set.disjoint_left.2
      intro i hi hp
      exact Nat.ne_of_gt (hfirst s hs i hi) hp
  · obtain hs | hs := List.mem_append.1 hs
    · have hne : s.id ≠ newCheckStepMark ++ m.name := fun he =>
        hid (he ▸ List.mem_map.2 ⟨s, hs, rfl⟩)
      obtain ⟨hsr, hrid⟩ := Method.precedes_checkedBy hm hid hsr hne
      obtain hr | hr := List.mem_append.1 hr
      · rw [Function.update_of_ne (hnew s hs), Function.update_of_ne (hnew r hr)]
        exact horder s hs r hr hsr
      · obtain rfl := List.mem_singleton.1 hr
        exact absurd rfl hrid
    · obtain rfl := List.mem_singleton.1 hs
      obtain hr | hr := List.mem_append.1 hr
      · rw [Function.update_self, Function.update_of_ne (hnew r hr)]
        rintro i rfl j hj
        exact hfirst r hr j hj
      · obtain rfl := List.mem_singleton.1 hr
        exact absurd rfl hsr.1

theorem Valid.withChecks {d' : Domain} {allowed : Method → Literal → Prop} (hd : Open d)
    (hg : Guarded d d' allowed check) (hfill : Fills d truth plan check) {tree : Tree}
    (htree : tree.Valid d truth plan)
    (hB : ∀ i ∈ tree.positions, tree.checksBefore check i <:+ B i) :
    (tree.withChecks check (shifted B)).Valid d' truth (insertBefore B plan) := by
  induction tree with
  | leaf c i =>
    obtain ⟨hi, hprim⟩ := htree
    have hlt := (List.getElem?_eq_some_iff.1 hi).1
    have hget := getElem?_shifted_sub (B := B) hlt (Nat.zero_le _)
    rw [Nat.sub_zero, Nat.sub_zero, hi, List.getElem?_append_right (Nat.le_refl _),
      Nat.sub_self] at hget
    exact ⟨hget, (hg.isPrimitive _ (hd.primitive hprim)).2 hprim⟩
  | node m σ below ih =>
    obtain ⟨hm, hprim, hσ, hconstraints, hbelow, hdisjoint, horder⟩ := id htree
    have hsuffix : ∀ s ∈ m.steps, ∀ i ∈ (below s).positions,
        (below s).checksBefore check i <:+ B i := fun s hs => suffix_step hd.wellFormed htree hB hs
    have hprim' : ¬d'.IsPrimitive m.task := by
      rwa [hg.isPrimitive _ (hd.method_task hm)]
    have hσ' : d'.Grounds m σ := by
      intro v hv
      obtain ⟨names, hnames, hmem⟩ := hσ v hv
      exact ⟨names, hg.sorts ▸ hnames, hmem⟩
    have hbelow' : ∀ s ∈ m.steps, ((below s).withChecks check (shifted B)).call = s.call σ ∧
        ((below s).withChecks check (shifted B)).Valid d' truth (insertBefore B plan) := by
      intro s hs
      obtain ⟨hcall, hvalid⟩ := hbelow s hs
      exact ⟨(withChecks_call _ _).trans hcall, ih s hvalid (hsuffix s hs)⟩
    have hdisjoint' : m.steps.Pairwise fun s r =>
        Disjoint ((below s).withChecks check (shifted B)).positions
          ((below r).withChecks check (shifted B)).positions :=
      hdisjoint.imp_of_mem fun {s r} hs hr => disjoint_withChecks hd hfill (hbelow s hs).2
        (hbelow r hr).2 (hsuffix s hs) (hsuffix r hr)
    have horder' : ∀ s ∈ m.steps, ∀ r ∈ m.steps, m.Precedes s.id r.id →
        ∀ p ∈ ((below s).withChecks check (shifted B)).positions,
        ∀ q ∈ ((below r).withChecks check (shifted B)).positions, p < q :=
      fun s hs r hr hsr => positions_withChecks_lt hd hfill (hbelow s hs).2 (hbelow r hr).2
        (hsuffix s hs) (hsuffix r hr) (horder s hs r hr hsr)
    cases ht : check m with
    | none =>
      simp only [Tree.withChecks, ht]
      exact ⟨hg.unchecked m hm ht, hprim', hσ', hconstraints, hbelow', hdisjoint', horder'⟩
    | some t =>
      obtain ⟨hm', -, hcheckprim, -⟩ := hg.checked m hm t ht
      have hat := getElem?_checkPosition hd.wellFormed htree ht
        (hfill m σ below htree (by simp [ht])) hB
      have hfirst : ∀ s ∈ m.steps, ∀ q ∈ ((below s).withChecks check (shifted B)).positions,
          (node m σ below).checkPosition check (shifted B) < q := by
        intro s hs q hq
        obtain ⟨i, hi, hlow, -⟩ :=
          (mem_positions_withChecks hd hfill (hbelow s hs).2 (hsuffix s hs)).1 hq
        exact checkPosition_lt hd.wellFormed htree ht hB hs hi hlow
      simp only [Tree.withChecks, ht]
      exact Valid.checkedBy (hd.wellFormed.fits hm).consistent (hd.ids m hm) hm' hprim' hσ'
        hconstraints hbelow' hdisjoint' horder' ⟨hat, hcheckprim⟩ hfirst

end Tree

end TaskNetwork
