import Mathlib.Data.List.Chain
import Mathlib.Data.List.Nodup
import Mathlib.Data.List.Pairwise
import TaskNetwork.Cascade
import TaskNetwork.Proofs.Consistency
import TaskNetwork.Proofs.Paths

namespace TaskNetwork

variable {α β : Type}

theorem isChain_iff_neighbours {R : α → α → Prop} {l : List α} :
    l.IsChain R ↔ ∀ p ∈ neighbours l, R p.1 p.2 := by
  induction l with
  | nil => simp [neighbours]
  | cons a l ih =>
    cases l with
    | nil => simp [neighbours]
    | cons b l =>
      have hstep : neighbours (a :: b :: l) = (a, b) :: neighbours (b :: l) := rfl
      rw [List.isChain_cons_cons, ih, hstep, List.forall_mem_cons]

theorem neighbours_map {f : α → β} {l : List α} :
    neighbours (l.map f) = (neighbours l).map (Prod.map f f) := by
  rw [neighbours, ← List.map_tail, List.zip_map, neighbours]

theorem tail_neighbours {l : List α} : (neighbours l).tail = neighbours l.tail := by
  cases l with
  | nil => rfl
  | cons a l => cases l <;> rfl

theorem mem_of_mem_neighbours {l : List α} {p : α × α} (hp : p ∈ neighbours l) :
    p.1 ∈ l ∧ p.2 ∈ l.tail :=
  List.of_mem_zip hp

theorem exists_neighbour {l : List α} {b : α} (hb : b ∈ l.tail) : ∃ a, (a, b) ∈ neighbours l := by
  have hsnd : (neighbours l).map Prod.snd = l.tail :=
    List.map_snd_zip (by rw [List.length_tail]; exact Nat.sub_le _ _)
  rw [← hsnd] at hb
  obtain ⟨p, hp, rfl⟩ := List.mem_map.1 hb
  exact ⟨p.1, hp⟩

theorem idxOf_lt_of_neighbours {l : List String} (hl : l.Nodup) {p : String × String}
    (hp : p ∈ neighbours l) : l.idxOf p.1 < l.idxOf p.2 := by
  have hchain : l.IsChain fun a b => l.idxOf a < l.idxOf b := by
    rw [List.isChain_iff_getElem]
    intro i hi
    rw [hl.idxOf_getElem, hl.idxOf_getElem]
    exact Nat.lt_succ_self i
  exact isChain_iff_neighbours.1 hchain p hp

namespace Method

def InListOrder (m : Method) : Prop := m.ordering = neighbours m.stepIds

structure Linearizes (m : Method) (order : List Step) : Prop where
  perm : order.Perm m.steps
  respects : order.Pairwise fun s t => ¬m.Precedes t.id s.id

variable {m c : Method} {order : List Step}

theorem Acyclic.pairwise (hm : m.Acyclic) {steps : List Step}
    (hchain : ∀ p ∈ neighbours steps, m.Precedes p.1.id p.2.id) :
    steps.Pairwise fun s t => m.Precedes s.id t.id := by
  have htrans : IsTrans Step fun s t => m.Precedes s.id t.id :=
    ⟨fun _ _ _ => hm.precedes_trans⟩
  exact List.isChain_iff_pairwise.1 (isChain_iff_neighbours.2 hchain)

theorem Acyclic.linearizes_iff (hm : m.Acyclic) {steps : List Step} (hperm : steps.Perm m.steps)
    (hchain : ∀ p ∈ neighbours steps, m.Precedes p.1.id p.2.id) :
    m.Linearizes order ↔ order = steps := by
  have hpair := hm.pairwise hchain
  constructor
  · intro h
    refine List.Perm.eq_of_pairwise (fun s t hs ht hst hts => ?_) h.respects
      (hpair.imp fun hst => hm.precedes_asymm hst) (h.perm.trans hperm.symm)
    have hsymm : Std.Symm fun s t : Step => m.Precedes s.id t.id ∨ m.Precedes t.id s.id :=
      ⟨fun _ _ => Or.symm⟩
    have htotal : steps.Pairwise fun s t => m.Precedes s.id t.id ∨ m.Precedes t.id s.id :=
      hpair.imp .inl
    by_contra hne
    obtain h' | h' := htotal.forall (hperm.mem_iff.2 (h.perm.mem_iff.1 hs)) ht hne
    · exact hts h'
    · exact hst h'
  · rintro rfl
    exact ⟨hperm, hpair.imp fun hst => hm.precedes_asymm hst⟩

theorem InListOrder.acyclic (h : m.InListOrder) (hnodup : m.stepIds.Nodup) : m.Acyclic := by
  intro a ha
  have hlt : ∀ b, m.Before a b → m.stepIds.idxOf a < m.stepIds.idxOf b := by
    intro b hb
    induction hb with
    | single he => exact idxOf_lt_of_neighbours hnodup (h ▸ he)
    | tail _ he ih => exact ih.trans (idxOf_lt_of_neighbours hnodup (h ▸ he))
  exact Nat.lt_irrefl _ (hlt a ha)

theorem InListOrder.neighbours (h : m.InListOrder) (hnodup : m.stepIds.Nodup) :
    ∀ p ∈ neighbours m.steps, m.Precedes p.1.id p.2.id := by
  intro p hp
  have hedge : (p.1.id, p.2.id) ∈ m.ordering := by
    rw [h, stepIds, neighbours_map]
    exact List.mem_map_of_mem hp
  rw [(h.acyclic hnodup).precedes_iff]
  exact .single hedge

theorem InListOrder.linearizes_iff (h : m.InListOrder) (hnodup : m.stepIds.Nodup) :
    m.Linearizes order ↔ order = m.steps :=
  (h.acyclic hnodup).linearizes_iff (.refl _) (h.neighbours hnodup)

theorem InListOrder.pairwise (h : m.InListOrder) (hnodup : m.stepIds.Nodup) :
    m.steps.Pairwise fun s t => m.Precedes s.id t.id :=
  (h.acyclic hnodup).pairwise (h.neighbours hnodup)

theorem precedes_congr (hm : m.Acyclic) (hc : c.Acyclic) {steps : List Step}
    (hsteps : steps.Pairwise fun s t => m.Precedes s.id t.id)
    (hsteps' : steps.Pairwise fun s t => c.Precedes s.id t.id) {e s : Step} (he : e ∈ steps)
    (hs : s ∈ steps) : m.Precedes e.id s.id ↔ c.Precedes e.id s.id := by
  obtain rfl | hne := eq_or_ne e s
  · exact iff_of_false (fun h => h.1 rfl) fun h => h.1 rfl
  have hsymm : Std.Symm fun s t : Step => m.Precedes s.id t.id ∧ c.Precedes s.id t.id ∨
      m.Precedes t.id s.id ∧ c.Precedes t.id s.id := ⟨fun _ _ => Or.symm⟩
  have htotal : steps.Pairwise fun s t => m.Precedes s.id t.id ∧ c.Precedes s.id t.id ∨
      m.Precedes t.id s.id ∧ c.Precedes t.id s.id := (hsteps.and hsteps').imp .inl
  obtain ⟨h, h'⟩ | ⟨h, h'⟩ := htotal.forall he hs hne
  · exact iff_of_true h h'
  · exact iff_of_false (hm.precedes_asymm h) (hc.precedes_asymm h')

theorem chain?_eq_some (h : m.chain? = some c) :
    c = { m with steps := m.stepsByRank, ordering := neighbours (m.stepsByRank.map (·.id)) } ∧
      ∀ p ∈ neighbours m.stepsByRank, m.Precedes p.1.id p.2.id := by
  rw [chain?] at h
  split at h
  · next hall => exact ⟨(Option.some.inj h).symm, hall.2⟩
  · cases h

theorem perm_stepsByRank (m : Method) : m.stepsByRank.Perm m.steps := List.mergeSort_perm _ _

theorem sorted_stepsByRank (m : Method) :
    m.stepsByRank.Pairwise fun s t => m.rank s.id ≤ m.rank t.id := by
  have hsorted : m.stepsByRank.Pairwise fun s t => decide (m.rank s.id ≤ m.rank t.id) :=
    List.pairwise_mergeSort (fun _ _ _ => by simpa using Nat.le_trans)
      (fun _ _ => by simpa using Nat.le_total _ _) m.steps
  exact hsorted.imp of_decide_eq_true

/-- Steps of different ranks are sorted in one way only. -/
theorem stepsByRank_eq {steps : List Step} (hperm : steps.Perm m.steps)
    (hrank : steps.Pairwise fun s t => m.rank s.id < m.rank t.id) : m.stepsByRank = steps := by
  have hperm' : m.stepsByRank.Perm steps := (perm_stepsByRank m).trans hperm.symm
  refine List.Perm.eq_of_pairwise (fun s t hs ht hst hts => ?_)
    m.sorted_stepsByRank (hrank.imp fun hlt => Nat.le_of_lt hlt) hperm'
  have hsymm : Std.Symm fun s t : Step => m.rank s.id ≠ m.rank t.id := ⟨fun _ _ => Ne.symm⟩
  have hne : steps.Pairwise fun s t => m.rank s.id ≠ m.rank t.id :=
    hrank.imp fun hlt => Nat.ne_of_lt hlt
  by_contra h
  exact hne.forall (hperm'.mem_iff.1 hs) ht h (Nat.le_antisymm hst hts)

theorem inListOrder_of_chain? (h : m.chain? = some c) : c.InListOrder := by
  obtain ⟨rfl, -⟩ := chain?_eq_some h
  rfl

theorem Consistent.of_chain? (hm : m.Consistent) (h : m.chain? = some c) : c.Consistent := by
  obtain ⟨rfl, -⟩ := chain?_eq_some h
  have hids : (m.stepsByRank.map (·.id)).Perm m.stepIds := m.perm_stepsByRank.map _
  refine ⟨hm.nodup_variables, hids.nodup_iff.2 hm.nodup_steps, fun p hp => ?_, fun a ha => ?_⟩
  · obtain ⟨hp₁, hp₂⟩ := mem_of_mem_neighbours hp
    exact ⟨hp₁, List.mem_of_mem_tail hp₂⟩
  · apply hm.declared a
    simpa only [usedNames, List.mem_append, (m.perm_stepsByRank.flatMap_right _).mem_iff] using ha

theorem linearizes_chain? (hm : m.Acyclic) (hc : m.Consistent) (h : m.chain? = some c) :
    m.Linearizes order ↔ c.Linearizes order := by
  rw [(inListOrder_of_chain? h).linearizes_iff (hc.of_chain? h).nodup_steps]
  obtain ⟨rfl, hchain⟩ := chain?_eq_some h
  exact hm.linearizes_iff m.perm_stepsByRank hchain

theorem longChain?_eq_some (h : m.longChain? = some c) : 2 < m.steps.length ∧ m.chain? = some c := by
  rw [longChain?] at h
  split at h
  · cases h
  · next hlen => exact ⟨Nat.lt_of_not_le hlen, h⟩

theorem Consistent.of_longChain? (hm : m.Consistent) (h : m.longChain? = some c) :
    c.Consistent ∧ c.InListOrder ∧ 2 < c.steps.length := by
  obtain ⟨hlen, hchain⟩ := longChain?_eq_some h
  refine ⟨hm.of_chain? hchain, inListOrder_of_chain? hchain, ?_⟩
  obtain ⟨rfl, -⟩ := chain?_eq_some hchain
  rwa [← m.perm_stepsByRank.length_eq] at hlen

def TotallyOrdered (m : Method) : Prop :=
  ∀ s ∈ m.steps, ∀ t ∈ m.steps, s ≠ t → m.Precedes s.id t.id ∨ m.Precedes t.id s.id

instance (m : Method) : Decidable m.TotallyOrdered :=
  inferInstanceAs (Decidable (∀ s ∈ m.steps, ∀ t ∈ m.steps, s ≠ t → _))

theorem Acyclic.rank_lt (hm : m.Acyclic) {s : Step} {id : String} (hs : s ∈ m.steps)
    (h : m.Precedes s.id id) : m.rank s.id < m.rank id := by
  have hsub : (m.predecessors s.id).Sublist (m.predecessors id) := by
    refine List.monotone_filter_right _ fun e he => ?_
    rw [decide_eq_true_eq] at he ⊢
    exact hm.precedes_trans he h
  refine Nat.lt_of_le_of_ne hsub.length_le fun hlen => ?_
  have hself : s ∈ m.predecessors s.id := by
    rw [hsub.eq_of_length hlen]
    exact mem_predecessors.2 ⟨hs, h⟩
  exact (mem_predecessors.1 hself).2.1 rfl

theorem Acyclic.pairwise_stepsByRank (hm : m.Acyclic) (hnodup : m.stepIds.Nodup)
    (htotal : m.TotallyOrdered) : m.stepsByRank.Pairwise fun s t => m.Precedes s.id t.id := by
  have hmem : ∀ {s}, s ∈ m.stepsByRank ↔ s ∈ m.steps := m.perm_stepsByRank.mem_iff
  have hsteps : m.stepsByRank.Nodup := m.perm_stepsByRank.nodup_iff.2 hnodup.of_map
  refine (m.sorted_stepsByRank.and hsteps).imp_of_mem fun {s t} hs ht ⟨hrank, hst⟩ => ?_
  refine (htotal s (hmem.1 hs) t (hmem.1 ht) hst).resolve_right fun hts => ?_
  exact Nat.not_lt.2 hrank (hm.rank_lt (hmem.1 ht) hts)

theorem Acyclic.totallyOrdered_of_chain? (hm : m.Acyclic) (h : m.chain? = some c) :
    m.TotallyOrdered := by
  intro s hs t ht hst
  have hmem : ∀ {s}, s ∈ m.stepsByRank ↔ s ∈ m.steps := m.perm_stepsByRank.mem_iff
  have hsymm : Std.Symm fun s t : Step => m.Precedes s.id t.id ∨ m.Precedes t.id s.id :=
    ⟨fun _ _ => Or.symm⟩
  have htotal : m.stepsByRank.Pairwise fun s t => m.Precedes s.id t.id ∨ m.Precedes t.id s.id :=
    (hm.pairwise (chain?_eq_some h).2).imp .inl
  exact htotal.forall (hmem.2 hs) (hmem.2 ht) hst

theorem Acyclic.totallyOrdered_iff (hm : m.Acyclic) (hnodup : m.stepIds.Nodup)
    (hne : m.steps ≠ []) : m.TotallyOrdered ↔ m.chain?.isSome := by
  constructor
  · intro htotal
    have hchain := (hm.pairwise_stepsByRank hnodup htotal).isChain
    have hsome : m.stepsByRank ≠ [] := fun h => hne (h ▸ m.perm_stepsByRank).nil_eq.symm
    rw [chain?, if_pos ⟨hsome, isChain_iff_neighbours.1 hchain⟩]
    rfl
  · intro h
    obtain ⟨c, hc⟩ := Option.isSome_iff_exists.1 h
    exact hm.totallyOrdered_of_chain? hc

/-- Methods are left as they are if they have two steps at most or steps that no pair puts in order.
-/
theorem Acyclic.longChain?_eq_none (hm : m.Acyclic) (hnodup : m.stepIds.Nodup) :
    m.longChain? = none ↔ m.steps.length ≤ 2 ∨ ¬m.TotallyOrdered := by
  rw [longChain?]
  split
  · next hlen => exact iff_of_true rfl (.inl hlen)
  · next hlen =>
    have hne : m.steps ≠ [] := fun h => hlen (h ▸ Nat.zero_le 2)
    rw [hm.totallyOrdered_iff hnodup hne]
    simp [hlen]

/-- Total orders and no others are cut down to their neighbours, and the chain orders the same steps
in the same way. -/
theorem Acyclic.chain_of_total_order (hm : m.Acyclic) (hnodup : m.stepIds.Nodup)
    (hne : m.steps ≠ []) :
    (m.chain?.isSome ↔ m.TotallyOrdered) ∧
      ∀ c, m.chain? = some c →
        c.steps.Perm m.steps ∧ (c.steps.Pairwise fun s t => m.Precedes s.id t.id) ∧
          c.ordering = neighbours c.stepIds ∧
          (∀ a ∈ m.stepIds, ∀ b ∈ m.stepIds, c.Precedes a b ↔ m.Precedes a b) ∧
          c = { m with steps := c.steps, ordering := c.ordering } := by
  refine ⟨(hm.totallyOrdered_iff hnodup hne).symm, fun c hc => ?_⟩
  have horder : c.InListOrder := inListOrder_of_chain? hc
  obtain ⟨rfl, hneighbours⟩ := chain?_eq_some hc
  have hpair : m.stepsByRank.Pairwise fun s t => m.Precedes s.id t.id := hm.pairwise hneighbours
  have hperm : m.stepsByRank.Perm m.steps := m.perm_stepsByRank
  refine ⟨hperm, hpair, horder, fun a ha b hb => ?_, rfl⟩
  obtain ⟨s, hs, rfl⟩ := List.mem_map.1 ha
  obtain ⟨t, ht, rfl⟩ := List.mem_map.1 hb
  have hnodup' : (m.stepsByRank.map Step.id).Nodup := (hperm.map Step.id).nodup_iff.2 hnodup
  exact precedes_congr (horder.acyclic hnodup') hm (horder.pairwise hnodup') hpair
    (hperm.mem_iff.2 hs) (hperm.mem_iff.2 ht)

/-- The steps are shuffled, one pair is redundant, and a stop that is no step stands between two of
them. -/
def byTram : Method where
  name := "by-tram"
  task := "travel"
  taskArguments := ["from", "to"]
  declarations := [{ name := "from", sort := "place" }, { name := "to", sort := "place" }]
  steps := [{ id := "leave", task := "leave", arguments := ["to"] },
    { id := "board", task := "board", arguments := ["from"] },
    { id := "ride", task := "ride", arguments := ["from", "to"] }]
  ordering := [("ride", "halt"), ("board", "leave"), ("halt", "leave"), ("board", "ride")]

theorem chain_of_total_order_byTram :
    ∃ c, byTram.chain? = some c ∧ c.ordering = [("board", "ride"), ("ride", "leave")] ∧
      c.Precedes "board" "leave" := by
  have hacyclic : byTram.Acyclic := by
    rw [acyclic_iff]
    decide
  obtain ⟨hsome, hchain⟩ := hacyclic.chain_of_total_order (by decide) (by decide)
  obtain ⟨c, hc⟩ := Option.isSome_iff_exists.1 (hsome.2 (by decide))
  obtain ⟨hperm, hpair, hordering, hprecedes, -⟩ := hchain c hc
  have hsteps : byTram.stepsByRank = [byTram.steps[1], byTram.steps[2], byTram.steps[0]] :=
    stepsByRank_eq (by decide) (by decide)
  obtain ⟨rfl, -⟩ := chain?_eq_some hc
  refine ⟨_, hc, ?_, (hprecedes "board" (by decide) "leave" (by decide)).2 (by decide)⟩
  simp only [hsteps]
  rfl

end Method

end TaskNetwork
