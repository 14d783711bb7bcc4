import Mathlib.Data.List.Nodup
import TaskNetwork.Proofs.Paths
import TaskNetwork.Recursion

namespace TaskNetwork

namespace DecompositionGraph

open Relation

variable {g : DecompositionGraph} {components : List (List Nat)} {c : List Nat} {i j : Nat}
  {a b x y : String}

def Leads (g : DecompositionGraph) : Nat → Nat → Prop := ReflTransGen fun i j => (i, j) ∈ g.edges

def OnCycle (g : DecompositionGraph) (i : Nat) : Prop := TransGen (fun i j => (i, j) ∈ g.edges) i i

/-- Every node is in one component, with the nodes that paths lead to from it and back from. -/
structure StronglyConnected (g : DecompositionGraph) (components : List (List Nat)) : Prop where
  perm : components.flatten.Perm (List.range g.nodes.length)
  ne_nil : ∀ c ∈ components, c ≠ []
  mem_iff : ∀ c ∈ components, ∀ i ∈ c, ∀ j < g.nodes.length, j ∈ c ↔ g.Leads i j ∧ g.Leads j i

theorem mem_below : j ∈ g.below i ↔ g.Leads i j := by
  simp only [below, List.mem_cons, mem_reachable, List.not_mem_nil, or_false, exists_eq_left,
    Leads, reflTransGen_iff_eq_or_transGen]

theorem mem_component : j ∈ g.component i ↔ j < g.nodes.length ∧ g.Leads i j ∧ g.Leads j i := by
  simp [component, mem_below]

theorem mem_component_self (hi : i < g.nodes.length) : i ∈ g.component i :=
  mem_component.2 ⟨hi, .refl, .refl⟩

theorem component_eq (h : j ∈ g.component i) : g.component j = g.component i := by
  obtain ⟨-, hij, hji⟩ := mem_component.1 h
  refine List.filter_congr fun k _ => decide_eq_decide.2 ?_
  simp only [mem_below]
  exact ⟨fun ⟨hjk, hkj⟩ => ⟨hij.trans hjk, hkj.trans hji⟩,
    fun ⟨hik, hki⟩ => ⟨hji.trans hik, hki.trans hij⟩⟩

theorem mem_components :
    c ∈ g.components ↔ ∃ i, (i < g.nodes.length ∧ (g.component i).head? = some i) ∧
      g.component i = c := by
  simp only [components, List.mem_map, List.mem_filter, List.mem_range, decide_eq_true_eq]

theorem component_mem_components (hi : i < g.nodes.length) : g.component i ∈ g.components := by
  have hne : g.component i ≠ [] := List.ne_nil_of_mem (mem_component_self hi)
  have hhead : (g.component i).head hne ∈ g.component i := List.head_mem hne
  have heq := component_eq hhead
  refine mem_components.2 ⟨_, ⟨(mem_component.1 hhead).1, ?_⟩, heq⟩
  rw [heq]
  exact List.head?_eq_some_head hne

theorem nodup_flatten_components : g.components.flatten.Nodup := by
  refine List.nodup_flatten.2 ⟨fun c hc => ?_, ?_⟩
  · obtain ⟨i, -, rfl⟩ := mem_components.1 hc
    exact List.nodup_range.filter _
  · have hfirst := (List.nodup_range (n := g.nodes.length)).filter fun i =>
      decide ((g.component i).head? = some i)
    refine List.pairwise_map.2 (hfirst.imp_of_mem fun {i j} hi hj hij k hk hk' => hij ?_)
    -- a node of both would have both come first in one component
    have heq : g.component i = g.component j := (component_eq hk).symm.trans (component_eq hk')
    have hi := of_decide_eq_true (List.mem_filter.1 hi).2
    have hj := of_decide_eq_true (List.mem_filter.1 hj).2
    exact Option.some.inj (hi.symm.trans (heq ▸ hj))

theorem stronglyConnected_components : g.StronglyConnected g.components where
  perm := by
    refine (List.perm_ext_iff_of_nodup nodup_flatten_components List.nodup_range).2 fun i => ?_
    rw [List.mem_flatten, List.mem_range]
    constructor
    · rintro ⟨c, hc, hi⟩
      obtain ⟨j, -, rfl⟩ := mem_components.1 hc
      exact (mem_component.1 hi).1
    · exact fun hi => ⟨_, component_mem_components hi, mem_component_self hi⟩
  ne_nil c hc := by
    obtain ⟨i, ⟨hi, -⟩, rfl⟩ := mem_components.1 hc
    exact List.ne_nil_of_mem (mem_component_self hi)
  mem_iff c hc i hi j hj := by
    obtain ⟨k, -, rfl⟩ := mem_components.1 hc
    rw [← component_eq hi, mem_component]
    exact and_iff_right hj

theorem one_lt_length_iff (hc : c.Nodup) (hi : i ∈ c) : 1 < c.length ↔ ∃ j ∈ c, j ≠ i := by
  match c, hc with
  | [j], _ => simp [List.mem_singleton.1 hi]
  | j :: k :: _, hc =>
    have hjk : j ≠ k := fun h => (List.nodup_cons.1 hc).1 (h ▸ List.mem_cons_self)
    refine iff_of_true (by simp) ?_
    obtain rfl | hne := eq_or_ne j i
    · exact ⟨k, by simp, hjk.symm⟩
    · exact ⟨j, by simp, hne⟩

theorem StronglyConnected.nodup (h : g.StronglyConnected components) (hc : c ∈ components) :
    c.Nodup :=
  (List.nodup_flatten.1 (h.perm.nodup_iff.2 List.nodup_range)).1 c hc

theorem StronglyConnected.mem_flatten (h : g.StronglyConnected components) :
    i ∈ components.flatten ↔ i < g.nodes.length :=
  h.perm.mem_iff.trans List.mem_range

/-- A node is on a cycle if there are others in its component or an edge leads straight back. -/
theorem StronglyConnected.onCycle_iff (h : g.StronglyConnected components) (hc : c ∈ components)
    (hi : i ∈ c) : g.OnCycle i ↔ 1 < c.length ∨ (i, i) ∈ g.edges := by
  rw [one_lt_length_iff (h.nodup hc) hi]
  constructor
  · intro hcycle
    obtain ⟨j, hij, hji⟩ := TransGen.head'_iff.1 hcycle
    obtain rfl | hne := eq_or_ne j i
    · exact .inr hij
    · have hj := (g.edges_lt _ hij).2
      exact .inl ⟨j, (h.mem_iff c hc i hi j hj).2 ⟨.single hij, hji⟩, hne⟩
  · rintro (⟨j, hj, hne⟩ | hloop)
    · have hlt := h.mem_flatten.1 (List.mem_flatten.2 ⟨c, hc, hj⟩)
      obtain ⟨hij, hji⟩ := (h.mem_iff c hc i hi j hlt).1 hj
      exact ((reflTransGen_iff_eq_or_transGen.1 hij).resolve_left hne).trans_left hji
    · exact .single hloop

theorem StronglyConnected.mem_loops (h : g.StronglyConnected components) :
    a ∈ g.loops components ↔ ∃ i, g.nodes[i]? = some a ∧ g.OnCycle i := by
  have hpick : ∀ {c : List Nat} {i : Nat}, (i ∈ if 1 < c.length then c else
      c.head?.toList.filter fun i => (i, i) ∈ g.edges) ↔
        i ∈ c ∧ (1 < c.length ∨ (i, i) ∈ g.edges) := by
    intro c i
    match c with
    | [] => simp
    | [j] => simp
    | j :: k :: _ => simp
  simp only [loops, mem_increasing, List.mem_filterMap, List.mem_flatMap, hpick]
  refine exists_congr fun i => ?_
  constructor
  · rintro ⟨⟨c, hc, hi, hloop⟩, ha⟩
    exact ⟨ha, (h.onCycle_iff hc hi).2 hloop⟩
  · rintro ⟨ha, hcycle⟩
    obtain ⟨hlt, -⟩ := List.getElem?_eq_some_iff.1 ha
    obtain ⟨c, hc, hi⟩ := List.mem_flatten.1 (h.mem_flatten.2 hlt)
    exact ⟨⟨c, hc, hi, (h.onCycle_iff hc hi).1 hcycle⟩, ha⟩

def HasEdge (g : DecompositionGraph) (a b : String) : Prop :=
  ∃ i j, (i, j) ∈ g.edges ∧ g.nodes[i]? = some a ∧ g.nodes[j]? = some b

theorem idxOf_eq (ha : g.nodes[i]? = some a) : g.nodes.idxOf a = i := by
  obtain ⟨hi, rfl⟩ := List.getElem?_eq_some_iff.1 ha
  exact g.nodup_nodes.idxOf_getElem i hi

theorem onCycle_iff (ha : g.nodes[i]? = some a) : g.OnCycle i ↔ TransGen g.HasEdge a a := by
  let name : Nat → String := fun j => (g.nodes[j]?).getD ""
  have hi : name i = a := by simp only [name, ha, Option.getD_some]
  have hname : ∀ j < g.nodes.length, g.nodes[j]? = some (name j) := fun j hj => by
    simp only [name, List.getElem?_eq_getElem hj, Option.getD_some]
  have hedge : ∀ j k, (j, k) ∈ g.edges → g.HasEdge (name j) (name k) := fun j k he =>
    ⟨j, k, he, hname j (g.edges_lt _ he).1, hname k (g.edges_lt _ he).2⟩
  have hedge' : ∀ b c, g.HasEdge b c → (g.nodes.idxOf b, g.nodes.idxOf c) ∈ g.edges := by
    rintro b c ⟨j, k, he, hb, hc⟩
    rwa [idxOf_eq hb, idxOf_eq hc]
  constructor
  · intro h
    exact hi ▸ TransGen.lift name hedge i i h
  · intro h
    exact idxOf_eq ha ▸ TransGen.lift (g.nodes.idxOf ·) hedge' a a h

theorem hasEdge_addNode : (g.addNode a).HasEdge x y ↔ g.HasEdge x y := by
  rw [addNode]
  split
  · rfl
  · refine exists_congr fun i => exists_congr fun j => and_congr_right fun he => ?_
    obtain ⟨hi, hj⟩ := g.edges_lt _ he
    rw [List.getElem?_append_left hi, List.getElem?_append_left hj]

theorem hasEdge_addEdge {e : String × String} :
    (g.addEdge e).HasEdge x y ↔ g.HasEdge x y ∨ (x, y) = e := by
  let g' := (g.addNode e.1).addNode e.2
  have hnode : ∀ n ∈ [e.1, e.2], g'.nodes[g'.nodes.idxOf n]? = some n := by
    intro n hn
    have hmem : n ∈ g'.nodes := by
      rw [mem_nodes_addNode, mem_nodes_addNode]
      simp only [List.mem_cons, List.not_mem_nil, or_false] at hn
      exact hn.elim (fun h => .inl (.inr h)) .inr
    rw [List.getElem?_eq_getElem (List.idxOf_lt_length_iff.2 hmem), List.getElem_idxOf]
  have hold : g'.HasEdge x y ↔ g.HasEdge x y := hasEdge_addNode.trans hasEdge_addNode
  rw [← hold]
  constructor
  · rintro ⟨i, j, he, hx, hy⟩
    obtain he | he := List.mem_append.1 he
    · exact .inl ⟨i, j, he, hx, hy⟩
    · obtain ⟨rfl, rfl⟩ := Prod.mk.inj (List.mem_singleton.1 he)
      have hx' := hx.symm.trans (hnode e.1 (by simp))
      have hy' := hy.symm.trans (hnode e.2 (by simp))
      exact .inr (Prod.ext (Option.some.inj hx') (Option.some.inj hy'))
  · rintro (⟨i, j, he, hx, hy⟩ | rfl)
    · exact ⟨i, j, List.mem_append_left _ he, hx, hy⟩
    · exact ⟨_, _, List.mem_append_right _ (List.mem_singleton_self _), hnode x (by simp),
        hnode y (by simp)⟩

theorem hasEdge_foldl_addNode {names : List String} :
    (names.foldl addNode g).HasEdge x y ↔ g.HasEdge x y := by
  induction names generalizing g with
  | nil => rfl
  | cons n names ih => exact ih.trans hasEdge_addNode

theorem hasEdge_foldl_addEdge {l : List (String × String)} :
    (l.foldl addEdge g).HasEdge x y ↔ g.HasEdge x y ∨ (x, y) ∈ l := by
  induction l generalizing g with
  | nil => simp
  | cons e l ih => rw [List.foldl_cons, ih, hasEdge_addEdge, List.mem_cons, or_assoc]

end DecompositionGraph

end TaskNetwork
