import Mathlib.Logic.Relation
import TaskNetwork.Domain.Order

namespace TaskNetwork

open Relation

variable {α : Type} [DecidableEq α]

theorem transGen_of_mem_reachableWithin {n : Nat} {edges : List (α × α)} {starts : List α} {b : α}
    (h : b ∈ reachableWithin n edges starts) :
    ∃ a ∈ starts, TransGen (fun x y => (x, y) ∈ edges) a b := by
  induction n generalizing edges starts with
  | zero => simp [reachableWithin] at h
  | succ n ih =>
    have hsucc : ∀ c ∈ (edges.filter (·.1 ∈ starts)).map (·.2), ∃ a ∈ starts, (a, c) ∈ edges := by
      intro c hc
      simp only [List.mem_map, List.mem_filter, decide_eq_true_eq] at hc
      obtain ⟨⟨a, _⟩, ⟨he, ha⟩, rfl⟩ := hc
      exact ⟨a, ha, he⟩
    simp only [reachableWithin] at h
    split at h
    · simp at h
    · next c cs heq =>
      rw [heq] at hsucc
      obtain h | h := List.mem_append.1 h
      · obtain ⟨a, ha, he⟩ := hsucc b h
        exact ⟨a, ha, .single he⟩
      · obtain ⟨c, hc, hp⟩ := ih h
        obtain ⟨a, ha, he⟩ := hsucc c hc
        exact ⟨a, ha, .head he (TransGen.mono (fun x y hxy => (List.mem_filter.1 hxy).1) _ _ hp)⟩

theorem exists_last_start {edges : List (α × α)} {starts : List α} {a b : α} (ha : a ∈ starts)
    (h : TransGen (fun x y => (x, y) ∈ edges) a b) :
    ∃ c, (∃ a ∈ starts, (a, c) ∈ edges) ∧
      ReflTransGen (fun x y => (x, y) ∈ edges.filter (·.1 ∉ starts)) c b := by
  induction h with
  | single he => exact ⟨_, ⟨a, ha, he⟩, .refl⟩
  | @tail b d _ he ih =>
    by_cases hb : b ∈ starts
    · exact ⟨d, ⟨b, hb, he⟩, .refl⟩
    · obtain ⟨c, hc, hp⟩ := ih
      exact ⟨c, hc, hp.tail (List.mem_filter.2 ⟨he, by simpa using hb⟩)⟩

theorem mem_reachableWithin_of_transGen {n : Nat} {edges : List (α × α)} {starts : List α}
    {a b : α} (hn : edges.length ≤ n) (ha : a ∈ starts)
    (h : TransGen (fun x y => (x, y) ∈ edges) a b) : b ∈ reachableWithin n edges starts := by
  induction n generalizing edges starts a with
  | zero =>
    have hnil : edges = [] := List.length_eq_zero_iff.1 (Nat.le_zero.1 hn)
    obtain ⟨c, ⟨a, _, he⟩, _⟩ := exists_last_start ha h
    simp [hnil] at he
  | succ n ih =>
    obtain ⟨c, ⟨a, ha, he⟩, hp⟩ := exists_last_start ha h
    have hc : c ∈ (edges.filter (·.1 ∈ starts)).map (·.2) :=
      List.mem_map.2 ⟨(a, c), List.mem_filter.2 ⟨he, by simpa using ha⟩, rfl⟩
    have hless : (edges.filter (·.1 ∉ starts)).length < edges.length := by
      rw [List.length_filter_lt_length_iff_exists]
      exact ⟨(a, c), he, by simpa using ha⟩
    simp only [reachableWithin]
    split
    · next heq => simp [heq] at hc
    · next d ds heq =>
      rw [heq] at hc
      obtain rfl | hp := reflTransGen_iff_eq_or_transGen.1 hp
      · exact List.mem_append_left _ hc
      · exact List.mem_append_right _ (ih (by omega) hc hp)

theorem mem_reachable {edges : List (α × α)} {starts : List α} {b : α} :
    b ∈ reachable edges starts ↔ ∃ a ∈ starts, TransGen (fun x y => (x, y) ∈ edges) a b :=
  ⟨transGen_of_mem_reachableWithin,
    fun ⟨_, ha, h⟩ => mem_reachableWithin_of_transGen (Nat.le_refl _) ha h⟩

namespace Method

def Before (m : Method) : String → String → Prop := TransGen fun a b => (a, b) ∈ m.ordering

/-- No path of ordering pairs comes back to where it starts. -/
def Acyclic (m : Method) : Prop := ∀ a, ¬m.Before a a

theorem mem_idsBefore {m : Method} {a b : String} : a ∈ m.idsBefore b ↔ m.Before a b := by
  have hswap : (fun x y => (x, y) ∈ m.ordering.map Prod.swap) =
      Function.swap fun x y => (x, y) ∈ m.ordering := by
    funext x y
    refine propext (List.mem_map.trans ⟨?_, fun h => ⟨(y, x), h, rfl⟩⟩)
    rintro ⟨⟨c, d⟩, he, heq⟩
    cases heq
    exact he
  rw [idsBefore, mem_reachable, hswap]
  simp only [List.mem_singleton, exists_eq_left]
  exact transGen_swap

theorem precedes_iff {m : Method} {a b : String} : m.Precedes a b ↔ a ≠ b ∧ m.Before a b := by
  rw [Precedes, mem_idsBefore]

theorem Acyclic.precedes_iff {m : Method} (hm : m.Acyclic) {a b : String} :
    m.Precedes a b ↔ m.Before a b := by
  rw [Method.precedes_iff]
  exact ⟨And.right, fun h => ⟨fun he => hm a (he ▸ h), h⟩⟩

theorem Acyclic.precedes_trans {m : Method} (hm : m.Acyclic) {a b c : String}
    (hab : m.Precedes a b) (hbc : m.Precedes b c) : m.Precedes a c := by
  rw [hm.precedes_iff] at *
  exact TransGen.trans hab hbc

theorem Acyclic.precedes_asymm {m : Method} (hm : m.Acyclic) {a b : String}
    (hab : m.Precedes a b) : ¬m.Precedes b a := by
  intro hba
  exact (hm.precedes_trans hab hba).1 rfl

theorem acyclic_iff {m : Method} : m.Acyclic ↔ ∀ p ∈ m.ordering, p.1 ∉ m.idsBefore p.1 := by
  simp only [mem_idsBefore]
  refine ⟨fun h p _ => h p.1, fun h a ha => ?_⟩
  obtain ⟨b, he, _⟩ := TransGen.head'_iff.1 ha
  exact h (a, b) he ha

theorem mem_predecessors {m : Method} {id : String} {s : Step} :
    s ∈ m.predecessors id ↔ s ∈ m.steps ∧ m.Precedes s.id id := by
  simp [predecessors, Precedes]

end Method

end TaskNetwork
