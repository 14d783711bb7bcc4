import Mathlib.Order.Defs.Unbundled
import TaskNetwork.Proofs.Chains

namespace TaskNetwork

section Search

variable {α : Type} [DecidableEq α] {edges : List (α × α)} {starts : List α}

theorem length_unfollowed_lt (h : (edges.filter (·.1 ∈ starts)).map (·.2) ≠ []) :
    (edges.filter (·.1 ∉ starts)).length < edges.length := by
  obtain ⟨b, hb⟩ := List.exists_mem_of_ne_nil _ h
  obtain ⟨e, he, -⟩ := List.mem_map.1 hb
  obtain ⟨he, hstart⟩ := List.mem_filter.1 he
  rw [List.length_filter_lt_length_iff_exists]
  exact ⟨e, he, by simpa using hstart⟩

theorem length_followed_add (edges : List (α × α)) (starts : List α) :
    ((edges.filter (·.1 ∈ starts)).map (·.2)).length +
      (edges.filter (·.1 ∉ starts)).length = edges.length := by
  have hsplit := List.length_eq_countP_add_countP (fun e : α × α => decide (e.1 ∈ starts))
    (l := edges)
  rw [List.countP_eq_length_filter, List.countP_eq_length_filter] at hsplit
  simpa using hsplit.symm

/-- No pair is followed twice. -/
theorem length_reachableWithin_le (n : ℕ) (edges : List (α × α)) (starts : List α) :
    (reachableWithin n edges starts).length ≤ edges.length := by
  induction n generalizing edges starts with
  | zero => exact Nat.zero_le _
  | succ n ih =>
    rw [reachableWithin]
    split
    · exact Nat.zero_le _
    · next b bs heq =>
      have hsplit := length_followed_add edges starts
      have hrest := ih (edges.filter (·.1 ∉ starts)) (b :: bs)
      rw [heq] at hsplit
      rw [List.length_append]
      omega

theorem reachableWithin_congr {n k : ℕ} (hn : edges.length ≤ n) (hk : edges.length ≤ k) :
    reachableWithin n edges starts = reachableWithin k edges starts := by
  induction n generalizing k edges starts with
  | zero =>
    obtain rfl := List.length_eq_zero_iff.1 (Nat.le_zero.1 hn)
    cases k <;> rfl
  | succ n ih =>
    cases k with
    | zero =>
      obtain rfl := List.length_eq_zero_iff.1 (Nat.le_zero.1 hk)
      rfl
    | succ k =>
      rw [reachableWithin, reachableWithin]
      split
      · rfl
      · next b bs heq =>
        have hless : (edges.filter (·.1 ∉ starts)).length < edges.length :=
          length_unfollowed_lt (heq ▸ List.cons_ne_nil b bs)
        rw [ih (Nat.le_of_lt_succ (hless.trans_le hn)) (Nat.le_of_lt_succ (hless.trans_le hk))]

end Search

namespace Method

variable {m : Method}

theorem Acyclic.isStrictOrder (hm : m.Acyclic) : IsStrictOrder String m.Precedes where
  irrefl _ h := h.1 rfl
  trans _ _ _ := hm.precedes_trans

/-- The search for what comes before an id ends, with as many rounds as there are ordering pairs or
more, and follows no pair twice. One id precedes another just if a path of ordering pairs leads from
it to the other one and the two differ; the ordering may be circular, say things twice and be about
ids that no step has. If it is not circular then this is a strict partial order. -/
theorem precedes_iff_path (m : Method) :
    (∀ b n, m.ordering.length ≤ n →
      reachableWithin n (m.ordering.map Prod.swap) [b] = m.idsBefore b) ∧
    (∀ b, (m.idsBefore b).length ≤ m.ordering.length) ∧
    (∀ a b, m.Precedes a b ↔
      a ≠ b ∧ Relation.TransGen (fun a b => (a, b) ∈ m.ordering) a b) ∧
    (m.Acyclic → IsStrictOrder String m.Precedes) := by
  have hlen : (m.ordering.map Prod.swap).length = m.ordering.length := List.length_map _
  refine ⟨fun b n hn => ?_, fun b => ?_, fun a b => precedes_iff, Acyclic.isStrictOrder⟩
  · rw [idsBefore, reachable]
    exact reachableWithin_congr (hlen.trans_le hn) (Nat.le_refl _)
  · rw [idsBefore, reachable, ← hlen]
    exact length_reachableWithin_le _ _ _

theorem precedes_iff_path_byTram :
    byTram.Acyclic ∧ IsStrictOrder String byTram.Precedes ∧ byTram.Precedes "ride" "leave" ∧
      ¬byTram.Precedes "leave" "board" := by
  have hacyclic : byTram.Acyclic := by
    rw [acyclic_iff]
    decide
  obtain ⟨-, -, hpath, horder⟩ := precedes_iff_path byTram
  have hhalt : ("ride", "halt") ∈ byTram.ordering := by decide
  have hleave : ("halt", "leave") ∈ byTram.ordering := by decide
  have hride : byTram.Precedes "ride" "leave" :=
    (hpath "ride" "leave").2 ⟨by decide, .tail (.single hhalt) hleave⟩
  have hboard : byTram.Precedes "board" "leave" :=
    (hpath "board" "leave").2 ⟨by decide, .single (by decide)⟩
  refine ⟨hacyclic, horder hacyclic, hride, fun h => ?_⟩
  exact (horder hacyclic).irrefl "leave" ((horder hacyclic).trans _ _ _ h hboard)

end Method

end TaskNetwork
