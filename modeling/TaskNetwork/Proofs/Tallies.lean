import Mathlib.Algebra.Order.BigOperators.Group.List
import TaskNetwork.Proofs.RecursionBelow
import TaskNetwork.Proofs.SecondInference

namespace TaskNetwork

section Alter

variable {name n : String} {f : MethodTally → MethodTally}
  {entries : List (String × MethodTally)}

theorem lookup_alterTally : (alterTally name f entries).lookup n =
    if n = name then some (f ((entries.lookup name).getD {})) else entries.lookup n := by
  induction entries with
  | nil =>
    rw [alterTally, List.lookup_cons]
    by_cases hn : n = name
    · simp [hn]
    · simp [hn, beq_false_of_ne hn]
  | cons e entries ih =>
    obtain ⟨k, c⟩ := e
    rw [alterTally]
    by_cases hk : k = name
    · subst hk
      rw [if_pos rfl]
      by_cases hn : n = k
      · simp [hn]
      · simp [hn, List.lookup_cons, beq_false_of_ne hn]
    · rw [if_neg hk, List.lookup_cons, ih, List.lookup_cons, List.lookup_cons,
        beq_false_of_ne (Ne.symm hk)]
      by_cases hn : n = name
      · simp [hn, beq_false_of_ne (Ne.symm hk)]
      · simp [hn]

theorem nodup_alterTally (h : (entries.map (·.1)).Nodup) :
    ((alterTally name f entries).map (·.1)).Nodup := by
  induction entries with
  | nil => exact List.nodup_singleton name
  | cons e entries ih =>
    obtain ⟨hnew, hentries⟩ := List.nodup_cons.1 h
    rw [alterTally]
    split
    · next he => exact he ▸ h
    · next he =>
      refine List.nodup_cons.2 ⟨fun hmem => ?_, ih hentries⟩
      obtain ⟨e', he', heq⟩ := List.mem_map.1 hmem
      obtain hname | hold := fst_mem_alterTally he'
      · exact he (heq.symm.trans hname)
      · exact hnew (heq ▸ List.mem_map_of_mem hold)

theorem lookup_eq_some_iff {c : MethodTally} (h : (entries.map (·.1)).Nodup) :
    entries.lookup n = some c ↔ (n, c) ∈ entries := by
  induction entries with
  | nil => simp
  | cons e entries ih =>
    obtain ⟨k, b⟩ := e
    obtain ⟨hnew, hentries⟩ := List.nodup_cons.1 h
    rw [List.lookup_cons, List.mem_cons, Prod.mk.injEq]
    by_cases hn : n = k
    · subst hn
      have hno : (n, c) ∉ entries := fun hmem => hnew (List.mem_map_of_mem (f := (·.1)) hmem)
      simp [hno, eq_comm]
    · simp [hn, beq_false_of_ne hn, ih hentries]

end Alter

/-- The tally counts the methods and tasks of the domain, and the literals that were accepted and
that were not, of each of which the name of the method is listed that it was offered to. -/
structure Tally.Counts (d : Domain) (accepted rejected : List String) (t : Tally) : Prop where
  methods : t.methods = d.methods.length
  tasks : t.tasks = d.tasks.length
  nodup : (t.perMethod.map (·.1)).Nodup
  ofMethod : ∀ n, t.ofMethod n = { accepted := accepted.count n, redundant := rejected.count n }
  total : t.accepted = accepted.length

namespace Tally

variable {d : Domain} {t : Tally} {accepted rejected : List String} {name n : String}

theorem ofMethod_alter (t : Tally) (f : MethodTally → MethodTally) :
    ofMethod { t with perMethod := alterTally name f t.perMethod } n =
      if n = name then f (t.ofMethod name) else t.ofMethod n := by
  rw [ofMethod, lookup_alterTally]
  split <;> rfl

theorem counts_ofDomain (d : Domain) : (Draft.ofDomain d).tally.Counts d [] [] :=
  ⟨rfl, rfl, List.nodup_nil, fun _ => rfl, rfl⟩

theorem Counts.accept (h : t.Counts d accepted rejected) (name : String) :
    (t.accept name).Counts d (name :: accepted) rejected where
  methods := h.methods
  tasks := h.tasks
  nodup := nodup_alterTally h.nodup
  ofMethod n := by
    rw [Tally.accept, ofMethod_alter, h.ofMethod, h.ofMethod]
    by_cases hn : n = name
    · simp [hn]
    · simp [hn, List.count_cons_of_ne (Ne.symm hn)]
  total := by rw [accepted_accept, h.total, List.length_cons]

theorem Counts.reject (h : t.Counts d accepted rejected) (name : String) :
    (t.reject name).Counts d accepted (name :: rejected) where
  methods := h.methods
  tasks := h.tasks
  nodup := nodup_alterTally h.nodup
  ofMethod n := by
    rw [Tally.reject, ofMethod_alter, h.ofMethod, h.ofMethod]
    by_cases hn : n = name
    · simp [hn]
    · simp [hn, List.count_cons_of_ne (Ne.symm hn)]
  total := by rw [accepted_reject, h.total]

theorem Counts.checkingMethods_eq (h : t.Counts d accepted rejected) {names : List String}
    (hnames : names.Nodup) (hsub : ∀ n ∈ accepted, n ∈ names) :
    t.checkingMethods = names.countP fun n => 0 < (t.ofMethod n).accepted := by
  have hperm : ((t.perMethod.filter (·.2.accepted ≠ 0)).map (·.1)).Perm
      (names.filter fun n => 0 < (t.ofMethod n).accepted) := by
    have hkeys : ((t.perMethod.filter (·.2.accepted ≠ 0)).map (·.1)).Nodup :=
      h.nodup.sublist (List.filter_sublist.map _)
    rw [List.perm_ext_iff_of_nodup hkeys (hnames.filter _)]
    intro n
    have hcount := h.ofMethod n
    rw [List.mem_map, List.mem_filter, decide_eq_true_eq]
    constructor
    · rintro ⟨⟨k, c⟩, he, rfl⟩
      obtain ⟨hmem, hc⟩ := List.mem_filter.1 he
      have hlookup := (lookup_eq_some_iff h.nodup).2 hmem
      rw [Tally.ofMethod, hlookup, Option.getD_some] at hcount ⊢
      have hpos : 0 < accepted.count k := by
        rw [hcount] at hc
        simpa [Nat.pos_iff_ne_zero] using hc
      exact ⟨hsub k (List.count_pos_iff.1 hpos), by rw [hcount]; exact hpos⟩
    · rintro ⟨-, hpos⟩
      cases hlookup : t.perMethod.lookup n with
      | none => simp [Tally.ofMethod, hlookup] at hpos
      | some c =>
        rw [Tally.ofMethod, hlookup, Option.getD_some] at hpos
        refine ⟨(n, c), List.mem_filter.2 ⟨(lookup_eq_some_iff h.nodup).1 hlookup, ?_⟩, rfl⟩
        exact decide_eq_true (Nat.pos_iff_ne_zero.1 hpos)
  rw [checkingMethods, ← List.length_map (·.1), hperm.length_eq, List.countP_eq_length_filter]

section Sums

variable {e : String × MethodTally}

theorem accepted_le_of_mem (he : e ∈ t.perMethod) : e.2.accepted ≤ t.accepted := by
  rw [accepted, ← List.foldr_map (f := fun e : String × MethodTally => e.2.accepted),
    ← List.sum_eq_foldr]
  exact List.le_sum_of_mem (List.mem_map_of_mem he)

theorem redundant_le_of_mem (he : e ∈ t.perMethod) : e.2.redundant ≤ t.redundant := by
  rw [redundant, ← List.foldr_map (f := fun e : String × MethodTally => e.2.redundant),
    ← List.sum_eq_foldr]
  exact List.le_sum_of_mem (List.mem_map_of_mem he)

/-- Where the sums are given out, no count has left the machine words. -/
theorem lt_size_of_summary {s : Summary} (h : t.summary = .ok s) (he : e ∈ t.perMethod) :
    e.2.accepted < UInt64.size ∧ e.2.redundant < UInt64.size := by
  rw [summary] at h
  split at h
  · next hfit =>
    have haccepted := accepted_le_of_mem he
    have hredundant := redundant_le_of_mem he
    exact ⟨by omega, by omega⟩
  · cases h

end Sums

end Tally

end TaskNetwork
