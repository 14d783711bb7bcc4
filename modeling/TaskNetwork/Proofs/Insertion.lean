import TaskNetwork.Proofs.Decomposition

namespace TaskNetwork

/-- The plan with further calls before each of its positions. -/
def insertBefore (B : ℕ → List Call) : List Call → List Call
  | [] => []
  | c :: plan => B 0 ++ c :: insertBefore (fun i => B (i + 1)) plan

/-- Where a position of the plan is found when calls have been put in. -/
def shifted (B : ℕ → List Call) : ℕ → ℕ
  | 0 => (B 0).length
  | i + 1 => shifted B i + 1 + (B (i + 1)).length

section Positions

variable {B : ℕ → List Call} {plan : List Call}

theorem shifted_succ (B : ℕ → List Call) (i : ℕ) :
    shifted B (i + 1) = (B 0).length + 1 + shifted (fun j => B (j + 1)) i := by
  induction i with
  | zero => rfl
  | succ i ih =>
    rw [shifted, ih, shifted]
    omega

theorem length_le_shifted (B : ℕ → List Call) (i : ℕ) : (B i).length ≤ shifted B i := by
  cases i with
  | zero => exact Nat.le_refl _
  | succ i =>
    rw [shifted]
    omega

theorem shifted_add_lt {i j : ℕ} (h : i < j) : shifted B i + (B j).length < shifted B j := by
  induction j, h using Nat.le_induction with
  | base =>
    simp only [Nat.succ_eq_add_one, shifted]
    omega
  | succ j _ ih =>
    rw [shifted]
    omega

theorem getElem?_shifted_sub {i k : ℕ} (hi : i < plan.length) (hk : k ≤ (B i).length) :
    (insertBefore B plan)[shifted B i - k]? = (B i ++ plan[i]?.toList)[(B i).length - k]? := by
  induction plan generalizing B i with
  | nil => cases hi
  | cons c plan ih =>
    cases i with
    | zero =>
      have hlt : (B 0).length - k < (B 0 ++ [c]).length := by
        rw [List.length_append, List.length_singleton]
        omega
      have hsplit : B 0 ++ c :: insertBefore (fun j => B (j + 1)) plan
          = (B 0 ++ [c]) ++ insertBefore (fun j => B (j + 1)) plan := by simp
      rw [insertBefore, shifted, hsplit, List.getElem?_append_left hlt]
      rfl
    | succ i =>
      have hle : k ≤ shifted (fun j => B (j + 1)) i :=
        Nat.le_trans hk (length_le_shifted (fun j => B (j + 1)) i)
      have hpos : shifted B (i + 1) - k
          = (B 0).length + ((shifted (fun j => B (j + 1)) i - k) + 1) := by
        rw [shifted_succ]
        omega
      rw [insertBefore, hpos, List.getElem?_append_right (Nat.le_add_right _ _),
        Nat.add_sub_cancel_left, List.getElem?_cons_succ, List.getElem?_cons_succ]
      exact ih (B := fun j => B (j + 1)) (Nat.lt_of_succ_lt_succ hi) hk

theorem getElem?_insertBefore_suffix {i : ℕ} {l : List Call} (hi : i < plan.length)
    (hl : l <:+ B i) : (insertBefore B plan)[shifted B i - l.length]? = (l ++ plan[i]?.toList)[0]? := by
  obtain ⟨k, hk⟩ := hl
  have hlen := congrArg List.length hk
  rw [List.length_append] at hlen
  have hsub : (B i).length - l.length = k.length := by omega
  rw [getElem?_shifted_sub hi (by omega), hsub, ← hk, List.append_assoc,
    List.getElem?_append_right (Nat.le_refl _), Nat.sub_self]

/-- The plan with the calls put in is made up of the blocks that end with the old positions. -/
theorem lt_length_insertBefore {p : ℕ} : p < (insertBefore B plan).length ↔
    ∃ i < plan.length, shifted B i ≤ p + (B i).length ∧ p ≤ shifted B i := by
  induction plan generalizing B p with
  | nil => simp [insertBefore]
  | cons c plan ih =>
    have hlen : (insertBefore B (c :: plan)).length
        = (B 0).length + 1 + (insertBefore (fun j => B (j + 1)) plan).length := by
      rw [insertBefore, List.length_append, List.length_cons]
      omega
    rw [hlen]
    constructor
    · intro hp
      by_cases h0 : p ≤ (B 0).length
      · exact ⟨0, Nat.succ_pos _, Nat.le_add_left _ _, h0⟩
      · have hin : p - ((B 0).length + 1) < (insertBefore (fun j => B (j + 1)) plan).length := by
          omega
        obtain ⟨i, hi, hlow, hhigh⟩ := ih.1 hin
        refine ⟨i + 1, Nat.succ_lt_succ hi, ?_, ?_⟩ <;> rw [shifted_succ] <;> omega
    · rintro ⟨_ | i, hi, hlow, hhigh⟩
      · rw [shifted] at hhigh
        omega
      · rw [shifted_succ] at hlow hhigh
        have hin : p - ((B 0).length + 1) < (insertBefore (fun j => B (j + 1)) plan).length := by
          refine ih.2 ⟨i, Nat.lt_of_succ_lt_succ hi, ?_, ?_⟩
          · have hle := length_le_shifted (fun j => B (j + 1)) i
            omega
          · omega
        have hle := length_le_shifted (fun j => B (j + 1)) i
        omega

end Positions

namespace Domain

variable {d : Domain}

theorem result_of_effects_eq_nil {c : Call} (h : d.effects c = []) (s : State) :
    d.result c s = s := by
  ext a
  simp [result, h]

theorem executable_append {l plan : List Call} {s : State} (hl : ∀ c ∈ l, d.effects c = [])
    (hpre : ∀ c ∈ l, ∀ p ∈ d.preconditions c, p.Holds s) (h : d.Executable plan s) :
    d.Executable (l ++ plan) s := by
  induction l with
  | nil => exact h
  | cons c l ih =>
    refine ⟨hpre c List.mem_cons_self, ?_⟩
    rw [result_of_effects_eq_nil (hl c List.mem_cons_self)]
    exact ih (fun e he => hl e (List.mem_cons_of_mem c he))
      fun e he => hpre e (List.mem_cons_of_mem c he)

/-- What is put in has no effects, and its preconditions hold where it is put in. -/
theorem Executable.insertBefore {B : ℕ → List Call} {plan : List Call} {s : State}
    (h : d.Executable plan s) (hB : ∀ i < plan.length, ∀ c ∈ B i, d.effects c = [] ∧
      ∀ p ∈ d.preconditions c, p.Holds (d.statesFrom plan s i)) :
    d.Executable (insertBefore B plan) s := by
  induction plan generalizing B s with
  | nil => exact h
  | cons e plan ih =>
    have hhead := hB 0 (Nat.succ_pos _)
    refine executable_append (fun c hc => (hhead c hc).1) (fun c hc => (hhead c hc).2) ⟨h.1, ?_⟩
    exact ih h.2 fun i hi c hc => hB (i + 1) (Nat.succ_lt_succ hi) c hc

end Domain

end TaskNetwork
