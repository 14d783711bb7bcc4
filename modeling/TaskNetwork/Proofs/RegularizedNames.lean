import TaskNetwork.Proofs.RegularizedDomains
import TaskNetwork.Proofs.Runs

namespace TaskNetwork

/-- Each method with the name of one for the rest of a chain goes with a task of the same number. -/
def Domain.Paired (d : Domain) : Prop := ∀ m ∈ d.methods, ∀ k s, m.name = restMethodName k s →
  restTaskName k s ∈ d.tasks.map (·.name)

section Numbers

theorem numberedName_mem_map {mark : String} {numbers : List (ℕ × String)} {k : ℕ} {s : String} :
    numberedName mark k s ∈ numbers.map (fun n => numberedName mark n.1 n.2) ↔ (k, s) ∈ numbers := by
  refine ⟨fun h => ?_, fun h => List.mem_map.2 ⟨(k, s), h, rfl⟩⟩
  obtain ⟨⟨j, r⟩, hn, hname⟩ := List.mem_map.1 h
  obtain ⟨rfl, rfl⟩ := numberedName_inj hname
  exact hn

variable {given taken : List String} {m : Method} {ms : List Method} {c part : Cascade}
  {parts : List Cascade}

theorem Cascaded.exists_numbers (h : Cascaded taken m c) (hfault : c.fault? = none) :
    ∃ numbers : List (ℕ × String),
      c.methods.map (·.name) = m.name :: numbers.map (fun n => restMethodName n.1 n.2) ∧
      c.tasks.map (·.name) = numbers.map fun n => restTaskName n.1 n.2 := by
  induction h with
  | short _ => exact ⟨[], rfl, rfl⟩
  | overflow _ _ => cases hfault
  | @cut taken m first second later c _ _ _ ih =>
    obtain ⟨numbers, hmethods, htasks⟩ := ih hfault
    refine ⟨(m.nextCounter taken, (nameSeed m.name).2) :: numbers, ?_, ?_⟩
    · rw [List.map_cons, hmethods]
      rfl
    · rw [List.map_cons, htasks]
      rfl

theorem Becomes.exists_numbers (h : Becomes given m part) : ∃ numbers : List (ℕ × String),
    part.methods.map (·.name) = m.name :: numbers.map (fun n => restMethodName n.1 n.2) ∧
    part.tasks.map (·.name) = numbers.map fun n => restTaskName n.1 n.2 := by
  cases h with
  | keep _ => exact ⟨[], rfl, rfl⟩
  | cut hlong hpart hfault _ =>
    obtain ⟨rfl, -⟩ := Method.chain?_eq_some (Method.longChain?_eq_some hlong).2
    exact hpart.exists_numbers hfault

theorem exists_numbers_parts (h : List.Forall₂ (Becomes given) ms parts) :
    ∃ numbers : List (ℕ × String),
      ((parts.flatMap (·.methods)).map (·.name)).Perm
        (ms.map (·.name) ++ numbers.map fun n => restMethodName n.1 n.2) ∧
      (parts.flatMap (·.tasks)).map (·.name) = numbers.map fun n => restTaskName n.1 n.2 := by
  induction h with
  | nil => exact ⟨[], .refl _, rfl⟩
  | @cons m part ms parts hm _ ih =>
    obtain ⟨first, hfirst, hfirstTasks⟩ := hm.exists_numbers
    obtain ⟨others, hothers, hotherTasks⟩ := ih
    refine ⟨first ++ others, ?_, ?_⟩
    · rw [List.flatMap_cons, List.map_append, hfirst, List.map_cons, List.map_append,
        List.cons_append, List.cons_append, List.perm_cons]
      exact (hothers.append_left _).trans (List.perm_append_comm_assoc ..)
    · rw [List.flatMap_cons, List.map_append, hfirstTasks, hotherTasks, List.map_append]

end Numbers

/-- The numbers of the new tasks are those of the new methods. -/
theorem Domain.Parts.exists_numbers {d : Domain} {parts : List Cascade} (h : d.Parts parts) :
    ∃ numbers : List (ℕ × String), numbers.Nodup ∧
      (d.regularize.1.methods.map (·.name)).Perm
        (d.methods.map (·.name) ++ numbers.map fun n => restMethodName n.1 n.2) ∧
      d.regularize.1.tasks.map (·.name) =
        d.tasks.map (·.name) ++ numbers.map (fun n => restTaskName n.1 n.2) ∧
      ∀ n ∈ numbers, restTaskName n.1 n.2 ∉ d.tasks.map (·.name) := by
  obtain ⟨numbers, hmethods, htasks⟩ := exists_numbers_parts h.becomes
  have hnodup := h.nodup
  rw [htasks] at hnodup
  refine ⟨numbers, hnodup.of_map, h.methods ▸ hmethods, ?_, fun n hn => ?_⟩
  · rw [h.tasks, List.map_append, htasks]
  · have hname : restTaskName n.1 n.2 ∈ (parts.flatMap (·.tasks)).map (·.name) :=
      htasks ▸ List.mem_map_of_mem hn
    obtain ⟨t, ht, hname⟩ := List.mem_map.1 hname
    exact hname ▸ h.notMem t ht

/-- Different methods have different names after long chains have been cut just if none of them had
the name of the method that goes with a new task. If the methods with such names go with tasks
beforehand, then they do so afterwards, and so all names differ however often chains are cut. -/
theorem regularize_names_nodup_iff {d : Domain}
    (hd : ∀ m ∈ d.methods, d.checkMethod m = .ok ()) (hnames : (d.methods.map (·.name)).Nodup)
    (hrun : d.regularize.2 ≠ .error .overflow) :
    ((d.regularize.1.methods.map (·.name)).Nodup ↔
      ∀ m ∈ d.methods, ∀ k s, m.name = restMethodName k s →
        restTaskName k s ∈ d.regularize.1.tasks.map (·.name) →
        restTaskName k s ∈ d.tasks.map (·.name)) ∧
      (d.Paired → d.regularize.1.Paired) := by
  have hfits : ∀ m ∈ d.methods, d.Fits m := fun m hm => Domain.checkMethod_eq_ok.1 (hd m hm)
  obtain ⟨parts, h⟩ := Domain.exists_parts hfits (d.fault?_cascades hfits hrun)
  obtain ⟨numbers, hnodup, hmethods, htasks, hnew⟩ := h.exists_numbers
  have htask : ∀ k s, restTaskName k s ∈ d.regularize.1.tasks.map (·.name) ↔
      restTaskName k s ∈ d.tasks.map (·.name) ∨ (k, s) ∈ numbers := fun k s => by
    rw [htasks, List.mem_append]
    exact or_congr_right numberedName_mem_map
  constructor
  · rw [hmethods.nodup_iff, List.nodup_append]
    constructor
    · rintro ⟨-, -, hdisjoint⟩ m hm k s hname hks
      refine ((htask k s).1 hks).resolve_right fun hks => ?_
      exact hdisjoint m.name (List.mem_map_of_mem hm) (restMethodName k s)
        (numberedName_mem_map.2 hks) hname
    · intro hfree
      refine ⟨hnames, hnodup.map fun _ _ heq => Prod.ext_iff.2 (numberedName_inj heq), ?_⟩
      intro a ha b hb heq
      obtain ⟨m, hm, rfl⟩ := List.mem_map.1 ha
      obtain ⟨⟨k, s⟩, hks, rfl⟩ := List.mem_map.1 hb
      exact hnew _ hks (hfree m hm k s heq ((htask k s).2 (.inr hks)))
  · intro hpaired r hr k s hname
    have hr := hmethods.mem_iff.1 (List.mem_map_of_mem (f := (·.name)) hr)
    rw [hname, List.mem_append] at hr
    refine (htask k s).2 (hr.imp (fun hr => ?_) numberedName_mem_map.1)
    obtain ⟨m, hm, hmr⟩ := List.mem_map.1 hr
    exact hpaired m hm k s hmr

def byRailHalf : Method :=
  { byRail with
    name := "_two_reg_method0__by_rail"
    steps := byRail.steps.take 2
    ordering := byRail.ordering.take 1 }

def twoRailTrips : Domain := { railTrip with methods := [byRail, byRailHalf] }

def pairedRailTrips : Domain :=
  { twoRailTrips with
    abstractTasks := railTrip.abstractTasks ++
      [Task.ofParameters "_two_reg_task0__by_rail" []] }

theorem longChain?_byRailHalf : byRailHalf.longChain? = none := rfl

theorem regularize_names_nodup_iff_pairedRailTrips :
    pairedRailTrips.Paired ∧ (pairedRailTrips.regularize.1.methods.map (·.name)).Nodup ∧
      pairedRailTrips.regularize.1.Paired := by
  have hpaired : pairedRailTrips.Paired := by
    intro m hm k s hname
    obtain rfl | hm := List.mem_cons.1 hm
    · have hmark : restMethodMark.toList <+: byRail.name.toList := hname ▸ prefix_numberedName
      exact absurd hmark (by decide +kernel)
    · obtain rfl := List.mem_singleton.1 hm
      have hzero : byRailHalf.name = restMethodName 0 "by_rail" := by decide +kernel
      obtain ⟨rfl, rfl⟩ := numberedName_inj (hname.symm.trans hzero)
      decide +kernel
  have hrun : pairedRailTrips.regularize.2 ≠ .error .overflow := by
    simp only [Domain.regularize, pairedRailTrips, twoRailTrips, railTrip, cascades,
      longChain?_byRail, longChain?_byRailHalf]
    decide +kernel
  obtain ⟨hiff, hkept⟩ := regularize_names_nodup_iff (d := pairedRailTrips) (by decide) (by decide)
    hrun
  exact ⟨hpaired, hiff.2 fun m hm k s hname _ => hpaired m hm k s hname, hkept hpaired⟩

/-- The first free counter is that of a task, and a method with its number is there already. -/
theorem regularize_repeats_name :
    (∀ m ∈ twoRailTrips.methods, twoRailTrips.checkMethod m = .ok ()) ∧
      (twoRailTrips.methods.map (·.name)).Nodup ∧
      (∃ report, twoRailTrips.regularize.2 = .ok report) ∧
      twoRailTrips.regularize.1.methods.map (·.name) =
        ["by_rail", "_two_reg_method0__by_rail", "_two_reg_method0__by_rail"] ∧
      ¬(twoRailTrips.regularize.1.methods.map (·.name)).Nodup := by
  have hnames : twoRailTrips.regularize.1.methods.map (·.name) =
      ["by_rail", "_two_reg_method0__by_rail", "_two_reg_method0__by_rail"] := by
    simp only [Domain.regularize, twoRailTrips, railTrip, cascades, longChain?_byRail,
      longChain?_byRailHalf]
    decide +kernel
  have hreport : twoRailTrips.regularize.2 =
      .ok { cutMethods := 1, newTasks := 1, newMethods := 1 } := by
    simp only [Domain.regularize, twoRailTrips, railTrip, cascades, longChain?_byRail,
      longChain?_byRailHalf]
    rfl
  exact ⟨by decide, by decide, ⟨_, hreport⟩, hnames, by rw [hnames]; decide⟩

end TaskNetwork
