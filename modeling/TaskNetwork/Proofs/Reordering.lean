import TaskNetwork.Proofs.InferenceSucceeds

namespace TaskNetwork

open PatternSet

/-- The second domain lists what the first one does, in any order. -/
structure Domain.Reorders (d e : Domain) : Prop where
  sorts : e.sorts = d.sorts
  predicates : e.predicates.Perm d.predicates
  primitiveTasks : e.primitiveTasks.Perm d.primitiveTasks
  abstractTasks : e.abstractTasks.Perm d.abstractTasks
  methods : e.methods.Perm d.methods

section Reorders

variable {d e : Domain} {top predicate n : String} {positive : Bool} {m : Method} {l : Literal}
  {p : Pattern} {records others : String → TaskRecord} {policy : HiddenPolicy} {t : Task}
  {r : TaskRecord}

namespace Domain.Reorders

theorem symm (h : d.Reorders e) : e.Reorders d :=
  ⟨h.sorts.symm, h.predicates.symm, h.primitiveTasks.symm, h.abstractTasks.symm, h.methods.symm⟩

theorem tasks (h : d.Reorders e) : e.tasks.Perm d.tasks := h.primitiveTasks.append h.abstractTasks

theorem isPrimitive_iff (h : d.Reorders e) : e.IsPrimitive n ↔ d.IsPrimitive n :=
  (h.primitiveTasks.map _).mem_iff

theorem decomposes_eq (h : d.Reorders e) : e.Decomposes = d.Decomposes := by
  funext a b
  simp only [Decomposes, (h.abstractTasks.map _).mem_iff, h.methods.mem_iff]

theorem visits_iff (h : d.Reorders e) : e.Visits top n ↔ d.Visits top n := by
  have hcontinues : e.Continues = d.Continues := by
    funext a b
    simp only [Continues, h.isPrimitive_iff, h.decomposes_eq]
  rw [Visits, Visits, hcontinues]

theorem names (h : d.Reorders e) (hd : d.NamesDiffer) : e.NamesDiffer :=
  ⟨(h.tasks.map _).nodup_iff.2 hd.tasks, (h.methods.map _).nodup_iff.2 hd.methods⟩

theorem sortsDeclared (h : d.Reorders e) (hs : d.SortsDeclared) : e.SortsDeclared := by
  intro m hm v hv
  rw [h.sorts]
  exact hs m (h.methods.mem_iff.1 hm) v hv

variable (h : d.Reorders e) (hd : d.NamesDiffer)
include h hd

theorem task?_eq : e.task? n = d.task? n :=
  Option.ext fun t => by
    rw [(h.names hd).task?_eq_some, hd.task?_eq_some, h.tasks.mem_iff]

theorem resolveMethod_eq : e.resolveMethod n = d.resolveMethod n := by
  have hreversed : e.methods.reverse.Perm d.methods.reverse :=
    e.methods.reverse_perm.trans (h.methods.trans d.methods.reverse_perm.symm)
  have hnodup : (d.methods.reverse.map (·.name)).Nodup :=
    (d.methods.reverse_perm.map _).nodup_iff.2 hd.methods
  have hfind : e.methods.reverse.find? (·.name = n) = d.methods.reverse.find? (·.name = n) :=
    Option.ext fun m => by
      rw [find?_eq_some_of_nodup_map ((hreversed.map _).nodup_iff.2 hnodup),
        find?_eq_some_of_nodup_map hnodup, hreversed.mem_iff]
  rw [resolveMethod, resolveMethod, hfind]

theorem retains : d.Retains e where
  task? _ _ := h.task?_eq hd
  isPrimitive _ _ := h.isPrimitive_iff
  recursive _ _ := by rw [Recursive, Recursive, h.decomposes_eq]
  visits _ _ _ _ := h.visits_iff

theorem lowered_eq {s : Step} : p.lowered e m policy s = p.lowered d m policy s := by
  have hpassed : e.passed s = d.passed s := by rw [passed, passed, h.task?_eq hd]
  exact Pattern.lowered_congr hpassed rfl rfl

theorem overlaps_eq {q : Pattern} : p.overlaps e m q = p.overlaps d m q := by
  have hinstances : ∀ a : Argument, a.instances e m = a.instances d m := by
    intro a
    cases a <;> simp only [Argument.instances, sortOf, instances, h.resolveMethod_eq hd, h.sorts]
  induction p generalizing q with
  | nil => rfl
  | cons a p ih =>
    cases q with
    | nil => rfl
    | cons b q => simp only [Pattern.overlaps, hinstances, ih]

theorem needs_iff : m.Needs e records policy p ↔ m.Needs d records policy p := by
  simp only [Method.Needs, h.lowered_eq hd]

theorem ensures_iff : m.Ensures e records policy p ↔ m.Ensures d records policy p := by
  simp only [Method.Ensures, h.lowered_eq hd]

theorem adds_iff : m.Adds e records p ↔ m.Adds d records p := by
  simp only [Method.Adds, Method.EnsuresBefore, h.lowered_eq hd]

theorem requires_iff : m.Requires e records p ↔ m.Requires d records p := by
  simp only [Method.Requires, h.needs_iff hd, h.adds_iff hd, h.overlaps_eq hd]

theorem gathers (hr : Gathers e records t r) : Gathers d records t r where
  initialized := by simpa only [h.methods.mem_iff] using hr.initialized
  finished := hr.finished
  normal := hr.normal
  needs := by simpa only [h.methods.mem_iff, h.needs_iff hd] using hr.needs
  ensures := by simpa only [h.methods.mem_iff, h.ensures_iff hd] using hr.ensures
  adds_anything := by simpa only [h.methods.mem_iff] using hr.adds_anything
  mayAdd := by simpa only [h.methods.mem_iff, h.adds_iff hd] using hr.mayAdd

end Domain.Reorders

namespace Domain.Reorders

variable (h : d.Reorders e) (hd : d.WellFormed)
include h hd

theorem wellFormed : e.WellFormed where
  tasks t ht := hd.tasks t (h.tasks.mem_iff.1 ht)
  methods m hm := by
    have harity : ∀ n k, e.HasArity n k ↔ d.HasArity n k := fun n k => by
      simp only [HasArity, h.task?_eq hd.names]
    have hfits := hd.fits (h.methods.mem_iff.1 hm)
    exact checkMethod_eq_ok.2 ⟨hfits.consistent, (harity _ _).2 hfits.task,
      fun s hs => (harity _ _).2 (hfits.steps s hs)⟩
  names := h.names hd.names

theorem records_eq (hr : d.Solves top predicate positive records)
    (hr' : e.Solves top predicate positive others) {u : Task} (hu : d.task? top = some u)
    (hn : d.Visits top n) : records n = others n := by
  refine hr.eq_of_gathers (f := id) (h.retains hd.names) hr' (fun _ => rfl) hd hu rfl
    (fun _ _ ha _ hab => h.visits_iff.2 (ha.tail hab)) (fun t _ _ _ _ hsteps hgathers => ?_) hn
    (h.visits_iff.2 hn)
  exact (h.gathers hd.names hgathers).congr fun m hm htask s hs => (hsteps m hm htask s hs).symm

theorem infers (hs : d.SortsDeclared) (hl : e.Infers top m l) : d.Infers top m l := by
  obtain ⟨w', hw', f', hf', rfl, hmem⟩ := hl
  have he := h.wellFormed hd
  have hs' := h.sortsDeclared hs
  obtain ⟨u, hu⟩ := exists_task?_of_sweep hw'
  rw [h.task?_eq hd.names] at hu
  obtain ⟨w, hw⟩ := hd.sweep_ok hs hu l.predicate l.positive
  obtain ⟨hm, hvisits, hnp, hfinds'⟩ := finds_of_sweep he hs' hw' hf'
  rw [h.methods.mem_iff] at hm
  rw [h.visits_iff] at hvisits
  rw [h.isPrimitive_iff] at hnp
  obtain ⟨f, hf, hmethod⟩ := (exists_finding_iff hd hs hw).2 ⟨hm, hvisits, hnp⟩
  obtain ⟨-, -, -, hfinds⟩ := finds_of_sweep hd hs hw hf
  have hagree : ∀ s ∈ f'.method.steps, w.record s.task = w'.record s.task := fun s hs₁ =>
    h.records_eq hd (solves_of_sweep hd hw) (solves_of_sweep he hw') hu
      (hvisits.tail ⟨hnp, hd.decomposes hm hnp hs₁⟩)
  refine ⟨w, hw, f, hf, hmethod, (hfinds.inferred.2 _).2 ?_⟩
  rw [hmethod, Method.Requires.congr hagree, ← h.requires_iff hd.names]
  exact (hfinds'.inferred.2 _).1 hmem

theorem candidate_iff (hs : d.SortsDeclared) : e.Candidate top m l ↔ d.Candidate top m l := by
  refine and_congr (h.predicates.map _).mem_iff ⟨h.infers hd hs, ?_⟩
  exact h.symm.infers (h.wellFormed hd) (h.sortsDeclared hs)

end Domain.Reorders

end Reorders

end TaskNetwork
