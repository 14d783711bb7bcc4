import TaskNetwork.Proofs.HiddenVariables

namespace TaskNetwork

open PatternSet

namespace Argument

def NameIn (names : List String) : Argument → Prop
  | .name v => v ∈ names
  | .hidden _ _ => True

/-- Not a hidden variable of the method. -/
def Foreign (method : String) : Argument → Prop
  | .name _ => True
  | .hidden o _ => o ≠ method

instance (names : List String) : DecidablePred (NameIn names)
  | .name v => inferInstanceAs (Decidable (v ∈ names))
  | .hidden _ _ => isTrue trivial

instance (method : String) : DecidablePred (Foreign method)
  | .name _ => isTrue trivial
  | .hidden o _ => inferInstanceAs (Decidable (o ≠ method))

end Argument

namespace Pattern

def NamesIn (names : List String) (p : Pattern) : Prop := ∀ a ∈ p, a.NameIn names

def Foreign (method : String) (p : Pattern) : Prop := ∀ a ∈ p, a.Foreign method

instance (names : List String) : DecidablePred (NamesIn names) := fun p =>
  inferInstanceAs (Decidable (∀ a ∈ p, a.NameIn names))

instance (method : String) : DecidablePred (Foreign method) := fun p =>
  inferInstanceAs (Decidable (∀ a ∈ p, a.Foreign method))

variable {p : Pattern} {names : List String} {method : String}

theorem namesIn_iff : p.NamesIn names ↔ ∀ v, .name v ∈ p → v ∈ names := by
  refine ⟨fun h v hv => h _ hv, fun h a ha => ?_⟩
  cases a with
  | name v => exact h v ha
  | hidden o v => trivial

theorem foreign_iff : p.Foreign method ↔ ∀ v, .hidden method v ∉ p := by
  refine ⟨fun h v hv => h _ hv rfl, fun h a ha => ?_⟩
  cases a with
  | name v => trivial
  | hidden o v =>
    rintro rfl
    exact h v ha

theorem namesIn_cons {a : Argument} :
    NamesIn names (a :: p) ↔ a.NameIn names ∧ p.NamesIn names := List.forall_mem_cons

theorem foreign_cons {a : Argument} :
    Foreign method (a :: p) ↔ a.Foreign method ∧ p.Foreign method := List.forall_mem_cons

theorem Foreign.reveal_hide {m : Method} (h : p.Foreign m.name) :
    (p.hide m).reveal id m.name = p := by
  have hreveal : (p.hide m).reveal id m.name = p.reveal id m.name := Pattern.reveal_hide rfl
  rw [hreveal]
  refine (List.map_congr_left fun a ha => ?_).trans (List.map_id p)
  cases a with
  | name v => rfl
  | hidden o v => exact if_neg (h _ ha)

theorem NamesIn.hide {m : Method} (h : p.NamesIn m.taskArguments) : p.hide m = p := by
  refine (List.map_congr_left fun a ha => ?_).trans (List.map_id p)
  cases a with
  | name v => exact if_pos (h _ ha)
  | hidden o v => rfl

theorem Foreign.foreign_hide {m : Method} (h : p.Foreign m.name) :
    (p.hide m).Foreign m.name ↔ p.NamesIn m.taskArguments := by
  refine ⟨fun hhide => namesIn_iff.2 fun v hv => ?_, fun hnames => hnames.hide.symm ▸ h⟩
  by_contra hno
  refine foreign_iff.1 hhide v (List.mem_map.2 ⟨_, hv, ?_⟩)
  exact if_neg hno

end Pattern

namespace PatternSet

def map (f : Pattern → Pattern) : PatternSet → PatternSet
  | .anything => .anything
  | .listed ps => ofList (ps.map f)

def filter (φ : Pattern → Prop) [DecidablePred φ] : PatternSet → PatternSet
  | .anything => .anything
  | .listed ps => .listed (ps.filter φ)

variable {f : Pattern → Pattern} {φ : Pattern → Prop} [DecidablePred φ] {s : PatternSet}
  {p : Pattern} {ps : List Pattern}

theorem map_eq_anything : s.map f = anything ↔ s = anything := by
  cases s <;> simp [map]

theorem mem_map : p ∈ (s.map f).toList ↔ ∃ q ∈ s.toList, f q = p := by
  cases s with
  | anything => simp [map, toList]
  | listed ps => rw [map, toList_ofList_iff, List.mem_map, toList_listed]

theorem mem_filter : p ∈ (s.filter φ).toList ↔ p ∈ s.toList ∧ φ p := by
  cases s with
  | anything => simp [filter, toList]
  | listed ps => simp [filter]

theorem normal_map : (s.map f).Normal := by
  cases s with
  | anything => exact normal_anything
  | listed ps => exact normal_ofList _

theorem Normal.filter (hs : s.Normal) : (s.filter φ).Normal := by
  cases s with
  | anything => exact normal_anything
  | listed ps => exact List.Pairwise.filter _ hs

theorem Normal.eq_ofList (hs : s.Normal) (hne : s ≠ anything) (h : ∀ p, p ∈ s.toList ↔ p ∈ ps) :
    s = ofList ps :=
  hs.ext (normal_ofList ps) (iff_of_false hne ofList_ne_anything) fun p =>
    (h p).trans toList_ofList_iff.symm

theorem map_ofList (f : Pattern → Pattern) (ps : List Pattern) :
    (ofList ps).map f = ofList (ps.map f) := by
  apply normal_map.eq_ofList
  · simp [ofList, map]
  · intro p
    simp only [mem_map, toList_ofList_iff, List.mem_map]

theorem filter_ofList (φ : Pattern → Prop) [DecidablePred φ] (ps : List Pattern) :
    (ofList ps).filter φ = ofList (ps.filter φ) := by
  apply (normal_ofList ps).filter.eq_ofList
  · simp [ofList, filter]
  · intro p
    simp only [mem_filter, toList_ofList_iff, List.mem_filter, decide_eq_true_eq]

end PatternSet

section Lowering

variable {task : Except DomainError Task} {d : Domain} {m : Method} {s : Step}
  {policy : HiddenPolicy} {p q : Pattern}

theorem Method.binding_eq_hidden {v : String} (h : m.binding v = .ok .hidden) :
    v ∉ m.taskArguments := by
  rw [binding] at h
  split at h
  · cases h
  · next hlast =>
    exact fun hv => lastIndex?_eq_none.1 hlast v hv (decide_eq_true rfl)

/-- An argument as the policy shows it to the method. -/
def Argument.seen (m : Method) (policy : HiddenPolicy) : Argument → Option Argument
  | .name v => m.seen policy v
  | .hidden o v => some (.hidden o v)

theorem Argument.lower_of_keep {a b : Argument}
    (h : a.lower task (.ok m) m s .keep = .ok (some b)) (policy : HiddenPolicy) :
    a.lower task (.ok m) m s policy = .ok (b.seen m policy) := by
  cases a with
  | hidden o v =>
    obtain rfl := Option.some.inj (lower_hidden h)
    rfl
  | name x =>
    simp only [lower, bind_eq_ok, liftM_eq_ok] at h
    obtain ⟨t, ht, i, hi, h⟩ := h
    cases hv : s.arguments[i]? with
    | none => simp [hv, throw_ne_ok] at h
    | some v =>
      simp only [hv, bind_eq_ok, liftM_eq_ok, Except.ok.injEq, exists_eq_left'] at h
      obtain ⟨c, hc, h⟩ := h
      simp only [lower, bind_eq_ok, liftM_eq_ok, ht, hi, hv, hc, Except.ok.injEq, exists_eq_left']
      cases c with
      | hidden =>
        obtain rfl : Argument.name v = b := Option.some.inj (pure_eq_ok.1 h)
        have hno : v ∉ m.taskArguments := Method.binding_eq_hidden hc
        exact congrArg Except.ok (if_neg hno).symm
      | exposed j =>
        have hj : m.taskArguments[j]? = some v := Method.binding_eq_exposed hc
        simp only [hj] at h ⊢
        obtain rfl : Argument.name v = b := Option.some.inj (pure_eq_ok.1 h)
        exact congrArg Except.ok (if_pos (List.mem_of_getElem? hj)).symm

theorem Argument.foreign_lower {a b : Argument}
    (h : a.lower task (.ok m) m s .keep = .ok (some b)) (ha : a.Foreign m.name) :
    b.Foreign m.name := by
  cases a with
  | hidden o v =>
    obtain rfl := Option.some.inj (lower_hidden h)
    exact ha
  | name x =>
    obtain ⟨v, hv | hv⟩ := lower_name_shape h <;> obtain rfl := Option.some.inj hv <;> trivial

namespace Pattern

theorem foreign_lower (h : p.lower task (.ok m) m s .keep = .ok (some q)) (hp : p.Foreign m.name) :
    q.Foreign m.name := by
  induction p generalizing q with
  | nil =>
    cases h
    exact foreign_iff.2 fun _ hv => by cases hv
  | cons a p ih =>
    obtain ⟨ha, hp⟩ := foreign_cons.1 hp
    obtain ⟨-, h⟩ | ⟨b, r, hb, hr, h⟩ := lower_cons h
    · cases h
    · obtain ⟨q, rfl, rfl⟩ := Option.map_eq_some_iff.1 h.symm
      exact foreign_cons.2 ⟨Argument.foreign_lower hb ha, ih hr hp⟩

/-- To qualify is to keep the names and then to hide those that the task does not know. -/
theorem lower_qualify_of_keep (h : p.lower task (.ok m) m s .keep = .ok (some q)) :
    p.lower task (.ok m) m s .qualify = .ok (some (q.hide m)) := by
  induction p generalizing q with
  | nil =>
    cases h
    rfl
  | cons a p ih =>
    obtain ⟨-, h⟩ | ⟨b, r, hb, hr, h⟩ := lower_cons h
    · cases h
    · obtain ⟨q, rfl, rfl⟩ := Option.map_eq_some_iff.1 h.symm
      have hseen : b.seen m .qualify = some (b.hide m) := by
        cases b with
        | hidden o v => rfl
        | name v =>
          simp only [Argument.seen, Method.seen, Argument.hide]
          split <;> rfl
      rw [lower_cons_of (Argument.lower_of_keep hb .qualify) (ih hr), hseen]
      rfl

theorem lower_drop_of_keep (h : p.lower task (.ok m) m s .keep = .ok (some q)) :
    p.lower task (.ok m) m s .drop = .ok (if q.NamesIn m.taskArguments then some q else none) := by
  induction p generalizing q with
  | nil =>
    cases h
    rfl
  | cons a p ih =>
    obtain ⟨-, h⟩ | ⟨b, r, hb, hr, h⟩ := lower_cons h
    · cases h
    · obtain ⟨q, rfl, rfl⟩ := Option.map_eq_some_iff.1 h.symm
      have hseen : b.seen m .drop = if b.NameIn m.taskArguments then some b else none := by
        cases b with
        | hidden o v => rfl
        | name v => rfl
      rw [lower_cons_of (Argument.lower_of_keep hb .drop) (ih hr), hseen]
      by_cases hname : b.NameIn m.taskArguments
      · by_cases hnames : Pattern.NamesIn m.taskArguments q
        · rw [if_pos hname, if_pos hnames, if_pos (namesIn_cons.2 ⟨hname, hnames⟩)]
          rfl
        · rw [if_pos hname, if_neg hnames, if_neg fun hall => hnames (namesIn_cons.1 hall).2]
          rfl
      · rw [if_neg hname, if_neg fun hall => hname (namesIn_cons.1 hall).1]
        rfl

end Pattern

theorem mapM_lower_of_keep {ps : List Pattern} {rs : List (Option Pattern)}
    (h : ps.mapM (Pattern.lower task (.ok m) m s .keep) = .ok rs) :
    ∃ qs : List Pattern, rs = qs.map some ∧
      ps.mapM (Pattern.lower task (.ok m) m s .qualify) = .ok (qs.map fun q => some (q.hide m)) ∧
      ps.mapM (Pattern.lower task (.ok m) m s .drop) =
        .ok (qs.map fun q => if q.NamesIn m.taskArguments then some q else none) ∧
      ((∀ p ∈ ps, p.Foreign m.name) → ∀ q ∈ qs, q.Foreign m.name) := by
  simp only [mapM_eq_ok] at h ⊢
  induction h with
  | nil => exact ⟨[], rfl, .nil, .nil, fun _ _ hq => by cases hq⟩
  | @cons p r ps rs hpr _ ih =>
    obtain ⟨q, rfl⟩ := Pattern.lower_ne_none (by decide) hpr
    obtain ⟨qs, rfl, hqualify, hdrop, hforeign⟩ := ih
    refine ⟨q :: qs, rfl, .cons (Pattern.lower_qualify_of_keep hpr) hqualify,
      .cons (Pattern.lower_drop_of_keep hpr) hdrop, fun hps => ?_⟩
    obtain ⟨hp, hps⟩ := List.forall_mem_cons.1 hps
    exact List.forall_mem_cons.2 ⟨Pattern.foreign_lower hpr hp, hforeign hps⟩

end Lowering

theorem Pattern.map_reveal_hide {m : Method} {qs : List Pattern} (hqs : ∀ q ∈ qs, q.Foreign m.name) :
    (qs.map (·.hide m)).map (·.reveal id m.name) = qs := by
  rw [List.map_map]
  refine (List.map_congr_left fun q hq => ?_).trans (List.map_id qs)
  exact (hqs q hq).reveal_hide

theorem Pattern.filter_foreign_hide {m : Method} {qs : List Pattern}
    (hqs : ∀ q ∈ qs, q.Foreign m.name) :
    (qs.map (·.hide m)).filter (·.Foreign m.name) = qs.filter (·.NamesIn m.taskArguments) := by
  induction qs with
  | nil => rfl
  | cons q qs ih =>
    obtain ⟨hq, hqs⟩ := List.forall_mem_cons.1 hqs
    rw [List.map_cons, List.filter_cons, List.filter_cons, ih hqs]
    by_cases hnames : q.NamesIn m.taskArguments
    · rw [if_pos (decide_eq_true (hq.foreign_hide.2 hnames)), if_pos (decide_eq_true hnames),
        hnames.hide]
    · rw [if_neg (mt of_decide_eq_true (mt hq.foreign_hide.1 hnames)),
        if_neg (mt of_decide_eq_true hnames)]

/-- The policies differ in nothing but what they make of the method's own variables. If the names
can be kept, then they can be qualified, and their names given back, and patterns with them can be
dropped. -/
theorem lower_policies_agree {d : Domain} {m : Method} {st : Step} {s k : PatternSet}
    (hd : (d.methods.map (·.name)).Nodup) (hm : m ∈ d.methods)
    (hs : ∀ p ∈ s.toList, p.Foreign m.name) (hkeep : s.lower d m st .keep = .ok k) :
    ∃ q r, s.lower d m st .qualify = .ok q ∧ s.lower d m st .drop = .ok r ∧
      k = q.map (·.reveal id m.name) ∧
      r = q.filter (·.Foreign m.name) ∧ r = k.filter (·.NamesIn m.taskArguments) := by
  cases s with
  | anything =>
    obtain rfl := pure_eq_ok.1 hkeep
    exact ⟨anything, anything, rfl, rfl, rfl, rfl, rfl⟩
  | listed ps =>
    have hm' := Domain.resolveMethod_of_nodup hd hm
    simp only [lower, hm', bind_eq_ok, pure_eq_ok] at hkeep
    obtain ⟨rs, hrs, rfl⟩ := hkeep
    obtain ⟨qs, rfl, hqualify, hdrop, hforeign⟩ := mapM_lower_of_keep hrs
    have hqs : ∀ q ∈ qs, q.Foreign m.name := hforeign hs
    have hkept : (qs.map some).filterMap id = qs := by simp
    rw [hkept]
    refine ⟨ofList (qs.map (·.hide m)), ofList (qs.filter (·.NamesIn m.taskArguments)), ?_, ?_, ?_,
      ?_, ?_⟩
    · have hlisted : (qs.map fun q => some (q.hide m)).filterMap id = qs.map (·.hide m) := by
        simp [List.filterMap_map]
      simp only [lower, hm', hqualify, bind_eq_ok, Except.ok.injEq, exists_eq_left', hlisted,
        pure_eq_ok]
    · have hlisted : (qs.map fun q => if q.NamesIn m.taskArguments then some q else none).filterMap id
          = qs.filter (·.NamesIn m.taskArguments) := by
        rw [List.filterMap_map, ← List.filterMap_eq_filter]
        exact List.filterMap_congr fun q _ => by simp [Option.guard]
      simp only [lower, hm', hdrop, bind_eq_ok, Except.ok.injEq, exists_eq_left', hlisted,
        pure_eq_ok]
    · rw [map_ofList, Pattern.map_reveal_hide hqs]
    · rw [filter_ofList, Pattern.filter_foreign_hide hqs]
    · rw [filter_ofList]

def byShelf : Method where
  name := "by_shelf"
  task := "store"
  taskArguments := ["what"]
  declarations := [{ name := "what", sort := "thing" }, { name := "shelf", sort := "place" }]
  steps := [{ id := "turn", task := "move", arguments := ["what", "shelf", "shelf"] }]

def storing : Domain where
  sorts := { entries := [("place", NameSet.ofList ["attic"]), ("thing", NameSet.ofList ["cup"])] }
  primitiveTasks := [Task.ofParameters "move" [{ name := "x", sort := "thing" },
    { name := "from", sort := "place" }, { name := "to", sort := "place" }]]
  abstractTasks := [Task.ofParameters "store" [{ name := "thing", sort := "thing" }]]
  methods := [byShelf]

theorem lower_policies_agree_storing :
    let turn : Step := { id := "turn", task := "move", arguments := ["what", "shelf", "shelf"] }
    let s := ofList [[.name "x"], [.name "from"], [.name "to"], [.name "x", .hidden "by_hand" "y"]]
    let k := ofList [[.name "what"], [.name "shelf"], [.name "what", .hidden "by_hand" "y"]]
    ((storing.methods.map (·.name)).Nodup ∧ byShelf ∈ storing.methods ∧
      (∀ p ∈ s.toList, p.Foreign byShelf.name) ∧ s.lower storing byShelf turn .keep = .ok k) ∧
    ∃ q r, s.lower storing byShelf turn .qualify = .ok q ∧
      s.lower storing byShelf turn .drop = .ok r ∧
      [.hidden "by_shelf" "shelf"] ∈ q ∧ k = q.map (·.reveal id byShelf.name) ∧
      r = ofList [[.name "what"], [.name "what", .hidden "by_hand" "y"]] ∧
      r = q.filter (·.Foreign byShelf.name) ∧ r = k.filter (·.NamesIn byShelf.taskArguments) := by
  intro turn s k
  have hd : (storing.methods.map (·.name)).Nodup := by decide
  have hm : byShelf ∈ storing.methods := List.mem_singleton.2 rfl
  have hs : ∀ p ∈ s.toList, p.Foreign byShelf.name := by decide
  have hkeep : s.lower storing byShelf turn .keep = .ok k := rfl
  obtain ⟨q, r, hqualify, hdrop, hk, hr, hr'⟩ := lower_policies_agree hd hm hs hkeep
  have hq : [.hidden "by_shelf" "shelf"] ∈ q := by
    obtain rfl := Except.ok.inj hqualify
    decide
  have hmembers : r = ofList [[.name "what"], [.name "what", .hidden "by_hand" "y"]] := by
    rw [hr']
    decide
  exact ⟨⟨hd, hm, hs, hkeep⟩, q, r, hqualify, hdrop, hq, hk, hmembers, hr, hr'⟩

end TaskNetwork
