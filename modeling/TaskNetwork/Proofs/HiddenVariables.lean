import TaskNetwork.Proofs.Solutions

namespace TaskNetwork

open PatternSet

namespace Argument

def passed (d : Domain) (s : Step) : Argument → Argument
  | .name p => .name (d.passed s p)
  | .hidden o v => .hidden o v

/-- The variable is hidden if the task does not know it. -/
def hide (m : Method) : Argument → Argument
  | .name v => if v ∈ m.taskArguments then .name v else .hidden m.name v
  | .hidden o v => .hidden o v

def mapOwner (φ : String → String) : Argument → Argument
  | .name v => .name v
  | .hidden o v => .hidden (φ o) v

/-- A hidden variable of a method that belongs to the given one gets its name back. -/
def reveal (φ : String → String) (n : String) : Argument → Argument
  | .name v => .name v
  | .hidden o v => if φ o = n then .name v else .hidden (φ o) v

end Argument

namespace Pattern

def passed (d : Domain) (s : Step) (p : Pattern) : Pattern := p.map (·.passed d s)

def hide (m : Method) (p : Pattern) : Pattern := p.map (·.hide m)

def mapOwners (φ : String → String) (p : Pattern) : Pattern := p.map (·.mapOwner φ)

def reveal (φ : String → String) (n : String) (p : Pattern) : Pattern := p.map (·.reveal φ n)

variable {d d' : Domain} {m m' : Method} {s : Step} {t : Task} {p q : Pattern} {v : String}
  {φ : String → String} {n : String} {names : List String}

theorem lowered_keep : p.lowered d m .keep s = some (p.passed d s) := by
  induction p with
  | nil => rfl
  | cons a p ih =>
    have ha : a.lowered d m .keep s = some (a.passed d s) := by
      cases a with
      | hidden o v => rfl
      | name x => exact (ite_self _).trans rfl
    rw [lowered, ha, ih]
    rfl

theorem lowered_qualify : p.lowered d m .qualify s = some ((p.passed d s).hide m) := by
  induction p with
  | nil => rfl
  | cons a p ih =>
    have ha : a.lowered d m .qualify s = some ((a.passed d s).hide m) := by
      cases a with
      | hidden o v => rfl
      | name x =>
        simp only [Argument.lowered, Method.seen, Argument.passed, Argument.hide]
        split <;> rfl
    rw [lowered, ha, ih]
    rfl

theorem lowered_drop : p.lowered d m .drop s = some q ↔
    q = p.passed d s ∧ ∀ v, .name v ∈ q → v ∈ m.taskArguments := by
  induction p generalizing q with
  | nil =>
    refine ⟨fun h => ?_, fun h => congrArg some h.1.symm⟩
    obtain rfl : [] = q := Option.some.inj h
    exact ⟨rfl, fun v hv => by cases hv⟩
  | cons a p ih =>
    have ha : ∀ b, a.lowered d m .drop s = some b ↔
        b = a.passed d s ∧ ∀ v, .name v = b → v ∈ m.taskArguments := by
      intro b
      cases a with
      | hidden o v =>
        refine ⟨fun h => ?_, fun h => congrArg some h.1.symm⟩
        obtain rfl := Option.some.inj h
        exact ⟨rfl, fun w hw => by cases hw⟩
      | name x =>
        simp only [Argument.lowered, Method.seen, Argument.passed]
        split
        · next hx =>
          refine ⟨fun h => ?_, fun h => congrArg some h.1.symm⟩
          obtain rfl := Option.some.inj h
          exact ⟨rfl, fun w hw => by cases hw; exact hx⟩
        · next hx =>
          refine ⟨(fun h => by cases h), ?_⟩
          rintro ⟨rfl, hall⟩
          exact absurd (hall _ rfl) hx
    simp only [lowered, Option.bind_eq_some_iff, Option.map_eq_some_iff, ih, ha]
    constructor
    · rintro ⟨b, ⟨rfl, hb⟩, q, ⟨rfl, hq⟩, rfl⟩
      refine ⟨rfl, fun v hv => ?_⟩
      obtain hv | hv := List.mem_cons.1 hv
      · exact hb v hv
      · exact hq v hv
    · rintro ⟨rfl, hall⟩
      exact ⟨_, ⟨rfl, fun v hv => hall v (hv ▸ List.mem_cons_self)⟩, _,
        ⟨rfl, fun v hv => hall v (List.mem_cons_of_mem _ hv)⟩, rfl⟩

theorem ofNames_injective : Function.Injective ofNames :=
  List.map_injective_iff.2 fun _ _ => Argument.name.inj

theorem eq_ofNames_of_map {α : Type} {f : Argument → α} {g : String → α}
    (h : p.map f = names.map g) (hfg : ∀ a ∈ p, ∀ x ∈ names, f a = g x → a = .name x) :
    p = ofNames names := by
  induction p generalizing names with
  | nil => exact (List.map_eq_nil_iff.1 h.symm) ▸ rfl
  | cons a p ih =>
    cases names with
    | nil => cases h
    | cons x names =>
      obtain ⟨ha, htail⟩ := List.cons.inj h
      have hrest : p = ofNames names := ih htail fun b hb y hy =>
        hfg b (List.mem_cons_of_mem _ hb) y (List.mem_cons_of_mem _ hy)
      rw [hfg a List.mem_cons_self x List.mem_cons_self ha, hrest]
      rfl

/-- Patterns of names are told from others when they are hidden, unless it is one of these names
that the others have hidden before. -/
theorem eq_of_hide_eq (h : p.hide m = (ofNames names).hide m)
    (hp : ∀ v, .hidden m.name v ∈ p → v ∉ names) : p = ofNames names := by
  rw [hide, hide, ofNames, List.map_map] at h
  refine eq_ofNames_of_map h fun a ha x hx heq => ?_
  simp only [Function.comp, Argument.hide] at heq
  cases a with
  | name v =>
    dsimp only at heq
    split at heq <;> split at heq <;> cases heq <;> rfl
  | hidden o v =>
    dsimp only at heq
    split at heq <;> cases heq
    exact absurd hx (hp _ ha)

theorem eq_of_reveal_eq (h : p.reveal φ n = ofNames names)
    (hp : ∀ o v, .hidden o v ∈ p → φ o = n → v ∉ names) : p = ofNames names := by
  refine eq_ofNames_of_map h fun a ha x hx heq => ?_
  cases a with
  | name v => exact heq
  | hidden o v =>
    simp only [Argument.reveal] at heq
    split at heq
    · next ho =>
      cases heq
      exact absurd hx (hp o _ ha ho)
    · cases heq

theorem eq_of_mapOwners_eq (h : p.mapOwners φ = ofNames names) : p = ofNames names := by
  refine eq_ofNames_of_map h fun a _ x _ heq => ?_
  cases a with
  | name v => exact heq
  | hidden o v => cases heq

theorem reveal_ofNames : (ofNames names).reveal φ n = ofNames names := by
  simp [reveal, ofNames, Argument.reveal, Function.comp_def]

theorem reveal_hide (hn : φ m.name = n) : (p.hide m).reveal φ n = p.reveal φ n := by
  rw [reveal, hide, List.map_map]
  refine List.map_congr_left fun a _ => ?_
  cases a with
  | hidden o v => rfl
  | name v =>
    simp only [Function.comp, Argument.hide]
    split
    · rfl
    · simp only [Argument.reveal, hn, if_true]

theorem reveal_eq_mapOwners (h : ∀ o v, .hidden o v ∈ p → φ o ≠ n) :
    p.reveal φ n = p.mapOwners φ := by
  refine List.map_congr_left fun a ha => ?_
  cases a with
  | name v => rfl
  | hidden o v => exact if_neg (h o v ha)

theorem hide_reveal (hnames : ∀ v, .name v ∈ p → v ∈ m.taskArguments)
    (hhidden : ∀ o v, .hidden o v ∈ p → φ o = m.name → v ∉ m.taskArguments) :
    (p.reveal φ m.name).hide m = p.mapOwners φ := by
  rw [reveal, hide, List.map_map]
  refine List.map_congr_left fun a ha => ?_
  cases a with
  | name v => exact if_pos (hnames v ha)
  | hidden o v =>
    simp only [Function.comp, Argument.reveal, Argument.mapOwner]
    split
    · next ho => rw [Argument.hide, if_neg (hhidden o v ha ho), ho]
    · rfl

theorem mapOwners_passed : (p.passed d s).mapOwners φ = (p.mapOwners φ).passed d s := by
  simp only [passed, mapOwners, List.map_map]
  refine List.map_congr_left fun a _ => ?_
  cases a <;> rfl

theorem mapOwners_raised : (p.raised t m).mapOwners φ = (p.mapOwners φ).raised t m := by
  simp only [raised, mapOwners, List.map_map]
  refine List.map_congr_left fun a _ => ?_
  cases a <;> rfl

theorem mapOwners_ofNames : (ofNames names).mapOwners φ = ofNames names := by
  simp [mapOwners, ofNames, Argument.mapOwner, Function.comp_def]

theorem passed_congr (h : d'.passed s = d.passed s) (p : Pattern) :
    p.passed d' s = p.passed d s := by
  refine List.map_congr_left fun a _ => ?_
  cases a with
  | hidden o v => rfl
  | name x => rw [Argument.passed, h]; rfl

theorem passed_self (ht : d.task? s.task = some t) (hnodup : t.parameterNames.Nodup)
    (hs : s.arguments = t.parameterNames) (hp : ∀ v, .name v ∈ p → v ∈ t.parameterNames) :
    p.passed d s = p := by
  refine (List.map_congr_left fun a ha => ?_).trans (List.map_id p)
  cases a with
  | hidden o v => rfl
  | name v =>
    obtain ⟨i, hi⟩ := List.mem_iff_getElem?.1 (hp v ha)
    have hv : d.passed s v = v := by
      simp only [Domain.passed, ht]
      exact Task.valuation_eq hnodup hi (hs ▸ hi)
    rw [Argument.passed, hv]
    rfl

theorem raised_self (hnodup : t.parameterNames.Nodup) (hm : m.taskArguments = t.parameterNames)
    (hp : ∀ v, .name v ∈ p → v ∈ t.parameterNames) : p.raised t m = p := by
  refine (List.map_congr_left fun a ha => ?_).trans (List.map_id p)
  cases a with
  | hidden o v => rfl
  | name v =>
    obtain ⟨i, hi⟩ := List.mem_iff_getElem?.1 (hp v ha)
    rw [Argument.raised, Method.parameterOf, hm, lastIndex?_of_nodup hnodup hi, Option.bind_some,
      hi]
    rfl

theorem mem_hide {o : String} (h : .hidden o v ∈ p.hide m) :
    .hidden o v ∈ p ∨ .name v ∈ p ∧ o = m.name ∧ v ∉ m.taskArguments := by
  obtain ⟨a, ha, hav⟩ := List.mem_map.1 h
  cases a with
  | hidden o' v' => exact .inl (hav ▸ ha)
  | name x =>
    rw [Argument.hide] at hav
    split at hav
    · cases hav
    · next hx =>
      cases hav
      exact .inr ⟨ha, rfl, hx⟩

theorem name_mem_hide (h : .name v ∈ p.hide m) : v ∈ m.taskArguments := by
  obtain ⟨a, -, hav⟩ := List.mem_map.1 h
  cases a with
  | hidden o' v' => cases hav
  | name x =>
    rw [Argument.hide] at hav
    split at hav
    · next hx =>
      cases hav
      exact hx
    · cases hav

theorem hidden_mem_passed {o : String} : .hidden o v ∈ p.passed d s ↔ .hidden o v ∈ p := by
  constructor
  · intro h
    obtain ⟨a, ha, hav⟩ := List.mem_map.1 h
    cases a with
    | name x => cases hav
    | hidden o' v' => exact hav ▸ ha
  · exact fun h => List.mem_map.2 ⟨_, h, rfl⟩

theorem hidden_mem_raised {o : String} : .hidden o v ∈ p.raised t m ↔ .hidden o v ∈ p := by
  constructor
  · intro h
    obtain ⟨a, ha, hav⟩ := List.mem_map.1 h
    cases a with
    | name x => cases hav
    | hidden o' v' => exact hav ▸ ha
  · exact fun h => List.mem_map.2 ⟨_, h, rfl⟩

theorem Named.passed (h : p.Named) : (p.passed d s).Named := by
  obtain ⟨names, rfl⟩ := h
  exact ⟨names.map (d.passed s), by simp [Pattern.passed, ofNames, Argument.passed]⟩

end Pattern

namespace PatternSet

variable {φ : String → String} {s : PatternSet} {p : Pattern}

def mapOwners (φ : String → String) : PatternSet → PatternSet
  | .anything => .anything
  | .listed ps => ofList (ps.map (·.mapOwners φ))

theorem mapOwners_eq_anything : s.mapOwners φ = anything ↔ s = anything := by
  cases s <;> simp [mapOwners]

theorem mem_mapOwners : p ∈ (s.mapOwners φ).toList ↔ ∃ q ∈ s.toList, q.mapOwners φ = p := by
  cases s with
  | anything => simp [mapOwners, toList]
  | listed ps => rw [mapOwners, toList_ofList_iff, List.mem_map, toList_listed]

theorem normal_mapOwners : (s.mapOwners φ).Normal := by
  cases s with
  | anything => exact normal_anything
  | listed ps => exact normal_ofList _

theorem Plain.mapOwners (hs : s.Plain) (hnormal : s.Normal) : s.mapOwners φ = s := by
  refine normal_mapOwners.ext hnormal mapOwners_eq_anything fun p => mem_mapOwners.trans ?_
  have hsame : ∀ q ∈ s.toList, q.mapOwners φ = q := by
    intro q hq
    obtain ⟨names, rfl⟩ := hs.named q hq
    exact Pattern.mapOwners_ofNames
  constructor
  · rintro ⟨q, hq, rfl⟩
    rwa [hsame q hq]
  · exact fun hp => ⟨p, hp, hsame p hp⟩

end PatternSet

end TaskNetwork
