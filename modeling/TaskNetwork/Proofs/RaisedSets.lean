import TaskNetwork.Proofs.Policies

namespace TaskNetwork

open PatternSet

/-- A step that asks for the task with what the method is passed. -/
def Method.callOfTask (m : Method) : Step where
  id := ""
  task := m.task
  arguments := m.taskArguments

section Positions

variable {d : Domain} {m : Method} {t : Task} {s : Step} {policy : HiddenPolicy} {p : Pattern}

theorem Argument.raise_of_nameIn (h : d.Does m t) {a : Argument} (ha : a.NameIn m.taskArguments) :
    a.raise t (d.resolveMethod m.name) m = .ok (a.raised t m) := by
  cases a with
  | hidden o v => rfl
  | name v => exact raise_name_eq h ha

theorem Argument.lower_raised (h : d.Does m t) (htask : s.task = m.task)
    (hs : s.arguments = m.taskArguments) {a : Argument} (ha : a.NameIn m.taskArguments) :
    (a.raised t m).lower (d.resolveTask s.task) (d.resolveMethod m.name) m s policy
      = .ok (some a) := by
  cases a with
  | hidden o v => rfl
  | name v =>
    obtain ⟨i, hlast, hv, hi⟩ := h.exists_position ha
    have hparameter : t.resolveParameter (m.parameterOf t v) = .ok i := by
      rw [Task.resolveParameter, lastIndex?_of_nodup h.nodup hi]
    have hbinding : m.binding v = .ok (.exposed i) := by rw [Method.binding, hlast]
    rw [htask, Domain.resolveTask_eq_ok.2 h.task, h.resolved]
    simp only [raised, lower, bind_eq_ok, liftM_eq_ok, Except.ok.injEq, exists_eq_left', hparameter,
      hs, hv, hbinding, pure_eq_ok]

theorem Pattern.raise_of_namesIn (h : d.Does m t) (hp : p.NamesIn m.taskArguments) :
    p.raise t (d.resolveMethod m.name) m = .ok (p.raised t m) := by
  rw [raise, mapM_eq_ok, raised, List.forall₂_map_right_iff, List.forall₂_same]
  exact fun a ha => Argument.raise_of_nameIn h (hp a ha)

theorem Pattern.lower_raised (h : d.Does m t) (htask : s.task = m.task)
    (hs : s.arguments = m.taskArguments) (hp : p.NamesIn m.taskArguments) :
    (p.raised t m).lower (d.resolveTask s.task) (d.resolveMethod m.name) m s policy
      = .ok (some p) := by
  induction p with
  | nil => rfl
  | cons a p ih =>
    obtain ⟨ha, hp⟩ := namesIn_cons.1 hp
    exact lower_cons_of (Argument.lower_raised h htask hs ha) (ih hp)

/-- Patterns that are raised to the same one are the same, since they are lowered back. -/
theorem Pattern.raised_inj (h : d.Does m t) {q : Pattern} (hp : p.NamesIn m.taskArguments)
    (hq : q.NamesIn m.taskArguments) (heq : p.raised t m = q.raised t m) : p = q := by
  have hback : ∀ r : Pattern, r.NamesIn m.taskArguments → (r.raised t m).lower
      (d.resolveTask m.callOfTask.task) (d.resolveMethod m.name) m m.callOfTask .keep =
        .ok (some r) :=
    fun r hr => lower_raised h rfl rfl hr
  have hp' := hback p hp
  rw [heq, hback q hq] at hp'
  exact (Option.some.inj (Except.ok.inj hp')).symm

end Positions

namespace PatternSet

variable {d : Domain} {m : Method} {t : Task} {st : Step} {policy : HiddenPolicy}
  {s u : PatternSet}

theorem raise_of_namesIn (h : d.Does m t) (hs : ∀ p ∈ s.toList, p.NamesIn m.taskArguments) :
    s.raise d t m = .ok (s.map (·.raised t m)) := by
  cases s with
  | anything => rfl
  | listed ps =>
    have hps : ps.mapM (Pattern.raise t (d.resolveMethod m.name) m) =
        .ok (ps.map (·.raised t m)) := by
      rw [mapM_eq_ok, List.forall₂_map_right_iff, List.forall₂_same]
      exact fun p hp => Pattern.raise_of_namesIn h (hs p hp)
    simp only [raise, hps, map, bind_eq_ok, Except.ok.injEq, exists_eq_left', pure_eq_ok]

theorem lower_raised (h : d.Does m t) (htask : st.task = m.task)
    (harguments : st.arguments = m.taskArguments) (hnormal : s.Normal)
    (hs : ∀ p ∈ s.toList, p.NamesIn m.taskArguments) :
    (s.map (·.raised t m)).lower d m st policy = .ok s := by
  have hback : ∀ p ∈ s.toList, (p.raised t m).lower (d.resolveTask st.task)
      (d.resolveMethod m.name) m st policy = .ok (some p) := fun p hp =>
    Pattern.lower_raised h htask harguments (hs p hp)
  obtain ⟨v, hv⟩ : ∃ v, (s.map (·.raised t m)).lower d m st policy = .ok v := by
    apply exists_lower
    intro q hq
    obtain ⟨p, hp, rfl⟩ := mem_map.1 hq
    exact ⟨_, hback p hp⟩
  have hlowers := lowers_of_lower hv
  suffices hvs : v = s by rw [hv, hvs]
  apply (normal_of_lower hv).ext hnormal
  · rw [hlowers.anything_iff, map_eq_anything]
  · intro p
    rw [hlowers.mem_iff]
    constructor
    · rintro ⟨q, hq, hlower⟩
      obtain ⟨r, hr, rfl⟩ := mem_map.1 hq
      rw [hback r hr, Except.ok.injEq, Option.some.injEq] at hlower
      exact hlower ▸ hr
    · exact fun hp => ⟨_, mem_map.2 ⟨p, hp, rfl⟩, hback p hp⟩

theorem size?_map {f : Pattern → Pattern} (hs : s.Normal)
    (hf : ∀ p ∈ s.toList, ∀ q ∈ s.toList, f p = f q → p = q) : (s.map f).size? = s.size? := by
  cases s with
  | anything => rfl
  | listed ps =>
    have himages : (ps.map f).Nodup :=
      hs.nodup.map_on fun p hp q hq => hf p hp q hq
    have hperm : (increasing (ps.map f)).Perm (ps.map f) :=
      (List.perm_ext_iff_of_nodup (normal_ofList (ps.map f)).nodup himages).2
        fun _ => mem_increasing
    exact congrArg some (hperm.length_eq.trans (List.length_map f))

end PatternSet

/-- To raise a set to the task that a method does is to lose nothing: no patterns are merged, and
the set is lowered back by any step that asks for the task with what the method is passed. -/
theorem lower_undoes_raise {d : Domain} {m : Method} {t : Task} {s : PatternSet}
    (hd : d.WellFormed) (hm : m ∈ d.methods) (ht : d.task? m.task = some t) (hs : s.Normal)
    (hnames : ∀ p ∈ s.toList, p.NamesIn m.taskArguments) :
    ∃ u, s.raise d t m = .ok u ∧ u.size? = s.size? ∧
      (∀ s', s'.Normal → (∀ p ∈ s'.toList, p.NamesIn m.taskArguments) →
        s'.raise d t m = .ok u → s' = s) ∧
      ∀ (st : Step) (policy : HiddenPolicy), st.task = m.task →
        st.arguments = m.taskArguments → u.lower d m st policy = .ok s := by
  obtain ⟨t', hdoes⟩ := hd.does hm
  obtain rfl : t = t' := Option.some.inj (ht.symm.trans hdoes.task)
  have hraise := raise_of_namesIn hdoes hnames
  refine ⟨s.map (·.raised t m), hraise, ?_, fun s' hs' hnames' hraise' => ?_,
    fun st policy htask harguments => lower_raised hdoes htask harguments hs hnames⟩
  · apply size?_map hs
    intro p hp q hq
    exact Pattern.raised_inj hdoes (hnames p hp) (hnames q hq)
  · have himages : s'.map (·.raised t m) = s.map (·.raised t m) :=
      Except.ok.inj ((raise_of_namesIn hdoes hnames').symm.trans hraise')
    have hback : (s'.map (·.raised t m)).lower d m m.callOfTask .keep = .ok s' :=
      lower_raised hdoes rfl rfl hs' hnames'
    rw [himages, lower_raised hdoes rfl rfl hs hnames] at hback
    exact (Except.ok.inj hback).symm

def byTurns : Method where
  name := "by_turns"
  task := "trade"
  taskArguments := ["coin", "cup", "coin"]
  declarations := [{ name := "coin", sort := "thing" }, { name := "cup", sort := "thing" }]

def trading : Domain where
  sorts := { entries := [("thing", NameSet.ofList ["mug", "penny"])] }
  abstractTasks := [Task.ofParameters "trade" [{ name := "give", sort := "thing" },
    { name := "take", sort := "thing" }, { name := "end", sort := "thing" }]]
  methods := [byTurns]

theorem lower_undoes_raise_trading :
    let t := Task.ofParameters "trade" [{ name := "give", sort := "thing" },
      { name := "take", sort := "thing" }, { name := "end", sort := "thing" }]
    let s := ofList [[.name "coin"], [.name "cup", .name "coin"], [.hidden "by_hand" "y"]]
    let st : Step := { id := "again", task := "trade", arguments := ["coin", "cup", "coin"] }
    (trading.WellFormed ∧ byTurns ∈ trading.methods ∧ trading.task? byTurns.task = some t ∧
      s.Normal ∧ ∀ p ∈ s.toList, p.NamesIn byTurns.taskArguments) ∧
    ∃ u, s.raise trading t byTurns = .ok u ∧
      u = ofList [[.name "end"], [.name "take", .name "end"], [.hidden "by_hand" "y"]] ∧
      u.size? = s.size? ∧ (ofList [[.name "cup"]]).raise trading t byTurns ≠ .ok u ∧
      u.lower trading byTurns st .drop = .ok s := by
  intro t s st
  have hd : trading.WellFormed := ⟨by decide, by decide, by decide, by decide⟩
  have hm : byTurns ∈ trading.methods := List.mem_singleton.2 rfl
  have hs : s.Normal := normal_ofList _
  have hnames : ∀ p ∈ s.toList, p.NamesIn byTurns.taskArguments := by decide
  obtain ⟨u, hraise, hsize, hinj, hback⟩ := lower_undoes_raise hd hm rfl hs hnames
  obtain rfl : ofList [[.name "end"], [.name "take", .name "end"], [.hidden "by_hand" "y"]] = u :=
    Except.ok.inj (Eq.trans (by rfl) hraise)
  refine ⟨⟨hd, hm, rfl, hs, hnames⟩, _, hraise, rfl, hsize, fun hcup => ?_, hback st .drop rfl rfl⟩
  exact absurd (hinj _ (normal_ofList _) (by decide) hcup) (by decide)

end TaskNetwork
