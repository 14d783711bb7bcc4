import TaskNetwork.Proofs.Renamings

namespace TaskNetwork

theorem lastIndex?_eq_idxOf? {l : List String} (hl : l.Nodup) (a : String) :
    lastIndex? (· = a) l = l.idxOf? a := by
  cases h : l.idxOf? a with
  | none =>
    rw [lastIndex?_eq_none]
    rintro b hb hba
    obtain rfl : b = a := of_decide_eq_true hba
    exact List.idxOf?_eq_none_iff.1 h hb
  | some i =>
    obtain ⟨hi, hp, -⟩ := List.findIdx?_eq_some_iff_getElem.1 h
    apply lastIndex?_of_nodup hl
    rw [List.getElem?_eq_getElem hi, beq_iff_eq.1 hp]

theorem find?_reverse_of_nodup_map {α : Type} {f : α → String} {l : List α} (hl : (l.map f).Nodup)
    (name : String) :
    l.reverse.find? (fun x => decide (f x = name)) = l.find? (fun x => decide (f x = name)) := by
  have hr : (l.reverse.map f).Nodup := by
    rw [List.map_reverse, List.nodup_reverse]
    exact hl
  apply Option.ext
  intro a
  rw [find?_eq_some_of_nodup_map hr, find?_eq_some_of_nodup_map hl, List.mem_reverse]

theorem Task.resolveParameter_of_nodup {t : Task} (ht : t.parameterNames.Nodup)
    (parameter : String) : t.resolveParameter parameter =
      (t.parameterIndex? parameter).elim (.error (.unknownParameter t.name parameter)) .ok := by
  rw [resolveParameter, lastIndex?_eq_idxOf? ht]
  change _ = (t.parameterNames.idxOf? parameter).elim _ _
  cases t.parameterNames.idxOf? parameter <;> rfl

namespace Method

variable {m : Method} {v : String}

theorem sortOf_of_nodup (hm : m.variableNames.Nodup) (v : String) : m.sortOf v =
    (m.findVariable? v).elim (.error (.unknownVariable m.name v)) fun x => .ok x.sort := by
  have hfind : m.declarations.reverse.find? (·.name = v) = m.findVariable? v :=
    find?_reverse_of_nodup_map hm v
  rw [sortOf, hfind]
  cases m.findVariable? v <;> rfl

theorem binding_of_mem (hv : v ∈ m.taskArguments) :
    ∃ i, m.taskArguments[i]? = some v ∧ m.binding v = .ok (.exposed i) := by
  cases hlast : lastIndex? (· = v) m.taskArguments with
  | none => exact absurd (decide_eq_true rfl) (lastIndex?_eq_none.1 hlast v hv)
  | some i =>
    obtain ⟨w, hw, hp⟩ := lastIndex?_eq_some hlast
    obtain rfl : w = v := of_decide_eq_true hp
    exact ⟨i, hw, by rw [binding, hlast]⟩

theorem binding_of_notMem (hv : v ∉ m.taskArguments) : m.binding v =
    if v ∈ m.variableNames then .ok .hidden else .error (.unknownVariable m.name v) := by
  have hlast : lastIndex? (· = v) m.taskArguments = none := by
    rw [lastIndex?_eq_none]
    rintro w hw hp
    exact hv (of_decide_eq_true hp ▸ hw)
  rw [binding, hlast]

end Method

namespace Domain

def methodsNamed (d : Domain) (name : String) : List Method :=
  d.methods.filter (·.name = name)

variable {d : Domain} {name : String}

theorem method?_eq_head? : d.method? name = (d.methodsNamed name).head? :=
  List.head?_filter.symm

theorem resolveMethod_eq_getLast? : d.resolveMethod name =
    (d.methodsNamed name).getLast?.elim (.error (.unknownMethod name)) .ok := by
  have hlast : d.methods.reverse.find? (·.name = name) = (d.methodsNamed name).getLast? := by
    rw [methodsNamed, ← List.head?_reverse, ← List.filter_reverse, List.head?_filter]
  rw [resolveMethod, hlast]
  cases (d.methodsNamed name).getLast? <;> rfl

theorem resolveMethod_eq_method? (h : (d.methodsNamed name).length ≤ 1) :
    d.resolveMethod name = (d.method? name).elim (.error (.unknownMethod name)) .ok := by
  rw [resolveMethod_eq_getLast?, method?_eq_head?]
  match hnamed : d.methodsNamed name with
  | [] => rfl
  | [_] => rfl
  | _ :: _ :: _ =>
    rw [hnamed] at h
    simp at h

/-- What the name stands for is what is found by scanning for the first match, but for methods of
one name, of which the last one counts. -/
structure Resolves (d : Domain) (name : String) : Prop where
  task : d.resolveTask name = (d.task? name).elim (.error (.unknownTask name)) .ok
  parameter : ∀ t, d.task? name = some t → ∀ p, d.parameterIndex name p =
    (t.parameterIndex? p).elim (.error (.unknownParameter name p)) .ok
  first_method : d.method? name = (d.methodsNamed name).head?
  last_method : d.resolveMethod name =
    (d.methodsNamed name).getLast?.elim (.error (.unknownMethod name)) .ok
  only_method : (d.methodsNamed name).length ≤ 1 →
    d.resolveMethod name = (d.method? name).elim (.error (.unknownMethod name)) .ok
  sort : ∀ m, d.resolveMethod name = .ok m → ∀ v, d.sortOf name v =
    (m.findVariable? v).elim (.error (.unknownVariable name v)) (fun x => .ok x.sort)
  exposed : ∀ m, d.resolveMethod name = .ok m → ∀ v ∈ m.taskArguments,
    ∃ i, m.taskArguments[i]? = some v ∧ d.binding name v = .ok (.exposed i)
  hidden : ∀ m, d.resolveMethod name = .ok m → ∀ v ∉ m.taskArguments, d.binding name v =
    if v ∈ m.variableNames then .ok .hidden else .error (.unknownVariable name v)

theorem names_resolved (htasks : ∀ t ∈ d.tasks, t.check = .ok ())
    (hmethods : ∀ m ∈ d.methods, d.checkMethod m = .ok ()) (name : String) : d.Resolves name where
  task := by
    rw [resolveTask]
    cases d.task? name <;> rfl
  parameter := by
    intro t ht p
    obtain ⟨hmem, rfl⟩ := mem_of_task?_eq_some ht
    have hnodup := (Task.check_eq_ok.1 (htasks t hmem)).nodup_parameters
    rw [parameterIndex, resolveTask_eq_ok.2 ht]
    exact Task.resolveParameter_of_nodup hnodup p
  first_method := method?_eq_head?
  last_method := resolveMethod_eq_getLast?
  only_method := resolveMethod_eq_method?
  sort := by
    intro m hm v
    obtain ⟨hmem, rfl⟩ := resolveMethod_eq_ok hm
    rw [sortOf, hm]
    exact Method.sortOf_of_nodup
      (checkMethod_eq_ok.1 (hmethods m hmem)).consistent.nodup_variables v
  exposed := by
    intro m hm v hv
    rw [binding, hm]
    exact Method.binding_of_mem hv
  hidden := by
    intro m hm v hv
    obtain ⟨-, rfl⟩ := resolveMethod_eq_ok hm
    rw [binding, hm]
    exact Method.binding_of_notMem hv

end Domain

def byTongs : Method :=
  { byHand with
    declarations := byHand.declarations ++ [{ name := "tongs", sort := "tool" }]
    steps := [{ id := "s", task := "pick", arguments := ["tongs"] }] }

def fetchingTwice : Domain := { fetching with methods := [byTongs, byHand] }

theorem names_resolved_fetchingTwice :
    ((∀ t ∈ fetchingTwice.tasks, t.check = .ok ()) ∧
      ∀ m ∈ fetchingTwice.methods, fetchingTwice.checkMethod m = .ok ()) ∧
    fetchingTwice.parameterIndex "pick" "x" = .ok 0 ∧
    fetchingTwice.resolveMethod "by_hand" = .ok byHand ∧
    fetchingTwice.sortOf "by_hand" "z" = .ok "thing" ∧
    (∃ i, ["z"][i]? = some "z" ∧ fetchingTwice.binding "by_hand" "z" = .ok (.exposed i)) ∧
    fetchingTwice.binding "by_hand" "tongs" = .error (.unknownVariable "by_hand" "tongs") := by
  have htasks : ∀ t ∈ fetchingTwice.tasks, t.check = .ok () := by decide
  have hmethods : ∀ m ∈ fetchingTwice.methods, fetchingTwice.checkMethod m = .ok () := by decide
  have hpick := Domain.names_resolved htasks hmethods "pick"
  have hhand := Domain.names_resolved htasks hmethods "by_hand"
  have hlast := hhand.last_method
  exact ⟨⟨htasks, hmethods⟩, hpick.parameter _ rfl "x", hlast, hhand.sort _ hlast "z",
    hhand.exposed _ hlast "z" List.mem_cons_self, hhand.hidden _ hlast "tongs" (by decide)⟩

/-- Two methods of one name: one is found by scanning, and the name is resolved to the other. -/
theorem names_resolved_apart :
    (∀ t ∈ fetchingTwice.tasks, t.check = .ok ()) ∧
    (∀ m ∈ fetchingTwice.methods, fetchingTwice.checkMethod m = .ok ()) ∧
    fetchingTwice.method? "by_hand" = some byTongs ∧
    fetchingTwice.resolveMethod "by_hand" ≠ .ok byTongs ∧
    byTongs.findVariable? "tongs" = some { name := "tongs", sort := "tool" } ∧
    fetchingTwice.sortOf "by_hand" "tongs" ≠ .ok "tool" ∧
    fetchingTwice.binding "by_hand" "tongs" ≠ .ok .hidden := by
  refine ⟨by decide, by decide, rfl, fun h => ?_, rfl, fun h => ?_, fun h => ?_⟩
  · exact absurd (Except.ok.inj h) (by decide)
  · cases h
  · cases h

end TaskNetwork
