import Mathlib.Data.List.Forall2
import Mathlib.Data.List.Nodup
import TaskNetwork.Json.Basic

namespace TaskNetwork

namespace Json

variable {α : Type}

/-- Which JSON values stand for a value. -/
abbrev Form (α : Type) := α → Json → Prop

abbrev Reads (item? : Json → Option α) (form : Form α) : Prop :=
  ∀ j a, item? j = some a ↔ form a j

def IsText : Form String := fun s j => j = .str s

def IsFlag : Form Bool := fun b j => j = .bool b

def IsWord : Form UInt64 := fun w j => j = .nat w.toNat

namespace Form

def list (form : Form α) : Form (List α) := fun l j =>
  ∃ items, j = .arr items ∧ List.Forall₂ form l items

def Given (form : Form α) (a : α) (value : Option Json) : Prop := ∃ j, value = some j ∧ form a j

def GivenOr (form : Form α) (default a : α) (value : Option Json) : Prop :=
  value = none ∧ a = default ∨ form.Given a value

end Form

/-- What a record says of the fields with these names. An object names each of them at most once and
may have others. An array lists the values in order, of which the last may be missing. -/
inductive Record (names : List String) (value : String → Option Json) : Json → Prop
  | object (fields : List (String × Json))
      (h : ∀ name ∈ names, (fields.filter (·.1 = name)).map (·.2) = (value name).toList) :
      Record names value (.obj fields)
  | array (items : List Json) (hlen : items.length ≤ names.length)
      (h : ∀ (i : Nat) (name : String), names[i]? = some name → value name = items[i]?) :
      Record names value (.arr items)

@[simp]
theorem reads_str? : Reads str? IsText := by
  intro j s
  cases j <;> simp [str?, IsText]

@[simp]
theorem reads_bool? : Reads bool? IsFlag := by
  intro j b
  cases j <;> simp [bool?, IsFlag]

theorem reads_word? : Reads word? IsWord := by
  intro j w
  cases j with
  | nat n =>
    simp only [word?, IsWord, Json.nat.injEq]
    constructor
    · intro h
      split at h
      · next hlt =>
        obtain rfl := Option.some.inj h
        exact (UInt64.toNat_ofNat_of_lt' hlt).symm
      · cases h
    · rintro rfl
      rw [if_pos w.toNat_lt_size, UInt64.ofNat_toNat]
  | _ => simp [word?, IsWord]

theorem mapM_eq_some {β : Type} {f : α → Option β} {l : List α} {k : List β} :
    l.mapM f = some k ↔ List.Forall₂ (fun a b => f a = some b) l k := by
  induction l generalizing k with
  | nil => simp [eq_comm]
  | cons a l ih =>
    simp only [List.mapM_cons, Option.bind_eq_bind, Option.bind_eq_some_iff, Option.pure_def,
      Option.some.injEq, ih, List.forall₂_cons_left_iff]
    constructor
    · rintro ⟨b, hb, k, hk, rfl⟩
      exact ⟨b, k, hb, hk, rfl⟩
    · rintro ⟨b, k, hb, hk, rfl⟩
      exact ⟨b, hb, k, hk, rfl⟩

theorem Form.list_map {form : Form α} {toJson : α → Json} (h : ∀ a, form a (toJson a))
    (l : List α) : form.list l (.arr (l.map toJson)) :=
  ⟨_, rfl, List.forall₂_map_right_iff.2 (List.forall₂_same.2 fun a _ => h a)⟩

section Reads

variable {item? : Json → Option α} {form : Form α}

theorem Reads.list? (h : Reads item? form) : Reads (list? item?) form.list := by
  intro j l
  simp only [Json.list?, Option.bind_eq_bind, Option.bind_eq_some_iff, mapM_eq_some, h _ _]
  constructor
  · rintro ⟨items, hitems, hl⟩
    cases j <;> cases hitems
    exact ⟨items, rfl, hl.flip⟩
  · rintro ⟨items, rfl, hl⟩
    exact ⟨items, rfl, hl.flip⟩

theorem Reads.orElse? (h : Reads item? form) {default a : α} {value : Option Json} :
    orElse? item? default value = some a ↔ form.GivenOr default a value := by
  cases value with
  | none => simp [Json.orElse?, Form.GivenOr, Form.Given, eq_comm]
  | some j => simp [Json.orElse?, Form.GivenOr, Form.Given, h j a]

@[simp]
theorem Form.given_some {a : α} {j : Json} : form.Given a (some j) ↔ form a j := by
  simp [Form.Given]

@[simp]
theorem Form.not_given_none {a : α} : ¬form.Given a none := by
  simp [Form.Given]

end Reads

section Fields

variable {names : List String} {fields matching : List (String × Json)} {items : List Json}
  {value : String → Option Json} {v : Option Json}

theorem only_eq_some : (match matching with
    | [] => some none
    | [field] => some (some field.2)
    | _ => none) = some v ↔ matching.map (·.2) = v.toList := by
  match matching with
  | [] => cases v <;> simp
  | [f] => cases v <;> simp
  | _ :: _ :: _ => cases v <;> simp

theorem items_filled (hlen : items.length ≤ names.length)
    (h : ∀ (i : Nat) (name : String), names[i]? = some name → value name = items[i]?) :
    items.map some ++ List.replicate (names.length - items.length) none = names.map value := by
  apply List.ext_getElem?
  intro i
  rw [List.getElem?_map]
  cases hname : names[i]? with
  | none =>
    have hi : names.length ≤ i := List.getElem?_eq_none_iff.1 hname
    apply List.getElem?_eq_none
    simp only [List.length_append, List.length_map, List.length_replicate]
    omega
  | some name =>
    have hi : i < names.length := (List.getElem?_eq_some_iff.1 hname).1
    rw [Option.map_some, h i name hname]
    by_cases hitem : i < items.length
    · rw [List.getElem?_append_left (by simpa using hitem), List.getElem?_map,
        List.getElem?_eq_getElem hitem]
      rfl
    · rw [List.getElem?_append_right (by simpa using hitem), List.getElem?_replicate,
        List.getElem?_eq_none (by omega), if_pos (by simp only [List.length_map]; omega)]

theorem fields?_eq_some (hnames : names.Nodup) {j : Json} {vs : List (Option Json)} :
    j.fields? names = some vs ↔ ∃ value, Record names value j ∧ vs = names.map value := by
  cases j with
  | obj fields =>
    simp only [fields?, mapM_eq_some]
    constructor
    · intro h
      let value : String → Option Json := fun name =>
        ((fields.filter (·.1 = name)).map (·.2)).head?
      have hvalue : ∀ name v, (fields.filter (·.1 = name)).map (·.2) = v.toList →
          value name = v := by
        intro name v hv
        simp only [value, hv]
        cases v <;> rfl
      have hmatching : List.Forall₂ (fun name v =>
          (fields.filter (·.1 = name)).map (·.2) = v.toList) names vs :=
        h.imp fun name v hv => only_eq_some.1 hv
      have hvs : vs = names.map value := by
        rw [eq_comm, ← List.forall₂_eq_eq_eq, List.forall₂_map_left_iff]
        exact hmatching.imp hvalue
      subst hvs
      exact ⟨value, .object fields (List.forall₂_same.1 (List.forall₂_map_right_iff.1 hmatching)),
        rfl⟩
    · rintro ⟨value, hrecord, rfl⟩
      cases hrecord with
      | object _ h =>
        rw [List.forall₂_map_right_iff, List.forall₂_same]
        exact fun name hname => only_eq_some.2 (h name hname)
  | arr items =>
    simp only [fields?]
    constructor
    · intro h
      split at h
      · next hlen =>
        obtain rfl := Option.some.inj h
        have hpositions : ∀ (i : Nat) (name : String), names[i]? = some name →
            items[names.idxOf name]? = items[i]? := by
          intro i name hname
          obtain ⟨hi, rfl⟩ := List.getElem?_eq_some_iff.1 hname
          rw [hnames.idxOf_getElem i hi]
        exact ⟨fun name => items[names.idxOf name]?, .array items hlen hpositions,
          items_filled hlen hpositions⟩
      · cases h
    · rintro ⟨value, hrecord, rfl⟩
      cases hrecord with
      | array _ hlen h => rw [if_pos hlen, items_filled hlen h]
  | _ =>
    refine iff_of_false (by simp [fields?]) ?_
    rintro ⟨value, hrecord, -⟩
    cases hrecord

/-- To read a record is to read what it says of its fields. -/
theorem reads_record (hnames : names.Nodup) {j : Json} {read : List (Option Json) → Option α} {a : α}
    {Says : (String → Option Json) → Prop}
    (h : ∀ value, read (names.map value) = some a ↔ Says value) :
    (j.fields? names).bind read = some a ↔ ∃ value, Record names value j ∧ Says value := by
  simp only [Option.bind_eq_some_iff, fields?_eq_some hnames]
  constructor
  · rintro ⟨vs, ⟨value, hrecord, rfl⟩, hread⟩
    exact ⟨value, hrecord, (h value).1 hread⟩
  · rintro ⟨value, hrecord, hsays⟩
    exact ⟨_, ⟨value, hrecord, rfl⟩, (h value).2 hsays⟩

theorem record_lookup (hfields : fields.map (·.1) = names) (hnames : names.Nodup) :
    Record names (fields.lookup ·) (.obj fields) := by
  refine .object fields fun name hname => ?_
  subst hfields
  induction fields with
  | nil => rfl
  | cons f fields ih =>
    obtain ⟨hnew, hrest⟩ := List.nodup_cons.1 hnames
    rw [List.lookup_cons, List.filter_cons]
    by_cases hf : name = f.1
    · subst hf
      have hnone : fields.filter (·.1 = f.1) = [] := by
        rw [List.filter_eq_nil_iff]
        intro e he heq
        exact hnew (List.mem_map.2 ⟨e, he, of_decide_eq_true heq⟩)
      rw [if_pos (decide_eq_true rfl), hnone, beq_self_eq_true]
      rfl
    · rw [if_neg (by simpa using Ne.symm hf), beq_false_of_ne hf]
      exact ih hrest ((List.mem_cons.1 hname).resolve_left hf)

end Fields

end Json

end TaskNetwork
