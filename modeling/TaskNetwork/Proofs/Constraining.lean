import TaskNetwork.Pattern.Overlap
import TaskNetwork.Proofs.SetLaws

namespace TaskNetwork

open PatternSet

def Domain.Declares (d : Domain) (method v : String) : Prop :=
  ∃ sort, d.sortOf method v = .ok sort ∧ ∃ names, d.sorts.instances? sort = some names

instance (d : Domain) (method v : String) : Decidable (d.Declares method v) :=
  decidable_of_iff (∃ sort ∈ (d.sortOf method v).toOption, (d.sorts.instances? sort).isSome) <| by
    rw [Domain.Declares]
    cases d.sortOf method v <;> simp [Except.toOption, Option.isSome_iff_exists]

/-- Names are variables of the method, hidden variables are those of the methods they belong to. -/
def Argument.Declared (d : Domain) (m : Method) : Argument → Prop
  | .name v => d.Declares m.name v
  | .hidden owner v => d.Declares owner v

instance (d : Domain) (m : Method) : (a : Argument) → Decidable (a.Declared d m)
  | .name _ => inferInstanceAs (Decidable (d.Declares _ _))
  | .hidden _ _ => inferInstanceAs (Decidable (d.Declares _ _))

def Pattern.Declared (d : Domain) (m : Method) (p : Pattern) : Prop := ∀ a ∈ p, a.Declared d m

def PatternSet.Declared (d : Domain) (m : Method) (s : PatternSet) : Prop :=
  ∀ p ∈ s.toList, p.Declared d m

instance (d : Domain) (m : Method) (s : PatternSet) : Decidable (s.Declared d m) :=
  inferInstanceAs (Decidable (∀ p ∈ s.toList, ∀ a ∈ p, a.Declared d m))

section Overlap

variable {d : Domain} {m : Method} {p q : Pattern} {reachable candidates : List Pattern}

theorem Domain.Declares.instances {method v : String} (h : d.Declares method v) :
    ∃ names, (do d.instances (← d.sortOf method v)) = .ok names := by
  obtain ⟨sort, hsort, names, hnames⟩ := h
  refine ⟨names, ?_⟩
  rw [hsort]
  change d.instances sort = .ok names
  rw [Domain.instances, hnames]

theorem Argument.Declared.instances {a : Argument} (ha : a.Declared d m) :
    ∃ names, a.instances d m = .ok names := by
  cases a with
  | name v => exact Domain.Declares.instances ha
  | hidden owner v => exact Domain.Declares.instances ha

theorem Pattern.Declared.overlaps (hp : p.Declared d m) (hq : q.Declared d m) :
    ∃ b, p.overlaps d m q = .ok b := by
  induction p generalizing q with
  | nil => exact ⟨true, rfl⟩
  | cons a p ih =>
    cases q with
    | nil => exact ⟨true, rfl⟩
    | cons b q =>
      obtain ⟨ha, hp⟩ := List.forall_mem_cons.1 hp
      obtain ⟨hb, hq⟩ := List.forall_mem_cons.1 hq
      obtain ⟨as, has⟩ := ha.instances
      obtain ⟨bs, hbs⟩ := hb.instances
      obtain ⟨c, hc⟩ := ih hp hq
      refine ⟨if as.isDisjoint bs then false else c, ?_⟩
      simp only [Pattern.overlaps, has, hbs, hc, bind_eq_ok, Except.ok.injEq, exists_eq_left']
      split <;> rfl

theorem Pattern.Declared.anyM_overlaps (hp : p.Declared d m)
    (hreachable : ∀ q ∈ reachable, q.Declared d m) :
    ∃ b, reachable.anyM (p.overlaps d m) = .ok b ∧
      (b = false ↔ ∀ q ∈ reachable, p.overlaps d m q = .ok false) := by
  induction reachable with
  | nil => exact ⟨false, rfl, by simp⟩
  | cons q reachable ih =>
    obtain ⟨hq, hreachable⟩ := List.forall_mem_cons.1 hreachable
    obtain ⟨c, hc⟩ := hp.overlaps hq
    obtain ⟨b, hb, hiff⟩ := ih hreachable
    cases c with
    | true => exact ⟨true, by rw [List.anyM, hc]; rfl, by simp [hc]⟩
    | false => exact ⟨b, by rw [List.anyM, hc]; exact hb, by simp [hc, hiff]⟩

theorem Pattern.overlaps_nil (d : Domain) (m : Method) (p : Pattern) :
    p.overlaps d m [] = .ok true := by
  cases p <;> rfl

namespace PatternSet

theorem uncovered_of_declared (hcandidates : ∀ p ∈ candidates, p.Declared d m)
    (hreachable : ∀ q ∈ reachable, q.Declared d m) :
    ∃ kept, uncovered d m reachable candidates = .ok kept ∧ ∀ p, p ∈ kept ↔
      p ∈ candidates ∧ ∀ q ∈ reachable, p.overlaps d m q = .ok false := by
  induction candidates with
  | nil => exact ⟨[], rfl, by simp⟩
  | cons c cs ih =>
    obtain ⟨hc, hcs⟩ := List.forall_mem_cons.1 hcandidates
    obtain ⟨b, hb, hiff⟩ := hc.anyM_overlaps hreachable
    obtain ⟨kept, hkept, hmem⟩ := ih hcs
    refine ⟨if b then kept else c :: kept, by rw [uncovered, hb, hkept]; rfl, fun p => ?_⟩
    cases b with
    | true =>
      have hno : ¬∀ q ∈ reachable, c.overlaps d m q = .ok false := by simpa using hiff
      rw [if_pos rfl, hmem, List.mem_cons]
      constructor
      · rintro ⟨hp, hall⟩
        exact ⟨.inr hp, hall⟩
      · rintro ⟨rfl | hp, hall⟩
        · exact absurd hall hno
        · exact ⟨hp, hall⟩
    | false =>
      have hall : ∀ q ∈ reachable, c.overlaps d m q = .ok false := hiff.1 rfl
      rw [if_neg (by simp), List.mem_cons, List.mem_cons, hmem, or_and_right]
      refine or_congr_left ⟨?_, And.left⟩
      rintro rfl
      exact ⟨rfl, hall⟩

end PatternSet

end Overlap

namespace PatternSet

variable {d : Domain} {m : Method} {s s₁ s₂ t t₁ t₂ : PatternSet} {p q : Pattern}
  {reachable candidates kept : List Pattern}

/-- The reachable pattern keeps the candidate out. If all patterns are candidates, then only the
pattern that always holds does. -/
def KeepsOut (d : Domain) (m : Method) (candidates : PatternSet) (p q : Pattern) : Prop :=
  if candidates = anything then q = [] else p.overlaps d m q = .ok true

theorem keepsOut_nil (s : PatternSet) (p : Pattern) : KeepsOut d m s p [] := by
  unfold KeepsOut
  split
  · rfl
  · exact p.overlaps_nil d m

theorem keepsOut_of_ne (hs : s ≠ anything) : KeepsOut d m s p q ↔ p.overlaps d m q = .ok true := by
  rw [KeepsOut, if_neg hs]

theorem keepsOut_anything : KeepsOut d m anything p q ↔ q = [] := by
  rw [KeepsOut, if_pos rfl]

theorem KeepsOut.imp (h : KeepsOut d m s p q) (hs : s₁ = anything → s = anything) :
    KeepsOut d m s₁ p q := by
  by_cases hany : s = anything
  · subst hany
    exact keepsOut_anything.1 h ▸ keepsOut_nil s₁ p
  · exact (keepsOut_of_ne (mt hs hany)).2 ((keepsOut_of_ne hany).1 h)

theorem not_keepsOut_iff (hs : s ≠ anything) (hp : p.Declared d m) (hq : q.Declared d m) :
    ¬KeepsOut d m s p q ↔ p.overlaps d m q = .ok false := by
  obtain ⟨b, hb⟩ := hp.overlaps hq
  rw [keepsOut_of_ne hs, hb]
  cases b <;> simp

theorem hasTrivial_iff : s.hasTrivial ↔ [] ∈ s.toList := by
  simp [hasTrivial]

theorem constrain_of_nil_mem (ht : [] ∈ t) : constrain d m s t = .ok ∅ := by
  cases t with
  | anything => rfl
  | listed qs =>
    have htrivial : (listed qs).hasTrivial := hasTrivial_iff.2 ht
    simp only [constrain, htrivial, if_true]
    rfl

theorem constrain_anything (hreachable : [] ∉ reachable) :
    constrain d m anything (listed reachable) = .ok anything := by
  simp only [constrain, hasTrivial_iff, toList_listed, hreachable, if_false]
  rfl

theorem constrain_listed (hreachable : [] ∉ reachable)
    (hkept : uncovered d m reachable candidates = .ok kept) :
    constrain d m (listed candidates) (listed reachable) = .ok (ofList kept) := by
  simp only [constrain, hasTrivial_iff, toList_listed, hreachable, if_false, hkept]
  rfl

/-- What is left are the candidates that nothing reachable keeps out. -/
theorem constrain_of_declared (hs : s.Declared d m) (ht : t.Declared d m) :
    ∃ r, constrain d m s t = .ok r ∧ r.Normal ∧
      ∀ p, p ∈ r ↔ p ∈ s ∧ ∀ q ∈ t, ¬KeepsOut d m s p q := by
  by_cases hnil : [] ∈ t
  · refine ⟨∅, constrain_of_nil_mem hnil, normal_empty, fun p => ?_⟩
    exact iff_of_false List.not_mem_nil fun h => h.2 [] hnil (keepsOut_nil s p)
  obtain ⟨qs, rfl⟩ : ∃ qs, t = listed qs := exists_listed fun h => hnil (h ▸ mem_anything)
  cases s with
  | anything =>
    refine ⟨anything, constrain_anything hnil, normal_anything, fun p => ?_⟩
    refine iff_of_true mem_anything ⟨mem_anything, fun q hq hout => ?_⟩
    exact hnil (keepsOut_anything.1 hout ▸ hq)
  | listed ps =>
    obtain ⟨kept, hkept, hmem⟩ := uncovered_of_declared hs ht
    refine ⟨ofList kept, constrain_listed hnil hkept, normal_ofList kept, fun p => ?_⟩
    rw [mem_iff_of_ne ofList_ne_anything, toList_ofList_iff, hmem]
    refine and_congr_right fun hp => forall₂_congr fun q hq => ?_
    exact (not_keepsOut_iff (by simp) (hs p hp) (ht q hq)).symm

theorem Declared.union (hs : s.Declared d m) (ht : t.Declared d m) : (s ∪ t).Declared d m := by
  intro p hp
  by_cases hst : s ∪ t = anything
  · rw [hst] at hp
    cases hp
  · exact ((mem_union hst).1 hp).elim (hs p) (ht p)

theorem mem_part_of_mem_union (hp : p ∈ s₁ ∪ s₂) :
    p ∈ s₁ ∧ (s₁ ∪ s₂ = anything → s₁ = anything) ∨
    p ∈ s₂ ∧ (s₁ ∪ s₂ = anything → s₂ = anything) := by
  by_cases h : s₁ ∪ s₂ = anything
  · refine (union_eq_anything.1 h).imp ?_ ?_ <;>
    · rintro rfl
      exact ⟨mem_anything, fun _ => rfl⟩
  · exact (mem_union_iff.1 hp).imp (⟨·, fun h' => absurd h' h⟩) (⟨·, fun h' => absurd h' h⟩)

theorem constrain_union_left (hs₁ : s₁.Declared d m) (hs₂ : s₂.Declared d m)
    (ht : t.Declared d m) : ∃ r₁ r₂, constrain d m s₁ t = .ok r₁ ∧ constrain d m s₂ t = .ok r₂ ∧
      constrain d m (s₁ ∪ s₂) t = .ok (r₁ ∪ r₂) := by
  obtain ⟨r₁, hr₁, -, hmem₁⟩ := constrain_of_declared hs₁ ht
  obtain ⟨r₂, hr₂, -, hmem₂⟩ := constrain_of_declared hs₂ ht
  obtain ⟨r, hr, hnormal, hmem⟩ := constrain_of_declared (hs₁.union hs₂) ht
  suffices h : r = r₁ ∪ r₂ from ⟨r₁, r₂, hr₁, hr₂, hr.trans (congrArg _ h)⟩
  apply hnormal.eq_of_mem_iff (normal_union r₁ r₂)
  intro p
  rw [hmem, mem_union_iff (s := r₁), hmem₁, hmem₂]
  constructor
  · rintro ⟨hp, hout⟩
    refine (mem_part_of_mem_union hp).imp ?_ ?_ <;>
    · rintro ⟨hp, hany⟩
      exact ⟨hp, fun q hq h => hout q hq (h.imp hany)⟩
  · rintro (⟨hp, hout⟩ | ⟨hp, hout⟩)
    · refine ⟨mem_union_iff.2 (.inl hp), fun q hq h => hout q hq (h.imp fun hany => ?_)⟩
      exact union_eq_anything.2 (.inl hany)
    · refine ⟨mem_union_iff.2 (.inr hp), fun q hq h => hout q hq (h.imp fun hany => ?_)⟩
      exact union_eq_anything.2 (.inr hany)

theorem constrain_union_right (hs : s.Declared d m) (ht₁ : t₁.Declared d m)
    (ht₂ : t₂.Declared d m) : ∃ r₁ r₂, constrain d m s t₁ = .ok r₁ ∧ constrain d m s t₂ = .ok r₂ ∧
      constrain d m s (t₁ ∪ t₂) = .ok (r₁ ∩ r₂) := by
  obtain ⟨r₁, hr₁, hnormal₁, hmem₁⟩ := constrain_of_declared hs ht₁
  obtain ⟨r₂, hr₂, hnormal₂, hmem₂⟩ := constrain_of_declared hs ht₂
  obtain ⟨r, hr, hnormal, hmem⟩ := constrain_of_declared hs (ht₁.union ht₂)
  suffices h : r = r₁ ∩ r₂ from ⟨r₁, r₂, hr₁, hr₂, hr.trans (congrArg _ h)⟩
  apply hnormal.eq_of_mem_iff (hnormal₁.inter hnormal₂)
  intro p
  rw [hmem, mem_inter_iff, hmem₁, hmem₂, ← and_and_left]
  simp only [mem_union_iff, or_imp, forall_and]

theorem constrain_antitone (hs : s.Declared d m) (ht₁ : t₁.Declared d m)
    (ht₂ : t₂.Declared d m) (ht : ∀ q ∈ t₁, q ∈ t₂) :
    ∃ r₁ r₂, constrain d m s t₁ = .ok r₁ ∧ constrain d m s t₂ = .ok r₂ ∧ ∀ p ∈ r₂, p ∈ r₁ := by
  obtain ⟨r₁, hr₁, -, hmem₁⟩ := constrain_of_declared hs ht₁
  obtain ⟨r₂, hr₂, -, hmem₂⟩ := constrain_of_declared hs ht₂
  refine ⟨r₁, r₂, hr₁, hr₂, fun p hp => ?_⟩
  obtain ⟨hps, hout⟩ := (hmem₂ p).1 hp
  exact (hmem₁ p).2 ⟨hps, fun q hq => hout q (ht q hq)⟩

/-- Patterns are left of a union that are left of one of its parts, and patterns are left by a union
that are left by both of its parts, so that more that is reachable leaves no more. -/
theorem constrain_distributes (hs : s.Declared d m) (hs₁ : s₁.Declared d m)
    (hs₂ : s₂.Declared d m) (ht : t.Declared d m) (ht₁ : t₁.Declared d m)
    (ht₂ : t₂.Declared d m) :
    (∃ r₁ r₂, constrain d m s₁ t = .ok r₁ ∧ constrain d m s₂ t = .ok r₂ ∧
      constrain d m (s₁ ∪ s₂) t = .ok (r₁ ∪ r₂)) ∧
    (∃ r₁ r₂, constrain d m s t₁ = .ok r₁ ∧ constrain d m s t₂ = .ok r₂ ∧
      constrain d m s (t₁ ∪ t₂) = .ok (r₁ ∩ r₂)) ∧
    ((∀ q ∈ t₁, q ∈ t₂) → ∃ r₁ r₂, constrain d m s t₁ = .ok r₁ ∧
      constrain d m s t₂ = .ok r₂ ∧ ∀ p ∈ r₂, p ∈ r₁) :=
  ⟨constrain_union_left hs₁ hs₂ ht, constrain_union_right hs ht₁ ht₂,
    constrain_antitone hs ht₁ ht₂⟩

def byRoad : Method where
  name := "by_road"
  task := "haul"
  taskArguments := []
  declarations := [{ name := "lorry", sort := "truck" }, { name := "any", sort := "vehicle" }]
  steps := []

def hauling : Domain where
  sorts := { entries := [("truck", NameSet.ofList ["mack"]), ("van", NameSet.ofList ["beetle"]),
    ("vehicle", NameSet.ofList ["mack", "beetle"])] }
  abstractTasks := [Task.ofParameters "haul" []]
  methods := [byRoad,
    { byRoad with name := "by_post", declarations := [{ name := "spare", sort := "van" }] }]

theorem constrain_distributes_hauling :
    let lorry := ofList [[.name "lorry"]]
    let both := ofList [[.name "lorry"], [.name "any"]]
    let spare := ofList [[.hidden "by_post" "spare"]]
    (both.Declared hauling byRoad ∧ lorry.Declared hauling byRoad ∧
      anything.Declared hauling byRoad ∧ spare.Declared hauling byRoad ∧
      (spare ∪ lorry).Declared hauling byRoad ∧ ∀ q ∈ spare, q ∈ spare ∪ lorry) ∧
    constrain hauling byRoad (lorry ∪ anything) spare = .ok (lorry ∪ anything) ∧
    constrain hauling byRoad both (spare ∪ (spare ∪ lorry)) = .ok (lorry ∩ ∅) ∧
    ∃ r₁ r₂, constrain hauling byRoad both spare = .ok r₁ ∧
      constrain hauling byRoad both (spare ∪ lorry) = .ok r₂ ∧ ∀ p ∈ r₂, p ∈ r₁ := by
  intro lorry both spare
  have hlorry : lorry.Declared hauling byRoad := by decide +kernel
  have hboth : both.Declared hauling byRoad := by decide +kernel
  have hanything : anything.Declared hauling byRoad := by decide
  have hspare : spare.Declared hauling byRoad := by decide +kernel
  have hmore : ∀ q ∈ spare, q ∈ spare ∪ lorry := fun q hq => mem_union_iff.2 (.inl hq)
  obtain ⟨⟨r₁, r₂, hr₁, hr₂, hleft⟩, ⟨u₁, u₂, hu₁, hu₂, hright⟩, hfewer⟩ :=
    constrain_distributes hboth hlorry hanything hspare hspare (hspare.union hlorry)
  obtain rfl : lorry = r₁ := Except.ok.inj (Eq.trans (by rfl) hr₁)
  obtain rfl : anything = r₂ := Except.ok.inj (Eq.trans (by rfl) hr₂)
  obtain rfl : lorry = u₁ := Except.ok.inj (Eq.trans (by rfl) hu₁)
  obtain rfl : ∅ = u₂ := Except.ok.inj (Eq.trans (by rfl) hu₂)
  exact ⟨⟨hboth, hlorry, hanything, hspare, hspare.union hlorry, hmore⟩, hleft, hright,
    hfewer hmore⟩

end PatternSet

end TaskNetwork
