import TaskNetwork.Proofs.PatternSets
import TaskNetwork.Pattern.Overlap

namespace TaskNetwork

variable {d : Domain} {m : Method} {σ : Valuation} {H : String → String → String → Prop}

/-- What hidden variables may stand for has the sort of the variable. -/
def Domain.Sorted (d : Domain) (H : String → String → String → Prop) : Prop :=
  ∀ o v c, H o v c → ∀ sort, d.sortOf o v = .ok sort → d.IsInstance sort c

theorem Domain.Grounds.isInstance (hd : d.NamesDiffer) (hm : m ∈ d.methods) (hσ : d.Grounds m σ)
    {v sort : String} (h : d.sortOf m.name v = .ok sort) : d.IsInstance sort (σ v) := by
  obtain ⟨n, hn, hname, hv⟩ := Domain.sortOf_eq_ok h
  obtain rfl := hd.eq_of_name_eq hn hm hname
  exact hσ _ hv

theorem Domain.mem_of_instances {sort c : String} {names : NameSet}
    (h : d.instances sort = .ok names) (hc : d.IsInstance sort c) : c ∈ names.names := by
  obtain ⟨ns, hns, hmem⟩ := hc
  rw [Domain.instances, hns] at h
  cases h
  exact hmem

theorem Argument.mem_instances (hd : d.NamesDiffer) (hm : m ∈ d.methods) (hσ : d.Grounds m σ)
    (hH : d.Sorted H) {a : Argument} {c : String} {names : NameSet}
    (h : a.instances d m = .ok names) (ha : a.Denotes σ H c) : c ∈ names.names := by
  cases a with
  | name v =>
    simp only [Argument.instances, bind_eq_ok] at h
    obtain ⟨sort, hs, hn⟩ := h
    obtain rfl : σ v = c := ha
    exact Domain.mem_of_instances hn (hσ.isInstance hd hm hs)
  | hidden o v =>
    simp only [Argument.instances, bind_eq_ok] at h
    obtain ⟨sort, hs, hn⟩ := h
    exact Domain.mem_of_instances hn (hH o v c ha sort hs)

/-- Patterns that stand for the same constants overlap. -/
theorem Pattern.overlaps_of_denotes (hd : d.NamesDiffer) (hm : m ∈ d.methods)
    (hσ : d.Grounds m σ) (hH : d.Sorted H) {p q : Pattern} {constants : List String}
    (hp : p.Denotes σ H constants) (hq : q.Denotes σ H constants) :
    p.overlaps d m q ≠ .ok false := by
  induction p generalizing q constants with
  | nil => simp [overlaps, pure_eq_ok]
  | cons a p ih =>
    obtain ⟨c, cs, hac, hcs, rfl⟩ := List.forall₂_cons_left_iff.1 hp
    obtain ⟨b, q, hbc, hqs, rfl⟩ := List.forall₂_cons_right_iff.1 hq
    intro h
    simp only [overlaps, bind_eq_ok] at h
    obtain ⟨as, has, bs, hbs, h⟩ := h
    by_cases hdis : as.isDisjoint bs
    · have hall : ∀ c ∈ as.names, c ∉ bs.names := by simpa [NameSet.isDisjoint] using hdis
      have hca : c ∈ as.names := Argument.mem_instances hd hm hσ hH has hac
      exact hall c hca (Argument.mem_instances hd hm hσ hH hbs hbc)
    · rw [if_neg hdis] at h
      exact ih hcs hqs h

namespace PatternSet

theorem anyM_eq_false {f : Pattern → Except DomainError Bool} {l : List Pattern}
    (h : l.anyM f = .ok false) : ∀ q ∈ l, f q = .ok false := by
  induction l with
  | nil => exact fun q hq => by cases hq
  | cons a l ih =>
    simp only [List.anyM, bind_eq_ok] at h
    obtain ⟨b, hb, h⟩ := h
    cases b with
    | true => cases pure_eq_ok.1 h
    | false => exact List.forall_mem_cons.2 ⟨hb, ih h⟩

theorem mem_uncovered {reachable candidates kept : List Pattern} {p : Pattern}
    (h : uncovered d m reachable candidates = .ok kept) (hp : p ∈ kept) :
    p ∈ candidates ∧ ∀ q ∈ reachable, p.overlaps d m q = .ok false := by
  induction candidates generalizing kept with
  | nil =>
    obtain rfl := pure_eq_ok.1 h
    cases hp
  | cons c cs ih =>
    simp only [uncovered, bind_eq_ok, pure_eq_ok] at h
    obtain ⟨b, hb, ks, hks, rfl⟩ := h
    cases b with
    | true =>
      obtain ⟨hmem, hall⟩ := ih hks hp
      exact ⟨List.mem_cons_of_mem c hmem, hall⟩
    | false =>
      obtain rfl | hp := List.mem_cons.1 hp
      · exact ⟨List.mem_cons_self, anyM_eq_false hb⟩
      · obtain ⟨hmem, hall⟩ := ih hks hp
        exact ⟨List.mem_cons_of_mem c hmem, hall⟩

theorem mem_constrain {candidates reachable r : PatternSet} {p : Pattern}
    (h : constrain d m candidates reachable = .ok r) (hc : candidates ≠ anything) (hp : p ∈ r) :
    p ∈ candidates.toList ∧ reachable ≠ anything ∧
      ∀ q ∈ reachable.toList, p.overlaps d m q = .ok false := by
  obtain ⟨ps, rfl⟩ := exists_listed hc
  cases reachable with
  | anything =>
    obtain rfl := pure_eq_ok.1 h
    cases hp
  | listed qs =>
    simp only [constrain] at h
    split at h
    · obtain rfl := pure_eq_ok.1 h
      cases hp
    · simp only [bind_eq_ok, pure_eq_ok] at h
      obtain ⟨kept, hkept, rfl⟩ := h
      obtain ⟨hmem, hall⟩ := mem_uncovered hkept (mem_increasing.1 hp)
      exact ⟨hmem, by simp, hall⟩

theorem Plain.constrain {candidates reachable r : PatternSet} (hc : candidates.Plain)
    (h : candidates.constrain d m reachable = .ok r) : r.Plain :=
  plain_iff.2 fun _ hp => hc.named _ (mem_constrain h hc.ne_anything hp).1

end PatternSet

end TaskNetwork
