import TaskNetwork.Proofs.CascadeShapes

namespace TaskNetwork

section Cascades

variable {given taken : List String} {m : Method} {ms : List Method} {c part : Cascade}

theorem Method.longChain?_of_short (hlen : m.steps.length ≤ 2) : m.longChain? = none :=
  if_pos hlen

theorem Becomes.longChain?_eq_none (h : Becomes given m part) :
    ∀ r ∈ part.methods, r.longChain? = none := by
  cases h with
  | keep hm => exact List.forall_mem_singleton.2 hm
  | cut _ hpart _ _ =>
    intro r hr
    apply Method.longChain?_of_short
    exact hpart.length_steps r hr

theorem cascades_of_longChain?_eq_none (h : ∀ m ∈ ms, m.longChain? = none) :
    cascades taken ms = { methods := ms } := by
  induction ms with
  | nil => rfl
  | cons m ms ih =>
    obtain ⟨hm, hms⟩ := List.forall_mem_cons.1 h
    simp only [cascades, hm, ih hms]

end Cascades

namespace Domain

variable {d : Domain}

theorem regularize_of_longChain?_eq_none (h : ∀ m ∈ d.methods, m.longChain? = none) :
    d.regularize = (d, .ok { cutMethods := 0, newTasks := 0, newMethods := 0 }) := by
  simp only [regularize, cascades_of_longChain?_eq_none h, List.append_nil, List.length_nil]

theorem Parts.longChain?_eq_none {parts : List Cascade} (h : d.Parts parts) :
    ∀ r ∈ d.regularize.1.methods, r.longChain? = none := by
  intro r hr
  obtain ⟨part, -, hr, m, -, hbecomes⟩ := h.exists_becomes hr
  exact hbecomes.longChain?_eq_none r hr

theorem Parts.short_or_mem {parts : List Cascade} (h : d.Parts parts) :
    ∀ r ∈ d.regularize.1.methods, r.steps.length ≤ 2 ∨ r ∈ d.methods := by
  intro r hr
  obtain ⟨part, -, hr, m, hm, hbecomes⟩ := h.exists_becomes hr
  cases hbecomes with
  | keep _ => exact .inr (List.mem_singleton.1 hr ▸ hm)
  | cut _ hpart _ _ => exact .inl (hpart.length_steps r hr)

end Domain

/-- Each method is short or leaves two of its steps open, and the domain stays as it is when it is
regularized again. -/
theorem regularize_normal_form {d : Domain} (hd : ∀ m ∈ d.methods, d.checkMethod m = .ok ())
    (hacyclic : ∀ m ∈ d.methods, m.Acyclic) (hrun : d.regularize.2 ≠ .error .overflow) :
    (∃ report, d.regularize.2 = .ok report) ∧
    (∀ r ∈ d.regularize.1.methods, r.steps.length ≤ 2 ∨
      ∃ s ∈ r.steps, ∃ t ∈ r.steps, s.id ≠ t.id ∧
        ¬r.Precedes s.id t.id ∧ ¬r.Precedes t.id s.id) ∧
    d.regularize.1.regularize =
      (d.regularize.1, .ok { cutMethods := 0, newTasks := 0, newMethods := 0 }) := by
  have hfits : ∀ m ∈ d.methods, d.Fits m := fun m hm => Domain.checkMethod_eq_ok.1 (hd m hm)
  have hfault := d.fault?_cascades hfits hrun
  obtain ⟨parts, h⟩ := Domain.exists_parts hfits hfault
  have hnone := h.longChain?_eq_none
  have hreport : ∃ report, d.regularize.2 = .ok report := by
    simp only [Domain.regularize, hfault]
    exact ⟨_, rfl⟩
  refine ⟨hreport, fun r hr => ?_, Domain.regularize_of_longChain?_eq_none hnone⟩
  obtain hshort | hm := h.short_or_mem r hr
  · exact .inl hshort
  have hnodup : r.stepIds.Nodup := (hfits r hm).consistent.nodup_steps
  refine (((hacyclic r hm).longChain?_eq_none hnodup).1 (hnone r hr)).imp_right fun hopen => ?_
  rw [Method.TotallyOrdered] at hopen
  push Not at hopen
  obtain ⟨s, hs, t, ht, hst, hbefore, hafter⟩ := hopen
  have hid : s.id ≠ t.id := fun hid => hst (List.inj_on_of_nodup_map hnodup hs ht hid)
  exact ⟨s, hs, t, ht, hid, hbefore, hafter⟩

def byCart : Method :=
  { byVan with name := "by_cart", ordering := [("start", "load"), ("start", "move"),
      ("load", "unload"), ("move", "unload")] }

theorem acyclic_byCart : byCart.Acyclic := by
  rw [Method.acyclic_iff]
  decide

theorem longChain?_byCart : byCart.longChain? = none :=
  (acyclic_byCart.longChain?_eq_none (by decide)).2 (.inr (by decide))

def deliveries : Domain := { delivery with methods := [byVan, byCart] }

theorem regularize_deliveries : deliveries.regularize.2 ≠ .error .overflow ∧
    deliveries.regularize.1.methods.length = 4 ∧ byCart ∈ deliveries.regularize.1.methods := by
  simp only [Domain.regularize, deliveries, delivery, cascades, longChain?_byVan,
    longChain?_byCart]
  decide +kernel

theorem regularize_normal_form_deliveries :
    ((∀ m ∈ deliveries.methods, deliveries.checkMethod m = .ok ()) ∧
      (∀ m ∈ deliveries.methods, m.Acyclic) ∧ deliveries.regularize.2 ≠ .error .overflow) ∧
    deliveries.regularize.1.methods.length = 4 ∧
    (∃ r ∈ deliveries.regularize.1.methods, ∃ s ∈ r.steps, ∃ t ∈ r.steps, s.id ≠ t.id ∧
      ¬r.Precedes s.id t.id ∧ ¬r.Precedes t.id s.id) ∧
    deliveries.regularize.1.regularize =
      (deliveries.regularize.1, .ok { cutMethods := 0, newTasks := 0, newMethods := 0 }) := by
  have hd : ∀ m ∈ deliveries.methods, deliveries.checkMethod m = .ok () := by decide
  have hacyclic : ∀ m ∈ deliveries.methods, m.Acyclic := by
    intro m hm
    obtain rfl | hm := List.mem_cons.1 hm
    · exact regular_delivery.2.1 _ (List.mem_singleton.2 rfl)
    · exact List.mem_singleton.1 hm ▸ acyclic_byCart
  obtain ⟨hrun, hlen, hmem⟩ := regularize_deliveries
  obtain ⟨-, hmethods, hagain⟩ := regularize_normal_form hd hacyclic hrun
  have hopen := (hmethods byCart hmem).resolve_left (by decide)
  exact ⟨⟨hd, hacyclic, hrun⟩, hlen, ⟨byCart, hmem, hopen⟩, hagain⟩

end TaskNetwork
