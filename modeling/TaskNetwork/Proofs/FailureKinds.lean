import TaskNetwork.Proofs.DraftSteps

namespace TaskNetwork

def FailsOnly {ε α : Type} (kind : ε → Prop) (x : Except ε α) : Prop := ∀ e, x = .error e → kind e

section FailsOnly

variable {ε α β : Type} {kind : ε → Prop}

theorem failsOnly_pure (a : α) : FailsOnly kind (pure a : Except ε α) := by
  intro e h
  cases h

theorem failsOnly_throw {e : ε} (h : kind e) : FailsOnly kind (throw e : Except ε α) := by
  intro e' he
  cases he
  exact h

theorem FailsOnly.bind {x : Except ε α} {f : α → Except ε β} (hx : FailsOnly kind x)
    (hf : ∀ a, FailsOnly kind (f a)) : FailsOnly kind (x >>= f) := by
  intro e he
  cases x with
  | error e' =>
    cases he
    exact hx e rfl
  | ok a => exact hf a e he

theorem failsOnly_mapM {f : α → Except ε β} (hf : ∀ a, FailsOnly kind (f a)) (l : List α) :
    FailsOnly kind (l.mapM f) := by
  induction l with
  | nil => exact failsOnly_pure []
  | cons a l ih =>
    rw [List.mapM_cons]
    exact (hf a).bind fun b => ih.bind fun bs => failsOnly_pure (b :: bs)

theorem failsOnly_foldlM {f : β → α → Except ε β} (hf : ∀ b a, FailsOnly kind (f b a)) (b : β)
    (l : List α) : FailsOnly kind (l.foldlM f b) := by
  induction l generalizing b with
  | nil => exact failsOnly_pure b
  | cons a l ih =>
    rw [List.foldlM_cons]
    exact (hf b a).bind ih

end FailsOnly

inductive Failure.OfDeclarations : Failure → Prop
  | domain (e : DomainError) : OfDeclarations (.domain e)
  | fault (f : Fault) : OfDeclarations (.fault f)

open Failure (OfDeclarations)

section Sweep

variable {d : Domain} {t : Task} {m : Method} {s : Step} {policy : HiddenPolicy}
  {records : String → TaskRecord} {w : Sweep}

theorem failsOnly_domainError {α : Type} (x : Except DomainError α) :
    FailsOnly OfDeclarations (liftM x : Except Failure α) := by
  intro e he
  cases x with
  | error e' =>
    cases he
    exact .domain e'
  | ok a => cases he

theorem Argument.lower_failsOnly (task : Except DomainError Task)
    (owner : Except DomainError Method) (a : Argument) :
    FailsOnly OfDeclarations (a.lower task owner m s policy) := by
  cases a with
  | hidden method v => exact failsOnly_pure _
  | name parameter =>
    refine (failsOnly_domainError task).bind fun t => ?_
    refine (failsOnly_domainError _).bind fun i => ?_
    cases s.arguments[i]? with
    | none => exact failsOnly_throw (.domain _)
    | some v =>
      refine (failsOnly_domainError owner).bind fun n => ?_
      refine (failsOnly_domainError _).bind fun b => ?_
      cases b with
      | hidden => exact failsOnly_pure _
      | exposed j =>
        dsimp only
        cases m.taskArguments[j]? with
        | none => exact failsOnly_throw (.fault _)
        | some w => exact failsOnly_pure _

theorem Pattern.lower_failsOnly (task : Except DomainError Task)
    (owner : Except DomainError Method) (p : Pattern) :
    FailsOnly OfDeclarations (p.lower task owner m s policy) := by
  induction p with
  | nil => exact failsOnly_pure _
  | cons a p ih =>
    refine (a.lower_failsOnly task owner).bind fun b => ?_
    cases b with
    | none => exact failsOnly_pure none
    | some b => exact ih.bind fun q => failsOnly_pure _

theorem PatternSet.lower_failsOnly (d : Domain) (m : Method) (s : Step) (policy : HiddenPolicy)
    (u : PatternSet) : FailsOnly OfDeclarations (u.lower d m s policy) := by
  cases u with
  | anything => exact failsOnly_pure _
  | listed ps =>
    exact (failsOnly_mapM (fun p => p.lower_failsOnly _ _) ps).bind fun _ =>
      failsOnly_pure _

theorem unionOver_failsOnly {f : Step → Except Failure PatternSet}
    (hf : ∀ s, FailsOnly OfDeclarations (f s)) (steps : List Step) :
    FailsOnly OfDeclarations (unionOver steps f) :=
  (failsOnly_mapM hf steps).bind fun _ => failsOnly_pure _

theorem Method.needs_failsOnly : FailsOnly OfDeclarations (m.needs d records policy) :=
  unionOver_failsOnly (fun s => (records s.task).needs.lower_failsOnly d m s policy) m.steps

theorem Method.ensures_failsOnly : FailsOnly OfDeclarations (m.ensures d records) :=
  unionOver_failsOnly (fun s => (records s.task).ensures.lower_failsOnly d m s .drop) m.steps

theorem Method.mayAdd_failsOnly : FailsOnly OfDeclarations (m.mayAdd d records) := by
  refine unionOver_failsOnly (fun s => ?_) m.steps
  refine ((records s.task).mayAdd.lower_failsOnly d m s .qualify).bind fun added => ?_
  refine failsOnly_foldlM (fun added e => ?_) added _
  exact ((records e.task).ensures.lower_failsOnly d m e .qualify).bind fun _ =>
    failsOnly_pure _

theorem Sweep.leaveStep_failsOnly : FailsOnly OfDeclarations (w.leaveStep d m s) := by
  refine ((w.record s.task).needs.lower_failsOnly d m s .drop).bind fun _ => ?_
  refine ((w.record s.task).needs.lower_failsOnly d m s .keep).bind fun _ => ?_
  refine ((w.record s.task).ensures.lower_failsOnly d m s .drop).bind fun _ => ?_
  exact failsOnly_pure _

theorem Sweep.conclude_failsOnly {i : ℕ} : FailsOnly OfDeclarations (w.conclude d t m i) := by
  refine m.needs_failsOnly.bind fun u => ?_
  refine (failsOnly_domainError (u.raise d t m)).bind fun n => ?_
  refine m.ensures_failsOnly.bind fun v => ?_
  refine (failsOnly_domainError (v.raise d t m)).bind fun e => ?_
  refine m.mayAdd_failsOnly.bind fun a => ?_
  refine (failsOnly_domainError (a.raise d t m)).bind fun b => ?_
  refine m.needs_failsOnly.bind fun k => ?_
  exact (failsOnly_domainError (k.constrain d m a)).bind fun _ => failsOnly_pure _

theorem Sweep.advance_failsOnly (d : Domain) (recursive : List String) (w : Sweep)
    (e : WalkEvent) : FailsOnly OfDeclarations (w.advance d recursive e) := by
  cases e with
  | enter n => exact failsOnly_pure _
  | missing n => exact failsOnly_throw (.domain _)
  | leaveStep m s => exact w.leaveStep_failsOnly.bind fun _ => failsOnly_pure w
  | conclude t m i => exact w.conclude_failsOnly

theorem Domain.sweepAlong_failsOnly (d : Domain) (recursive : List String)
    (walk : List WalkEvent) (predicate : String) (positive : Bool) :
    FailsOnly OfDeclarations (d.sweepAlong recursive walk predicate positive) :=
  failsOnly_foldlM (Sweep.advance_failsOnly d recursive) _ walk

end Sweep

/-- From whichever draft the work starts, whatever it stops for is of this kind. -/
def DraftM.StopsOnly {α : Type} (kind : Failure → Prop) (x : DraftM α) : Prop :=
  ∀ w e w', x.run w = (.error e, w') → kind e

namespace DraftM

variable {α β : Type} {kind : Failure → Prop}

theorem stopsOnly_pure (a : α) : (pure a : DraftM α).StopsOnly kind := by
  intro w e w' h
  cases h

theorem stopsOnly_get : (get : DraftM Draft).StopsOnly kind := by
  intro w e w' h
  cases h

theorem stopsOnly_modify (f : Draft → Draft) : (modify f : DraftM PUnit).StopsOnly kind := by
  intro w e w' h
  cases h

theorem stopsOnly_modifyGet (f : Draft → α × Draft) :
    (modifyGet f : DraftM α).StopsOnly kind := by
  intro w e w' h
  cases h

theorem stopsOnly_domainError (x : Except DomainError α) :
    (liftM x : DraftM α).StopsOnly OfDeclarations := by
  intro w e w' h
  cases x with
  | error e' =>
    cases h
    exact .domain e'
  | ok a => cases h

theorem StopsOnly.bind {x : DraftM α} {f : α → DraftM β} (hx : x.StopsOnly kind)
    (hf : ∀ a, (f a).StopsOnly kind) : (x >>= f).StopsOnly kind := by
  intro w e w' h
  rw [run_bind] at h
  cases hrun : x.run w with
  | mk r w₁ =>
    rw [hrun] at h
    cases r with
    | error e' =>
      cases h
      exact hx w e w' hrun
    | ok a => exact hf a w₁ e w' h

theorem stopsOnly_bind_failure {x : Except Failure α} {f : α → DraftM β} (hx : FailsOnly kind x)
    (hf : ∀ a, x = .ok a → (f a).StopsOnly kind) : ((liftM x : DraftM α) >>= f).StopsOnly kind := by
  intro w e w' h
  cases x with
  | error e' =>
    cases h
    exact hx e rfl
  | ok a => exact hf a rfl w e w' h

theorem stopsOnly_forM {f : α → DraftM Unit} {l : List α} (hf : ∀ a ∈ l, (f a).StopsOnly kind) :
    (l.forM f : DraftM Unit).StopsOnly kind := by
  induction l with
  | nil => exact stopsOnly_pure ()
  | cons a l ih =>
    obtain ⟨ha, hl⟩ := List.forall_mem_cons.1 hf
    exact ha.bind fun _ => ih hl

end DraftM

namespace Draft

open DraftM

variable {d : Domain} {m : Method}

theorem slot_stopsOnly : (slot d m).StopsOnly OfDeclarations := by
  unfold slot
  refine stopsOnly_get.bind fun v => ?_
  cases v.slots.lookup m.name with
  | some slot => exact stopsOnly_pure slot
  | none =>
    refine (stopsOnly_domainError (d.methodIndex m.name)).bind fun i => ?_
    refine stopsOnly_get.bind fun w => ?_
    cases w.existingSlot? i with
    | some slot =>
      exact (stopsOnly_pure slot).bind fun slot =>
        (stopsOnly_modify _).bind fun _ => stopsOnly_pure slot
    | none =>
      exact (stopsOnly_modifyGet _).bind fun slot =>
        (stopsOnly_modify _).bind fun _ => stopsOnly_pure slot

theorem addLiteral_stopsOnly (slot : CheckSlot) (l : Literal) :
    (addLiteral d slot m l).StopsOnly OfDeclarations := by
  unfold addLiteral
  refine (stopsOnly_forM fun v _ => ?_).bind fun _ => stopsOnly_modify _
  refine stopsOnly_get.bind fun w => ?_
  split
  · exact stopsOnly_pure _
  · exact (stopsOnly_domainError _).bind fun _ => stopsOnly_modify _

theorem offer_stopsOnly (opening : List String) (l : Literal) :
    (offer d opening m l).StopsOnly OfDeclarations := by
  unfold offer
  refine stopsOnly_get.bind fun w => ?_
  refine (stopsOnly_domainError _).bind fun b => ?_
  cases b with
  | true => exact stopsOnly_modify _
  | false =>
    refine (stopsOnly_modify _).bind fun _ => ?_
    exact slot_stopsOnly.bind fun slot => addLiteral_stopsOnly slot l

end Draft

end TaskNetwork
