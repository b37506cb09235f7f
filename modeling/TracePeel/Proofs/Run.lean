import Mathlib.Data.List.Forall2
import TracePeel.Optimize.Chain

/-! What a step of the optimizer ends with.

`Yields` speaks of a step that cannot fail and `Ends` of one that can: the state and
the result it ends with satisfy a predicate, and an error is of a kind that is
allowed for. Both follow the code: one lemma for each way to put steps together and
one equation for each step that the passes are made of. -/
namespace TracePeel

/-- Each element of a list has a partner in a list that is related to it. -/
theorem exists_right_of_mem {α β : Type} {R : α → β → Prop} {as : List α} {bs : List β}
    (h : List.Forall₂ R as bs) {a : α} (ha : a ∈ as) : ∃ b ∈ bs, R a b := by
  induction h with
  | nil => cases ha
  | cons hab _ ih =>
    rcases List.mem_cons.1 ha with rfl | ha
    · exact ⟨_, List.mem_cons_self .., hab⟩
    · obtain ⟨b, hb, hR⟩ := ih ha
      exact ⟨b, List.mem_cons_of_mem _ hb, hR⟩

/-- A list of partners for a list whose elements all have one. -/
theorem exists_forall₂ {α β : Type} {R : α → β → Prop} {as : List α} (h : ∀ a ∈ as, ∃ b, R a b) :
    ∃ bs, List.Forall₂ R as bs := by
  induction as with
  | nil => exact ⟨[], .nil⟩
  | cons a as ih =>
    obtain ⟨b, hb⟩ := h a (List.mem_cons_self ..)
    obtain ⟨bs, hbs⟩ := ih fun a ha => h a (List.mem_cons_of_mem _ ha)
    exact ⟨b :: bs, .cons hb hbs⟩

/-- Partners of partners. -/
theorem forall₂_comp {α β γ : Type} {R : α → β → Prop} {S : β → γ → Prop} {U : α → γ → Prop}
    (h : ∀ a b c, R a b → S b c → U a c) {as : List α} {bs : List β} {cs : List γ}
    (hab : List.Forall₂ R as bs) (hbc : List.Forall₂ S bs cs) : List.Forall₂ U as cs := by
  induction hab generalizing cs with
  | nil =>
    cases hbc
    exact .nil
  | cons hr _ ih =>
    cases hbc with
    | cons hs hrest => exact .cons (h _ _ _ hr hs) (ih hrest)

/-- Partners that a function gives. -/
theorem eq_map_of_forall₂ {α β : Type} {f : α → β} {as : List α} {bs : List β}
    (h : List.Forall₂ (fun a b => b = f a) as bs) : bs = as.map f := by
  induction h with
  | nil => rfl
  | cons hab _ ih => rw [hab, ih, List.map_cons]

/-- What stands at one place in two lists is related as the lists are. -/
theorem rel_of_getElem? {α β : Type} {R : α → β → Prop} {as : List α} {bs : List β}
    (h : List.Forall₂ R as bs) {k : Nat} {a : α} {b : β} (ha : as[k]? = some a)
    (hb : bs[k]? = some b) : R a b := by
  obtain ⟨hk, rfl⟩ := List.getElem?_eq_some_iff.1 ha
  obtain ⟨hk', rfl⟩ := List.getElem?_eq_some_iff.1 hb
  exact h.get hk hk'

namespace Optimizer

variable {α β : Type}

/-- The step gives a result, in a state, that satisfy `Q`. -/
def Yields (m : Step α) (o : Optimizer) (Q : α → Optimizer → Prop) : Prop :=
  Q (m.run o).1 (m.run o).2

/-- The step gives a result, in a state, that satisfy `Q`, or fails as `E` allows. -/
def Ends (E : OptError → Prop) (m : Optimize α) (o : Optimizer) (Q : α → Optimizer → Prop) :
    Prop :=
  match m.run.run o with
  | (.ok a, o') => Q a o'
  | (.error e, _) => E e

/-- States follow one another along `le`, and `R` stays true on the way. -/
structure Persists (le : Optimizer → Optimizer → Prop) (R : Optimizer → α → β → Prop) : Prop where
  refl : ∀ o, le o o
  trans : ∀ {o₁ o₂ o₃}, le o₁ o₂ → le o₂ o₃ → le o₁ o₃
  keep : ∀ {o₁ o₂ a b}, le o₁ o₂ → R o₁ a b → R o₂ a b

/-! ### Steps that cannot fail -/

section Yields
variable {o : Optimizer}

theorem Yields.mono {m : Step α} {Q R : α → Optimizer → Prop} (h : Yields m o Q)
    (hQ : ∀ a o', Q a o' → R a o') : Yields m o R :=
  hQ _ _ h

theorem Yields.and_run {m : Step α} {Q : α → Optimizer → Prop} (h : Yields m o Q) :
    Yields m o fun a o' => Q a o' ∧ m.run o = (a, o') :=
  ⟨h, rfl⟩

theorem yields_pure {a : α} {Q : α → Optimizer → Prop} : Yields (pure a) o Q ↔ Q a o :=
  Iff.rfl

theorem yields_bind {m : Step α} {f : α → Step β} {Q : β → Optimizer → Prop} :
    Yields (m >>= f) o Q ↔ Yields m o fun a o' => Yields (f a) o' Q :=
  Iff.rfl

theorem yields_get {Q : Optimizer → Optimizer → Prop} : Yields get o Q ↔ Q o o :=
  Iff.rfl

theorem yields_modify {f : Optimizer → Optimizer} {Q : PUnit → Optimizer → Prop} :
    Yields (modify f) o Q ↔ Q ⟨⟩ (f o) :=
  Iff.rfl

theorem yields_modifyGet {f : Optimizer → α × Optimizer} {Q : α → Optimizer → Prop} :
    Yields (modifyGet f) o Q ↔ Q (f o).1 (f o).2 :=
  Iff.rfl

theorem yields_map {m : Step α} {f : α → β} {Q : β → Optimizer → Prop} :
    Yields (f <$> m) o Q ↔ Yields m o fun a o' => Q (f a) o' :=
  Iff.rfl

theorem yields_discard {m : Step α} {Q : Unit → Optimizer → Prop} :
    Yields (discard m) o Q ↔ Yields m o fun _ o' => Q () o' :=
  Iff.rfl

end Yields

/-- A step that is known to end somewhere ends there. -/
theorem yields_of_run {m : Step α} {o o' : Optimizer} {a : α} {Q : α → Optimizer → Prop}
    (h : m.run o = (a, o')) : Yields m o Q ↔ Q a o' := by
  rw [Yields, h]

theorem run_eq_iff {m : Step α} {o o' : Optimizer} {a : α} :
    m.run o = (a, o') ↔ Yields m o fun b o'' => b = a ∧ o'' = o' :=
  Prod.ext_iff

/-- Mapping a step over a list: the state keeps an invariant and only moves on, and
each result stays related to what it comes from. -/
theorem yields_mapM {f : α → Step β} {I : Optimizer → Prop} {le : Optimizer → Optimizer → Prop}
    {R : Optimizer → α → β → Prop} (hp : Persists le R) {l : List α}
    (step : ∀ a ∈ l, ∀ o, I o → Yields (f a) o fun b o' => I o' ∧ le o o' ∧ R o' a b)
    {o : Optimizer} (h : I o) :
    Yields (l.mapM f) o fun bs o' => I o' ∧ le o o' ∧ List.Forall₂ (R o') l bs := by
  induction l generalizing o with
  | nil => exact ⟨h, hp.refl o, .nil⟩
  | cons a rest ih =>
    simp only [List.mapM_cons, yields_bind, yields_pure]
    refine (step a (List.mem_cons_self ..) o h).mono fun b o₁ ⟨h₁, hle, hR⟩ => ?_
    refine (ih (fun a ha => step a (List.mem_cons_of_mem _ ha)) h₁).mono
      fun bs o₂ ⟨h₂, hle₂, hRs⟩ => ?_
    exact ⟨h₂, hp.trans hle hle₂, .cons (hp.keep hle₂ hR) hRs⟩

/-- Mapping a step that leaves the state alone. -/
theorem run_mapM {f : α → Step β} {o : Optimizer} {l : List α} {bs : List β}
    (h : List.Forall₂ (fun a b => (f a).run o = (b, o)) l bs) : (l.mapM f).run o = (bs, o) := by
  induction h with
  | nil => rfl
  | cons hab _ ih =>
    rw [run_eq_iff, List.mapM_cons, yields_bind, yields_of_run hab, yields_bind, yields_of_run ih]
    exact ⟨rfl, rfl⟩

/-! ### Steps that can fail -/

section Ends
variable {E : OptError → Prop} {o : Optimizer}

theorem Ends.mono {m : Optimize α} {Q R : α → Optimizer → Prop} (h : Ends E m o Q)
    (hQ : ∀ a o', Q a o' → R a o') : Ends E m o R := by
  unfold Ends at h ⊢
  split at h
  · exact hQ _ _ h
  · exact h

/-- Where a step is known to end, that is what it ends with. -/
theorem Ends.of_run {m : Optimize α} {Q : α → Optimizer → Prop} (h : Ends E m o Q) {a : α}
    {o' : Optimizer} (hrun : m.run.run o = (.ok a, o')) : Q a o' := by
  unfold Ends at h
  rwa [hrun] at h

theorem Ends.and_run {m : Optimize α} {Q : α → Optimizer → Prop} (h : Ends E m o Q) :
    Ends E m o fun a o' => Q a o' ∧ m.run.run o = (.ok a, o') := by
  unfold Ends at h ⊢
  rcases hrun : m.run.run o with ⟨_ | a, o'⟩
  · rwa [hrun] at h
  · rw [hrun] at h
    exact ⟨h, rfl⟩

theorem ends_run {m : Optimize α} :
    Ends (fun _ => True) m o fun a o' => m.run.run o = (.ok a, o') := by
  unfold Ends
  rcases m.run.run o with ⟨_ | _, _⟩
  · trivial
  · rfl

theorem ends_pure {a : α} {Q : α → Optimizer → Prop} : Ends E (pure a) o Q ↔ Q a o :=
  Iff.rfl

theorem ends_lift {m : Step α} {Q : α → Optimizer → Prop} :
    Ends E (liftM m) o Q ↔ Yields m o Q :=
  Iff.rfl

theorem ends_refuse {cause : OptCause} {Q : α → Optimizer → Prop} :
    Ends E (refuse cause) o Q ↔ E { cause } :=
  Iff.rfl

theorem ends_get {Q : Optimizer → Optimizer → Prop} : Ends E get o Q ↔ Q o o :=
  Iff.rfl

theorem ends_modify {f : Optimizer → Optimizer} {Q : PUnit → Optimizer → Prop} :
    Ends E (modify f) o Q ↔ Q ⟨⟩ (f o) :=
  Iff.rfl

theorem ends_modifyGet {f : Optimizer → α × Optimizer} {Q : α → Optimizer → Prop} :
    Ends E (modifyGet f) o Q ↔ Q (f o).1 (f o).2 :=
  Iff.rfl

theorem run_bind (m : Optimize α) (f : α → Optimize β) (o : Optimizer) :
    (m >>= f).run.run o = (match m.run.run o with
      | (.ok a, o') => (f a).run.run o'
      | (.error e, o') => (.error e, o') : Except OptError β × Optimizer) := by
  rw [ExceptT.run_bind, StateT.run_bind]
  rcases m.run.run o with ⟨_ | a, o'⟩ <;> rfl

/-- A step that cannot fail, among those that can. -/
theorem run_lift_ok {m : Step α} {o o' : Optimizer} {a : α} (h : m.run o = (a, o')) :
    (liftM m : Optimize α).run.run o = (.ok a, o') := by
  show (Except.ok (m.run o).1, (m.run o).2) = _
  rw [h]

theorem run_bind_ok {m : Optimize α} {f : α → Optimize β} {o o' : Optimizer} {b : β} :
    (m >>= f).run.run o = (.ok b, o') ↔
      ∃ a o₁, m.run.run o = (.ok a, o₁) ∧ (f a).run.run o₁ = (.ok b, o') := by
  rw [run_bind]
  rcases m.run.run o with ⟨e | a, o₁⟩
  · constructor
    · intro h
      cases h
    · rintro ⟨_, _, h, _⟩
      cases h
  · constructor
    · exact fun h => ⟨a, o₁, rfl, h⟩
    · rintro ⟨_, _, h, h'⟩
      cases h
      exact h'

theorem ends_bind {m : Optimize α} {f : α → Optimize β} {Q : β → Optimizer → Prop} :
    Ends E (m >>= f) o Q ↔ Ends E m o fun a o' => Ends E (f a) o' Q := by
  unfold Ends
  rw [run_bind]
  rcases m.run.run o with ⟨_ | a, o'⟩ <;> rfl

theorem ends_map {m : Optimize α} {f : α → β} {Q : β → Optimizer → Prop} :
    Ends E (f <$> m) o Q ↔ Ends E m o fun a o' => Q (f a) o' := by
  rw [map_eq_pure_bind]
  exact ends_bind

end Ends

theorem ends_mapM {E : OptError → Prop} {f : α → Optimize β} {I : Optimizer → Prop}
    {le : Optimizer → Optimizer → Prop} {R : Optimizer → α → β → Prop} (hp : Persists le R)
    {l : List α}
    (step : ∀ a ∈ l, ∀ o, I o → Ends E (f a) o fun b o' => I o' ∧ le o o' ∧ R o' a b)
    {o : Optimizer} (h : I o) :
    Ends E (l.mapM f) o fun bs o' => I o' ∧ le o o' ∧ List.Forall₂ (R o') l bs := by
  induction l generalizing o with
  | nil => exact ⟨h, hp.refl o, .nil⟩
  | cons a rest ih =>
    simp only [List.mapM_cons, ends_bind, ends_pure]
    refine (step a (List.mem_cons_self ..) o h).mono fun b o₁ ⟨h₁, hle, hR⟩ => ?_
    refine (ih (fun a ha => step a (List.mem_cons_of_mem _ ha)) h₁).mono
      fun bs o₂ ⟨h₂, hle₂, hRs⟩ => ?_
    exact ⟨h₂, hp.trans hle hle₂, .cons (hp.keep hle₂ hR) hRs⟩

/-! ### A list, step by step -/

section
variable {f : α → Optimize PUnit} {l : List α} {o o' : Optimizer}

/-- The state behind the first `k` steps. -/
def stateAfter (f : α → Optimize PUnit) (l : List α) (o : Optimizer) (k : Nat) : Optimizer :=
  (((l.take k).forM f).run.run o).2

theorem run_forM_append {xs ys : List α} : ((xs ++ ys).forM f).run.run o = (.ok ⟨⟩, o') ↔
    ∃ o₁, (xs.forM f).run.run o = (.ok ⟨⟩, o₁) ∧ (ys.forM f).run.run o₁ = (.ok ⟨⟩, o') := by
  show (forM (xs ++ ys) f : Optimize PUnit).run.run o = _ ↔ _
  rw [List.forM_append, run_bind_ok]
  constructor
  · rintro ⟨⟨⟩, o₁, h₁, h₂⟩
    exact ⟨o₁, h₁, h₂⟩
  · rintro ⟨o₁, h₁, h₂⟩
    exact ⟨⟨⟩, o₁, h₁, h₂⟩

/-- Where a whole list ends well, each of its beginnings does. -/
theorem run_forM_take (h : (l.forM f).run.run o = (.ok ⟨⟩, o')) (k : Nat) :
    ((l.take k).forM f).run.run o = (.ok ⟨⟩, stateAfter f l o k) := by
  rw [← List.take_append_drop k l] at h
  obtain ⟨o₁, h₁, -⟩ := run_forM_append.1 h
  rw [stateAfter, h₁]

theorem stateAfter_length (h : (l.forM f).run.run o = (.ok ⟨⟩, o')) :
    stateAfter f l o l.length = o' := by
  rw [stateAfter, List.take_length, h]

/-- One step leads from a state to the next. -/
theorem run_step_ok (h : (l.forM f).run.run o = (.ok ⟨⟩, o')) {k : Nat} {a : α}
    (ha : l[k]? = some a) :
    (f a).run.run (stateAfter f l o k) = (.ok ⟨⟩, stateAfter f l o (k + 1)) := by
  have hnext := run_forM_take h (k + 1)
  rw [List.take_add_one, ha] at hnext
  obtain ⟨o₁, h₁, h₂⟩ := run_forM_append.1 hnext
  rw [run_forM_take h k] at h₁
  cases h₁
  obtain ⟨⟨⟩, o₂, hstep, hend⟩ := run_bind_ok.1 h₂
  cases hend
  exact hstep

end

end Optimizer
end TracePeel
