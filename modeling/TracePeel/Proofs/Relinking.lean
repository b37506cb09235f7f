import TracePeel.Proofs.Run

/-! Rebuilt snapshots stand for what they were built from.

A frame has an identity, so frames met in different chains agree with one table of
frames. `relink_yields` says what a rebuilt chain is: as deep as the chain it comes
from, each entry related to the entry in its place, and in the same table, extended
by the frames made on the way. The relation is a parameter and may be one that holds
only from some state on, as long as later states keep it. -/
namespace TracePeel

/-- Which chain each frame is the head of. -/
abbrev FrameTable := Nat → Option Snapshot

namespace FrameTable

/-- The second table knows the frames of the first. -/
def Extends (T T' : FrameTable) : Prop :=
  ∀ k chain, T k = some chain → T' k = some chain

theorem Extends.refl (T : FrameTable) : T.Extends T :=
  fun _ _ h => h

theorem Extends.trans {T₁ T₂ T₃ : FrameTable} (h₁ : T₁.Extends T₂) (h₂ : T₂.Extends T₃) :
    T₁.Extends T₃ :=
  fun k chain h => h₂ k chain (h₁ k chain h)

/-- Every frame has a number below `n`. -/
def Below (T : FrameTable) (n : Nat) : Prop :=
  ∀ k chain, T k = some chain → k < n

/-- The table with one more frame. -/
def add (T : FrameTable) (frame : Frame) (outer : Snapshot) : FrameTable :=
  fun k => if k = frame.id then some (frame :: outer) else T k

theorem Below.extends_add {T : FrameTable} {n : Nat} (h : T.Below n) (entries : List Operand)
    (outer : Snapshot) : T.Extends (T.add ⟨n, entries⟩ outer) := by
  intro k chain hk
  have hne : k ≠ n := Nat.ne_of_lt (h k chain hk)
  simpa [add, hne] using hk

theorem Below.add {T : FrameTable} {n : Nat} (h : T.Below n) (entries : List Operand)
    (outer : Snapshot) : (T.add ⟨n, entries⟩ outer).Below (n + 1) := by
  intro k chain hk
  by_cases he : k = n
  · omega
  · have := h k chain (by simpa [FrameTable.add, he] using hk)
    omega

end FrameTable

namespace Snapshot

/-- Every frame of the chain heads in the table what it heads in the chain. -/
def In (T : FrameTable) : Snapshot → Prop
  | [] => True
  | frame :: rest => T frame.id = some (frame :: rest) ∧ In T rest

theorem In.mono {T T' : FrameTable} (hT : T.Extends T') {s : Snapshot} (h : s.In T) :
    s.In T' := by
  induction s with
  | nil => trivial
  | cons frame rest ih => exact ⟨hT _ _ h.1, ih h.2⟩

theorem In.of_mem {T : FrameTable} {s : Snapshot} (h : s.In T) {k : Nat} {rest : Snapshot}
    (hk : s.head?.map (·.id) = some k) (hT : T k = some rest) : s = rest := by
  cases s with
  | nil => cases hk
  | cons frame outer =>
    cases hk
    rw [h.1] at hT
    exact Option.some.inj hT

/-- Chains of one table that are the same chain are equal. -/
theorem In.eq_of_same {T : FrameTable} {s s' : Snapshot} (h : s.In T) (h' : s'.In T)
    (hs : s.same s' = true) : s = s' := by
  have hid : s.head?.map (·.id) = s'.head?.map (·.id) := by simpa [same] using hs
  cases s' with
  | nil =>
    cases s with
    | nil => rfl
    | cons => cases hid
  | cons frame outer => exact h.of_mem hid h'.1

/-- A chain as deep as another, with related entries in each frame. -/
def Image (R : Operand → Operand → Prop) : Snapshot → Snapshot → Prop :=
  List.Forall₂ fun frame frame' => List.Forall₂ R frame.entries frame'.entries

theorem Image.mono {R R' : Operand → Operand → Prop} (h : ∀ a b, R a b → R' a b)
    {s s' : Snapshot} (hs : Image R s s') : Image R' s s' :=
  List.Forall₂.imp (fun _ _ hf => hf.imp h) hs

theorem Image.comp {R R' R'' : Operand → Operand → Prop}
    (h : ∀ a b c, R a b → R' b c → R'' a c) {s m r : Snapshot} (h₁ : Image R s m)
    (h₂ : Image R' m r) : Image R'' s r :=
  forall₂_comp (fun (f₁ f₂ f₃ : Frame) (hf₁ : List.Forall₂ R f₁.entries f₂.entries)
    (hf₂ : List.Forall₂ R' f₂.entries f₃.entries) => forall₂_comp h hf₁ hf₂) h₁ h₂

theorem Image.operands {R : Operand → Operand → Prop} {s s' : Snapshot} (h : Image R s s') :
    List.Forall₂ R s.operands s'.operands := by
  induction h with
  | nil => exact .nil
  | cons hf _ ih => exact List.rel_append hf ih

end Snapshot

namespace Relinker
open Snapshot Optimizer

/-- What a relinker remembers are images of frames of the table, and the next free
number is free. -/
structure Sound (R : Operand → Operand → Prop) (T : FrameTable) (s : Supply) : Prop where
  below : T.Below s.nextFrame
  memo : ∀ k chain, s.relinker.memo.get? k = some chain →
    chain.In T ∧ ∃ source, T k = some source ∧ Image R source chain

theorem Sound.mono {R R' : Operand → Operand → Prop} (h : ∀ a b, R a b → R' a b)
    {T : FrameTable} {s : Supply} (hs : Sound R T s) : Sound R' T s := by
  refine ⟨hs.below, fun k chain hk => ?_⟩
  obtain ⟨hin, source, hT, hi⟩ := hs.memo k chain hk
  exact ⟨hin, source, hT, hi.mono h⟩

/-- What is remembered stays sound when other frames are made. -/
theorem Sound.extends_ {R : Operand → Operand → Prop} {T T' : FrameTable} {s : Supply} {n : Nat}
    (hs : Sound R T s) (hT : T.Extends T') (hn : T'.Below n) :
    Sound R T' ⟨s.relinker, n⟩ := by
  refine ⟨hn, fun k chain hk => ?_⟩
  obtain ⟨hin, source, hsource, hi⟩ := hs.memo k chain hk
  exact ⟨hin.mono hT, source, hT _ _ hsource, hi⟩

/-- A relinker that remembers nothing is sound. -/
theorem Sound.empty {R : Operand → Operand → Prop} {T : FrameTable} {n : Nat} (h : T.Below n)
    (sharing : Bool) : Sound R T ⟨{ sharing }, n⟩ :=
  ⟨h, fun _ _ hk => by cases hk⟩

/-- One frame rebuilt in front of its rebuilt outer frames. -/
theorem Sound.rebuild {R : Operand → Operand → Prop} {T : FrameTable} {s : Supply}
    (h : Sound R T s) {frame : Frame} {rest outer : Snapshot} {entries : List Operand}
    (hframe : Snapshot.In T (frame :: rest)) (houter : outer.In T) (hrest : Image R rest outer)
    (hentries : List.Forall₂ R frame.entries entries) :
    ∃ T', T.Extends T' ∧ Sound R T' (rebuild frame rest outer entries s).2 ∧
      (rebuild frame rest outer entries s).1.In T' ∧
      Image R (frame :: rest) (rebuild frame rest outer entries s).1 := by
  -- Whatever chain is put down for the frame, it is an image of the frame's own chain.
  have hset : ∀ {T' : FrameTable} {chain : Snapshot}, T.Extends T' → chain.In T' →
      Image R (frame :: rest) chain → ∀ k c, (s.relinker.memo.set frame.id chain).get? k = some c →
        c.In T' ∧ ∃ source, T' k = some source ∧ Image R source c := by
    intro T' chain hT hin himage k c hk
    rw [Bindings.get?_set] at hk
    split at hk
    next he =>
      cases hk
      exact ⟨hin, _, he ▸ hT _ _ hframe.1, himage⟩
    next =>
      obtain ⟨hc, source, hs, hi⟩ := h.memo k c hk
      exact ⟨hc.mono hT, source, hT _ _ hs, hi⟩
  unfold Relinker.rebuild
  split
  next hkeep =>
    simp only [Bool.and_eq_true, beq_iff_eq] at hkeep
    have heq : outer = rest := houter.eq_of_same hframe.2 hkeep.2
    have himage : Image R (frame :: rest) (frame :: rest) :=
      .cons (hkeep.1.2 ▸ hentries) (heq ▸ hrest)
    exact ⟨T, .refl T, ⟨h.below, hset (.refl T) hframe himage⟩, hframe, himage⟩
  next =>
    have hT := h.below.extends_add entries outer
    have hin : Snapshot.In (T.add ⟨s.nextFrame, entries⟩ outer)
        (⟨s.nextFrame, entries⟩ :: outer) :=
      ⟨by simp [FrameTable.add], houter.mono hT⟩
    have himage : Image R (frame :: rest) (⟨s.nextFrame, entries⟩ :: outer) :=
      .cons hentries hrest
    exact ⟨_, hT, ⟨h.below.add entries outer, hset hT hin himage⟩, hin, himage⟩

/-- Rebuilding a chain keeps the invariant of the mapping and of the relinker, and gives
an image of the chain. -/
theorem relink_yields {map : Box → Step Operand} {I : Optimizer → Prop}
    {le : Optimizer → Optimizer → Prop} {R : Optimizer → Operand → Operand → Prop}
    (hp : Persists le R) (const : ∀ o c, R o (.const c) (.const c)) {s : Snapshot}
    (step : ∀ b, .box b ∈ s.operands → ∀ o, I o →
      Yields (map b) o fun a o' => I o' ∧ le o o' ∧ R o' (.box b) a)
    {T : FrameTable} (hs : s.In T) {o : Optimizer} (ho : I o) {supply : Supply}
    (hsound : Sound (R o) T supply) :
    Yields (relink map s supply) o fun r o' => I o' ∧ le o o' ∧
      ∃ T', T.Extends T' ∧ Sound (R o') T' r.2 ∧ r.1.In T' ∧ Image (R o') s r.1 := by
  induction s generalizing o supply with
  | nil => exact ⟨ho, hp.refl o, T, .refl T, hsound, trivial, .nil⟩
  | cons frame rest ih =>
    unfold relink
    split
    next chain hk =>
      obtain ⟨hin, source, hsource, hi⟩ := hsound.memo _ _ hk
      rw [hs.1] at hsource
      cases hsource
      exact ⟨ho, hp.refl o, T, .refl T, hsound, hin, hi⟩
    next =>
      rw [yields_bind]
      refine (ih (fun b hb => step b (by simp_all [operands])) hs.2 ho hsound).mono
        fun r o₁ ⟨h₁, hle₁, T₁, hT₁, hsound₁, hin₁, hi₁⟩ => ?_
      have hentry : ∀ a ∈ frame.entries, ∀ o, I o →
          Yields (mapEntry map a) o fun b o' => I o' ∧ le o o' ∧ R o' a b := by
        intro a ha o ho
        cases a with
        | box b => exact step b (by simp [operands, ha]) o ho
        | const c => exact ⟨ho, hp.refl o, const o c⟩
      rw [yields_bind]
      refine (yields_mapM hp hentry h₁).mono fun entries o₂ ⟨h₂, hle₂, hes⟩ => ?_
      have hR : ∀ a b, R o₁ a b → R o₂ a b := fun _ _ => hp.keep hle₂
      obtain ⟨T₂, hT₂, hsound₂, hin₂, hi₂⟩ :=
        (hsound₁.mono hR).rebuild (hs.mono hT₁) hin₁ (hi₁.mono hR) hes
      exact ⟨h₂, hp.trans hle₁ hle₂, T₂, hT₁.trans hT₂, hsound₂, hin₂, hi₂⟩

/-- A mapping is asked about boxes, in whichever monad. -/
theorem mapM_mapEntry (map : Box → Operand) (as : List Operand) :
    as.mapM (m := Id) (Relinker.mapEntry (m := Id) map) = as.map (·.mapBox map) := by
  induction as with
  | nil => rfl
  | cons a as ih =>
    have ha : Relinker.mapEntry (m := Id) map a = a.mapBox map := by cases a <;> rfl
    rw [List.mapM_cons, ih, ha]
    rfl

theorem nextFrame_le_rebuild (frame : Frame) (rest outer : Snapshot) (entries : List Operand)
    (s : Supply) : s.nextFrame ≤ (rebuild frame rest outer entries s).2.nextFrame := by
  unfold rebuild
  split
  · exact Nat.le_refl _
  · exact Nat.le_succ _

section
variable (map : Box → Operand)

theorem relink_of_some {frame : Frame} {s : Supply} {chain : Snapshot}
    (h : s.relinker.memo.get? frame.id = some chain) (rest : Snapshot) :
    relink (m := Id) map (frame :: rest) s = (chain, s) := by
  unfold relink
  rw [h]
  rfl

theorem relink_of_none {frame : Frame} {s : Supply} (h : s.relinker.memo.get? frame.id = none)
    (rest : Snapshot) :
    relink (m := Id) map (frame :: rest) s =
      rebuild frame rest (relink (m := Id) map rest s).1
        (frame.entries.map (·.mapBox map)) (relink (m := Id) map rest s).2 := by
  rw [← mapM_mapEntry]
  conv_lhs => unfold relink
  rw [h]
  rfl

theorem nextFrame_le_relink (s : Snapshot) (supply : Supply) :
    supply.nextFrame ≤ (relink (m := Id) map s supply).2.nextFrame := by
  induction s with
  | nil => exact Nat.le_refl _
  | cons frame rest ih =>
    cases h : supply.relinker.memo.get? frame.id with
    | some chain => exact Nat.le_of_eq (by rw [relink_of_some map h])
    | none =>
      rw [relink_of_none map h]
      exact Nat.le_trans ih (nextFrame_le_rebuild ..)

/-- What a mapping makes of a chain is an image of it. -/
theorem Sound.relink {R : Operand → Operand → Prop} {T : FrameTable} {supply : Supply}
    (h : Sound R T supply) (const : ∀ c, R (.const c) (.const c)) {s : Snapshot} (hs : s.In T)
    (hmap : ∀ b, .box b ∈ s.operands → R (.box b) (map b)) :
    ∃ T', T.Extends T' ∧ Sound R T' (Relinker.relink (m := Id) map s supply).2 ∧
      (Relinker.relink (m := Id) map s supply).1.In T' ∧
      Image R s (Relinker.relink (m := Id) map s supply).1 := by
  have hentries : ∀ {es : List Operand}, (∀ b, .box b ∈ es → R (.box b) (map b)) →
      List.Forall₂ R es (es.map (·.mapBox map)) := by
    intro es hes
    refine List.forall₂_map_right_iff.2 (List.forall₂_same.2 fun a ha => ?_)
    cases a with
    | box b => exact hes b ha
    | const c => exact const c
  induction s with
  | nil => exact ⟨T, .refl T, h, trivial, .nil⟩
  | cons frame rest ih =>
    cases hk : supply.relinker.memo.get? frame.id with
    | some chain =>
      rw [relink_of_some map hk]
      obtain ⟨hin, source, hsource, hi⟩ := h.memo _ _ hk
      rw [hs.1] at hsource
      cases hsource
      exact ⟨T, .refl T, h, hin, hi⟩
    | none =>
      obtain ⟨T₁, hT₁, hsound, hin, hi⟩ := ih hs.2 fun b hb => hmap b (by
        simp only [operands, List.flatMap_cons, List.mem_append]
        exact .inr hb)
      rw [relink_of_none map hk]
      obtain ⟨T₂, hT₂, h₂⟩ := hsound.rebuild (hs.mono hT₁) hin hi
        (hentries fun b hb => hmap b (by simp [operands, hb]))
      exact ⟨T₂, hT₁.trans hT₂, h₂⟩

end

end Relinker
end TracePeel
