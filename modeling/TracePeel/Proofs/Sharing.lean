import TracePeel.Proofs.Relinking

/-! Rebuilt chains share frames where the chains that they come from do.

A relinker remembers what each frame became, and a frame becomes a frame of its own: one
that was not there before, or, where a relinker keeps frames, the frame itself. So the
memo is a function and is injective, which are the two directions of `Faithful.sharesAs`.
The numbers that a relinker gives out are given out by others as well; `own` are those of
the frames that it may be asked to rebuild. -/
namespace TracePeel

namespace Snapshot

/-- Two chains share a frame exactly where two others do, and from there on all frames. -/
def SharesAs (s₁ s₂ r₁ r₂ : Snapshot) : Prop :=
  ∀ (i j : Nat) (f₁ f₂ g₁ g₂ : Frame), s₁[i]? = some f₁ → s₂[j]? = some f₂ → r₁[i]? = some g₁ →
    r₂[j]? = some g₂ → (g₁.id = g₂.id ↔ f₁.id = f₂.id) ∧ (f₁.id = f₂.id → r₁.drop i = r₂.drop j)

theorem same_comm {s s' : Snapshot} : s.same s' = s'.same s :=
  BEq.comm

/-- Rebuilding what was rebuilt keeps what is shared. -/
theorem SharesAs.trans {s₁ s₂ m₁ m₂ r₁ r₂ : Snapshot} (h : SharesAs s₁ s₂ m₁ m₂)
    (h' : SharesAs m₁ m₂ r₁ r₂) (h₁ : m₁.length = s₁.length) (h₂ : m₂.length = s₂.length) :
    SharesAs s₁ s₂ r₁ r₂ := by
  intro i j f₁ f₂ g₁ g₂ hf₁ hf₂ hg₁ hg₂
  obtain ⟨hi, -⟩ := List.getElem?_eq_some_iff.1 hf₁
  obtain ⟨hj, -⟩ := List.getElem?_eq_some_iff.1 hf₂
  have hm₁ := List.getElem?_eq_getElem (h₁ ▸ hi)
  have hm₂ := List.getElem?_eq_getElem (h₂ ▸ hj)
  obtain ⟨hid, -⟩ := h i j _ _ _ _ hf₁ hf₂ hm₁ hm₂
  obtain ⟨hid', hdrop⟩ := h' i j _ _ _ _ hm₁ hm₂ hg₁ hg₂
  exact ⟨hid'.trans hid, fun he => hdrop (hid.2 he)⟩

/-- A frame of a chain heads a tail of it. -/
theorem In.length_le {T : FrameTable} {s : Snapshot} (h : s.In T) {frame : Frame}
    (hframe : frame ∈ s) : ∃ chain, T frame.id = some chain ∧ chain.length ≤ s.length := by
  induction s with
  | nil => cases hframe
  | cons head rest ih =>
    rcases List.mem_cons.1 hframe with rfl | hframe
    · exact ⟨_, h.1, Nat.le_refl _⟩
    · obtain ⟨chain, hT, hle⟩ := ih h.2 hframe
      exact ⟨chain, hT, Nat.le_succ_of_le hle⟩

/-- A frame heads a chain of its own in the table. -/
theorem In.head {T : FrameTable} {s : Snapshot} (h : s.In T) {frame : Frame}
    (hframe : frame ∈ s) : ∃ outer, T frame.id = some (frame :: outer) := by
  induction s with
  | nil => cases hframe
  | cons head rest ih =>
    rcases List.mem_cons.1 hframe with rfl | hframe
    · exact ⟨rest, h.1⟩
    · exact ih h.2 hframe

/-- Frames of one table with one number are one frame. -/
theorem In.eq_of_id {T : FrameTable} {s₁ s₂ : Snapshot} (h₁ : s₁.In T) (h₂ : s₂.In T)
    {f₁ f₂ : Frame} (hf₁ : f₁ ∈ s₁) (hf₂ : f₂ ∈ s₂) (hid : f₁.id = f₂.id) : f₁ = f₂ := by
  obtain ⟨outer₁, hT₁⟩ := h₁.head hf₁
  obtain ⟨outer₂, hT₂⟩ := h₂.head hf₂
  rw [hid, hT₂] at hT₁
  cases hT₁
  rfl

/-- No frame is behind itself. -/
theorem In.ne_of_mem {T : FrameTable} {frame : Frame} {rest : Snapshot}
    (h : Snapshot.In T (frame :: rest)) {other : Frame} (hother : other ∈ rest) :
    other.id ≠ frame.id := by
  intro he
  obtain ⟨chain, hT, hle⟩ := In.length_le h.2 hother
  rw [he, h.1] at hT
  cases hT
  exact Nat.not_succ_le_self _ hle

theorem In.id_lt {T : FrameTable} {s : Snapshot} (h : s.In T) {n : Nat} (hT : T.Below n)
    {frame : Frame} (hframe : frame ∈ s) : frame.id < n := by
  obtain ⟨chain, hchain, -⟩ := h.length_le hframe
  exact hT _ _ hchain

end Snapshot

namespace Relinker
open Snapshot

/-- What was remembered still is. -/
def Grows (r r' : Relinker) : Prop :=
  ∀ k chain, r.memo.get? k = some chain → r'.memo.get? k = some chain

theorem Grows.refl (r : Relinker) : r.Grows r :=
  fun _ _ h => h

theorem Grows.trans {r r₁ r₂ : Relinker} (h₁ : r.Grows r₁) (h₂ : r₁.Grows r₂) : r.Grows r₂ :=
  fun k chain h => h₂ k chain (h₁ k chain h)

theorem grows_set {r : Relinker} {k : Nat} (hk : r.memo.get? k = none) (chain : Snapshot) :
    r.Grows {r with memo := r.memo.set k chain} := by
  intro k' chain' h
  rw [Bindings.get?_set, if_neg fun he => ?_]
  · exact h
  · rw [he, h] at hk
    cases hk

/-- The relinker knows what the chain and its tails became. -/
def Remembers (r : Relinker) : Snapshot → Snapshot → Prop
  | [], chain => chain = []
  | frame :: rest, chain => r.memo.get? frame.id = some chain ∧
    ∃ head outer, chain = head :: outer ∧ Remembers r rest outer

namespace Remembers
variable {r r' : Relinker} {s chain : Snapshot}

theorem mono (hr : r.Grows r') (h : r.Remembers s chain) : r'.Remembers s chain := by
  induction s generalizing chain with
  | nil => exact h
  | cons frame rest ih =>
    obtain ⟨hk, head, outer, hchain, hrest⟩ := h
    exact ⟨hr _ _ hk, head, outer, hchain, ih hrest⟩

theorem length_eq (h : r.Remembers s chain) : chain.length = s.length := by
  induction s generalizing chain with
  | nil => rw [h]
  | cons frame rest ih =>
    obtain ⟨-, head, outer, rfl, hrest⟩ := h
    exact congrArg (· + 1) (ih hrest)

/-- Each frame of the chain became the tail in its place. -/
theorem get?_eq (h : r.Remembers s chain) {i : Nat} {frame : Frame} (hi : s[i]? = some frame) :
    r.memo.get? frame.id = some (chain.drop i) := by
  induction s generalizing chain i with
  | nil => cases hi
  | cons head rest ih =>
    obtain ⟨hk, head', outer, rfl, hrest⟩ := h
    cases i with
    | zero =>
      cases hi
      exact hk
    | succ i => exact ih hrest hi

end Remembers

/-- What tells rebuilt frames apart: a frame became one that was not there before, or stayed
what it is, and no two frames became the same. -/
structure Faithful (T : FrameTable) (own : Nat → Prop) (s : Supply) : Prop where
  below : ∀ k, own k → k < s.nextFrame
  remembered : ∀ k chain, s.relinker.memo.get? k = some chain →
    own k ∧ ∃ source, T k = some source ∧ s.relinker.Remembers source chain
  head : ∀ k chain, s.relinker.memo.get? k = some chain → ∃ frame outer, chain = frame :: outer ∧
    frame.id < s.nextFrame ∧ (frame.id = k ∧ T k = some chain ∨ ¬ own frame.id)
  apart : ∀ k k' chain chain', s.relinker.memo.get? k = some chain →
    s.relinker.memo.get? k' = some chain' → chain.same chain' = true → k = k'

namespace Faithful
variable {T T' : FrameTable} {own own' : Nat → Prop} {s : Supply}

/-- A relinker that remembers nothing. -/
theorem empty {n : Nat} (h : ∀ k, own k → k < n) (sharing : Bool) :
    Faithful T own ⟨{ sharing }, n⟩ :=
  ⟨h, nofun, nofun, nofun⟩

/-- Other frames were made, and some of them may have to be rebuilt. -/
theorem mono (h : Faithful T own s) {n : Nat} (hn : s.nextFrame ≤ n) (hT : T.Extends T')
    (hown : ∀ k, own k → own' k) (hnew : ∀ k, own' k → own k ∨ s.nextFrame ≤ k)
    (hbelow : ∀ k, own' k → k < n) : Faithful T' own' ⟨s.relinker, n⟩ where
  below := hbelow
  remembered k chain hk := by
    obtain ⟨ho, source, hsource, hr⟩ := h.remembered k chain hk
    exact ⟨hown k ho, source, hT _ _ hsource, hr⟩
  head k chain hk := by
    obtain ⟨frame, outer, hchain, hlt, hkept⟩ := h.head k chain hk
    refine ⟨frame, outer, hchain, Nat.lt_of_lt_of_le hlt hn, hkept.imp ?_ ?_⟩
    · exact fun ⟨he, hs⟩ => ⟨he, hT _ _ hs⟩
    · exact fun hno hnow => (hnew _ hnow).elim hno (Nat.not_le.2 hlt)
  apart := h.apart

/-- The memo is a function and injective, so chains share what their sources do. -/
theorem sharesAs (h : Faithful T own s) {s₁ s₂ r₁ r₂ : Snapshot}
    (h₁ : s.relinker.Remembers s₁ r₁) (h₂ : s.relinker.Remembers s₂ r₂) :
    SharesAs s₁ s₂ r₁ r₂ := by
  intro i j f₁ f₂ g₁ g₂ hf₁ hf₂ hg₁ hg₂
  have hk₁ := h₁.get?_eq hf₁
  have hk₂ := h₂.get?_eq hf₂
  have hsame : f₁.id = f₂.id → r₁.drop i = r₂.drop j := by
    intro he
    rw [he] at hk₁
    exact Option.some.inj (hk₁.symm.trans hk₂)
  have hhead : ∀ {r : Snapshot} {i : Nat} {g : Frame}, r[i]? = some g →
      (r.drop i).head? = some g := fun hg => by rw [List.head?_drop, hg]
  refine ⟨⟨fun he => h.apart _ _ _ _ hk₁ hk₂ ?_, fun he => ?_⟩, hsame⟩
  · simp [Snapshot.same, hhead hg₁, hhead hg₂, he]
  · have heads := hhead hg₁
    rw [hsame he, hhead hg₂] at heads
    rw [Option.some.inj heads]

/-- One frame rebuilt in front of its rebuilt outer frames. -/
theorem rebuild (h : Faithful T own s) {frame : Frame} {rest outer : Snapshot}
    (hframe : Snapshot.In T (frame :: rest)) (hown : ∀ f ∈ frame :: rest, own f.id)
    (hnone : s.relinker.memo.get? frame.id = none) (houter : s.relinker.Remembers rest outer)
    (entries : List Operand) :
    Faithful T own (Relinker.rebuild frame rest outer entries s).2 ∧
      (Relinker.rebuild frame rest outer entries s).2.relinker.Remembers (frame :: rest)
        (Relinker.rebuild frame rest outer entries s).1 ∧
      s.relinker.Grows (Relinker.rebuild frame rest outer entries s).2.relinker := by
  have hfresh : ¬ own s.nextFrame := fun ho => Nat.lt_irrefl _ (h.below _ ho)
  -- Putting down any chain for the frame that is kept or new is all right.
  have hset : ∀ {head : Frame} {outer' : Snapshot} {n : Nat}, s.nextFrame ≤ n → head.id < n →
      s.relinker.Remembers rest outer' →
      (head.id = frame.id ∧ head :: outer' = frame :: rest ∨ head.id = s.nextFrame) →
      Faithful T own
          ⟨{s.relinker with memo := s.relinker.memo.set frame.id (head :: outer')}, n⟩ ∧
        Remembers {s.relinker with memo := s.relinker.memo.set frame.id (head :: outer')}
          (frame :: rest) (head :: outer') := by
    intro head outer' n hn hlt hrest hhead
    set r' : Relinker :=
      {s.relinker with memo := s.relinker.memo.set frame.id (head :: outer')} with hr'
    have hgrows : s.relinker.Grows r' := grows_set hnone _
    have hremembers : r'.Remembers (frame :: rest) (head :: outer') :=
      ⟨Bindings.get?_set_self .., head, outer', rfl, hrest.mono hgrows⟩
    have hkey : ∀ {k chain}, r'.memo.get? k = some chain →
        k = frame.id ∧ chain = head :: outer' ∨ s.relinker.memo.get? k = some chain := by
      intro k chain hk
      rw [hr', Bindings.get?_set] at hk
      split at hk
      next he =>
        cases hk
        exact .inl ⟨he.symm, rfl⟩
      next => exact .inr hk
    -- The new head is no head that there was, unless it is the frame itself.
    have hnew : ∀ {k chain}, s.relinker.memo.get? k = some chain →
        chain.same (head :: outer') = true → k = frame.id := by
      intro k chain hk hsame
      obtain ⟨f, o, rfl, hf, hkept⟩ := h.head k chain hk
      have he : f.id = head.id := by simpa [Snapshot.same] using hsame
      rcases hhead with ⟨hid, -⟩ | hid
      · rcases hkept with ⟨hfk, -⟩ | hno
        · rw [← hfk, he, hid]
        · exact absurd (hown frame (List.mem_cons_self ..)) (by rwa [← hid, ← he])
      · exact absurd hf (by rw [he, hid]; exact Nat.lt_irrefl _)
    refine ⟨⟨fun k ho => Nat.lt_of_lt_of_le (h.below k ho) hn, fun k chain hk => ?_,
      fun k chain hk => ?_, fun k k' chain chain' hk hk' hsame => ?_⟩, hremembers⟩
    · rcases hkey hk with ⟨rfl, rfl⟩ | hk
      · exact ⟨hown frame (List.mem_cons_self ..), _, hframe.1, hremembers⟩
      · obtain ⟨ho, source, hsource, hr⟩ := h.remembered k chain hk
        exact ⟨ho, source, hsource, hr.mono hgrows⟩
    · rcases hkey hk with ⟨rfl, rfl⟩ | hk
      · refine ⟨head, outer', rfl, hlt, hhead.imp ?_ ?_⟩
        · exact fun hsame => ⟨hsame.1, hsame.2 ▸ hframe.1⟩
        · exact fun hid => hid ▸ hfresh
      · obtain ⟨f, o, hchain, hf, hkept⟩ := h.head k chain hk
        exact ⟨f, o, hchain, Nat.lt_of_lt_of_le hf hn, hkept⟩
    · rcases hkey hk with ⟨rfl, rfl⟩ | hk <;> rcases hkey hk' with ⟨rfl, rfl⟩ | hk'
      · rfl
      · exact (hnew hk' (Snapshot.same_comm.trans hsame)).symm
      · exact hnew hk hsame
      · exact h.apart k k' chain chain' hk hk' hsame
  unfold Relinker.rebuild
  split
  next hkeep =>
    simp only [Bool.and_eq_true] at hkeep
    have houter' : s.relinker.Remembers rest rest := by
      -- The outer frames are those of the frame, for only a kept chain begins with one of them.
      cases rest with
      | nil => rfl
      | cons next rest =>
        obtain ⟨hk, head, outer', rfl, hrest⟩ := houter
        have hid : head.id = next.id := by simpa [Snapshot.same] using hkeep.2
        obtain ⟨f, o, hchain, -, hkept⟩ := h.head _ _ hk
        cases hchain
        rcases hkept with ⟨-, hT⟩ | hno
        · rw [hframe.2.1] at hT
          cases hT
          exact ⟨hk, _, _, rfl, hrest⟩
        · exact absurd (hown next (by simp)) (hid ▸ hno)
    have hlt : frame.id < s.nextFrame := h.below _ (hown frame (List.mem_cons_self ..))
    obtain ⟨hf, hr⟩ := hset (Nat.le_refl _) hlt houter' (.inl ⟨rfl, rfl⟩)
    exact ⟨hf, hr, grows_set hnone _⟩
  next =>
    obtain ⟨hf, hr⟩ :=
      @hset ⟨s.nextFrame, entries⟩ _ _ (Nat.le_succ _) (Nat.lt_succ_self _) houter (.inr rfl)
    exact ⟨hf, hr, grows_set hnone _⟩

end Faithful

theorem memo_rebuild (frame : Frame) (rest outer : Snapshot) (entries : List Operand) (s : Supply)
    (k : Nat) (hk : frame.id ≠ k) :
    (rebuild frame rest outer entries s).2.relinker.memo.get? k = s.relinker.memo.get? k := by
  unfold rebuild
  split <;> exact (Bindings.get?_set ..).trans (if_neg hk)

@[simp] theorem sharing_rebuild (frame : Frame) (rest outer : Snapshot) (entries : List Operand)
    (s : Supply) :
    (rebuild frame rest outer entries s).2.relinker.sharing = s.relinker.sharing := by
  unfold rebuild
  split <;> rfl

section
variable (map : Box → Operand)

/-- Only frames of the chain are remembered anew. -/
theorem memo_relink {s : Snapshot} {supply : Supply} {k : Nat} (hk : ∀ frame ∈ s, frame.id ≠ k) :
    (relink (m := Id) map s supply).2.relinker.memo.get? k = supply.relinker.memo.get? k := by
  induction s with
  | nil => rfl
  | cons frame rest ih =>
    cases h : supply.relinker.memo.get? frame.id with
    | some chain => rw [relink_of_some map h]
    | none =>
      rw [relink_of_none map h, memo_rebuild _ _ _ _ _ _ (hk frame (List.mem_cons_self ..))]
      exact ih fun f hf => hk f (.tail _ hf)

/-- A frame is remembered as before, or it was rebuilt just now. -/
theorem memo_relink_cases {s : Snapshot} {supply : Supply} {k : Nat} {chain : Snapshot}
    (h : (relink (m := Id) map s supply).2.relinker.memo.get? k = some chain) :
    supply.relinker.memo.get? k = some chain ∨ ∃ frame ∈ s, frame.id = k ∧
      ∃ head outer, chain = head :: outer ∧ head.entries = frame.entries.map (·.mapBox map) := by
  induction s with
  | nil => exact .inl h
  | cons frame rest ih =>
    cases hk : supply.relinker.memo.get? frame.id with
    | some known =>
      rw [relink_of_some map hk] at h
      exact .inl h
    | none =>
      rw [relink_of_none map hk] at h
      by_cases hne : frame.id = k
      · refine .inr ⟨frame, List.mem_cons_self .., hne, ?_⟩
        unfold rebuild at h
        split at h
        next hkeep =>
          simp only [Bool.and_eq_true, beq_iff_eq] at hkeep
          rw [Bindings.get?_set, if_pos hne] at h
          cases h
          exact ⟨frame, rest, rfl, hkeep.1.2.symm⟩
        next =>
          rw [Bindings.get?_set, if_pos hne] at h
          cases h
          exact ⟨_, _, rfl, rfl⟩
      · rw [memo_rebuild _ _ _ _ _ _ hne] at h
        refine (ih h).imp_right ?_
        rintro ⟨found, hfound, hrebuilt⟩
        exact ⟨found, .tail _ hfound, hrebuilt⟩

@[simp] theorem sharing_relink (s : Snapshot) (supply : Supply) :
    (relink (m := Id) map s supply).2.relinker.sharing = supply.relinker.sharing := by
  induction s with
  | nil => rfl
  | cons frame rest ih =>
    cases h : supply.relinker.memo.get? frame.id with
    | some chain => rw [relink_of_some map h]
    | none => rw [relink_of_none map h, sharing_rebuild, ih]

/-- A rebuilt chain is remembered, and what was remembered still is. -/
theorem Faithful.relink {T : FrameTable} {own : Nat → Prop} {supply : Supply}
    (h : Faithful T own supply) {s : Snapshot} (hs : s.In T) (hown : ∀ frame ∈ s, own frame.id) :
    Faithful T own (Relinker.relink (m := Id) map s supply).2 ∧
      (Relinker.relink (m := Id) map s supply).2.relinker.Remembers s
        (Relinker.relink (m := Id) map s supply).1 ∧
      supply.relinker.Grows (Relinker.relink (m := Id) map s supply).2.relinker := by
  induction s with
  | nil => exact ⟨h, rfl, .refl _⟩
  | cons frame rest ih =>
    cases hk : supply.relinker.memo.get? frame.id with
    | some chain =>
      rw [relink_of_some map hk]
      obtain ⟨-, source, hsource, hr⟩ := h.remembered _ _ hk
      rw [hs.1] at hsource
      cases hsource
      exact ⟨h, hr, .refl _⟩
    | none =>
      obtain ⟨hf, hr, hg⟩ := ih hs.2 fun f hf => hown f (.tail _ hf)
      have hkept := @memo_relink map rest supply frame.id fun f hf => hs.ne_of_mem hf
      have hnone := hkept.trans hk
      rw [relink_of_none map hk]
      obtain ⟨hf', hr', hg'⟩ := hf.rebuild hs hown hnone hr
        (frame.entries.map (·.mapBox map))
      exact ⟨hf', hr', hg.trans hg'⟩

/-- All frames that a relinker may put into a chain have numbers from `first` on. -/
def From (first : Nat) (s : Supply) : Prop :=
  first ≤ s.nextFrame ∧ ∀ k chain, s.relinker.memo.get? k = some chain → ∀ frame ∈ chain,
    first ≤ frame.id

theorem From.relink {first : Nat} {supply : Supply} (h : From first supply) {s : Snapshot}
    (hs : supply.relinker.sharing = false ∨ ∀ frame ∈ s, first ≤ frame.id) :
    From first (Relinker.relink (m := Id) map s supply).2 ∧
      ∀ frame ∈ (Relinker.relink (m := Id) map s supply).1, first ≤ frame.id := by
  induction s with
  | nil => exact ⟨h, nofun⟩
  | cons frame rest ih =>
    cases hk : supply.relinker.memo.get? frame.id with
    | some chain =>
      rw [relink_of_some map hk]
      exact ⟨h, h.2 _ _ hk⟩
    | none =>
      obtain ⟨hfrom, houter⟩ := ih (hs.imp_right fun hs f hf => hs f (.tail _ hf))
      rw [relink_of_none map hk]
      have hsharing := sharing_relink map rest supply
      set r := Relinker.relink (m := Id) map rest supply
      have hset : ∀ {chain : Snapshot} {n : Nat}, r.2.nextFrame ≤ n →
          (∀ f ∈ chain, first ≤ f.id) →
          From first ⟨{r.2.relinker with memo := r.2.relinker.memo.set frame.id chain}, n⟩ := by
        intro chain n hn hchain
        refine ⟨Nat.le_trans hfrom.1 hn, fun k chain' hk' => ?_⟩
        rw [Bindings.get?_set] at hk'
        split at hk'
        next =>
          cases hk'
          exact hchain
        next => exact hfrom.2 k chain' hk'
      unfold rebuild
      split
      next hkeep =>
        simp only [Bool.and_eq_true, hsharing] at hkeep
        have hchain := hs.resolve_left (by simp [hkeep.1.1])
        exact ⟨hset (Nat.le_refl _) hchain, hchain⟩
      next =>
        have hchain : ∀ f ∈ (⟨r.2.nextFrame,
            frame.entries.map (·.mapBox map)⟩ : Frame) :: r.1,
            first ≤ f.id := by
          intro f hf
          rcases List.mem_cons.1 hf with rfl | hf
          · exact hfrom.1
          · exact houter f hf
        exact ⟨hset (Nat.le_succ _) hchain, hchain⟩

/-- The frames that heads of rebuilt chains are. -/
def Made (r : Relinker) (id : Nat) : Prop :=
  ∃ k frame outer, r.memo.get? k = some (frame :: outer) ∧ frame.id = id

/-- Each frame of a rebuilt chain was made for the frame in its place. -/
theorem Remembers.made {r : Relinker} {s chain : Snapshot} (h : r.Remembers s chain)
    {frame : Frame} (hframe : frame ∈ chain) : r.Made frame.id := by
  obtain ⟨i, hi, rfl⟩ := List.mem_iff_getElem.1 hframe
  have hk := h.get?_eq (List.getElem?_eq_getElem (h.length_eq ▸ hi))
  rw [List.drop_eq_getElem_cons hi] at hk
  exact ⟨_, _, _, hk, rfl⟩

theorem Faithful.made_lt {T : FrameTable} {own : Nat → Prop} {s : Supply} (h : Faithful T own s)
    {id : Nat} (hid : s.relinker.Made id) : id < s.nextFrame := by
  obtain ⟨k, frame, outer, hk, rfl⟩ := hid
  obtain ⟨_, _, hchain, hlt, -⟩ := h.head _ _ hk
  cases hchain
  exact hlt

/-- A relinker that copies makes frames of new numbers only. -/
theorem made_relink {supply : Supply} (hcopies : supply.relinker.sharing = false) {s : Snapshot}
    {id : Nat} (h : (relink (m := Id) map s supply).2.relinker.Made id) :
    supply.relinker.Made id ∨ supply.nextFrame ≤ id := by
  induction s with
  | nil => exact .inl h
  | cons frame rest ih =>
    cases hk : supply.relinker.memo.get? frame.id with
    | some chain =>
      rw [relink_of_some map hk] at h
      exact .inl h
    | none =>
      obtain ⟨k, head, outer, hget, rfl⟩ := h
      rw [relink_of_none map hk, rebuild, if_neg (by simp [hcopies]), Bindings.get?_set] at hget
      split at hget
      next =>
        cases hget
        exact .inr (nextFrame_le_relink map rest supply)
      next => exact ih ⟨k, head, outer, hget, rfl⟩

/-- A relinker that keeps frames keeps all, where the mapping leaves all boxes as they are. -/
theorem relink_kept {T : FrameTable} {supply : Supply} (hkeeps : supply.relinker.sharing = true)
    (hmemo : ∀ k chain, supply.relinker.memo.get? k = some chain → T k = some chain)
    {s : Snapshot} (hs : s.In T) :
    ∃ r, relink (m := Id) Operand.box s supply = (s, ⟨r, supply.nextFrame⟩) ∧ r.sharing = true ∧
      ∀ k chain, r.memo.get? k = some chain → T k = some chain := by
  induction s with
  | nil => exact ⟨supply.relinker, rfl, hkeeps, hmemo⟩
  | cons frame rest ih =>
    cases hk : supply.relinker.memo.get? frame.id with
    | some chain =>
      rw [relink_of_some _ hk]
      have hchain := hmemo _ _ hk
      rw [hs.1] at hchain
      cases hchain
      exact ⟨supply.relinker, rfl, hkeeps, hmemo⟩
    | none =>
      obtain ⟨r, hrest, hsharing, hmemo'⟩ := ih hs.2
      have hentries : frame.entries.map (·.mapBox Operand.box) = frame.entries :=
        List.map_id'' (fun a => by cases a <;> rfl) _
      refine ⟨{r with memo := r.memo.set frame.id (frame :: rest)}, ?_, hsharing,
        fun k chain hk' => ?_⟩
      · rw [relink_of_none _ hk, hrest, hentries, rebuild,
          if_pos (by simp [hsharing, Snapshot.same])]
      · rw [Bindings.get?_set] at hk'
        split at hk'
        next he =>
          cases hk'
          rw [← he]
          exact hs.1
        next => exact hmemo' k chain hk'

end

end Relinker
end TracePeel
