import TracePeel.Proofs.Sharing

/-! What one relinker makes of many chains.

A relinker is asked for chains one after the other, and the chains share frames in any
way. It goes outwards to the first frame that it knows and rebuilds the frames in front
of that, so what it does depends on what it was asked for before; what comes of it does
not.

`relinkAll_isomorphic`: each chain becomes its image under the mapping, frame by frame,
and the frames made are shared as the frames they were made from. A relinker that copies
makes new frames only; one that keeps frames keeps those that the mapping leaves alone,
outer frames included. The mapping is asked once about each box of each frame, and the
relinker remembers as many frames as there are. -/
namespace TracePeel

namespace Snapshot

/-- A frame of a chain heads what is left of the chain from it on. -/
theorem In.get?_eq {T : FrameTable} {s : Snapshot} (h : s.In T) {k : Nat} {frame : Frame}
    (hk : s[k]? = some frame) : T frame.id = some (s.drop k) := by
  induction s generalizing k with
  | nil => cases hk
  | cons head rest ih =>
    cases k with
    | zero =>
      cases hk
      exact h.1
    | succ k => exact ih h.2 hk

theorem In.nodup {T : FrameTable} {s : Snapshot} (h : s.In T) : (s.map (·.id)).Nodup := by
  induction s with
  | nil => exact .nil
  | cons frame rest ih =>
    refine List.nodup_cons.2 ⟨fun hmem => ?_, ih h.2⟩
    obtain ⟨other, hother, he⟩ := List.mem_map.1 hmem
    exact h.ne_of_mem hother he

end Snapshot

namespace Relinker
open Snapshot

/-! ### Asking and writing down what was asked -/

/-- The mapping `f`, which also writes down the boxes that it is asked about. -/
def asking (f : Box → Operand) (b : Box) : StateM (List Box) Operand :=
  fun asked => (f b, asked ++ [b])

/-- The chains asked for one after the other; each gives the rebuilt chain and the boxes
that the mapping was asked about, first to last. -/
def relinkAll (f : Box → Operand) : List Snapshot → Supply → List (Snapshot × List Box) × Supply
  | [], supply => ([], supply)
  | chain :: rest, supply =>
    let ((rebuilt, supply'), asked) := (relink (asking f) chain supply).run []
    let (later, last) := relinkAll f rest supply'
    ((rebuilt, asked) :: later, last)

/-- The frames in front of the first that the relinker knows. -/
def unmet (r : Relinker) (s : Snapshot) : Snapshot :=
  s.takeWhile fun frame => (r.memo.get? frame.id).isNone

/-- The boxes among the entries of a frame. -/
def boxes (frame : Frame) : List Box :=
  frame.entries.filterMap (·.box?)

section
variable (f : Box → Operand)

theorem run_mapEntry_asking (a : Operand) (asked : List Box) :
    (mapEntry (asking f) a).run asked = (a.mapBox f, asked ++ a.box?.toList) := by
  cases a with
  | box b => rfl
  | const c => exact congrArg (Prod.mk _) (List.append_nil asked).symm

theorem run_mapM_asking (entries : List Operand) (asked : List Box) :
    (entries.mapM (mapEntry (asking f))).run asked =
      (entries.map (·.mapBox f), asked ++ entries.filterMap (·.box?)) := by
  induction entries generalizing asked with
  | nil => exact congrArg (Prod.mk _) (List.append_nil asked).symm
  | cons a rest ih =>
    have hboxes : asked ++ (a :: rest).filterMap (·.box?) =
        asked ++ a.box?.toList ++ rest.filterMap (·.box?) := by
      cases h : a.box? <;> simp [h]
    rw [List.mapM_cons, StateT.run_bind, run_mapEntry_asking, hboxes]
    show ((rest.mapM (mapEntry (asking f)) >>= fun more =>
      pure (a.mapBox f :: more)).run (asked ++ a.box?.toList) : _ × _) = _
    rw [StateT.run_bind, ih]
    rfl

theorem relink_bind {m : Type → Type} [Monad m] (map : Box → m Operand) {frame : Frame}
    {s : Supply} (h : s.relinker.memo.get? frame.id = none) (rest : Snapshot) :
    relink map (frame :: rest) s = relink map rest s >>= fun outer =>
      frame.entries.mapM (mapEntry map) >>= fun entries =>
        pure (rebuild frame rest outer.1 entries outer.2) := by
  conv_lhs => unfold relink
  rw [h]

/-- Writing down what is asked changes nothing. It is asked about the frames that were
not known, the outermost first. -/
theorem run_relink_asking (s : Snapshot) (supply : Supply) (asked : List Box) :
    (relink (asking f) s supply).run asked =
      (relink (m := Id) f s supply,
        asked ++ (supply.relinker.unmet s).reverse.flatMap boxes) := by
  induction s generalizing asked with
  | nil => exact congrArg (Prod.mk _) (List.append_nil asked).symm
  | cons frame rest ih =>
    cases h : supply.relinker.memo.get? frame.id with
    | some chain =>
      have hunmet : supply.relinker.unmet (frame :: rest) = [] := by simp [unmet, h]
      rw [relink_of_some f h, hunmet]
      unfold relink
      rw [h]
      exact congrArg (Prod.mk _) (List.append_nil asked).symm
    | none =>
      have hunmet : supply.relinker.unmet (frame :: rest) =
          frame :: supply.relinker.unmet rest := by simp [unmet, h]
      have hasked : (supply.relinker.unmet (frame :: rest)).reverse.flatMap boxes =
          (supply.relinker.unmet rest).reverse.flatMap boxes ++ boxes frame := by
        simp [hunmet]
      rw [relink_of_none f h, hasked, ← List.append_assoc, relink_bind _ h, StateT.run_bind, ih]
      refine (StateT.run_bind ..).trans ?_
      rw [run_mapM_asking]
      rfl

end

/-! ### The frames that are remembered -/

theorem size_rebuild {frame : Frame} {s : Supply} (h : s.relinker.memo.get? frame.id = none)
    (rest outer : Snapshot) (entries : List Operand) :
    (rebuild frame rest outer entries s).2.relinker.size = s.relinker.size + 1 := by
  have hset : ∀ chain, (s.relinker.memo.set frame.id chain).size = s.relinker.memo.size + 1 :=
    fun chain => by simp [Bindings.size_set, Bindings.contains, h]
  unfold rebuild
  split <;> exact hset _

section
variable {f : Box → Operand} {T : FrameTable} {own : Nat → Prop} {supply : Supply} {s : Snapshot}

/-- Each frame that was not known is remembered. -/
theorem size_relink (hs : s.In T) :
    (relink (m := Id) f s supply).2.relinker.size =
      supply.relinker.size + (supply.relinker.unmet s).length := by
  induction s with
  | nil => rfl
  | cons frame rest ih =>
    cases h : supply.relinker.memo.get? frame.id with
    | some chain =>
      have hunmet : supply.relinker.unmet (frame :: rest) = [] := by simp [unmet, h]
      rw [relink_of_some f h, hunmet]
      rfl
    | none =>
      have hunmet : supply.relinker.unmet (frame :: rest) =
          frame :: supply.relinker.unmet rest := by simp [unmet, h]
      have hkept : (relink (m := Id) f rest supply).2.relinker.memo.get? frame.id =
          supply.relinker.memo.get? frame.id := memo_relink f fun _ hf => hs.ne_of_mem hf
      have hnone := hkept.trans h
      rw [relink_of_none f h, size_rebuild hnone, ih hs.2, hunmet, List.length_cons]
      rfl

/-- Behind a frame that is known, all are known. -/
theorem Faithful.unmet_eq (h : Faithful T own supply) (hs : s.In T) :
    supply.relinker.unmet s = s.filter fun frame => (supply.relinker.memo.get? frame.id).isNone := by
  induction s with
  | nil => rfl
  | cons frame rest ih =>
    cases hk : supply.relinker.memo.get? frame.id with
    | some chain =>
      obtain ⟨-, source, hsource, hr⟩ := h.remembered _ _ hk
      rw [hs.1] at hsource
      cases hsource
      have hall : ∀ frame' ∈ frame :: rest,
          (supply.relinker.memo.get? frame'.id).isNone = false := by
        intro frame' hframe
        obtain ⟨i, hi, rfl⟩ := List.mem_iff_getElem.1 hframe
        simp [hr.get?_eq (List.getElem?_eq_getElem hi)]
      rw [List.filter_eq_nil_iff.2 fun frame' hf => by simp [hall frame' hf]]
      simp [unmet, hk]
    | none =>
      rw [List.filter_cons, if_pos (by simp [hk]), ← ih hs.2]
      simp [unmet, hk]

end

/-! ### The frames that are kept -/

/-- The mapping leaves all boxes of a chain as they are. -/
def Fixes (f : Box → Operand) (s : Snapshot) : Prop :=
  ∀ b, .box b ∈ s.operands → f b = .box b

/-- A chain that the mapping leaves alone became itself. -/
def Keeps (f : Box → Operand) (T : FrameTable) (r : Relinker) : Prop :=
  ∀ k chain, r.memo.get? k = some chain → ∀ source, T k = some source → Fixes f source →
    chain = source

theorem map_mapBox_of_fixes {f : Box → Operand} {entries : List Operand}
    (h : ∀ b, .box b ∈ entries → f b = .box b) : entries.map (·.mapBox f) = entries := by
  have hsame : ∀ a ∈ entries, a.mapBox f = id a := by
    intro a ha
    cases a with
    | box b => exact h b ha
    | const c => rfl
  rw [List.map_congr_left hsame, List.map_id]

section
variable {f : Box → Operand} {T : FrameTable} {own : Nat → Prop} {supply : Supply} {s : Snapshot}

theorem Keeps.relink (h : Keeps f T supply.relinker) (hf : Faithful T own supply)
    (hkeeps : supply.relinker.sharing = true) (hs : s.In T) (hown : ∀ frame ∈ s, own frame.id) :
    Keeps f T (Relinker.relink (m := Id) f s supply).2.relinker := by
  induction s with
  | nil => exact h
  | cons frame rest ih =>
    cases hk : supply.relinker.memo.get? frame.id with
    | some chain => rwa [relink_of_some f hk]
    | none =>
      have hrest : ∀ frame ∈ rest, own frame.id := fun _ hf => hown _ (.tail _ hf)
      have hkept := ih hs.2 hrest
      obtain ⟨-, hr, -⟩ := hf.relink f hs.2 hrest
      rw [relink_of_none f hk]
      intro k chain hchain source hsource hfixes
      by_cases he : frame.id = k
      · subst he
        rw [hs.1] at hsource
        cases hsource
        have hentries : frame.entries.map (·.mapBox f) = frame.entries :=
          map_mapBox_of_fixes fun b hb => hfixes b (by simp [operands, hb])
        have houter : (Relinker.relink (m := Id) f rest supply).1 = rest := by
          cases rest with
          | nil => exact hr
          | cons next rest =>
            exact hkept _ _ hr.1 _ hs.2.1 fun b hb => hfixes b (by
              simp only [operands, List.flatMap_cons, List.mem_append] at hb ⊢
              exact .inr hb)
        rw [rebuild, if_pos (by simp [hkeeps, hentries, houter, Snapshot.same])] at hchain
        exact Option.some.inj (hchain.symm.trans (Bindings.get?_set_self ..))
      · rw [memo_rebuild _ _ _ _ _ _ he] at hchain
        exact hkept k chain hchain source hsource hfixes

end

/-! ### One call after the other -/

/-- The frames of several chains, by their numbers. -/
def numbers (chains : List Snapshot) : List Nat :=
  chains.flatten.map (·.id)

/-- A relinker that was asked for some chains knows their frames, each once, and keeps what
it made of them apart. -/
structure Served (f : Box → Operand) (T : FrameTable) (first : Nat) (earlier : List Snapshot)
    (nodes : List Frame) (supply : Supply) : Prop where
  faithful : Faithful T (fun k => (T k).isSome) supply
  sound : ∃ T', T.Extends T' ∧ Sound (fun a b => b = a.mapBox f) T' supply
  keeps : supply.relinker.sharing = true → Keeps f T supply.relinker
  copies : supply.relinker.sharing = false → From first supply
  nodup : (nodes.map (·.id)).Nodup
  mem : ∀ frame, frame ∈ nodes ↔ ∃ s ∈ earlier, frame ∈ s
  known : ∀ k, (supply.relinker.memo.get? k).isSome ↔ k ∈ numbers earlier
  size : supply.relinker.size = nodes.length

/-- What a chain became, as a relinker has it. -/
structure Answer (f : Box → Operand) (first : Nat) (r : Relinker) (s rebuilt : Snapshot) :
    Prop where
  remembers : r.Remembers s rebuilt
  image : Image (fun a b => b = a.mapBox f) s rebuilt
  copied : r.sharing = false → ∀ frame ∈ rebuilt, first ≤ frame.id

section
variable {f : Box → Operand} {T : FrameTable} {first : Nat} {earlier : List Snapshot}
  {nodes : List Frame} {supply : Supply} {s : Snapshot}

theorem mem_numbers {k : Nat} : k ∈ numbers earlier ↔ ∃ s ∈ earlier, ∃ frame ∈ s, frame.id = k := by
  simp only [numbers, List.mem_map, List.mem_flatten]
  exact ⟨fun ⟨frame, ⟨s, hs, hf⟩, he⟩ => ⟨s, hs, frame, hf, he⟩,
    fun ⟨s, hs, frame, hf, he⟩ => ⟨frame, ⟨s, hs, hf⟩, he⟩⟩

/-- The frames that were not known are those of no earlier chain. -/
theorem Served.unmet_eq (h : Served f T first earlier nodes supply) (hs : s.In T) :
    supply.relinker.unmet s = s.filter fun frame => frame.id ∉ numbers earlier := by
  rw [h.faithful.unmet_eq hs]
  refine List.filter_congr fun frame _ => ?_
  rw [Bool.eq_iff_iff, decide_eq_true_iff, ← h.known, Option.isNone_iff_eq_none,
    Option.not_isSome_iff_eq_none]

theorem Served.nodup_append (h : Served f T first earlier nodes supply) (hs : s.In T) :
    ((nodes ++ (supply.relinker.unmet s).reverse).map (·.id)).Nodup := by
  have hunmet : ∀ frame ∈ supply.relinker.unmet s, frame.id ∉ numbers earlier := fun frame hf => by
    rw [h.unmet_eq hs] at hf
    simpa using (List.mem_filter.1 hf).2
  rw [List.map_append, List.map_reverse]
  refine List.nodup_append.2 ⟨h.nodup, (List.reverse_perm _).nodup_iff.2 ?_, ?_⟩
  · rw [h.unmet_eq hs]
    exact (hs.nodup.sublist (List.filter_sublist.map _))
  · rintro k hk _ hk' rfl
    obtain ⟨frame, hf, rfl⟩ := List.mem_map.1 hk
    obtain ⟨frame', hf', he⟩ := List.mem_map.1 (List.mem_reverse.1 hk')
    obtain ⟨s', hs', hf⟩ := (h.mem frame).1 hf
    exact hunmet frame' hf' (he ▸ mem_numbers.2 ⟨s', hs', frame, hf, rfl⟩)

theorem Served.mem_append (h : Served f T first earlier nodes supply)
    (hearlier : ∀ s ∈ earlier, s.In T) (hs : s.In T) (frame : Frame) :
    frame ∈ nodes ++ (supply.relinker.unmet s).reverse ↔
      ∃ s' ∈ earlier ++ [s], frame ∈ s' := by
  rw [List.mem_append, List.mem_reverse, h.mem, h.unmet_eq hs, List.mem_filter,
    decide_eq_true_iff]
  simp only [List.mem_append, List.mem_singleton]
  constructor
  · rintro (⟨s', hs', hf⟩ | ⟨hf, -⟩)
    · exact ⟨s', .inl hs', hf⟩
    · exact ⟨s, .inr rfl, hf⟩
  · rintro ⟨s', hs' | rfl, hf⟩
    · exact .inl ⟨s', hs', hf⟩
    · by_cases hknown : frame.id ∈ numbers earlier
      · obtain ⟨s'', hs'', frame', hf', he⟩ := mem_numbers.1 hknown
        exact .inl ⟨s'', hs'', (hearlier s'' hs'').eq_of_id hs hf' hf he ▸ hf'⟩
      · exact .inr ⟨hf, hknown⟩

/-- One more chain is asked for. -/
theorem Served.relink (h : Served f T first earlier nodes supply)
    (hearlier : ∀ s ∈ earlier, s.In T) (hs : s.In T) :
    Served f T first (earlier ++ [s]) (nodes ++ (supply.relinker.unmet s).reverse)
        (Relinker.relink (m := Id) f s supply).2 ∧
      Answer f first (Relinker.relink (m := Id) f s supply).2.relinker s
        (Relinker.relink (m := Id) f s supply).1 ∧
      supply.relinker.Grows (Relinker.relink (m := Id) f s supply).2.relinker := by
  have hown : ∀ frame ∈ s, (T frame.id).isSome := fun frame hf => by
    obtain ⟨outer, hT⟩ := hs.head hf
    rw [hT]
    rfl
  have hsharing := sharing_relink f s supply
  obtain ⟨hfaithful, hremembers, hgrows⟩ := h.faithful.relink f hs hown
  obtain ⟨T', hT, hsound⟩ := h.sound
  obtain ⟨T'', hT', hsound', -, himage⟩ :=
    hsound.relink f (fun _ => rfl) (hs.mono hT) fun _ _ => rfl
  have hcopies : supply.relinker.sharing = false → _ := fun hcopies =>
    (h.copies hcopies).relink f (s := s) (.inl hcopies)
  refine ⟨?_, ⟨hremembers, himage, fun hc => (hcopies (hsharing ▸ hc)).2⟩, hgrows⟩
  constructor
  case faithful => exact hfaithful
  case sound => exact ⟨T'', hT.trans hT', hsound'⟩
  case keeps =>
    intro hk
    rw [hsharing] at hk
    exact (h.keeps hk).relink h.faithful hk hs hown
  case copies => exact fun hc => (hcopies (hsharing ▸ hc)).1
  case nodup => exact h.nodup_append hs
  case mem => exact h.mem_append hearlier hs
  case known =>
    intro k
    have hnumbers : k ∈ numbers (earlier ++ [s]) ↔ k ∈ numbers earlier ∨ k ∈ s.map (·.id) := by
      simp [numbers]
    rw [hnumbers, ← h.known]
    by_cases hk : k ∈ s.map (·.id)
    · obtain ⟨frame, hf, rfl⟩ := List.mem_map.1 hk
      obtain ⟨i, hi, rfl⟩ := List.mem_iff_getElem.1 hf
      rw [hremembers.get?_eq (List.getElem?_eq_getElem hi)]
      exact iff_of_true rfl (.inr hk)
    · rw [memo_relink f fun frame hf he => hk (List.mem_map.2 ⟨frame, hf, he⟩)]
      simp [hk]
  case size => rw [size_relink hs, h.size, List.length_append, List.length_reverse]

theorem Answer.mono {r r' : Relinker} {rebuilt : Snapshot} (h : Answer f first r s rebuilt)
    (hr : r.Grows r') (hsharing : r'.sharing = r.sharing) : Answer f first r' s rebuilt :=
  ⟨h.remembers.mono hr, h.image, fun hc => h.copied (hsharing ▸ hc)⟩

theorem relinkAll_cons (f : Box → Operand) (s : Snapshot) (rest : List Snapshot) (supply : Supply) :
    relinkAll f (s :: rest) supply =
      (((Relinker.relink (m := Id) f s supply).1,
          (supply.relinker.unmet s).reverse.flatMap boxes) ::
        (relinkAll f rest (Relinker.relink (m := Id) f s supply).2).1,
        (relinkAll f rest (Relinker.relink (m := Id) f s supply).2).2) := by
  rw [relinkAll, run_relink_asking]
  rfl

/-- All of the chains are asked for, and `more` are the frames met on the way. -/
theorem Served.relinkAll (h : Served f T first earlier nodes supply)
    (hearlier : ∀ s ∈ earlier, s.In T) {heads : List Snapshot} (hheads : ∀ s ∈ heads, s.In T) :
    ∃ more, Served f T first (earlier ++ heads) (nodes ++ more)
        (Relinker.relinkAll f heads supply).2 ∧
      supply.relinker.Grows (Relinker.relinkAll f heads supply).2.relinker ∧
      (Relinker.relinkAll f heads supply).2.relinker.sharing = supply.relinker.sharing ∧
      List.Forall₂ (fun s r => Answer f first (Relinker.relinkAll f heads supply).2.relinker s r.1)
        heads (Relinker.relinkAll f heads supply).1 ∧
      (Relinker.relinkAll f heads supply).1.flatMap (·.2) = more.flatMap boxes ∧
      ∀ (i : Nat) s r, heads[i]? = some s → (Relinker.relinkAll f heads supply).1[i]? = some r →
        r.2 = (s.filter fun frame =>
          frame.id ∉ numbers (earlier ++ heads.take i)).reverse.flatMap boxes := by
  induction heads generalizing earlier nodes supply with
  | nil => exact ⟨[], by simpa [Relinker.relinkAll] using h, .refl _, rfl, .nil, rfl, nofun⟩
  | cons s rest ih =>
    have hs := hheads s (List.mem_cons_self ..)
    have hrest : ∀ s ∈ rest, s.In T := fun s hs => hheads s (.tail _ hs)
    obtain ⟨hserved, hanswer, hgrows⟩ := h.relink hearlier hs
    have hearlier' : ∀ s' ∈ earlier ++ [s], s'.In T := fun s' hs' =>
      (List.mem_append.1 hs').elim (hearlier s') fun hs' => List.mem_singleton.1 hs' ▸ hs
    obtain ⟨more, hlast, hgrows', hsharing, hanswers, hasked, horder⟩ := ih hserved hearlier' hrest
    rw [relinkAll_cons]
    refine ⟨(supply.relinker.unmet s).reverse ++ more, by simpa using hlast,
      hgrows.trans hgrows', hsharing.trans (sharing_relink f s supply),
      .cons (hanswer.mono hgrows' hsharing) hanswers, ?_, ?_⟩
    · rw [List.flatMap_cons, hasked, List.flatMap_append]
    · intro i s' r hs' hr
      cases i with
      | zero =>
        cases hs'
        cases hr
        rw [h.unmet_eq hs, List.take_zero, List.append_nil]
      | succ i =>
        have := horder i s' r hs' hr
        rwa [List.append_assoc, List.singleton_append, ← List.take_succ_cons] at this

/-- A relinker that was asked for nothing. -/
theorem Served.nothing {n : Nat} (hT : T.Below n) (f : Box → Operand) (sharing : Bool) :
    Served f T n [] [] ⟨{ sharing }, n⟩ where
  faithful := .empty (fun k hk => by
    obtain ⟨chain, hk⟩ := Option.isSome_iff_exists.1 hk
    exact hT k chain hk) sharing
  sound := ⟨T, .refl T, .empty hT sharing⟩
  keeps _ := nofun
  copies _ := ⟨Nat.le_refl _, nofun⟩
  nodup := .nil
  mem := by simp
  known k := by simp [numbers]
  size := rfl

end

/-! ### What comes of it -/

/-- `results` are what a relinker made of the chains `heads` of the table `T`, each with the
boxes that the mapping `f` was asked about, and `size` is how many frames it knows. -/
structure Isomorphic (T : FrameTable) (f : Box → Operand) (sharing : Bool) (heads : List Snapshot)
    (results : List (Snapshot × List Box)) (size : Nat) : Prop where
  images : List.Forall₂ (fun (s : Snapshot) r => (s = [] → r.1 = []) ∧ r.1.depth = s.depth ∧
    r.1.map (·.entries) = s.map (·.entries.map (·.mapBox f))) heads results
  shared : ∀ (i j : Nat) s₁ s₂ r₁ r₂, heads[i]? = some s₁ → heads[j]? = some s₂ →
    results[i]? = some r₁ → results[j]? = some r₂ → SharesAs s₁ s₂ r₁.1 r₂.1
  copied : sharing = false → ∀ r ∈ results, ∀ frame ∈ r.1, T frame.id = none
  kept : sharing = true → ∀ (i : Nat) s r, heads[i]? = some s → results[i]? = some r →
    ∀ (k : Nat) frame frame', s[k]? = some frame → r.1[k]? = some frame' →
      (frame'.id = frame.id ↔ Fixes f (s.drop k)) ∧
      (frame'.id = frame.id → r.1.drop k = s.drop k) ∧
      (frame'.id ≠ frame.id → T frame'.id = none)
  asked : ∀ (i : Nat) s r, heads[i]? = some s → results[i]? = some r →
    r.2 = (s.filter fun frame => frame.id ∉ numbers (heads.take i)).reverse.flatMap boxes
  once : ∃ nodes : List Frame, (nodes.map (·.id)).Nodup ∧
    (∀ frame, frame ∈ nodes ↔ ∃ s ∈ heads, frame ∈ s) ∧
    results.flatMap (·.2) = nodes.flatMap boxes ∧ size = nodes.length

theorem map_entries_of_image {f : Box → Operand} {s r : Snapshot}
    (h : Image (fun a b => b = a.mapBox f) s r) :
    r.map (·.entries) = s.map (·.entries.map (·.mapBox f)) := by
  induction h with
  | nil => rfl
  | cons hf _ ih => rw [List.map_cons, List.map_cons, ih, eq_map_of_forall₂ hf]

/-- The mapping leaves alone what it maps to itself. -/
theorem fixes_of_map_entries {f : Box → Operand} {s : Snapshot}
    (h : s.map (·.entries) = s.map (·.entries.map (·.mapBox f))) : Fixes f s := by
  intro b hb
  obtain ⟨frame, hframe, hb⟩ := List.mem_flatMap.1 hb
  have hentries : frame.entries = frame.entries.map (·.mapBox f) := List.map_inj_left.1 h frame hframe
  have hfixed : ∀ a ∈ frame.entries, id a = a.mapBox f :=
    List.map_inj_left.1 ((List.map_id _).trans hentries)
  exact (hfixed _ hb).symm

section
variable {f : Box → Operand} {T : FrameTable} {own : Nat → Prop} {s r : Snapshot} {last : Supply}

/-- A frame that is kept is kept for what the mapping does to it and to the frames behind. -/
theorem kept_iff (hf : Faithful T (fun k => (T k).isSome) last)
    (hk : Keeps f T last.relinker) (hs : s.In T) (hr : last.relinker.Remembers s r)
    (himage : r.map (·.entries) = s.map (·.entries.map (·.mapBox f))) {k : Nat}
    {frame frame' : Frame} (hframe : s[k]? = some frame) (hframe' : r[k]? = some frame') :
    (frame'.id = frame.id ↔ Fixes f (s.drop k)) ∧
      (frame'.id = frame.id → r.drop k = s.drop k) ∧
      (frame'.id ≠ frame.id → T frame'.id = none) := by
  have hmemo := hr.get?_eq hframe
  have hT := hs.get?_eq hframe
  have head_drop : ∀ {s : Snapshot} {frame : Frame}, s[k]? = some frame →
      (s.drop k).head? = some frame := fun h => by rw [List.head?_drop, h]
  obtain ⟨head, outer, hdrop, -, hkept⟩ := hf.head _ _ hmemo
  obtain rfl : head = frame' := by
    have := head_drop hframe'
    rw [hdrop] at this
    exact Option.some.inj this
  have hsame : head.id = frame.id → r.drop k = s.drop k := by
    intro he
    rcases hkept with ⟨-, hTr⟩ | hno
    · exact Option.some.inj (hTr.symm.trans hT)
    · exact absurd (by rw [he, hT]; rfl) hno
  refine ⟨⟨fun he => fixes_of_map_entries ?_, fun hfixes => ?_⟩, hsame, fun hne => ?_⟩
  · calc (s.drop k).map (·.entries)
      _ = (r.drop k).map (·.entries) := by rw [hsame he]
      _ = (s.map (·.entries.map (·.mapBox f))).drop k := by rw [List.map_drop, himage]
      _ = (s.drop k).map (·.entries.map (·.mapBox f)) := List.map_drop.symm
  · have heads := head_drop hframe'
    rw [hk _ _ hmemo _ hT hfixes, head_drop hframe] at heads
    rw [Option.some.inj heads]
  · exact Option.not_isSome_iff_eq_none.1 (hkept.resolve_left fun hh => hne hh.1)

end

theorem relinkAll_isomorphic {T : FrameTable} {n : Nat} (hT : T.Below n) (f : Box → Operand)
    (sharing : Bool) {heads : List Snapshot} (hheads : ∀ s ∈ heads, s.In T) :
    Isomorphic T f sharing heads (relinkAll f heads ⟨{ sharing }, n⟩).1
      (relinkAll f heads ⟨{ sharing }, n⟩).2.relinker.size := by
  obtain ⟨nodes, hserved, -, hsharing, hanswers, hasked, horder⟩ :=
    (Served.nothing hT f sharing).relinkAll nofun hheads
  set last := (relinkAll f heads ⟨{ sharing }, n⟩).2
  set results := (relinkAll f heads ⟨{ sharing }, n⟩).1
  have answer : ∀ {i : Nat} {s r}, heads[i]? = some s → results[i]? = some r →
      Answer f n last.relinker s r.1 := by
    intro i s r hs hr
    obtain ⟨hi, rfl⟩ := List.getElem?_eq_some_iff.1 hs
    obtain ⟨hj, rfl⟩ := List.getElem?_eq_some_iff.1 hr
    exact hanswers.get hi hj
  constructor
  case images =>
    refine hanswers.imp fun s r h => ⟨fun hs => ?_, h.remembers.length_eq,
      map_entries_of_image h.image⟩
    have hlen := h.remembers.length_eq
    rw [hs] at hlen
    exact List.length_eq_zero_iff.1 hlen
  case shared =>
    intro i j s₁ s₂ r₁ r₂ hs₁ hs₂ hr₁ hr₂
    exact hserved.faithful.sharesAs (answer hs₁ hr₁).remembers (answer hs₂ hr₂).remembers
  case copied =>
    intro hcopies r hr frame hframe
    obtain ⟨i, hi, rfl⟩ := List.mem_iff_getElem.1 hr
    have hs := List.getElem?_eq_getElem (hanswers.length_eq ▸ hi)
    have hnew := (answer hs (List.getElem?_eq_getElem hi)).copied (hsharing.trans hcopies) frame hframe
    by_contra hsome
    obtain ⟨chain, hchain⟩ := Option.ne_none_iff_exists'.1 hsome
    exact Nat.not_lt.2 hnew (hT _ _ hchain)
  case kept =>
    intro hkeeps i s r hs hr k frame frame' hframe hframe'
    have h := answer hs hr
    exact kept_iff hserved.faithful (hserved.keeps (hsharing.trans hkeeps))
      (hheads s (List.mem_of_getElem? hs)) h.remembers (map_entries_of_image h.image)
      hframe hframe'
  case asked => exact horder
  case once => exact ⟨nodes, hserved.nodup, hserved.mem, hasked, hserved.size⟩

/-- The frames of two guards of one inner frame, and of a third guard further out. -/
def nested : FrameTable :=
  let outermost : Frame := ⟨0, [.box ⟨0, .int⟩, .const (.int 7)]⟩
  let outer : Frame := ⟨1, [.box ⟨1, .ref⟩, .box ⟨0, .int⟩]⟩
  (((FrameTable.add (fun _ => none) outermost []).add outer [outermost]).add
    ⟨2, [.box ⟨2, .int⟩]⟩ [outer, outermost]).add ⟨3, []⟩ [outer, outermost]

/-- Chains of `nested` in the order in which they are asked for, one of them missing. -/
def guarded : List Snapshot :=
  [(nested 2).getD [], [], (nested 1).getD [], (nested 3).getD [], (nested 2).getD []]

/-- One box is known to be 1. -/
def knowing (b : Box) : Operand :=
  if b.id = 2 then .const (.int 1) else .box b

theorem nested_isomorphic :
    (nested.Below 4 ∧ ∀ s ∈ guarded, s.In nested) ∧
    Isomorphic nested knowing true guarded (relinkAll knowing guarded ⟨{ sharing := true }, 4⟩).1
      (relinkAll knowing guarded ⟨{ sharing := true }, 4⟩).2.relinker.size := by
  have empty : FrameTable.Below (fun _ => none) 0 := by
    intro k chain h
    cases h
  have below : nested.Below 4 := (((empty.add _ _).add _ _).add _ _).add _ _
  have inside : ∀ s ∈ guarded, s.In nested := by
    simp [guarded, nested, FrameTable.add, In]
  exact ⟨⟨below, inside⟩, relinkAll_isomorphic below knowing true inside⟩

/-- The outer frames are kept, and the mapping is asked once about each box. -/
example : (relinkAll knowing guarded ⟨{ sharing := true }, 4⟩).1.map
      (fun r => (r.1.map (·.id), r.2.map (·.id))) =
    [([4, 1, 0], [0, 1, 0, 2]), ([], []), ([1, 0], []), ([3, 1, 0], []), ([4, 1, 0], [])] := by
  decide +kernel

end Relinker
end TracePeel
