import TracePeel.Proofs.Source.Lines

/-! Reading a dump back.

A dump that is read is the trace that was written, up to a renaming of its boxes that
keeps kinds and of its loops, and a new numbering of its guards. -/
namespace TracePeel

open Dump (separated)

namespace Parse

variable {E : ParseError → Reader → Prop} {r : Reader} {d : Dump}

/-! ### The header -/

/-- A reader in front of a text. -/
structure Starts (r : Reader) : Prop where
  boxes : r.boxes = {}
  loops : r.loops = {}
  nextBox : r.pool.nextBox = 0
  nextGuard : r.pool.nextGuard = 0
  self : r.self.number < r.pool.nextToken

/-- The boxes are numbered in their order. -/
def Placed (inputs : List Box) : Prop :=
  ∀ done b rest, inputs = done ++ b :: rest → b.id = done.length

theorem inputs_ends {inputs : List Box} (hinputs : Placed inputs) (hr : r.Knows []) {ts : List Token}
    (h : r.tokens = separated (inputs.map fun b => [.name b.name]) ++ .rbracket :: ts) :
    Ends E (items .rbracket (do defineBox (← expectName))) r fun bs r' =>
      bs = inputs ∧ r'.tokens = .rbracket :: ts ∧ r'.Knows inputs ∧ r'.loops = r.loops ∧
      r'.self = r.self ∧ r'.pool.nextToken = r.pool.nextToken ∧
      r'.pool.nextGuard = r.pool.nextGuard := by
  have hfuel : inputs.length ≤ r.rest.length + 1 := by
    have hlen : r.rest.length + 1 =
        (separated (inputs.map fun b => [.name b.name]) ++ .rbracket :: ts).length := by
      rw [← h]
      simp [Reader.tokens]
    have hsep := length_le_separated (inputs.map fun b => [.name b.name]) fun item hmem => by
      obtain ⟨b, -, rfl⟩ := List.mem_map.1 hmem
      exact List.cons_ne_nil _ _
    rw [List.length_map] at hsep
    rw [hlen, List.length_append]
    omega
  -- In front of the inputs that are left the reader knows those behind it.
  let P (l : List Box) (r' : Reader) : Prop := ∃ done, inputs = done ++ l ∧ r'.Knows done ∧
    r'.loops = r.loops ∧ r'.self = r.self ∧ r'.pool.nextToken = r.pool.nextToken ∧
    r'.pool.nextGuard = r.pool.nextGuard
  simp only [items, ends_bind, ends_get]
  refine (itemsWithin_ends (fun b => [.name b.name]) id P ?_ ?_ ?_
    (by simp) hfuel ⟨[], rfl, hr, rfl, rfl, rfl, rfl⟩ h).mono ?_
  · rintro b l ts r' ⟨done, hsplit, hknows, hloops, hself, htoken, hguard⟩ hts htokens
    have hnext := Reader.behind_next htokens hts
    have hknows' := hknows.of_eq hnext.boxes (by rw [hnext.pool])
    simp only [ends_bind, expectName_ends htokens]
    refine (defineBox_ends hknows' (hinputs done b l hsplit)).mono ?_
    rintro b' r'' ⟨hb', hknows'', htokens'', hloops'', hself'', htoken'', hguard''⟩
    refine ⟨hb', htokens''.trans hnext.tokens, done ++ [b], ?_, hknows'', ?_, ?_, ?_, ?_⟩
    · rw [hsplit, List.append_assoc, List.singleton_append]
    · rw [hloops'', hnext.loops, hloops]
    · rw [hself'', hnext.self, hself]
    · rw [htoken'', hnext.pool, htoken]
    · rw [hguard'', hnext.pool, hguard]
  · rintro l r' ⟨done, hsplit, hknows, hloops, hself, htoken, hguard⟩
    have hnext := Reader.behind_next' r'
    refine ⟨done, hsplit, hknows.of_eq hnext.boxes (by rw [hnext.pool]), ?_, ?_, ?_, ?_⟩
    · rw [hnext.loops, hloops]
    · rw [hnext.self, hself]
    · rw [hnext.pool, htoken]
    · rw [hnext.pool, hguard]
  · rintro b l r' -
    exact ⟨_, _, rfl, by simp⟩
  · rintro bs r' ⟨rfl, htokens, done, hsplit, hknows, hrest⟩
    rw [List.append_nil] at hsplit
    exact ⟨List.map_id _, htokens, hsplit ▸ hknows, hrest⟩

/-- The header gives the name and the inputs. -/
theorem header_ends (hr : Starts r) {own : String} {inputs : List Box} (hinputs : Placed inputs)
    {ts : List Token} (hts : ts ≠ [])
    (h : r.tokens = .loop :: .name own :: .lbracket ::
      (separated (inputs.map fun b => [.name b.name]) ++ .rbracket :: ts)) :
    Ends E header r fun read r' => read = (own, inputs) ∧ r'.Knows inputs ∧ r'.Names own ∧
      r'.self = r.self ∧ r'.tokens = ts ∧ r'.pool.nextGuard = r.pool.nextGuard := by
  have hopens : IsLexed .lbracket := by rintro _ ⟨⟩
  have hcloses : IsLexed .rbracket := by rintro _ ⟨⟩
  have h₁ := Reader.behind_next h (by simp)
  have h₂ := h₁.next (by simp)
  -- From here on the name of the trace stands for the trace itself.
  generalize hnamed : ({ r.next.next with loops := r.next.next.loops.set own r.next.next.self } :
    Reader) = named
  have htokens : named.tokens = .lbracket ::
      (separated (inputs.map fun b => [.name b.name]) ++ .rbracket :: ts) := by
    rw [← hnamed]
    exact h₂.tokens
  have h₃ := Reader.behind_next htokens (by simp)
  have hempty : named.Knows [] := by
    have hboxes : named.boxes = {} := by rw [← hnamed]; exact h₂.boxes.trans hr.boxes
    refine ⟨?_, List.forall_mem_nil _, List.forall_mem_nil _, ?_⟩
    · rw [← hnamed]
      exact (congrArg Pool.nextBox h₂.pool).trans hr.nextBox
    · simp [hboxes]
  have hnames : named.Names own := by
    have hget (a : String) : named.loops.get? a = if own = a then some r.self else none := by
      rw [← hnamed]
      show (r.next.next.loops.set own r.next.next.self).get? a = _
      rw [Bindings.get?_set, h₂.loops, hr.loops, h₂.self]
      rfl
    have hself : named.self = r.self := by rw [← hnamed]; exact h₂.self
    have hpool : named.pool = r.pool := by rw [← hnamed]; exact h₂.pool
    refine ⟨by rw [hget, if_pos rfl, hself], fun a b t ha hb => ?_, fun a t ha => ?_⟩
    · rw [hget] at ha hb
      split at ha <;> split at hb <;> simp_all
    · rw [hget] at ha
      split at ha
      · cases ha
        rw [hpool]
        exact hr.self
      · cases ha
  simp only [header, ends_bind, accept_ends_true h, if_true, expectName_ends h₁.tokens,
    ends_modify, hnamed, expect_ends htokens hopens]
  refine (inputs_ends hinputs (hempty.of_eq h₃.boxes (by rw [h₃.pool])) h₃.tokens).mono ?_
  rintro _ r' ⟨rfl, htokens', hknows, hloops, hself, htoken, hguard⟩
  have h₄ := Reader.behind_next htokens' hts
  simp only [expect_ends htokens' hcloses, ends_pure]
  refine ⟨trivial, hknows.of_eq h₄.boxes (by rw [h₄.pool]), ?_, ?_, h₄.tokens, ?_⟩
  · exact hnames.of_eq (h₄.loops.trans (hloops.trans h₃.loops))
      (h₄.self.trans (hself.trans h₃.self)) (by rw [h₄.pool, htoken, h₃.pool])
  · rw [h₄.self, hself, h₃.self, ← hnamed]
    exact h₂.self
  · rw [h₄.pool, hguard, h₃.pool, ← hnamed]
    exact congrArg Pool.nextGuard h₂.pool

theorem starts_start (source : String) : Starts (Reader.start source) := by
  simp only [Reader.start, Pool.freshToken]
  cases Lexer.tokens source <;> exact ⟨rfl, rfl, rfl, rfl, Nat.zero_lt_one⟩

end Parse

/-! ### A whole text -/

theorem Parse.length_le_linesTokens (d : Dump) (ops : List Operation) :
    ops.length ≤ (d.linesTokens ops).length := by
  induction ops with
  | nil => exact Nat.zero_le _
  | cons op rest ih =>
    obtain ⟨name, tail, hname⟩ := Parse.lineTokens_head d op
    rw [Dump.linesTokens, hname]
    simp only [List.length_cons, List.length_append]
    omega

theorem Parse.StandAll.inForm {E : ParseError → Reader → Prop} {defined : List Box}
    {ops : List Operation} (h : StandAll E defined ops) : ∀ op ∈ ops, op.InForm := by
  induction ops generalizing defined with
  | nil => exact List.forall_mem_nil _
  | cons op rest ih => exact List.forall_mem_cons.2 ⟨h.1.form, ih h.2⟩

/-- What a text is read as that shows the inputs and the operations of a trace, each box
numbered by its place. -/
structure Trace.ReadAs (d : Dump) (inputs : List Box) (ops : List Operation)
    (loops : Bindings String LoopToken) (t : Trace) : Prop where
  name : t.name = d.name
  inputs : t.inputs = inputs
  ops : Parse.ReadAll d loops 0 ops t.ops
  own : loops.get? d.name = some t.token
  apart : ∀ a b k, loops.get? a = some k → loops.get? b = some k → a = b

/-- The text of a section is read as what it shows, if nothing in it fails to be read;
and it does fail only where that is allowed. -/
theorem parse_text {E : ParseError → Reader → Prop} {d : Dump} (hname : Lexer.IsName d.name)
    {inputs : List Box} (hinputs : Parse.Placed inputs) {ops : List Operation}
    (hops : Parse.StandAll E inputs ops) :
    ((∀ e r, ¬E e r) → ∃ t, Trace.parse (d.text inputs ops) = .ok t) ∧
      ∀ t, Trace.parse (d.text inputs ops) = .ok t →
        ∃ loops, Trace.ReadAs d inputs ops loops t := by
  have hform : ∀ op ∈ ops, op.InForm := hops.inForm
  have htokens := (Reader.tokens_start _).trans (Dump.lexes_text hname inputs hform).tokens
  have hstarts := Parse.starts_start (d.text inputs ops)
  unfold Trace.parse
  generalize Reader.start (d.text inputs ops) = r at htokens hstarts ⊢
  have hshape : r.tokens = .loop :: .name d.name :: .lbracket ::
      (separated (inputs.map fun b => [.name b.name]) ++ .rbracket ::
        (d.linesTokens ops ++ [.eof])) := htokens.trans (by simp [Dump.tokens])
  have hheader := Parse.header_ends (E := fun _ _ => False) hstarts hinputs (by simp) hshape
  unfold Parse.Ends at hheader
  split at hheader
  case h_2 => exact hheader.elim
  case h_1 read r' hrun =>
    obtain ⟨rfl, hknows, hnames, hself, htokens', hguard⟩ := hheader
    have hfuel : ops.length ≤ r'.rest.length + 1 := by
      have hlen : r'.rest.length + 1 = (d.linesTokens ops ++ [Token.eof]).length := by
        rw [← htokens']
        simp [Reader.tokens]
      have := Parse.length_le_linesTokens d ops
      rw [hlen, List.length_append]
      omega
    obtain ⟨ops', errors, last, hrest, hnone, hread⟩ :=
      Parse.operations_eq hfuel hknows hnames hops htokens'
    rw [hguard, hstarts.nextGuard] at hread
    have hback (he : errors = []) : ∃ loops, Trace.ReadAs d inputs ops loops
        ⟨d.name, last.self, inputs, ops', last.pool⟩ := by
      obtain ⟨hall, hlast, -⟩ := hread he
      exact ⟨last.loops, rfl, rfl, hall, hlast.own, hlast.apart⟩
    simp only [hrun, hrest]
    constructor
    · intro hE
      rw [hnone hE]
      exact ⟨_, rfl⟩
    · intro t ht
      rcases errors with _ | ⟨e, _ | ⟨e', errors⟩⟩
      · obtain rfl := Except.ok.inj ht
        exact hback rfl
      · cases ht
      · cases ht

end TracePeel
