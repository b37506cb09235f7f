import TracePeel.Proofs.Source.Grammar
import TracePeel.Proofs.Source.Lines
import TracePeel.Proofs.Source.Taking

/-! Parts of the reading and the phrases they take.

`Derives` ties a part of the reading to a sort of phrase: wherever the part succeeds it went past
the tokens of a phrase that is allowed there and gives what the phrase means, and in front of the
tokens of such a phrase it does succeed. `Stands` is what holds of a reader between two parts:
which tokens are left and what is in scope. -/
namespace TracePeel

open Grammar

namespace Grammar

/-- A sort of phrases: how each is spelled, where it is allowed, what it means there and which
scope it leaves, and which tokens may stand behind it. -/
structure Phrase (α β : Type) where
  spells : α → List Token → Prop
  allowed : Scope → α → Prop
  value : Scope → α → β
  after : Scope → α → Scope
  stop : Token → Prop

namespace Phrase

variable {α β : Type} (ph : Phrase α β)

/-- Each phrase is allowed behind those in front of it. -/
def AllAllowed : Scope → List α → Prop
  | _, [] => True
  | s, x :: xs => ph.allowed s x ∧ AllAllowed (ph.after s x) xs

def values : Scope → List α → List β
  | _, [] => []
  | s, x :: xs => ph.value s x :: values (ph.after s x) xs

def afterAll (s : Scope) (xs : List α) : Scope :=
  xs.foldl ph.after s

/-- Phrases with commas between them, in front of the closing token. -/
def separated (close : Token) : Phrase (List α) (List β) where
  spells := Separated ph.spells
  allowed := ph.AllAllowed
  value := ph.values
  after := ph.afterAll
  stop t := t = close

/-- Such phrases where none of them changes what is in scope. -/
def inside (close : Token) : Phrase (List α) (List β) where
  spells := Separated ph.spells
  allowed s xs := ∀ x ∈ xs, ph.allowed s x
  value s := List.map (ph.value s)
  after s _ := s
  stop t := t = close

section Still
variable {ph} (h : ∀ s x, ph.after s x = s) (s : Scope) (xs : List α)
include h

theorem allAllowed_of_still : ph.AllAllowed s xs ↔ ∀ x ∈ xs, ph.allowed s x := by
  induction xs with
  | nil => exact iff_of_true trivial nofun
  | cons x xs ih => rw [AllAllowed, h, ih, List.forall_mem_cons]

theorem values_of_still : ph.values s xs = xs.map (ph.value s) := by
  induction xs with
  | nil => rfl
  | cons x xs ih => rw [values, h, ih, List.map_cons]

theorem afterAll_of_still : ph.afterAll s xs = s := by
  induction xs with
  | nil => rfl
  | cons x xs ih => rwa [afterAll, List.foldl_cons, h]

end Still

/-- An operand, which changes nothing; neither do lists of them. -/
def term : Phrase Term Operand where
  spells := Term.Spells
  allowed s t := t.Allowed s
  value := Scope.operand
  after s _ := s
  stop _ := True

/-- What stands between the parentheses of an operation. -/
def entry : Phrase Entry Parse.Item where
  spells := Entry.Spells
  allowed
    | s, .term t => t.Allowed s
    | _, .descr _ => True
  value
    | s, .term t => .operand (s.operand t)
    | _, .descr name => .descr name
  after s _ := s
  stop _ := True

def listed : Phrase (List Term) (List Operand) where
  spells := Listed
  allowed s terms := ∀ t ∈ terms, t.Allowed s
  value s := List.map s.operand
  after s _ := s
  stop _ := True

/-- The lists behind `@`; another one may not follow. -/
def framed : Phrase (List (List Term)) (List (List Operand)) where
  spells := Framed
  allowed s frames := ∀ frame ∈ frames, ∀ t ∈ frame, t.Allowed s
  value s := List.map (·.map s.operand)
  after s _ := s
  stop t := t ≠ .lbracket

/-- A phrase that begins with `opening`, or stands for `default` where it is left out. -/
def possible (opening : Token) (default : α) : Phrase (Option α) β where
  spells := Possible ph.spells
  allowed s x := ph.allowed s (x.getD default)
  value s x := ph.value s (x.getD default)
  after s _ := s
  stop t := ph.stop t ∧ t ≠ opening

/-- What stands behind the parentheses of a guard: its fail-args and the frames of its snapshot. -/
def tail : Phrase (Option (List Term) × Option (List (List Term))) (List Operand × Snapshot) where
  spells x us := ∃ vs ws, us = vs ++ ws ∧ Possible Listed x.1 vs ∧ Possible Framed x.2 ws
  allowed s x := (∀ t ∈ x.1.getD [], t.Allowed s) ∧
    ∀ frame ∈ x.2.getD [x.1.getD []], ∀ t ∈ frame, t.Allowed s
  value s x := ((x.1.getD []).map s.operand,
    (s.pool.chainOf ((x.2.getD [x.1.getD []]).map (·.map s.operand))).1)
  after s x := { s with frames := s.frames + (x.2.getD [x.1.getD []]).length }
  stop t := t ≠ .lbracket ∧ t ≠ .atSign

end Phrase
end Grammar

/-! ### Where a reader stands -/

theorem Pool.chainOf_nextFrame (p : Pool) (frames : List (List Operand)) :
    (p.chainOf frames).2.nextFrame = p.nextFrame + frames.length := by
  induction frames with
  | nil => rfl
  | cons entries outer ih => simp only [chainOf, pushFrame, ih, List.length_cons, Nat.add_assoc]

namespace Reader

/-- The reader stands in front of the tokens, where `s` is in scope. -/
structure Stands (r : Reader) (s : Scope) (ts : List Token) : Prop where
  tokens : r.tokens = ts
  ended : r.Ended
  pool : r.pool = s.pool
  boxes : ∀ name, r.boxes.get? name = if name ∈ s.names then some (s.box name) else none
  loops : ∀ name, r.loops.get? name = if name ∈ s.loops then some (s.token name) else none
  self : r.self = ⟨0⟩
  kinds : ∀ name ∈ s.names, (boxKind? name).isSome = true

variable {r r' : Reader} {s : Scope} {t : Token} {ts us vs : List Token}

theorem Stands.here (h : r.Stands s (t :: ts)) : r.here.token = t :=
  here_token h.tokens

theorem Stands.goes (h : r.Stands s ts) (hgoes : r.Goes us r') : r'.Stands s r'.tokens := by
  have hbehind := goes_behind hgoes
  exact ⟨rfl, h.ended.goes hgoes, hbehind.pool.trans h.pool, hbehind.boxes ▸ h.boxes,
    hbehind.loops ▸ h.loops, hbehind.self.trans h.self, h.kinds⟩

/-- A reader that has gone past tokens stands behind them. -/
theorem Stands.behind (h : r.Stands s ts) (hus : .eof ∉ us) (hgoes : r.Goes us r') :
    ∃ vs, ts = us ++ vs ∧ r'.Stands s vs :=
  ⟨r'.tokens, h.tokens.symm.trans (h.ended.tokens_of_goes hus hgoes), h.goes hgoes⟩

theorem Stands.past (h : r.Stands s ts) (hhere : r.here.token = t) (ht : t ≠ .eof) :
    ∃ us, ts = t :: us ∧ r.next.Stands s us := by
  have hgoes : r.Goes [t] r.next := ⟨hhere, rfl⟩
  exact h.behind (by simpa using ht.symm) hgoes

/-- In front of tokens a reader goes past them. -/
theorem Stands.exists_goes (h : r.Stands s (us ++ t :: vs)) :
    ∃ r', r.Goes us r' ∧ r'.Stands s (t :: vs) := by
  obtain ⟨r', hgoes, htokens⟩ := Reader.exists_goes (List.cons_ne_nil t vs) h.tokens
  exact ⟨r', hgoes, htokens ▸ h.goes hgoes⟩

theorem Stands.next (h : r.Stands s (t :: ts)) (hts : ts ≠ []) : r.next.Stands s ts := by
  have hgoes : r.Goes [t] r.next := ⟨h.here, rfl⟩
  have hnext := h.goes hgoes
  rwa [(behind_next h.tokens hts).tokens] at hnext

/-- A word that no box can be named by names none. -/
theorem Stands.not_named (h : r.Stands s ts) {name : String} (hname : boxKind? name = none) :
    name ∉ s.names := by
  intro hmem
  have hkind := h.kinds name hmem
  rw [hname] at hkind
  cases hkind

/-- New frames are counted. -/
theorem Stands.chainOf (h : r.Stands s ts) (frames : List (List Operand)) {n : Nat}
    (hn : frames.length = n) :
    { r with pool := (r.pool.chainOf frames).2 : Reader }.Stands
      { s with frames := s.frames + n } ts := by
  subst hn
  refine ⟨h.tokens, h.ended, ?_, h.boxes, h.loops, h.self, h.kinds⟩
  obtain ⟨hbox, hguard, htoken⟩ := r.pool.chainOf_pool frames
  have hframe := r.pool.chainOf_nextFrame frames
  rw [h.pool] at hbox hguard htoken hframe
  show (r.pool.chainOf frames).2 = _
  rw [h.pool]
  cases hp : (s.pool.chainOf frames).2
  simp_all [Scope.pool]

end Reader

namespace Parse

variable {α β : Type} {r r' : Reader} {s : Scope} {ts us vs : List Token}

/-- Where `s` is in scope the part takes just the phrases that are allowed, and gives what they
mean. -/
structure Derives (p : Parse β) (ph : Phrase α β) (s : Scope) : Prop where
  sound : ∀ {r r' : Reader} {ts : List Token} {b : β}, r.Stands s ts → Takes p r b r' →
    ∃ x us vs, ts = us ++ vs ∧ ph.spells x us ∧ ph.allowed s x ∧ b = ph.value s x ∧
      r'.Stands (ph.after s x) vs
  complete : ∀ {r : Reader} {x : α} {us vs : List Token} {v : Token},
    r.Stands s (us ++ v :: vs) → ph.spells x us → ph.allowed s x → ph.stop v →
      ∃ r', Takes p r (ph.value s x) r' ∧ r'.Stands (ph.after s x) (v :: vs)

/-- A part that goes past tokens and changes nothing else. -/
theorem derives_of_goes {p : Parse β} {ph : Phrase α β} (hstill : ∀ x, ph.after s x = s)
    (heof : ∀ x us, ph.spells x us → .eof ∉ us)
    (h : ∀ {r r' : Reader} {ts : List Token} {b : β}, r.Stands s ts →
      (Takes p r b r' ↔
        ∃ x us, ph.spells x us ∧ ph.allowed s x ∧ b = ph.value s x ∧ r.Goes us r')) :
    Derives p ph s where
  sound hr htakes := by
    obtain ⟨x, us, hspells, hallowed, hb, hgoes⟩ := (h hr).1 htakes
    obtain ⟨vs, hts, hr'⟩ := hr.behind (heof x us hspells) hgoes
    exact ⟨x, us, vs, hts, hspells, hallowed, hb, (hstill x).symm ▸ hr'⟩
  complete hr hspells hallowed _ := by
    obtain ⟨r', hgoes, hr'⟩ := hr.exists_goes
    exact ⟨r', (h hr).2 ⟨_, _, hspells, hallowed, rfl, hgoes⟩, (hstill _).symm ▸ hr'⟩

/-! ### Lists of items -/

section Items
variable {item : Parse β} {ph : Phrase α β} {close : Token}

theorem itemsWithin_sound (hitem : ∀ s, Derives item ph s) {fuel : Nat} {as : List β}
    (hr : r.Stands s ts) (htakes : Takes (itemsWithin close item fuel) r as r') :
    ∃ xs us vs, ts = us ++ vs ∧ Separated ph.spells xs us ∧ ph.AllAllowed s xs ∧
      as = ph.values s xs ∧ r'.Stands (ph.afterAll s xs) vs := by
  induction fuel generalizing r s ts as with
  | zero =>
    obtain ⟨rfl, rfl⟩ := takes_pure.1 htakes
    exact ⟨[], [], ts, rfl, .nil, trivial, rfl, hr⟩
  | succ fuel ih =>
    rw [itemsWithin, takes_token] at htakes
    split at htakes
    case isTrue =>
      obtain ⟨rfl, rfl⟩ := takes_pure.1 htakes
      exact ⟨[], [], ts, rfl, .nil, trivial, rfl, hr⟩
    case isFalse =>
      rw [takes_bind] at htakes
      obtain ⟨a, r₁, hfirst, htakes⟩ := htakes
      obtain ⟨x, us, vs, rfl, hx, hallowed, rfl, h₁⟩ := (hitem s).sound hr hfirst
      rcases takes_accept.1 htakes with ⟨hcomma, htakes⟩ | ⟨-, htakes⟩
      · simp only [if_true, takes_bind, takes_pure] at htakes
        obtain ⟨as, _, hrest, rfl, rfl⟩ := htakes
        obtain ⟨vs, rfl, hnext⟩ := h₁.past hcomma (by simp)
        obtain ⟨xs, us', ws, rfl, hxs, hall, rfl, h₂⟩ := ih hnext hrest
        exact ⟨x :: xs, us ++ .comma :: us', ws, by simp, .cons hx hxs, ⟨hallowed, hall⟩, rfl, h₂⟩
      · obtain ⟨rfl, rfl⟩ := takes_pure.1 htakes
        exact ⟨[x], us, vs, rfl, .last hx, ⟨hallowed, trivial⟩, rfl, h₁⟩

theorem itemsWithin_complete (hitem : ∀ s, Derives item ph s)
    (hopens : ∀ x us, ph.spells x us → Opens close us)
    (hstop : ph.stop close ∧ ph.stop .comma) (hclose : close ≠ .comma) {xs : List α} {fuel : Nat}
    (hxs : Separated ph.spells xs us) (hall : ph.AllAllowed s xs)
    (hr : r.Stands s (us ++ close :: vs)) (hfuel : xs.length ≤ fuel) :
    ∃ r', Takes (itemsWithin close item fuel) r (ph.values s xs) r' ∧
      r'.Stands (ph.afterAll s xs) (close :: vs) := by
  -- In front of an item the list does not end.
  have hhere {x : α} {us ws : List Token} {r : Reader} {s : Scope} (hx : ph.spells x us)
      (hr : r.Stands s (us ++ ws)) : r.here.token ≠ close := by
    obtain ⟨t, rest, rfl, ht⟩ := hopens x us hx
    rwa [hr.here]
  induction hxs generalizing r s fuel with
  | nil =>
    refine ⟨r, ?_, hr⟩
    cases fuel with
    | zero => exact takes_pure.2 ⟨rfl, rfl⟩
    | succ fuel =>
      rw [itemsWithin, takes_token, if_pos hr.here, takes_pure]
      exact ⟨rfl, rfl⟩
  | @last x us hx =>
    obtain ⟨fuel, rfl⟩ := Nat.exists_eq_succ_of_ne_zero (Nat.ne_of_gt hfuel)
    obtain ⟨r', hfirst, hr'⟩ := (hitem s).complete hr hx hall.1 hstop.1
    refine ⟨r', ?_, hr'⟩
    rw [itemsWithin, takes_token, if_neg (hhere hx hr), takes_bind]
    refine ⟨_, r', hfirst, takes_accept.2 (.inr ⟨?_, takes_pure.2 ⟨rfl, rfl⟩⟩)⟩
    rwa [hr'.here]
  | @cons x xs us us' hx hxs ih =>
    obtain ⟨fuel, rfl⟩ := Nat.exists_eq_succ_of_ne_zero (Nat.ne_of_gt (Nat.lt_of_lt_of_le
      (Nat.zero_lt_succ xs.length) hfuel))
    rw [List.append_assoc, List.cons_append] at hr
    obtain ⟨r₁, hfirst, h₁⟩ := (hitem s).complete hr hx hall.1 hstop.2
    obtain ⟨r', hrest, hr'⟩ := ih hall.2 (h₁.next (by simp)) (Nat.le_of_succ_le_succ hfuel)
    refine ⟨r', ?_, hr'⟩
    rw [itemsWithin, takes_token, if_neg (hhere hx hr), takes_bind]
    refine ⟨_, r₁, hfirst, takes_accept.2 (.inl ⟨h₁.here, ?_⟩)⟩
    simp only [if_true, takes_bind, takes_pure]
    exact ⟨_, r', hrest, rfl, rfl⟩

theorem length_le_of_separated (hopens : ∀ x us, ph.spells x us → Opens close us) {xs : List α}
    (hxs : Separated ph.spells xs us) : xs.length ≤ us.length := by
  have hpos {x : α} {us : List Token} (hx : ph.spells x us) : 0 < us.length := by
    obtain ⟨t, rest, rfl, -⟩ := hopens x us hx
    exact Nat.zero_lt_succ _
  induction hxs with
  | nil => exact Nat.le_refl _
  | last hx => exact hpos hx
  | cons hx _ ih =>
    rw [List.length_append, List.length_cons, List.length_cons]
    omega

/-- Items with commas between them, where each begins with a token that closes no list. -/
theorem items_derives (hitem : ∀ s, Derives item ph s)
    (hopens : ∀ x us, ph.spells x us → Opens close us) (hstop : ph.stop close ∧ ph.stop .comma)
    (hclose : close ≠ .comma) : Derives (items close item) (ph.separated close) s where
  sound hr htakes := itemsWithin_sound hitem hr (takes_get.1 htakes)
  complete {r xs us vs v} hr hxs hall hv := by
    obtain rfl : v = close := hv
    refine itemsWithin_complete hitem hopens hstop hclose hxs hall hr ?_
    have hlength := congrArg List.length hr.tokens
    simp only [Reader.tokens, List.length_map, List.length_cons, List.length_append] at hlength
    have := length_le_of_separated hopens hxs
    omega

theorem items_derives_of_still (hitem : ∀ s, Derives item ph s) (hstill : ∀ s x, ph.after s x = s)
    (hopens : ∀ x us, ph.spells x us → Opens close us) (hstop : ph.stop close ∧ ph.stop .comma)
    (hclose : close ≠ .comma) : Derives (items close item) (ph.inside close) s := by
  have hitems : Derives (items close item) (ph.separated close) s :=
    items_derives hitem hopens hstop hclose
  have hphrase : ph.separated close = ph.inside close := by
    simp only [Phrase.separated, Phrase.inside, Phrase.mk.injEq, true_and, and_true]
    refine ⟨?_, ?_, ?_⟩ <;> funext s xs
    · exact propext (Phrase.allAllowed_of_still hstill s xs)
    · exact Phrase.values_of_still hstill s xs
    · exact Phrase.afterAll_of_still hstill s xs
  exact hphrase ▸ hitems

end Items

/-! ### Operands -/

theorem takes_address {a : Operand} : Takes address r a r' ↔
    ∃ value, 0 ≤ value.toInt ∧ a = .const (.ref value.toUInt64) ∧
      r.Goes [.lparen, .int value, .rparen] r' := by
  unfold address
  rw [takes_expect .lparen nofun, takes_token]
  split
  case h_1 value hvalue =>
    split
    case isTrue hneg =>
      refine iff_of_false (fun h => takes_fail h.2) ?_
      rintro ⟨value', hpos, -, -, hvalue', -⟩
      obtain rfl : value = value' := Token.int.inj (hvalue.symm.trans hvalue')
      exact absurd hpos (Int.not_le.2 hneg)
    case isFalse hneg =>
      rw [takes_advance, takes_expect .rparen nofun, takes_pure]
      constructor
      · rintro ⟨hopen, hclose, rfl, rfl⟩
        exact ⟨value, Int.not_lt.1 hneg, rfl, hopen, hvalue, hclose, rfl⟩
      · rintro ⟨value', -, rfl, hopen, hvalue', hclose, rfl⟩
        obtain rfl : value = value' := Token.int.inj (hvalue.symm.trans hvalue')
        exact ⟨hopen, hclose, rfl, rfl⟩
  case h_2 hint =>
    refine iff_of_false (fun h => takes_fail h.2) ?_
    rintro ⟨value, -, -, -, hvalue, -⟩
    exact hint value hvalue

theorem takes_operand (hr : r.Stands s ts) {a : Operand} : Takes operand r a r' ↔
    ∃ t us, t.Spells us ∧ t.Allowed s ∧ a = s.operand t ∧ r.Goes us r' := by
  unfold operand
  rw [takes_checkLexed, takes_token]
  constructor
  · rintro ⟨-, h⟩
    split at h
    case h_1 value hvalue =>
      rw [takes_advance, takes_pure] at h
      obtain ⟨rfl, rfl⟩ := h
      exact ⟨_, _, .int value, trivial, rfl, hvalue, rfl⟩
    case h_2 bits hbits =>
      rw [takes_advance, takes_pure] at h
      obtain ⟨rfl, rfl⟩ := h
      exact ⟨_, _, .float bits, trivial, rfl, hbits, rfl⟩
    case h_3 name hname =>
      split at h
      case isTrue hptr =>
        obtain ⟨value, hpos, rfl, hgoes⟩ := takes_address.1 (takes_advance.1 h)
        exact ⟨_, _, .pointer value, hpos, rfl, hptr ▸ hname, hgoes⟩
      case isFalse =>
        rw [takes_get, hr.boxes] at h
        split_ifs at h with hmem
        · simp only [takes_advance, takes_pure] at h
          obtain ⟨rfl, rfl⟩ := h
          exact ⟨_, _, .box name, hmem, rfl, hname, rfl⟩
        · exact absurd h takes_fail
    case h_4 => exact absurd h takes_fail
  · rintro ⟨t, us, hspells, hallowed, rfl, hgoes⟩
    cases hspells with
    | int value =>
      obtain ⟨hhere, rfl⟩ := hgoes
      rw [hhere]
      exact ⟨by rintro _ ⟨⟩, rfl⟩
    | float bits =>
      obtain ⟨hhere, rfl⟩ := hgoes
      rw [hhere]
      exact ⟨by rintro _ ⟨⟩, rfl⟩
    | pointer address =>
      obtain ⟨hhere, hgoes⟩ := hgoes
      rw [hhere]
      exact ⟨by rintro _ ⟨⟩, takes_advance.2 (takes_address.2 ⟨address, hallowed, rfl, hgoes⟩)⟩
    | box name =>
      obtain ⟨hhere, rfl⟩ := hgoes
      have hptr : name ≠ "ConstPtr" := by
        rintro rfl
        exact hr.not_named (by decide) hallowed
      rw [hhere]
      refine ⟨by rintro _ ⟨⟩, ?_⟩
      simp only [if_neg hptr, takes_get, hr.boxes, if_pos (show name ∈ s.names from hallowed)]
      exact takes_pure.2 ⟨rfl, rfl⟩

theorem operand_derives (s : Scope) : Derives operand Phrase.term s :=
  derives_of_goes (fun _ => rfl) (fun _ _ h => by cases h <;> simp)
    fun hr => takes_operand hr

/-! ### Between the parentheses -/

theorem takes_descrName {name : String} : Takes descrName r name r' ↔
    r.Goes [.lt, .name name, .gt] r' ∨ r.Goes [.name name] r' := by
  unfold descrName
  rw [takes_accept]
  simp only [if_true, Bool.false_eq_true, if_false, takes_name, takes_expectName]
  constructor
  · rintro (⟨hlt, name, hname, h⟩ | ⟨-, hname, rfl⟩)
    · rw [takes_expect .gt nofun, takes_pure] at h
      obtain ⟨hgt, rfl, rfl⟩ := h
      exact .inl ⟨hlt, hname, hgt, rfl⟩
    · exact .inr ⟨hname, rfl⟩
  · rintro (⟨hlt, hname, hgt, rfl⟩ | ⟨hname, rfl⟩)
    · refine .inl ⟨hlt, name, hname, ?_⟩
      rw [takes_expect .gt nofun, takes_pure]
      exact ⟨hgt, rfl, rfl⟩
    · exact .inr ⟨by rw [hname]; nofun, hname, rfl⟩

theorem takes_item (hr : r.Stands s ts) {i : Item} : Takes item r i r' ↔
    ∃ e us, e.Spells us ∧ Phrase.entry.allowed s e ∧ i = Phrase.entry.value s e ∧ r.Goes us r' := by
  unfold item
  rw [takes_token, takes_lookahead]
  constructor
  · intro h
    split at h
    case isTrue hdescr =>
      rw [takes_advance, takes_advance, takes_bind] at h
      obtain ⟨name, r₁, hname, h⟩ := h
      obtain ⟨rfl, rfl⟩ := takes_pure.1 h
      rcases takes_descrName.1 hname with hgoes | hgoes
      · exact ⟨_, _, .angled name, trivial, rfl, hdescr.1, hdescr.2, hgoes⟩
      · exact ⟨_, _, .bare name, trivial, rfl, hdescr.1, hdescr.2, hgoes⟩
    case isFalse =>
      rw [takes_bind] at h
      obtain ⟨a, r₁, ha, h⟩ := h
      obtain ⟨rfl, rfl⟩ := takes_pure.1 h
      obtain ⟨t, us, hspells, hallowed, rfl, hgoes⟩ := (takes_operand hr).1 ha
      exact ⟨_, _, .term hspells, hallowed, rfl, hgoes⟩
  · rintro ⟨e, us, hspells, hallowed, rfl, hgoes⟩
    -- A name behind `descr =`.
    have hdescr {name : String} {us : List Token}
        (h : r.Goes (.name "descr" :: .assign :: us) r')
        (hname : ∀ {r : Reader}, r.Goes us r' → Takes descrName r name r') :
        Takes (if r.here.token = .name "descr" ∧ r.next.here.token = .assign then do
            advance
            advance
            return Item.descr (← descrName)
          else return Item.operand (← operand)) r (.descr name) r' := by
      obtain ⟨hhere, hassign, hgoes⟩ := h
      rw [if_pos ⟨hhere, hassign⟩, takes_advance, takes_advance, takes_bind]
      exact ⟨name, r', hname hgoes, takes_pure.2 ⟨rfl, rfl⟩⟩
    cases hspells with
    | @term t _ ht =>
      -- No operand begins with `descr`, which names no box.
      have hnone : r.here.token ≠ .name "descr" := by
        intro hhere
        cases ht with
        | int | float => cases hhere.symm.trans hgoes.1
        | pointer => exact absurd (hhere.symm.trans hgoes.1) (by decide)
        | box name =>
          obtain rfl : "descr" = name := Token.name.inj (hhere.symm.trans hgoes.1)
          exact hr.not_named (by decide) hallowed
      rw [if_neg fun h => hnone h.1, takes_bind]
      exact ⟨_, r', (takes_operand hr).2 ⟨t, us, ht, hallowed, rfl, hgoes⟩, takes_pure.2 ⟨rfl, rfl⟩⟩
    | bare name => exact hdescr hgoes fun h => takes_descrName.2 (.inr h)
    | angled name => exact hdescr hgoes fun h => takes_descrName.2 (.inl h)

theorem item_derives (s : Scope) : Derives item Phrase.entry s :=
  derives_of_goes (fun _ => rfl) (fun _ _ h => by
    cases h with
    | term h => cases h <;> simp
    | bare | angled => simp) fun hr => takes_item hr

theorem opens_of_term {close : Token} (hclose : close = .rparen ∨ close = .rbracket) {t : Term}
    {us : List Token} (h : t.Spells us) : Opens close us := by
  cases h <;> exact ⟨_, _, rfl, by rcases hclose with rfl | rfl <;> nofun⟩

theorem opens_of_entry {e : Entry} {us : List Token} (h : e.Spells us) : Opens .rparen us := by
  cases h with
  | term h => exact opens_of_term (.inl rfl) h
  | bare | angled => exact ⟨_, _, rfl, nofun⟩

/-! ### Behind the parentheses -/

theorem operandList_derives (s : Scope) : Derives operandList Phrase.listed s := by
  have hitems : Derives (items .rbracket operand) (Phrase.term.inside .rbracket) s :=
    items_derives_of_still operand_derives (fun _ _ => rfl) (fun _ _ => opens_of_term (.inr rfl))
      ⟨trivial, trivial⟩ (by simp)
  have hopens : IsLexed .lbracket := by rintro _ ⟨⟩
  have hcloses : IsLexed .rbracket := by rintro _ ⟨⟩
  constructor
  · intro r r' ts as hr h
    rw [operandList, takes_expect .lbracket hopens, takes_bind] at h
    obtain ⟨hopen, as, r₁, hlist, h⟩ := h
    rw [takes_expect .rbracket hcloses, takes_pure] at h
    obtain ⟨hclose, rfl, rfl⟩ := h
    obtain ⟨ts, rfl, h₁⟩ := hr.past hopen (by simp)
    obtain ⟨terms, us, vs, rfl, hspells, hterms, rfl, h₂⟩ := hitems.sound h₁ hlist
    obtain ⟨vs, rfl, h₃⟩ := h₂.past hclose (by simp)
    exact ⟨terms, _, vs, by simp, .mk hspells, hterms, rfl, h₃⟩
  · rintro r terms _ vs v hr ⟨hspells⟩ hterms -
    rw [List.cons_append, List.append_assoc] at hr
    obtain ⟨r₁, hlist, h₁⟩ := hitems.complete (hr.next (by simp)) hspells hterms rfl
    refine ⟨r₁.next, ?_, h₁.next (List.cons_ne_nil _ _)⟩
    rw [operandList, takes_expect .lbracket hopens, takes_bind]
    refine ⟨hr.here, _, r₁, hlist, ?_⟩
    rw [takes_expect .rbracket hcloses, takes_pure]
    exact ⟨h₁.here, rfl, rfl⟩

theorem framesWithin_sound {fuel : Nat} {frames : List (List Operand)} (hr : r.Stands s ts)
    (h : Takes (framesWithin fuel) r frames r') :
    ∃ l us vs, ts = us ++ vs ∧ Successive Listed l us ∧ (∀ frame ∈ l, ∀ t ∈ frame, t.Allowed s) ∧
      frames = l.map (·.map s.operand) ∧ r'.Stands s vs := by
  induction fuel generalizing r ts frames with
  | zero =>
    obtain ⟨rfl, rfl⟩ := takes_pure.1 h
    exact ⟨[], [], ts, rfl, .nil, nofun, rfl, hr⟩
  | succ fuel ih =>
    rw [framesWithin, takes_token] at h
    split at h
    case isTrue =>
      simp only [takes_bind, takes_pure] at h
      obtain ⟨as, r₁, hlist, frames, _, hrest, rfl, rfl⟩ := h
      obtain ⟨terms, us, vs, rfl, hspells, hterms, rfl, h₁⟩ :=
        (operandList_derives s).sound hr hlist
      obtain ⟨l, us', ws, rfl, hl, hall, rfl, h₂⟩ := ih h₁ hrest
      exact ⟨terms :: l, us ++ us', ws, by simp, .cons hspells hl,
        List.forall_mem_cons.2 ⟨hterms, hall⟩, rfl, h₂⟩
    case isFalse =>
      obtain ⟨rfl, rfl⟩ := takes_pure.1 h
      exact ⟨[], [], ts, rfl, .nil, nofun, rfl, hr⟩

theorem framesWithin_complete {fuel : Nat} {l : List (List Term)} {v : Token}
    (hl : Successive Listed l us) (hall : ∀ frame ∈ l, ∀ t ∈ frame, t.Allowed s)
    (hr : r.Stands s (us ++ v :: vs)) (hv : v ≠ .lbracket) (hfuel : l.length ≤ fuel) :
    ∃ r', Takes (framesWithin fuel) r (l.map (·.map s.operand)) r' ∧ r'.Stands s (v :: vs) := by
  induction hl generalizing r fuel with
  | nil =>
    refine ⟨r, ?_, hr⟩
    cases fuel with
    | zero => exact takes_pure.2 ⟨rfl, rfl⟩
    | succ fuel =>
      rw [framesWithin, takes_token, if_neg (hr.here.symm ▸ hv), takes_pure]
      exact ⟨rfl, rfl⟩
  | @cons terms l us us' hterms _ ih =>
    obtain ⟨fuel, rfl⟩ := Nat.exists_eq_succ_of_ne_zero (Nat.ne_of_gt (Nat.lt_of_lt_of_le
      (Nat.zero_lt_succ l.length) hfuel))
    obtain ⟨hfirst, hall⟩ := List.forall_mem_cons.1 hall
    -- Behind the list there is something: another list or what stops them.
    obtain ⟨w, ws, hw⟩ := List.exists_cons_of_ne_nil (show us' ++ v :: vs ≠ [] by simp)
    have hhere : r.here.token = .lbracket := by
      obtain ⟨-⟩ := hterms
      exact hr.here
    rw [List.append_assoc, hw] at hr
    obtain ⟨r₁, hlist, h₁⟩ := (operandList_derives s).complete hr hterms hfirst trivial
    rw [← hw] at h₁
    obtain ⟨r', hrest, hr'⟩ := ih hall h₁ (Nat.le_of_succ_le_succ hfuel)
    refine ⟨r', ?_, hr'⟩
    rw [framesWithin, takes_token, if_pos hhere]
    simp only [takes_bind, takes_pure]
    exact ⟨_, r₁, hlist, _, r', hrest, rfl, rfl⟩

/-- A part that may be left out, where it can be seen from the first token whether it is. -/
theorem possible_derives {p q : Parse β} {ph : Phrase α β} {opening : Token} {default : α}
    (hp : Derives p ph s) (hstill : ∀ x, ph.after s x = s)
    (hopens : ∀ x us, ph.spells x us → ∃ rest, us = opening :: rest)
    (hdefault : ph.allowed s default)
    (hq : ∀ {r r' : Reader} {b : β}, Takes q r b r' ↔ r.here.token = opening ∧ Takes p r b r' ∨
      r.here.token ≠ opening ∧ b = ph.value s default ∧ r' = r) :
    Derives q (ph.possible opening default) s := by
  constructor
  · intro r r' ts b hr h
    rcases hq.1 h with ⟨-, h⟩ | ⟨-, rfl, rfl⟩
    · obtain ⟨x, us, vs, rfl, hx, hallowed, rfl, hr'⟩ := hp.sound hr h
      rw [hstill] at hr'
      exact ⟨some x, us, vs, rfl, .some hx, hallowed, rfl, hr'⟩
    · exact ⟨none, [], ts, rfl, .none, hdefault, rfl, hr⟩
  · rintro r x us vs v hr hspells hallowed ⟨hstop, hv⟩
    cases hspells with
    | none => exact ⟨r, hq.2 (.inr ⟨hr.here.symm ▸ hv, rfl, rfl⟩), hr⟩
    | @some x us hx =>
      obtain ⟨r', htakes, hr'⟩ := hp.complete hr hx hallowed hstop
      rw [hstill] at hr'
      obtain ⟨rest, rfl⟩ := hopens x us hx
      exact ⟨r', hq.2 (.inl ⟨hr.here, htakes⟩), hr'⟩

/-- The fail-args of a guard, if they stand here. -/
def possibleList : Parse (List Operand) := do
  if (← token) = .lbracket then operandList else pure []

theorem possibleList_derives (s : Scope) :
    Derives possibleList (Phrase.listed.possible .lbracket []) s := by
  refine possible_derives (operandList_derives s) (fun _ => rfl) ?_ nofun ?_
  · rintro x _ ⟨-⟩
    exact ⟨_, rfl⟩
  · intro r r' b
    rw [possibleList, takes_token]
    split
    · rename_i h
      simp [h]
    · rename_i h
      rw [takes_pure]
      simp [h, Phrase.listed]

/-- The frames of a guard, if they stand here, or one frame of its fail-args. -/
def possibleFrames (failArgs : List Operand) : Parse (List (List Operand)) := do
  if ← accept .atSign then framesWithin ((← get).rest.length + 1) else pure [failArgs]

theorem length_le_of_successive {l : List (List Term)} (hl : Successive Listed l us) :
    l.length ≤ us.length := by
  induction hl with
  | nil => exact Nat.le_refl _
  | cons hx _ ih =>
    obtain ⟨-⟩ := hx
    simp only [List.length_append, List.length_cons]
    omega

theorem frames_derives (s : Scope) : Derives
    (do expect .atSign; framesWithin ((← get).rest.length + 1)) Phrase.framed s := by
  constructor
  · intro r r' ts frames hr h
    rw [takes_expect .atSign nofun, takes_get] at h
    obtain ⟨ts, rfl, h₁⟩ := hr.past h.1 nofun
    obtain ⟨l, us, vs, rfl, hl, hall, rfl, hr'⟩ := framesWithin_sound h₁ h.2
    exact ⟨l, _, vs, rfl, .mk hl, hall, rfl, hr'⟩
  · rintro r l _ vs v hr ⟨hl⟩ hall hv
    rw [List.cons_append] at hr
    have h₁ := hr.next (by simp)
    have hfuel := congrArg List.length h₁.tokens
    simp only [Reader.tokens, List.length_map, List.length_cons, List.length_append] at hfuel
    have hlength := length_le_of_successive hl
    have hlong : l.length ≤ r.next.rest.length + 1 := by omega
    obtain ⟨r', hframes, hr'⟩ := framesWithin_complete hl hall h₁ hv hlong
    refine ⟨r', ?_, hr'⟩
    rw [takes_expect .atSign nofun, takes_get]
    exact ⟨hr.here, hframes⟩

theorem possibleFrames_derives {terms : List Term} (hterms : ∀ t ∈ terms, t.Allowed s) :
    Derives (possibleFrames (terms.map s.operand)) (Phrase.framed.possible .atSign [terms]) s := by
  refine possible_derives (frames_derives s) (fun _ => rfl) ?_ ?_ ?_
  · rintro x _ ⟨-⟩
    exact ⟨_, rfl⟩
  · rintro _ hmem
    rwa [List.mem_singleton.1 hmem]
  · intro r r' b
    rw [possibleFrames, takes_accept, takes_expect .atSign nofun]
    simp only [if_true, Bool.false_eq_true, if_false, takes_pure, Phrase.framed, List.map_cons,
      List.map_nil]
    tauto

theorem guardTail_eq : guardTail = (do
    let failArgs ← possibleList
    let frames ← possibleFrames failArgs
    return (failArgs, ← snapshotOf frames)) := by
  have hframes {α : Type} (failArgs : List Operand) (rest : List (List Operand) → Parse α) : (do
      if ← accept .atSign then
        let frames ← framesWithin ((← get).rest.length + 1)
        rest frames
      else
        let frames ← pure [failArgs]
        rest frames) = (do rest (← possibleFrames failArgs)) := by
    rw [possibleFrames, bind_assoc]
    refine bind_congr fun taken => ?_
    split <;> simp only [bind_assoc]
  rw [guardTail, possibleList, bind_assoc]
  refine bind_congr fun t => ?_
  split
  · refine bind_congr fun failArgs => ?_
    exact hframes failArgs _
  · simp only [pure_bind]
    exact hframes [] _

theorem takes_snapshotOf {frames : List (List Operand)} {snapshot : Snapshot} :
    Takes (snapshotOf frames) r snapshot r' ↔ snapshot = (r.pool.chainOf frames).1 ∧
      r' = { r with pool := (r.pool.chainOf frames).2 } :=
  takes_pure (r := { r with pool := (r.pool.chainOf frames).2 })

theorem guardTail_derives (s : Scope) : Derives guardTail Phrase.tail s := by
  constructor
  · intro r r' ts guard hr h
    simp only [guardTail_eq, takes_bind, takes_snapshotOf, takes_pure] at h
    obtain ⟨_, r₁, hlist, _, r₂, hframes, _, _, ⟨rfl, rfl⟩, rfl, rfl⟩ := h
    obtain ⟨failArgs, us, vs, rfl, hus, hterms, rfl, h₁⟩ := (possibleList_derives s).sound hr hlist
    obtain ⟨frames, us', ws, rfl, hus', hall, rfl, h₂⟩ :=
      (possibleFrames_derives hterms).sound h₁ hframes
    refine ⟨(failArgs, frames), us ++ us', ws, by simp, ⟨us, us', rfl, hus, hus'⟩, ⟨hterms, hall⟩,
      ?_, h₂.chainOf _ (List.length_map ..)⟩
    rw [h₂.pool]
    rfl
  · rintro r ⟨failArgs, frames⟩ _ vs v hr ⟨us, us', rfl, hus, hus'⟩ ⟨hterms, hall⟩ ⟨hlist, hsign⟩
    -- Behind the fail-args there is something: the frames or what follows the guard.
    obtain ⟨w, ws, hw⟩ := List.exists_cons_of_ne_nil (show us' ++ v :: vs ≠ [] by simp)
    have hw' : w ≠ .lbracket := by
      cases hus' with
      | none => exact (List.cons.inj hw).1 ▸ hlist
      | some h =>
        obtain ⟨-⟩ := h
        exact (List.cons.inj hw).1 ▸ nofun
    rw [List.append_assoc, hw] at hr
    obtain ⟨r₁, htakes, h₁⟩ := (possibleList_derives s).complete hr hus hterms ⟨trivial, hw'⟩
    rw [← hw] at h₁
    obtain ⟨r₂, htakes', h₂⟩ :=
      (possibleFrames_derives hterms).complete h₁ hus' hall ⟨hlist, hsign⟩
    refine ⟨_, ?_, h₂.chainOf ((frames.getD [failArgs.getD []]).map (·.map s.operand))
      (List.length_map ..)⟩
    simp only [guardTail_eq, takes_bind, takes_snapshotOf, takes_pure]
    refine ⟨_, r₁, htakes, _, r₂, htakes', _, _, ⟨rfl, rfl⟩, ?_, rfl⟩
    rw [h₂.pool]
    rfl

end Parse
end TracePeel
