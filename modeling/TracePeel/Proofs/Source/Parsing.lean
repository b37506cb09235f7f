import TracePeel.Proofs.Source.Reading
import TracePeel.Proofs.Source.Spelling

/-! Reading the tokens of a dump.

The parser is followed along the tokens that a dump writes. In front of each operation
the reader knows the boxes that are defined so far, by their places (`Knows`), and the
loops that were named so far (`Names`); the operation read is the one written
(`Operation.ReadAs`), and the reader behind it knows its result too. -/
namespace TracePeel

open Dump (separated listTokens framesTokens)

/-- A float that a literal can denote. -/
def Operand.Finite : Operand → Prop
  | .const (.float bits) => Binary64.magnitude bits < Binary64.infinity
  | _ => True

instance (a : Operand) : Decidable a.Finite :=
  match a with
  | .const (.float bits) => inferInstanceAs (Decidable (Binary64.magnitude bits < Binary64.infinity))
  | .const (.int _) | .const (.ref _) | .box _ => .isTrue trivial

/-- The boxes of the names read so far are those defined, numbered by their places. -/
structure Reader.Knows (r : Reader) (defined : List Box) : Prop where
  next : r.pool.nextBox = defined.length
  place : ∀ b ∈ defined, b.id < defined.length
  known : ∀ b ∈ defined, r.boxes.get? b.name = some b
  named : ∀ name b, r.boxes.get? name = some b → name = b.name ∧ b ∈ defined

/-- A reader in front of a text has all its tokens left. -/
theorem Reader.tokens_start (source : String) :
    (Reader.start source).tokens = (Lexer.tokens source).map (·.token) := by
  simp only [Reader.start, Pool.freshToken]
  cases hsource : Lexer.tokens source with
  | nil => exact absurd hsource (Lexer.tokensFrom_ne_nil _ _ _)
  | cons here rest => rfl

namespace Parse

variable {α : Type} {E : ParseError → Reader → Prop} {r : Reader}

/-! ### Lists of items -/

/-- Items with commas between them, up to the closing token. `P` says what holds in front
of the items that are left. -/
theorem itemsWithin_ends {ι : Type} {close : Token} {item : Parse α} (toks : ι → List Token)
    (value : ι → α) (P : List ι → Reader → Prop)
    (hitem : ∀ i l ts r, P (i :: l) r → ts ≠ [] → r.tokens = toks i ++ ts →
      Ends E item r fun a r' => a = value i ∧ r'.tokens = ts ∧ P l r')
    (hnext : ∀ l r, P l r → P l r.next)
    (hhead : ∀ i l r, P (i :: l) r → ∃ t rest, toks i = t :: rest ∧ t ≠ close)
    (hclose : close ≠ .comma) {l : List ι} {fuel : Nat} (hfuel : l.length ≤ fuel) {r : Reader}
    (hP : P l r) {ts : List Token} (h : r.tokens = separated (l.map toks) ++ close :: ts) :
    Ends E (itemsWithin close item fuel) r fun as r' =>
      as = l.map value ∧ r'.tokens = close :: ts ∧ P [] r' := by
  induction l generalizing fuel r with
  | nil =>
    cases fuel with
    | zero => exact ends_pure.2 ⟨rfl, h, hP⟩
    | succ fuel =>
      simp only [itemsWithin, ends_bind, ends_token, Reader.here_token h, if_true, ends_pure]
      exact ⟨rfl, h, hP⟩
  | cons i l ih =>
    obtain ⟨fuel, rfl⟩ : ∃ n, fuel = n + 1 := Nat.exists_eq_succ_of_ne_zero (by
      rintro rfl
      cases hfuel)
    obtain ⟨t, rest, hi, ht⟩ := hhead i l r hP
    -- Behind the item stands the closing token, or a comma and the other items.
    obtain ⟨behind, hbehind, htokens⟩ : ∃ behind, (l = [] ∧ behind = close :: ts ∨ l ≠ [] ∧
        behind = .comma :: (separated (l.map toks) ++ close :: ts)) ∧
        r.tokens = toks i ++ behind := by
      by_cases hl : l = []
      · exact ⟨_, .inl ⟨hl, rfl⟩, by rw [h, hl]; simp⟩
      · refine ⟨_, .inr ⟨hl, rfl⟩, ?_⟩
        rw [h, List.map_cons, Dump.separated_cons _ (by simpa using hl)]
        simp
    have hhere : r.here.token ≠ close := by
      rw [hi] at htokens
      rwa [Reader.here_token htokens]
    have hne : behind ≠ [] := by
      rcases hbehind with ⟨-, rfl⟩ | ⟨-, rfl⟩ <;> simp
    simp only [itemsWithin, ends_bind, ends_token, if_neg hhere]
    refine (hitem i l behind r hP hne htokens).mono ?_
    rintro _ r' ⟨rfl, htokens', hP'⟩
    rcases hbehind with ⟨rfl, rfl⟩ | ⟨hl, rfl⟩
    · have hcomma : r'.here.token ≠ .comma := by rwa [Reader.here_token htokens']
      simp only [accept_ends_false hcomma]
      exact ⟨rfl, htokens', hP'⟩
    · simp only [accept_ends_true htokens', if_true, ends_bind, ends_pure]
      have hmore := (Reader.behind_next htokens' (by simp)).tokens
      refine (ih (Nat.le_of_succ_le_succ hfuel) (hnext _ _ hP') hmore).mono ?_
      rintro as r'' ⟨rfl, htokens'', hP''⟩
      exact ⟨rfl, htokens'', hP''⟩

/-- At the tokens `toks`, in a reader that knows what `r` does, the part gives `a`. -/
def Gives (E : ParseError → Reader → Prop) (p : Parse α) (r : Reader) (toks : List Token)
    (a : α) : Prop :=
  ∀ ts r', ts ≠ [] → r.Behind (toks ++ ts) r' →
    Ends E p r' fun a' r'' => a' = a ∧ r.Behind ts r''

/-- The tokens begin with one that is not `close`. -/
def Opens (close : Token) (toks : List Token) : Prop :=
  ∃ t rest, toks = t :: rest ∧ t ≠ close

theorem length_le_separated (items : List (List Token)) (h : ∀ item ∈ items, item ≠ []) :
    items.length ≤ (separated items).length := by
  induction items with
  | nil => exact Nat.zero_le _
  | cons item rest ih =>
    have hitem := List.length_pos_iff.2 (h item (List.mem_cons_self ..))
    have hrest := ih fun item hmem => h item (List.mem_cons_of_mem _ hmem)
    by_cases hne : rest = []
    · simpa [hne, Nat.one_le_iff_ne_zero, Nat.pos_iff_ne_zero] using hitem
    · rw [Dump.separated_cons _ hne]
      simp only [List.length_append, List.length_cons]
      omega

theorem items_gives {close : Token} {item : Parse α} {l : List (List Token × α)}
    (hl : ∀ i ∈ l, Gives E item r i.1 i.2 ∧ Opens close i.1) (hclose : close ≠ .comma)
    {ts : List Token} {r' : Reader} (h : r.Behind (separated (l.map (·.1)) ++ close :: ts) r') :
    Ends E (items close item) r' fun as r'' =>
      as = l.map (·.2) ∧ r.Behind (close :: ts) r'' := by
  have hfuel : l.length ≤ r'.rest.length + 1 := by
    have hlen : r'.rest.length + 1 = (separated (l.map (·.1)) ++ close :: ts).length := by
      rw [← h.tokens]
      simp [Reader.tokens]
    have hsep := length_le_separated (l.map (·.1)) fun item hmem => by
      obtain ⟨i, hi, rfl⟩ := List.mem_map.1 hmem
      obtain ⟨-, t, rest, he, -⟩ := hl i hi
      rw [he]
      exact List.cons_ne_nil _ _
    rw [List.length_map] at hsep
    rw [hlen, List.length_append]
    omega
  simp only [items, ends_bind, ends_get]
  refine (itemsWithin_ends Prod.fst Prod.snd
    (fun l r' => r.Behind r'.tokens r' ∧ ∀ i ∈ l, Gives E item r i.1 i.2 ∧ Opens close i.1) ?_ ?_ ?_ hclose hfuel ⟨h.tokens ▸ h, hl⟩ h.tokens).mono ?_
  · rintro i l ts r' ⟨hbehind, hl⟩ hts htokens
    obtain ⟨hi, hl⟩ := List.forall_mem_cons.1 hl
    rw [htokens] at hbehind
    refine (hi.1 ts r' hts hbehind).mono ?_
    rintro _ r'' ⟨rfl, hr''⟩
    exact ⟨rfl, hr''.tokens, hr''.tokens ▸ hr'', hl⟩
  · rintro l r' ⟨hbehind, hl⟩
    exact ⟨hbehind.trans (Reader.behind_next' r'), hl⟩
  · rintro i l r' ⟨-, hl⟩
    exact (List.forall_mem_cons.1 hl).1.2
  · rintro as r'' ⟨rfl, htokens, hbehind, -⟩
    exact ⟨rfl, htokens ▸ hbehind⟩

/-! ### Operands -/

theorem box_name_toList (b : Box) :
    b.name.toList = b.kind.letter :: Nat.toDigits 10 b.id := by
  simp [Box.name]

/-- A name that does not go on in digits is that of no box. -/
theorem box_name_ne (b : Box) {name : String}
    (h : ∀ c cs, name.toList = c :: cs → Kind.ofLetter? c = none ∨ ∃ d ∈ cs, d.isDigit = false) :
    b.name ≠ name := by
  rintro rfl
  rcases h _ _ (box_name_toList b) with h | ⟨d, hd, hdigit⟩
  · rw [Kind.ofLetter?_letter] at h
    cases h
  · rw [Number.digits_toDigits b.id d hd] at hdigit
    cases hdigit

theorem box_name_inj {a b : Box} (h : a.name = b.name) : a = b := by
  have hlist := congrArg String.toList h
  rw [box_name_toList, box_name_toList] at hlist
  obtain ⟨hletter, hdigits⟩ := List.cons.inj hlist
  have hkind : a.kind = b.kind := by
    have := congrArg Kind.ofLetter? hletter
    simpa using this
  have hid : a.id = b.id := by
    have := congrArg (Number.digitsValue 10) hdigits
    simpa [Number.digitsValue_toDigits] using this
  cases a
  cases b
  simp_all

theorem address_gives (address : UInt64) (h : address.toNat < 2 ^ 63) :
    Gives E Parse.address r [.lparen, .int address.toInt64, .rparen] (.const (.ref address)) := by
  intro ts r' hts h'
  have hpositive : ¬address.toInt64.toInt < 0 := by
    rw [Dump.toInt_toInt64 h]
    omega
  have h₁ := h'.next (by simp)
  have h₂ := h₁.next (by simp)
  simp only [Parse.address, ends_bind, expect_ends h'.tokens nofun, ends_token,
    Reader.here_token h₁.tokens, if_neg hpositive, ends_advance, expect_ends h₂.tokens nofun,
    ends_pure]
  exact ⟨by simp, h₂.next hts⟩

/-- A word that names no box is no operand. -/
theorem operand_fails {defined : List Box} (hr : r.Knows defined) {name : String} {ts : List Token}
    (hne : name ≠ "ConstPtr") (hbox : ∀ b : Box, b.name ≠ name) (hE : ∀ e r', E e r') {r' : Reader}
    (h : r.Behind (.name name :: ts) r') {Q : Operand → Reader → Prop} : Ends E operand r' Q := by
  have hhere := Reader.here_token h.tokens
  have hlexed : IsLexed r'.here.token := by rw [hhere]; nofun
  have hget : r'.boxes.get? name = none := by
    rw [h.boxes]
    cases hget : r.boxes.get? name with
    | none => rfl
    | some b => exact absurd (hr.named name b hget).1.symm (hbox b)
  simp only [operand, ends_bind, checkLexed_ends hlexed, ends_token, hhere, if_neg hne, ends_get,
    hget, ends_fail]
  exact hE _ _

theorem operand_gives {defined : List Box} (hr : r.Knows defined) {a : Operand}
    (hreads : Dump.Reads defined [a]) (hliteral : a.Literal)
    (hfinite : a.Finite ∨ ∀ e r', E e r') : Gives E operand r a.tokens a := by
  intro ts r' hts h
  rcases a with b | value | address | bits
  · have hhere := Reader.here_token h.tokens
    have hlexed : IsLexed r'.here.token := by rw [hhere]; rintro _ ⟨⟩
    have hne : b.name ≠ "ConstPtr" := box_name_ne b fun c cs hcs => .inl (by
      obtain ⟨rfl, -⟩ := List.cons.inj hcs
      rfl)
    have hget : r'.boxes.get? b.name = some b := by
      rw [h.boxes]
      exact hr.known b (hreads b (List.mem_singleton_self _))
    simp only [operand, ends_bind, checkLexed_ends hlexed, ends_token, hhere, if_neg hne, ends_get,
      hget, ends_advance, ends_pure]
    exact ⟨trivial, h.next hts⟩
  · have hhere := Reader.here_token h.tokens
    have hlexed : IsLexed r'.here.token := by rw [hhere]; rintro _ ⟨⟩
    simp only [operand, ends_bind, checkLexed_ends hlexed, ends_token, hhere, ends_advance,
      ends_pure]
    exact ⟨trivial, h.next hts⟩
  · have hhere := Reader.here_token h.tokens
    have hlexed : IsLexed r'.here.token := by rw [hhere]; rintro _ ⟨⟩
    have hnext := h.next (by simp)
    simp only [operand, ends_bind, checkLexed_ends hlexed, ends_token, hhere, if_true,
      ends_advance]
    exact address_gives address hliteral ts r'.next hts hnext
  · simp only [Operand.tokens, Const.tokens] at h
    split at h
    case isTrue =>
      have hhere := Reader.here_token h.tokens
      have hlexed : IsLexed r'.here.token := by rw [hhere]; rintro _ ⟨⟩
      simp only [operand, ends_bind, checkLexed_ends hlexed, ends_token, hhere, ends_advance,
        ends_pure]
      exact ⟨trivial, h.next hts⟩
    case isFalse hinfinite =>
      have hE := hfinite.resolve_left hinfinite
      split_ifs at h
      · refine operand_fails hr (by decide) (fun b => box_name_ne b fun c cs hcs => .inl ?_) hE h
        obtain ⟨rfl, -⟩ := List.cons.inj hcs
        rfl
      · have hhere := Reader.here_token h.tokens
        simp only [operand, ends_bind, checkLexed, ends_token, hhere, ends_fail]
        exact hE _ _
      · refine operand_fails hr (by decide) (fun b => box_name_ne b fun c cs hcs => .inr ?_) hE h
        rw [show "inf".toList = ['i', 'n', 'f'] by decide] at hcs
        obtain ⟨-, rfl⟩ := List.cons.inj hcs
        exact ⟨'n', List.mem_cons_self .., rfl⟩

/-- The tokens of an operand begin neither a descriptor nor with what closes a list. -/
theorem operand_opens (a : Operand) {close : Token}
    (h : close = .rparen ∨ close = .rbracket ∨ close = .name "descr") : Opens close a.tokens := by
  have hname (name : String) (rest : List Token) (hne : name ≠ "descr") :
      Opens close (.name name :: rest) := by
    refine ⟨_, _, rfl, ?_⟩
    rcases h with rfl | rfl | rfl
    · rintro ⟨⟩
    · rintro ⟨⟩
    · exact fun he => hne (Token.name.inj he)
  rcases a with b | value | address | bits
  · refine hname _ _ (box_name_ne b fun c cs hcs => .inl ?_)
    obtain ⟨rfl, -⟩ := List.cons.inj hcs
    rfl
  · exact ⟨_, _, rfl, by rcases h with rfl | rfl | rfl <;> simp⟩
  · exact hname _ _ (by decide)
  · simp only [Operand.tokens, Const.tokens]
    split_ifs
    · exact ⟨_, _, rfl, by rcases h with rfl | rfl | rfl <;> simp⟩
    · exact hname _ _ (by decide)
    · exact ⟨_, _, rfl, by rcases h with rfl | rfl | rfl <;> simp⟩
    · exact hname _ _ (by decide)

/-- What must hold of operands for them to be read back. -/
structure Readable (E : ParseError → Reader → Prop) (defined : List Box) (args : List Operand) :
    Prop where
  reads : Dump.Reads defined args
  literal : ∀ a ∈ args, a.Literal
  finite : ∀ a ∈ args, a.Finite ∨ ∀ e r', E e r'

theorem Readable.gives {defined : List Box} {args : List Operand} (h : Readable E defined args)
    (hr : r.Knows defined) {a : Operand} (ha : a ∈ args) : Gives E operand r a.tokens a := by
  refine operand_gives hr (fun b hb => h.reads b ?_) (h.literal a ha) (h.finite a ha)
  rwa [List.mem_singleton.1 hb]

theorem operandList_gives {defined : List Box} (hr : r.Knows defined) {args : List Operand}
    (h : Readable E defined args) : Gives E operandList r (listTokens args) args := by
  intro ts r' hts h'
  have htokens : listTokens args ++ ts =
      .lbracket :: (separated ((args.map fun a => (a.tokens, a)).map (·.1)) ++ .rbracket :: ts) := by
    simp [listTokens, Function.comp_def]
  rw [htokens] at h'
  have hitems : ∀ i ∈ args.map fun a => (a.tokens, a),
      Gives E operand r i.1 i.2 ∧ Opens .rbracket i.1 := by
    intro i hi
    obtain ⟨a, ha, rfl⟩ := List.mem_map.1 hi
    exact ⟨h.gives hr ha, operand_opens a (.inr (.inl rfl))⟩
  have hopens : IsLexed .lbracket := by rintro _ ⟨⟩
  have hcloses : IsLexed .rbracket := by rintro _ ⟨⟩
  simp only [operandList, ends_bind, expect_ends h'.tokens hopens]
  refine (items_gives hitems (by simp) (h'.next (by simp))).mono ?_
  rintro as r'' ⟨rfl, h''⟩
  simp only [expect_ends h''.tokens hcloses, ends_pure]
  exact ⟨by simp [Function.comp_def], h''.next hts⟩

/-! ### Between the parentheses -/

theorem descrName_gives_bare (name : String) : Gives E descrName r [.name name] name := by
  intro ts r' hts h
  have hlt : r'.here.token ≠ .lt := by rw [Reader.here_token h.tokens]; nofun
  simp only [descrName, ends_bind, accept_ends_false hlt, Bool.false_eq_true, if_false,
    expectName_ends h.tokens]
  exact ⟨trivial, h.next hts⟩

theorem descrName_gives_angled (name : String) :
    Gives E descrName r [.lt, .name name, .gt] name := by
  intro ts r' hts h
  have h₁ := h.next (by simp)
  have h₂ := h₁.next (by simp)
  simp only [descrName, ends_bind, accept_ends_true h.tokens, if_true, expectName_ends h₁.tokens,
    expect_ends h₂.tokens nofun, ends_pure]
  exact ⟨trivial, h₂.next hts⟩

theorem descrName_gives (d : Dump) (descr : Option Descr) :
    Option.Rel (fun toks name => Gives E descrName r toks name) (descr.bind d.descrTokens?)
      (descr.bind d.written?) := by
  rcases descr with _ | ⟨token | ⟨number, snapshot⟩ | name | name⟩
  · exact .none
  · exact .some (descrName_gives_bare _)
  · simp only [Option.bind_some, Dump.descrTokens?, Dump.written?]
    split
    · exact .some (descrName_gives_angled _)
    · exact .none
  · exact .some (descrName_gives_bare _)
  · exact .some (descrName_gives_bare _)

theorem item_gives_operand {a : Operand} (h : Gives E operand r a.tokens a) :
    Gives E item r a.tokens (.operand a) := by
  intro ts r' hts h'
  have hne : r'.here.token ≠ .name "descr" := by
    obtain ⟨t, rest, ha, ht⟩ := operand_opens a (.inr (.inr rfl))
    rw [ha] at h'
    rwa [Reader.here_token h'.tokens]
  simp only [item, ends_bind, ends_token, ends_lookahead, hne, false_and, if_false]
  refine (h ts r' hts h').mono ?_
  rintro _ r'' ⟨rfl, h''⟩
  exact ⟨rfl, h''⟩

theorem item_gives_descr {toks : List Token} {name : String} (h : Gives E descrName r toks name) :
    Gives E item r (.name "descr" :: .assign :: toks) (.descr name) := by
  intro ts r' hts h'
  have hts' : toks ++ ts ≠ [] := List.append_ne_nil_of_right_ne_nil _ hts
  have hassign := h'.next (by simp)
  simp only [item, ends_bind, ends_token, ends_lookahead, Reader.here_token h'.tokens,
    lookahead_eq h'.tokens, and_self, if_true, ends_advance]
  refine (h ts r'.next.next hts (hassign.next hts')).mono ?_
  rintro _ r'' ⟨rfl, h''⟩
  exact ⟨rfl, h''⟩

/-- What is read between the parentheses of an operation. -/
def readItems (d : Dump) (op : Operation) : List Item :=
  op.args.map .operand ++ ((op.descr.bind d.written?).map .descr).toList

theorem args_of_readItems (d : Dump) (op : Operation) :
    (readItems d op).filterMap Item.operand? = op.args := by
  have hargs : op.args.filterMap (fun a => (Item.operand a).operand?) = op.args :=
    List.filterMap_some
  rw [readItems, List.filterMap_append, List.filterMap_map, Function.comp_def, hargs]
  cases op.descr.bind d.written? <;> simp [Item.operand?]

theorem descr_of_readItems (d : Dump) (op : Operation) :
    ((readItems d op).filterMap Item.descr?).getLast? = op.descr.bind d.written? := by
  have hargs : op.args.filterMap (fun a => (Item.operand a).descr?) = [] := by
    simp [Item.descr?]
  rw [readItems, List.filterMap_append, List.filterMap_map, Function.comp_def, hargs]
  cases op.descr.bind d.written? <;> simp [Item.descr?]

theorem opItems_ends {defined : List Box} (hr : r.Knows defined) (d : Dump) {op : Operation}
    (hargs : Readable E defined op.args) {ts : List Token} {r' : Reader}
    (h : r.Behind (separated (d.itemTokens op) ++ .rparen :: ts) r') :
    Ends E (items .rparen item) r' fun as r'' =>
      as = readItems d op ∧ r.Behind (.rparen :: ts) r'' := by
  -- Each item with its tokens.
  obtain ⟨l, htoks, hitems, hl⟩ : ∃ l : List (List Token × Item), l.map (·.1) = d.itemTokens op ∧
      l.map (·.2) = readItems d op ∧ ∀ i ∈ l, Gives E item r i.1 i.2 ∧ Opens .rparen i.1 := by
    have hoperands : ∀ i ∈ op.args.map fun a => (a.tokens, Item.operand a),
        Gives E item r i.1 i.2 ∧ Opens .rparen i.1 := by
      intro i hi
      obtain ⟨a, ha, rfl⟩ := List.mem_map.1 hi
      exact ⟨item_gives_operand (hargs.gives hr ha), operand_opens a (.inl rfl)⟩
    have hdescr := descrName_gives (E := E) (r := r) d op.descr
    unfold Dump.itemTokens readItems
    generalize op.descr.bind d.descrTokens? = toks at hdescr
    generalize op.descr.bind d.written? = name at hdescr
    cases hdescr with
    | none => exact ⟨_, by simp [Function.comp_def], by simp, hoperands⟩
    | @some toks name hgives =>
      refine ⟨(op.args.map fun a => (a.tokens, Item.operand a)) ++
        [(.name "descr" :: .assign :: toks, .descr name)], by simp [Function.comp_def], by simp, ?_⟩
      refine List.forall_mem_append.2 ⟨hoperands, ?_⟩
      rintro _ (_ | ⟨_, ⟨⟩⟩)
      exact ⟨item_gives_descr hgives, _, _, rfl, nofun⟩
  rw [← htoks] at h
  rw [← hitems]
  exact items_gives hl nofun h

end Parse
end TracePeel
