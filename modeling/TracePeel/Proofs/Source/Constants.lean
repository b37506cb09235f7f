import TracePeel.Proofs.Source.Derivable
import TracePeel.Proofs.Source.RoundTrip

/-! Which constants a dump carries.

A constant is carried by a dump if its text, wherever it stands as an argument, is read as that
constant and nothing more. This holds of every integer, of an address that an integer literal can
hold and of every float that is finite, bit for bit; an infinity is written as a word and an address
from `2 ^ 63` on as a literal that is none, and neither is read (`Const.readBack_iff`). -/
namespace TracePeel

/-- What a dump writes for the constant falls into tokens of its own in front of whatever breaks it
off, and wherever a reader stands in front of these tokens it takes the constant from them. -/
def Const.ReadBack (c : Const) : Prop :=
  ∀ naming : Naming, ∃ text toks, (Dump.operand (.const c)).run naming = (text, naming) ∧
    Dump.Spelt text toks ∧
    ∀ (r : Reader) ts, ts ≠ [] → r.tokens = toks ++ ts →
      ∃ r', Parse.Takes Parse.operand r (.const c) r' ∧ r.Behind ts r'

/-! ### From the tokens -/

/-- The tokens from which a constant is read. -/
inductive Const.ReadFrom : Const → List Token → Prop
  | int (value : Int64) : ReadFrom (.int value) [.int value]
  | float (bits : UInt64) : ReadFrom (.float bits) [.float bits]
  | ref {value : Int64} (h : 0 ≤ value.toInt) : ReadFrom (.ref value.toUInt64)
    [.name "ConstPtr", .lparen, .int value, .rparen]

namespace Parse

variable {r r' : Reader} {c : Const}

theorem takes_constant : Takes operand r (.const c) r' ↔ ∃ us, c.ReadFrom us ∧ r.Goes us r' := by
  unfold operand
  rw [takes_checkLexed, takes_token]
  constructor
  · rintro ⟨-, h⟩
    split at h
    case h_1 value hvalue =>
      rw [takes_advance, takes_pure] at h
      obtain ⟨hc, rfl⟩ := h
      obtain rfl := Operand.const.inj hc
      exact ⟨_, .int value, hvalue, rfl⟩
    case h_2 bits hbits =>
      rw [takes_advance, takes_pure] at h
      obtain ⟨hc, rfl⟩ := h
      obtain rfl := Operand.const.inj hc
      exact ⟨_, .float bits, hbits, rfl⟩
    case h_3 name hname =>
      split at h
      case isTrue hptr =>
        obtain ⟨value, hpos, hc, hgoes⟩ := takes_address.1 (takes_advance.1 h)
        obtain rfl := Operand.const.inj hc
        exact ⟨_, .ref hpos, hptr ▸ hname, hgoes⟩
      case isFalse =>
        rw [takes_get] at h
        split at h
        · rw [takes_advance, takes_pure] at h
          cases h.1
        · exact absurd h takes_fail
    case h_4 => exact absurd h takes_fail
  · rintro ⟨us, hread, hgoes⟩
    cases hread with
    | int value =>
      obtain ⟨hhere, rfl⟩ := hgoes
      rw [hhere]
      exact ⟨by rintro _ ⟨⟩, rfl⟩
    | float bits =>
      obtain ⟨hhere, rfl⟩ := hgoes
      rw [hhere]
      exact ⟨by rintro _ ⟨⟩, rfl⟩
    | @ref value hpos =>
      obtain ⟨hhere, hgoes⟩ := hgoes
      rw [hhere]
      exact ⟨by rintro _ ⟨⟩, takes_advance.2 (takes_address.2 ⟨value, hpos, rfl, hgoes⟩)⟩

end Parse

theorem Const.readFrom_tokens {c : Const} (hliteral : (Operand.const c).Literal)
    (hfinite : (Operand.const c).Finite) : c.ReadFrom c.tokens := by
  cases c with
  | int value => exact .int value
  | ref address =>
    have haddress : address.toNat < 2 ^ 63 := hliteral
    have hpos : 0 ≤ address.toInt64.toInt := by
      rw [Dump.toInt_toInt64 haddress]
      exact Int.natCast_nonneg _
    have hread := ReadFrom.ref hpos
    rwa [UInt64.toUInt64_toInt64] at hread
  | float bits =>
    have hbits : Binary64.magnitude bits < Binary64.infinity := hfinite
    rw [Const.tokens, if_pos hbits]
    exact .float bits

theorem Const.readBack_of_finite {c : Const} (hliteral : (Operand.const c).Literal)
    (hfinite : (Operand.const c).Finite) : c.ReadBack := by
  intro naming
  refine ⟨c.text, c.tokens, rfl, Dump.spelt_const hliteral, fun r ts hts htokens => ?_⟩
  obtain ⟨r', hgoes, rfl⟩ := Reader.exists_goes hts htokens
  exact ⟨r', Parse.takes_constant.2 ⟨_, c.readFrom_tokens hliteral hfinite, hgoes⟩,
    Reader.goes_behind hgoes⟩

/-! ### What is not read back -/

theorem Dump.Spelt.tokens_start {text : String} {toks : List Token} (h : Dump.Spelt text toks) :
    (Reader.start text).tokens = toks ++ [.eof] := by
  have hlex := h [] [.eof] nofun Lexer.lexes_nil
  rw [List.append_nil] at hlex
  rw [Reader.tokens_start]
  exact hlex.tokens

/-- Read alone, the text of a constant that is read back begins with tokens for it. -/
theorem Const.ReadBack.readFrom {c : Const} (h : c.ReadBack) {toks : List Token}
    (hspelt : Dump.Spelt c.text toks) : ∃ us ts, c.ReadFrom us ∧ toks ++ [.eof] = us ++ ts := by
  obtain ⟨text, toks', hrun, hspelt', hread⟩ := h {}
  obtain rfl : c.text = text := (Prod.mk.inj hrun).1
  obtain ⟨r', htakes, -⟩ := hread (Reader.start c.text) [.eof] (List.cons_ne_nil _ _)
    hspelt'.tokens_start
  obtain ⟨us, hus, hgoes⟩ := Parse.takes_constant.1 htakes
  have hended := (Parse.untitled_start c.text).ended
  have heof : .eof ∉ us := by cases hus <;> simp
  exact ⟨us, r'.tokens, hus, hspelt.tokens_start.symm.trans (hended.tokens_of_goes heof hgoes)⟩

theorem Const.ReadBack.literal {c : Const} (h : c.ReadBack) : (Operand.const c).Literal := by
  cases c with
  | int value => trivial
  | float bits => trivial
  | ref address =>
    by_contra hlarge
    have hout : ¬(Int64.minValue.toInt ≤ Number.signed false address.toNat ∧
        Number.signed false address.toNat ≤ Int64.maxValue.toInt) := by
      have hmax : Int64.maxValue.toInt = 2 ^ 63 - 1 := by decide
      have hge : 2 ^ 63 ≤ address.toNat := Nat.le_of_not_lt hlarge
      rw [hmax, Number.signed, if_neg Bool.false_ne_true]
      omega
    have hnone := Number.Literal.spells (Number.wholeLiteral_proper address.toNat)
    rw [Number.wholeLiteral_chars, Number.wholeLiteral_token, if_neg hout] at hnone
    obtain ⟨us, ts, hus, htokens⟩ := h.readFrom (Dump.spelt_pointer hnone)
    obtain ⟨-⟩ := hus
    simp at htokens

theorem Const.ReadBack.finite {c : Const} (h : c.ReadBack) : (Operand.const c).Finite := by
  cases c with
  | int value => trivial
  | ref address => trivial
  | float bits =>
    by_contra hinfinite
    obtain ⟨us, ts, hus, htokens⟩ := h.readFrom (Dump.spelt_const trivial)
    obtain ⟨-⟩ := hus
    have hbits : ¬Binary64.magnitude bits < Binary64.infinity := hinfinite
    rw [Const.tokens, if_neg hbits] at htokens
    split_ifs at htokens <;> simp at htokens

/-- A constant is read back just if it is a finite float, an address below `2 ^ 63` or an integer. -/
theorem Const.readBack_iff (c : Const) :
    c.ReadBack ↔ (Operand.const c).Literal ∧ (Operand.const c).Finite :=
  ⟨fun h => ⟨h.literal, h.finite⟩, fun h => c.readBack_of_finite h.1 h.2⟩

/-- Neither an infinity nor an address in the upper half is read back. -/
theorem Const.not_always_readBack :
    ¬(Const.float 0x7FF0000000000000).ReadBack ∧ ¬(Const.float 0xFFF0000000000000).ReadBack ∧
      ¬(Const.ref 0x8000000000000000).ReadBack :=
  ⟨fun h => absurd h.finite (by decide), fun h => absurd h.finite (by decide),
    fun h => absurd h.literal (by decide)⟩

end TracePeel
