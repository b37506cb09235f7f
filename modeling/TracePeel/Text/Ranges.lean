/-! Sets of characters as ranges of code points.

A property of characters is a list of closed ranges, rising and apart, so a
search stops at the first range that begins beyond the character. -/
namespace TracePeel.Text

/-- Closed ranges of code points, rising and apart. -/
abbrev Ranges := List (Nat × Nat)

/-- Whether a code point lies in one of the ranges. -/
def inRanges : Ranges → Nat → Bool
  | [], _ => false
  | (first, last) :: rest, n => first ≤ n && (n ≤ last || inRanges rest n)

theorem exists_of_inRanges {r : Ranges} {n : Nat} (h : inRanges r n = true) :
    ∃ p ∈ r, p.1 ≤ n ∧ n ≤ p.2 := by
  induction r with
  | nil => simp [inRanges] at h
  | cons p rest ih =>
    obtain ⟨first, last⟩ := p
    simp only [inRanges, Bool.and_eq_true, Bool.or_eq_true, decide_eq_true_eq] at h
    obtain ⟨hf, hl | hr⟩ := h
    · exact ⟨(first, last), List.mem_cons_self .., hf, hl⟩
    · obtain ⟨q, hq, hb⟩ := ih hr
      exact ⟨q, List.mem_cons_of_mem _ hq, hb⟩

end TracePeel.Text
