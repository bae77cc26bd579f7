import Calculator.Decimal.Basic
import Calculator.Proofs.Items

/-!
# Which texts read as numbers

A text is read as a number exactly if it is a run of digits and points with some
digit and at most one point.  The text is cut at its first point; the digits of
the two parts are then all there is, so the parts hold no second point.
-/

namespace Calculator.Decimal

theorem isSome_ofText?_iff_written {text : Text} :
    (ofText? text).isSome = true ↔
      wholePart text ++ fractionPart text ≠ [] ∧
        ∀ character ∈ wholePart text ++ fractionPart text, character.isDigit = true := by
  rw [← List.all_eq_true]
  unfold ofText?
  dsimp only
  split
  · next hwritten => simpa using hwritten
  · next hwritten => simpa using hwritten

private theorem isNumeral_of_isDigit {character : Char} (hdigit : character.isDigit = true) :
    Cursor.isNumeral character = true := by
  simp [Cursor.isNumeral, hdigit]

private theorem isDigit_of_isNumeral {character : Char}
    (hnumeral : Cursor.isNumeral character = true) (hpoint : character ≠ '.') :
    character.isDigit = true := by
  simpa [Cursor.isNumeral, hpoint] using hnumeral

theorem isLiteral_iff_of_not_mem {text : Text} (hpoint : '.' ∉ text) :
    text.IsLiteral ↔ text ≠ [] ∧ ∀ character ∈ text, character.isDigit = true := by
  constructor
  · rintro ⟨⟨hne, hnumerals⟩, -, -⟩
    refine ⟨hne, fun character hmem => ?_⟩
    apply isDigit_of_isNumeral (hnumerals character hmem)
    rintro rfl
    exact hpoint hmem
  · rintro ⟨hne, hdigits⟩
    refine ⟨⟨hne, fun character hmem => isNumeral_of_isDigit (hdigits character hmem)⟩, ?_, ?_⟩
    · obtain ⟨first, more, rfl⟩ := List.exists_cons_of_ne_nil hne
      exact ⟨first, by simp, hdigits first (by simp)⟩
    · rw [List.count_eq_zero.2 hpoint]
      exact Nat.zero_le 1

theorem isLiteral_iff_of_point {whole : Text} (hpoint : '.' ∉ whole) (fraction : Text) :
    Text.IsLiteral (whole ++ '.' :: fraction) ↔
      whole ++ fraction ≠ [] ∧ ∀ character ∈ whole ++ fraction, character.isDigit = true := by
  have hcount : (whole ++ '.' :: fraction).count '.' = fraction.count '.' + 1 := by
    simp [List.count_append, List.count_eq_zero.2 hpoint]
  have hwritten : ∀ character ∈ whole ++ fraction, character ∈ whole ++ '.' :: fraction := by
    intro character hmem
    simp only [List.mem_append, List.mem_cons] at hmem ⊢
    exact hmem.imp_right Or.inr
  constructor
  · rintro ⟨⟨-, hnumerals⟩, ⟨digit, hmem, hdigit⟩, hpoints⟩
    have hfraction : '.' ∉ fraction := List.count_eq_zero.1 (by omega)
    constructor
    · -- A text of the point alone has no digit.
      intro hempty
      obtain ⟨rfl, rfl⟩ := List.append_eq_nil_iff.1 hempty
      rw [List.mem_singleton.1 hmem] at hdigit
      exact absurd hdigit (by decide)
    · intro character hmem
      apply isDigit_of_isNumeral (hnumerals character (hwritten character hmem))
      rintro rfl
      exact (List.mem_append.1 hmem).elim hpoint hfraction
  · rintro ⟨hne, hdigits⟩
    have hfraction : '.' ∉ fraction := point_not_mem_of_isDigit fun character hmem =>
      hdigits character (List.mem_append_right whole hmem)
    refine ⟨⟨by simp, ?_⟩, ?_, ?_⟩
    · intro character hmem
      by_cases heq : character = '.'
      · rw [heq]
        rfl
      · apply isNumeral_of_isDigit
        apply hdigits
        simpa [heq] using hmem
    · obtain ⟨digit, hmem⟩ := List.exists_mem_of_ne_nil _ hne
      exact ⟨digit, hwritten digit hmem, hdigits digit hmem⟩
    · rw [hcount, List.count_eq_zero.2 hfraction]

/-- The texts that are read as numbers are the literals of the grammar. -/
theorem isSome_ofText?_iff {text : Text} : (ofText? text).isSome = true ↔ text.IsLiteral := by
  rw [isSome_ofText?_iff_written]
  by_cases hpoint : '.' ∈ text
  · obtain ⟨whole, fraction, rfl, hwhole⟩ := List.eq_append_cons_of_mem hpoint
    rw [(parts_of_point hwhole fraction).1, (parts_of_point hwhole fraction).2,
      isLiteral_iff_of_point hwhole]
  · rw [(parts_of_not_mem hpoint).1, (parts_of_not_mem hpoint).2, List.append_nil,
      isLiteral_iff_of_not_mem hpoint]

theorem exists_ofText?_eq_some {text : Text} (hliteral : text.IsLiteral) :
    ∃ decimal, ofText? text = some decimal :=
  Option.isSome_iff_exists.1 (isSome_ofText?_iff.2 hliteral)

end Calculator.Decimal
