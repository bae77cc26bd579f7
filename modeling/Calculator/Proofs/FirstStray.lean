import Calculator.Proofs.Refusal

/-!
# The first stray character

The alphabet stands in two places: once as a list of characters, looked up before anything
is cut, and once in the kinds of tokens, one of which a cursor has to find at every step.
The two agree on every character, and a text up to its first foreign one is cut into tokens
without a gap.  So the character that the first look reports is the first one that a cursor
finds astray, and at the same position.
-/

namespace Calculator

namespace Item

def isStray : Item → Bool
  | .token _ => false
  | .stray _ _ => true

theorem exists_toToken_iff {source : Text} {item : Item} :
    (∃ token, item.toToken source = .ok token) ↔ item.isStray = false := by
  cases item with
  | token found => exact iff_of_true ⟨found, rfl⟩ rfl
  | stray character position =>
      refine iff_of_false ?_ Bool.noConfusion
      rintro ⟨token, htoken⟩
      cases htoken

theorem isStray_of_toToken_eq_error {source : Text} {item : Item} {fault : Fault}
    (hfault : item.toToken source = .error fault) : item.isStray = true := by
  cases item with
  | token found => cases hfault
  | stray character position => rfl

/-- The first item that gives a fault is the first stray one. -/
theorem exists_first_fault_iff {source : Text} {items : List Item} {fault : Fault} :
    (∃ front item back, items = front ++ item :: back ∧
        (∀ earlier ∈ front, ∃ token, earlier.toToken source = .ok token) ∧
        item.toToken source = .error fault) ↔
      ∃ item, items.find? isStray = some item ∧ item.toToken source = .error fault := by
  constructor
  · rintro ⟨front, item, back, hitems, hfront, hfault⟩
    refine ⟨item, ?_, hfault⟩
    rw [List.find?_eq_some_iff_append]
    refine ⟨isStray_of_toToken_eq_error hfault, front, back, hitems, fun earlier hmem => ?_⟩
    rw [exists_toToken_iff.1 (hfront earlier hmem)]
    rfl
  · rintro ⟨item, hfind, hfault⟩
    obtain ⟨-, front, back, hitems, hfront⟩ := List.find?_eq_some_iff_append.1 hfind
    refine ⟨front, item, back, hitems, fun earlier hmem => ?_, hfault⟩
    rw [exists_toToken_iff]
    simpa using hfront earlier hmem

end Item

namespace Text

theorem find?_isStray_of_isAllowed {text : Text}
    (hallowed : ∀ character ∈ text, isAllowed character = true) :
    text.items.find? Item.isStray = none := by
  change (Cursor.items ⟨0, text⟩).find? Item.isStray = none
  rw [Cursor.items_of_isAllowed hallowed, List.find?_eq_none, List.forall_mem_map]
  exact fun _ _ => Bool.noConfusion

theorem find?_isStray_of_foreign {front : Text} {character : Char}
    (hallowed : ∀ earlier ∈ front, isAllowed earlier = true)
    (hforeign : isAllowed character = false) (rest : Text) :
    (front ++ character :: rest).items.find? Item.isStray =
      some (.stray character front.byteLength) := by
  change (Cursor.items ⟨0, front ++ character :: rest⟩).find? Item.isStray = _
  have htokens : ((Cursor.tokens ⟨0, front⟩).map Item.token).find? Item.isStray = none := by
    rw [List.find?_eq_none, List.forall_mem_map]
    exact fun _ _ => Bool.noConfusion
  rw [Cursor.items_of_foreign hallowed hforeign, List.find?_append, htokens, Nat.zero_add]
  rfl

end Text

/-- A text passes the look at its alphabet exactly if a cursor finds nothing but tokens in
it, and otherwise its fault is the first one that a cursor finds: the same character, span
and source. -/
theorem validate_iff_items (text : Text) :
    (text.validate = .ok () ↔ ∀ item ∈ text.items, ∃ token, item.toToken text = .ok token) ∧
      ∀ fault, text.validate = .error fault ↔
        ∃ front item back, text.items = front ++ item :: back ∧
          (∀ earlier ∈ front, ∃ token, earlier.toToken text = .ok token) ∧
          item.toToken text = .error fault := by
  have hnone : (∀ item ∈ text.items, ∃ token, item.toToken text = .ok token) ↔
      text.items.find? Item.isStray = none := by
    simp only [Item.exists_toToken_iff, List.find?_eq_none, Bool.not_eq_true]
  simp only [hnone, Item.exists_first_fault_iff]
  obtain ⟨front, rest, htext, hallowed, hforeign⟩ := text.exists_allowed_front
  cases rest with
  | nil =>
      rw [List.append_nil] at htext
      subst htext
      have hvalidate := Text.validate_eq_ok_iff.2 hallowed
      rw [Text.find?_isStray_of_isAllowed hallowed, hvalidate]
      simp
  | cons character rest =>
      subst htext
      have hcharacter := hforeign character rfl
      have hvalidate := Text.validate_eq_error_iff.2
        ⟨front, character, rest, rfl, hallowed, hcharacter, rfl⟩
      rw [Text.find?_isStray_of_foreign hallowed hcharacter, hvalidate]
      simp [Item.toToken]

end Calculator
