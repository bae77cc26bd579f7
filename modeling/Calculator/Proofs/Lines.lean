import Calculator.Proofs.Items
import Calculator.Text.Line

/-!
# Lines and their bytes

A stream is cut into lines in one way, and bytes encode at most one text.
-/

namespace Calculator.Text

/-- Lines, each ended by a line feed. -/
def ofLines (lines : List Text) : Text :=
  lines.flatMap (· ++ ['\n'])

theorem ofLines_cons (line : Text) (lines : List Text) :
    ofLines (line :: lines) = line ++ '\n' :: ofLines lines := by
  simp [ofLines]

theorem ofLines_append (front back : List Text) :
    ofLines (front ++ back) = ofLines front ++ ofLines back :=
  List.flatMap_append

/-- The two results of an expression stand on a line each. -/
theorem ofLines_results (result intermediate : Text) :
    ofLines [("Result: " : Text) ++ result, ("Intermediate: " : Text) ++ intermediate] =
      ("Result: " : Text) ++ result ++ ("\nIntermediate: " : Text) ++ intermediate ++ ['\n'] := by
  have hbreak : ofString "\nIntermediate: " = '\n' :: ofString "Intermediate: " := by
    decide +kernel
  simp [ofLines, hbreak]

/-- What a line feed leaves of the piece before it: one carriage return at the end goes. -/
inductive Chomps : List UInt8 → List UInt8 → Prop
  | carriageReturn (line : List UInt8) : Chomps (line ++ [carriageReturn]) line
  | plain {line : List UInt8} (hlast : line.getLast? ≠ some carriageReturn) : Chomps line line

theorem chomps_dropCarriageReturn (piece : List UInt8) :
    Chomps piece (dropCarriageReturn piece) := by
  rw [dropCarriageReturn]
  split
  · next hlast =>
      obtain ⟨line, rfl⟩ := List.getLast?_eq_some_iff.1 hlast
      rw [List.dropLast_concat]
      exact .carriageReturn line
  · next hlast => exact .plain hlast

theorem Chomps.dropCarriageReturn_eq {piece line : List UInt8} (hchomps : Chomps piece line) :
    dropCarriageReturn piece = line := by
  cases hchomps with
  | carriageReturn => simp [dropCarriageReturn]
  | plain hlast => rw [dropCarriageReturn, if_neg hlast]

/-- A stream is cut into these lines. -/
inductive CutInto : List UInt8 → List (List UInt8) → Prop
  | nil : CutInto [] []
  /-- Bytes behind the last line feed are a line as they are. -/
  | unended {line : List UInt8} (hline : line ≠ []) (hfeed : lineFeed ∉ line) :
      CutInto line [line]
  | ended {piece line rest : List UInt8} {lines : List (List UInt8)} (hfeed : lineFeed ∉ piece)
      (hchomps : Chomps piece line) (hrest : CutInto rest lines) :
      CutInto (piece ++ lineFeed :: rest) (line :: lines)

private theorem bne_lineFeed {piece : List UInt8} (hfeed : lineFeed ∉ piece) :
    ∀ byte ∈ piece, (byte != lineFeed) = true := by
  intro byte hmem
  rw [bne_iff_ne]
  rintro rfl
  exact hfeed hmem

private theorem firstLine?_of_ne_nil {bytes : List UInt8} (hbytes : bytes ≠ []) :
    firstLine? bytes = match bytes.dropWhile (· != lineFeed) with
      | [] => some (bytes, [])
      | _ :: rest => some (dropCarriageReturn (bytes.takeWhile (· != lineFeed)), rest) := by
  cases bytes with
  | nil => exact absurd rfl hbytes
  | cons byte bytes => rfl

theorem firstLine?_unended {line : List UInt8} (hline : line ≠ []) (hfeed : lineFeed ∉ line) :
    firstLine? line = some (line, []) := by
  have hdrop : (line ++ []).dropWhile (· != lineFeed) = [] :=
    dropWhile_append_of_boundary (bne_lineFeed hfeed) (by simp)
  rw [List.append_nil] at hdrop
  rw [firstLine?_of_ne_nil hline, hdrop]

theorem firstLine?_ended {piece : List UInt8} (rest : List UInt8) (hfeed : lineFeed ∉ piece) :
    firstLine? (piece ++ lineFeed :: rest) = some (dropCarriageReturn piece, rest) := by
  have hboundary : ∀ byte ∈ (lineFeed :: rest).head?, (byte != lineFeed) = false := by simp
  rw [firstLine?_of_ne_nil (by simp),
    dropWhile_append_of_boundary (bne_lineFeed hfeed) hboundary,
    takeWhile_append_of_boundary (bne_lineFeed hfeed) hboundary]

theorem lines_eq_of_firstLine? {bytes line rest : List UInt8}
    (hfirst : firstLine? bytes = some (line, rest)) : lines bytes = line :: lines rest := by
  rw [lines]
  split
  · next hnone => rw [hnone] at hfirst; cases hfirst
  · next hsome =>
      rw [hsome] at hfirst
      cases hfirst
      rfl

theorem lines_nil : lines [] = [] := by
  rw [lines]
  rfl

/-- A stream is cut into its lines only. -/
theorem CutInto.lines_eq {bytes : List UInt8} {pieces : List (List UInt8)}
    (hcut : CutInto bytes pieces) : lines bytes = pieces := by
  induction hcut with
  | nil => exact lines_nil
  | unended hline hfeed =>
      rw [lines_eq_of_firstLine? (firstLine?_unended hline hfeed), lines_nil]
  | ended hfeed hchomps _ ih =>
      rw [lines_eq_of_firstLine? (firstLine?_ended _ hfeed), hchomps.dropCarriageReturn_eq, ih]

theorem cutInto_lines (bytes : List UInt8) : CutInto bytes (lines bytes) := by
  by_cases hfeed : lineFeed ∈ bytes
  · obtain ⟨piece, rest, hbytes, hpiece⟩ := List.eq_append_cons_of_mem hfeed
    have hshorter : rest.length < bytes.length := by
      rw [hbytes, List.length_append, List.length_cons]
      omega
    rw [hbytes, lines_eq_of_firstLine? (firstLine?_ended rest hpiece)]
    exact .ended hpiece (chomps_dropCarriageReturn piece) (cutInto_lines rest)
  · by_cases hbytes : bytes = []
    · rw [hbytes, lines_nil]
      exact .nil
    · rw [lines_eq_of_firstLine? (firstLine?_unended hbytes hfeed), lines_nil]
      exact .unended hbytes hfeed
termination_by bytes.length

theorem decode?_encode (text : Text) : decode? (encode text) = some text := by
  have hdecode : String.fromUTF8? (String.ofList text).toUTF8 = some (String.ofList text) := by
    rw [String.fromUTF8?, String.toUTF8_eq_toByteArray, dif_pos (String.ofList text).isValidUTF8]
    rfl
  change (String.fromUTF8? (String.ofList text).toUTF8).map String.toList = some text
  rw [hdecode, Option.map_some, String.toList_ofList]

/-- Bytes are decoded to the one text that they encode. -/
theorem decode?_eq_some_iff {bytes : List UInt8} {text : Text} :
    decode? bytes = some text ↔ encode text = bytes := by
  constructor
  · intro hdecode
    obtain ⟨string, hstring, rfl⟩ := Option.map_eq_some_iff.1 hdecode
    rw [String.fromUTF8?] at hstring
    split at hstring
    · cases hstring
      rw [encode, String.ofList_toList]
      rfl
    · cases hstring
  · rintro rfl
    exact decode?_encode text

end Calculator.Text
