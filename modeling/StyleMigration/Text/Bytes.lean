/-!
Positions in a text counted in UTF-8 bytes. A text is cut only between characters: an offset
inside a character, or past the end, is no position.
-/

set_option autoImplicit false

namespace StyleMigration.Text

/-- The number of bytes a text takes in UTF-8. -/
def byteLength : List Char → Nat
  | [] => 0
  | c :: text => c.utf8Size + byteLength text

/-- Cuts a text at a byte offset, if that is a position between two characters or at an end. -/
def splitAtByte? : Nat → List Char → Option (List Char × List Char)
  | 0, text => some ([], text)
  | _ + 1, [] => none
  | offset + 1, c :: text =>
    if c.utf8Size ≤ offset + 1 then
      (splitAtByte? (offset + 1 - c.utf8Size) text).map fun (front, back) => (c :: front, back)
    else
      none

/-- Whether a byte offset lies on a character boundary of a text. -/
def isBoundary (text : List Char) (offset : Nat) : Bool :=
  (splitAtByte? offset text).isSome

/-- The text from a byte offset on, empty where the offset is no position. -/
def fromByte (text : List Char) (offset : Nat) : List Char :=
  ((splitAtByte? offset text).map (·.2)).getD []

/-- The text up to a byte offset, empty where the offset is no position. -/
def upToByte (text : List Char) (offset : Nat) : List Char :=
  ((splitAtByte? offset text).map (·.1)).getD []

/-- The text between two byte offsets, empty where one of them is no position. -/
def slice (text : List Char) (start stop : Nat) : List Char :=
  fromByte (upToByte text stop) start

theorem byteLength_append (front back : List Char) :
    byteLength (front ++ back) = byteLength front + byteLength back := by
  induction front with
  | nil => simp [byteLength]
  | cons c front ih => simp [byteLength, ih, Nat.add_assoc]

theorem splitAtByte?_append (front back : List Char) :
    splitAtByte? (byteLength front) (front ++ back) = some (front, back) := by
  induction front with
  | nil => simp [byteLength, splitAtByte?]
  | cons c front ih =>
    have hpositive := c.utf8Size_pos
    obtain ⟨offset, hoffset⟩ : ∃ offset, byteLength (c :: front) = offset + 1 :=
      ⟨byteLength (c :: front) - 1, by simp only [byteLength]; omega⟩
    have hrest : offset + 1 - c.utf8Size = byteLength front := by
      simp only [byteLength] at hoffset
      omega
    rw [hoffset, List.cons_append, splitAtByte?, if_pos (by simp only [byteLength] at hoffset; omega),
      hrest, ih]
    rfl

theorem eq_of_splitAtByte? {offset : Nat} {text front back : List Char}
    (hsplit : splitAtByte? offset text = some (front, back)) :
    text = front ++ back ∧ byteLength front = offset := by
  fun_induction splitAtByte? offset text generalizing front with
  | case1 text =>
    cases hsplit
    exact ⟨rfl, rfl⟩
  | case2 => cases hsplit
  | case3 offset c text hsize ih =>
    obtain ⟨⟨front, back⟩, hrest, hcons⟩ := Option.map_eq_some_iff.mp hsplit
    cases hcons
    obtain ⟨rfl, hlength⟩ := ih hrest
    refine ⟨rfl, ?_⟩
    simp only [byteLength]
    omega
  | case4 => cases hsplit

/-- The offset of every boundary is the length of the text before it. -/
theorem isBoundary_iff {text : List Char} {offset : Nat} :
    isBoundary text offset = true ↔ ∃ front back, text = front ++ back ∧ byteLength front = offset := by
  constructor
  · intro hboundary
    obtain ⟨⟨front, back⟩, hsplit⟩ := Option.isSome_iff_exists.mp hboundary
    exact ⟨front, back, eq_of_splitAtByte? hsplit⟩
  · rintro ⟨front, back, rfl, rfl⟩
    rw [isBoundary, splitAtByte?_append]
    rfl

theorem fromByte_append (front back : List Char) :
    fromByte (front ++ back) (byteLength front) = back := by
  rw [fromByte, splitAtByte?_append]
  rfl

theorem upToByte_append (front back : List Char) :
    upToByte (front ++ back) (byteLength front) = front := by
  rw [upToByte, splitAtByte?_append]
  rfl

theorem slice_append (front middle back : List Char) :
    slice (front ++ middle ++ back) (byteLength front) (byteLength (front ++ middle)) = middle := by
  rw [slice, upToByte_append, fromByte_append]

end StyleMigration.Text
