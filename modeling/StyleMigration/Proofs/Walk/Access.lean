import StyleMigration.Text.Bytes
import StyleMigration.Text.Octets

/-!
Walks over the bytes of a text that stop at the first fault. A byte is read only inside the text
(`itemAt`), a text is cut only forward and between characters (`cut`), and a number is lowered only to zero
(`minus`); anything else is a fault, and so is a step that does not go forward.

A walk stands before a rest of the text (`IsAt`), or inside the last character before it (`IsNear`): a
backslash takes one byte after it, which may be the first of several. The other bytes of such a character are
no ASCII characters. A walk that passes over them one by one comes to the same as one that starts behind them
(`IsNear.eq`).
-/

set_option autoImplicit false

namespace StyleMigration.Walk

open Text

variable {c : Char}

/-! ### Checked access -/

/-- What can go wrong in a walk over the bytes of a text. -/
inductive Fault where
  /-- Something is read past the end. -/
  | index
  /-- A text is cut inside a character, past its end, or backwards. -/
  | slice
  /-- A number is lowered below zero. -/
  | underflow
  /-- A step does not go forward. -/
  | stuck
  deriving DecidableEq, Repr

/-- The bytes of a character, each as the character with its number. -/
def charOctets (c : Char) : Octets :=
  (String.utf8EncodeChar c).map fun byte => Char.ofNat byte.toNat

/-- The bytes of a text. -/
def octets (text : List Char) : Octets :=
  text.flatMap charOctets

/-- The item at an index. -/
def itemAt {Item : Type} (items : List Item) (i : Nat) : Except Fault Item :=
  match items[i]? with
  | some item => .ok item
  | none => .error .index

/-- The text between two byte offsets. -/
def cut (text : List Char) (start stop : Nat) : Except Fault (List Char) :=
  if start ≤ stop ∧ isBoundary text start ∧ isBoundary text stop then .ok (slice text start stop)
  else .error .slice

/-- The text from a byte offset on. -/
def cutFrom (text : List Char) (start : Nat) : Except Fault (List Char) :=
  cut text start (byteLength text)

def minus (number other : Nat) : Except Fault Nat :=
  if other ≤ number then .ok (number - other) else .error .underflow

/-- The byte offset of the first place where `wanted` stands in a text. -/
def find? (wanted : List Char) : List Char → Option Nat
  | [] => if wanted.isEmpty then some 0 else none
  | c :: text =>
    if wanted.isPrefixOf (c :: text) then some 0
    else (find? wanted text).map (c.utf8Size + ·)

theorem isPrefixOf_pair_iff {first second : Char} {text : List Char} :
    [first, second].isPrefixOf (c :: text) = true ↔ c = first ∧ text.head? = some second := by
  rw [List.isPrefixOf_iff_prefix]
  constructor
  · rintro ⟨others, hothers⟩
    cases hothers
    exact ⟨rfl, rfl⟩
  · rintro ⟨rfl, hhead⟩
    obtain ⟨others, rfl⟩ := List.head?_eq_some_iff.mp hhead
    exact ⟨others, rfl⟩

@[simp] theorem ok_bind {First Second : Type} (value : First) (next : First → Except Fault Second) :
    (Except.ok value >>= next) = next value :=
  rfl

@[simp] theorem pure_eq_ok {Value : Type} (value : Value) : (pure value : Except Fault Value) = .ok value :=
  rfl

@[simp] theorem minus_of_le {number other : Nat} (hle : other ≤ number) :
    minus number other = .ok (number - other) :=
  if_pos hle

theorem mapM_eq_map {First Second : Type} {f : First → Except Fault Second} {g : First → Second}
    {items : List First}
    (hf : ∀ item ∈ items, f item = .ok (g item)) : items.mapM f = .ok (items.map g) := by
  induction items with
  | nil => rfl
  | cons item items ih =>
    rw [List.forall_mem_cons] at hf
    rw [List.mapM_cons, hf.1, ok_bind, ih hf.2]
    rfl

/-! ### Bytes of a character -/

/-- A character that takes one byte. -/
def IsAscii (c : Char) : Prop :=
  c.toNat < 0x80

instance instDecidableIsAscii (c : Char) : Decidable (IsAscii c) :=
  inferInstanceAs (Decidable (c.toNat < 0x80))

theorem toNat_ofNat {number : Nat} (hnumber : number < 0x100) :
    (Char.ofNat number).toNat = number := by
  have hvalid : number.isValidChar := Or.inl (by omega)
  rw [Char.ofNat, dif_pos hvalid]
  rfl

theorem utf8Size_of_isAscii (hc : IsAscii c) : c.utf8Size = 1 := by
  rw [Char.utf8Size_eq_one_iff, UInt32.le_iff_toNat_le]
  exact Nat.le_of_lt_succ hc

theorem byteLength_of_isAscii {text : List Char} (htext : ∀ c ∈ text, IsAscii c) :
    byteLength text = text.length := by
  induction text with
  | nil => rfl
  | cons c text ih =>
    rw [List.forall_mem_cons] at htext
    rw [byteLength, utf8Size_of_isAscii htext.1, ih htext.2, List.length_cons, Nat.add_comm]

theorem length_charOctets (c : Char) : (charOctets c).length = c.utf8Size := by
  rw [charOctets, List.length_map, String.length_utf8EncodeChar]

theorem charOctets_of_isAscii (hc : IsAscii c) : charOctets c = [c] := by
  have hsmall : c.val.toNat ≤ 127 := Nat.le_of_lt_succ hc
  have hbyte : (UInt8.ofNat c.val.toNat).toNat = c.toNat :=
    UInt8.toNat_ofNat_of_lt' (Nat.lt_of_lt_of_le hc (by decide))
  rw [charOctets, String.utf8EncodeChar, if_pos hsmall, List.map_singleton, hbyte, Char.ofNat_toNat]

/-- The bytes of a character that takes more than one are no ASCII characters. -/
theorem not_isAscii_of_mem_charOctets {d : Char} (hc : ¬IsAscii c) (hd : d ∈ charOctets c) :
    ¬IsAscii d := by
  have hlarge : ¬c.val.toNat ≤ 127 := fun hsmall => hc (Nat.lt_succ_of_le hsmall)
  obtain ⟨byte, hbyte, rfl⟩ := List.mem_map.mp hd
  have hofNat {number : Nat} (hlow : 0x80 ≤ number) (hhigh : number < UInt8.size) :
      0x80 ≤ (UInt8.ofNat number).toNat := by
    rwa [UInt8.toNat_ofNat_of_lt' hhigh]
  have hhigh : 0x80 ≤ byte.toNat := by
    have hsize : UInt8.size = 256 := rfl
    simp only [String.utf8EncodeChar, if_neg hlarge] at hbyte
    split at hbyte
    · simp only [List.mem_cons, List.not_mem_nil, or_false] at hbyte
      rcases hbyte with rfl | rfl <;> exact hofNat (by omega) (by omega)
    split at hbyte
    · simp only [List.mem_cons, List.not_mem_nil, or_false] at hbyte
      rcases hbyte with rfl | rfl | rfl <;> exact hofNat (by omega) (by omega)
    · simp only [List.mem_cons, List.not_mem_nil, or_false] at hbyte
      rcases hbyte with rfl | rfl | rfl | rfl <;> exact hofNat (by omega) (by omega)
  rw [IsAscii, toNat_ofNat byte.toNat_lt]
  exact Nat.not_lt.mpr hhigh

theorem octets_append (front back : List Char) :
    octets (front ++ back) = octets front ++ octets back :=
  List.flatMap_append

theorem length_octets (text : List Char) : (octets text).length = byteLength text := by
  induction text with
  | nil => rfl
  | cons c text ih =>
    rw [octets, List.flatMap_cons, List.length_append, length_charOctets, byteLength, ← ih, octets]

theorem byteLength_pos {text : List Char} (hne : text ≠ []) : 0 < byteLength text := by
  obtain ⟨c, rest, rfl⟩ := List.exists_cons_of_ne_nil hne
  exact Nat.add_pos_left c.utf8Size_pos _

/-- A single character is found behind all that is before it. -/
theorem find?_singleton (mark : Char) (text : List Char) :
    find? [mark] text = if text.dropWhile (· != mark) = [] then none
      else some (byteLength (text.takeWhile (· != mark))) := by
  induction text with
  | nil => rfl
  | cons c text ih =>
    by_cases hc : c = mark
    · simp [hc, find?, List.isPrefixOf, byteLength]
    · have hstart : ¬[mark].isPrefixOf (c :: text) = true := by simpa [List.isPrefixOf] using Ne.symm hc
      rw [find?, if_neg hstart, ih, List.dropWhile_cons_of_pos (by simpa using hc),
        List.takeWhile_cons_of_pos (by simpa using hc)]
      split <;> rfl

/-! ### Positions -/

/-- A byte offset before a rest of a text. -/
def IsAt (text : List Char) (i : Nat) (rest : List Char) : Prop :=
  ∃ front, text = front ++ rest ∧ i = byteLength front

namespace IsAt

variable {text rest : List Char} {i : Nat}

theorem start (text : List Char) : IsAt text 0 text :=
  ⟨[], rfl, rfl⟩

theorem length_eq (hat : IsAt text i rest) : i + byteLength rest = byteLength text := by
  obtain ⟨front, rfl, rfl⟩ := hat
  rw [byteLength_append]

theorem eq_of_nil (hat : IsAt text i []) : i = byteLength text := by
  rw [← hat.length_eq, byteLength, Nat.add_zero]

/-- Only one byte offset is before a rest. -/
theorem unique {j : Nat} (hat : IsAt text i rest) (hother : IsAt text j rest) : i = j := by
  have hfirst := hat.length_eq
  have hsecond := hother.length_eq
  omega

theorem skip {middle : List Char} (hat : IsAt text i (middle ++ rest)) :
    IsAt text (i + byteLength middle) rest := by
  obtain ⟨front, rfl, rfl⟩ := hat
  exact ⟨front ++ middle, (List.append_assoc _ _ _).symm, (byteLength_append _ _).symm⟩

theorem next (hat : IsAt text i (c :: rest)) : IsAt text (i + c.utf8Size) rest :=
  @skip text rest i [c] hat

theorem next_of_isAscii (hat : IsAt text i (c :: rest)) (hc : IsAscii c) :
    IsAt text (i + 1) rest := by
  have hnext := hat.next
  rwa [utf8Size_of_isAscii hc] at hnext

theorem lt_length (hat : IsAt text i (c :: rest)) : i < byteLength text := by
  have hlength := hat.length_eq
  have hpositive := c.utf8Size_pos
  rw [byteLength] at hlength
  omega

theorem lt_octets (hat : IsAt text i (c :: rest)) : i < (octets text).length := by
  rw [length_octets]
  exact hat.lt_length

theorem not_lt_octets (hat : IsAt text i []) : ¬i < (octets text).length := by
  rw [length_octets, hat.eq_of_nil]
  exact Nat.lt_irrefl _

theorem isBoundary (hat : IsAt text i rest) : isBoundary text i = true := by
  obtain ⟨front, htext, hi⟩ := hat
  exact isBoundary_iff.mpr ⟨front, rest, htext, hi.symm⟩

/-- What lies between two positions is cut without a fault. -/
theorem cut_eq {middle : List Char} (hat : IsAt text i (middle ++ rest)) :
    cut text i (i + byteLength middle) = .ok middle := by
  have hskip := hat.skip
  rw [cut, if_pos ⟨Nat.le_add_right _ _, hat.isBoundary, hskip.isBoundary⟩]
  obtain ⟨front, rfl, rfl⟩ := hat
  rw [← byteLength_append, ← List.append_assoc, slice_append]

example : cut ['a', 'é', 'b'] 1 3 = .ok ['é'] ∧ cut ['a', 'é', 'b'] 1 2 = .error .slice :=
  ⟨rfl, rfl⟩

theorem cutFrom_eq (hat : IsAt text i rest) : cutFrom text i = .ok rest := by
  have hall : IsAt text i (rest ++ []) := by rwa [List.append_nil]
  rw [cutFrom, ← hat.length_eq, hall.cut_eq]

theorem getElem?_octets (hat : IsAt text i (c :: rest)) {j : Nat}
    (hj : j < c.utf8Size) : (octets text)[i + j]? = (charOctets c)[j]? := by
  obtain ⟨front, rfl, rfl⟩ := hat
  rw [octets_append, ← length_octets, List.getElem?_append_right (Nat.le_add_right _ _),
    Nat.add_sub_cancel_left, octets, List.flatMap_cons,
    List.getElem?_append_left (by rwa [length_charOctets])]

theorem getElem?_of_isAscii (hat : IsAt text i (c :: rest)) (hc : IsAscii c) :
    (octets text)[i]? = some c := by
  have hfirst := hat.getElem?_octets c.utf8Size_pos
  rwa [Nat.add_zero, charOctets_of_isAscii hc] at hfirst

theorem itemAt_eq (hat : IsAt text i (c :: rest)) (hc : IsAscii c) :
    itemAt (octets text) i = .ok c := by
  rw [itemAt, hat.getElem?_of_isAscii hc]

/-- The bytes of a character that takes more than one can be read, and are no ASCII characters. -/
theorem exists_octet (hat : IsAt text i (c :: rest)) (hc : ¬IsAscii c) {j : Nat}
    (hj : j < c.utf8Size) : ∃ d, (octets text)[i + j]? = some d ∧ ¬IsAscii d := by
  have hj' : j < (charOctets c).length := by rwa [length_charOctets]
  refine ⟨_, (hat.getElem?_octets hj).trans (List.getElem?_eq_getElem hj'), ?_⟩
  exact not_isAscii_of_mem_charOctets hc (List.getElem_mem hj')

/-- An ASCII byte comes next exactly if the rest begins with that character. -/
theorem getElem?_eq_some_iff (hat : IsAt text i rest) {d : Char} (hd : IsAscii d) :
    (octets text)[i]? = some d ↔ rest.head? = some d := by
  cases rest with
  | nil => simp [hat.eq_of_nil, length_octets]
  | cons c rest =>
    rw [List.head?_cons]
    by_cases hc : IsAscii c
    · rw [hat.getElem?_of_isAscii hc]
    · obtain ⟨other, hother, hwide⟩ := hat.exists_octet hc c.utf8Size_pos
      rw [Nat.add_zero] at hother
      rw [hother]
      constructor
      · rintro ⟨⟩
        exact absurd hd hwide
      · rintro ⟨⟩
        exact absurd hd hc

end IsAt

/-- A byte offset before a rest of a text, or inside the character before it. -/
def IsNear (text : List Char) (i : Nat) (rest : List Char) : Prop :=
  ∃ count, (∀ j < count, ∃ c, (octets text)[i + j]? = some c ∧ ¬IsAscii c) ∧ IsAt text (i + count) rest

section Near

variable {text rest : List Char} {i : Nat} {c : Char}

/-- One byte into a character, only bytes of that character come before what follows it. -/
theorem IsAt.isNear_next (hat : IsAt text i (c :: rest)) : IsNear text (i + 1) rest := by
  by_cases hc : IsAscii c
  · exact ⟨0, by simp, hat.next_of_isAscii hc⟩
  · have hpositive := c.utf8Size_pos
    refine ⟨c.utf8Size - 1, fun j hj => ?_, ?_⟩
    · rw [Nat.add_assoc]
      exact hat.exists_octet hc (by omega)
    · rw [Nat.add_assoc, Nat.add_sub_cancel' hpositive]
      exact hat.next

theorem IsAt.isNear (hat : IsAt text i (c :: rest)) (hc : ¬IsAscii c) : IsNear text i rest :=
  ⟨c.utf8Size, fun _ => hat.exists_octet hc, hat.next⟩

/-- A walk that passes over bytes that are no ASCII characters gets from inside a character behind it. -/
theorem IsNear.eq {Result : Type} {walk : Nat → Result} (hnear : IsNear text i rest) {stop : Nat}
    (hstop : IsAt text stop rest)
    (hpasses : ∀ j d, (octets text)[j]? = some d → ¬IsAscii d → walk j = walk (j + 1)) :
    walk i = walk stop := by
  obtain ⟨count, hwide, hat⟩ := hnear
  rw [hstop.unique hat]
  clear hat hstop
  induction count generalizing i with
  | zero => rfl
  | succ count ih =>
    obtain ⟨d, hd, hd'⟩ := hwide 0 (Nat.zero_lt_succ _)
    rw [hpasses i d hd hd', ih fun j hj => ?_]
    · rw [Nat.add_assoc, Nat.add_comm 1]
    · have hnext := hwide (j + 1) (Nat.succ_lt_succ hj)
      rwa [Nat.add_comm j, ← Nat.add_assoc] at hnext

end Near

end StyleMigration.Walk
