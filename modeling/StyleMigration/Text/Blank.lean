/-!
Blank characters and trimming. Two classes occur: the five ASCII blanks, which stand between the
tokens of a selector or a stylesheet, and the characters with the Unicode property White_Space,
which trimming removes. What is cut off a text by any class of characters depends on what follows it
by one character at most (`span_append`).
-/

set_option autoImplicit false

namespace StyleMigration.Text

/-- The space, the tab, the line feed, the form feed and the carriage return. -/
def isAsciiBlank (c : Char) : Bool :=
  c == ' ' || c == '\t' || c == '\n' || c == '\x0c' || c == '\r'

/-- The 25 characters with the Unicode property White_Space. -/
def isBlank (c : Char) : Bool :=
  let n := c.toNat
  (0x09 ≤ n && n ≤ 0x0d) || n == 0x20 || n == 0x85 || n == 0xa0 || n == 0x1680 ||
    (0x2000 ≤ n && n ≤ 0x200a) || n == 0x2028 || n == 0x2029 || n == 0x202f || n == 0x205f ||
    n == 0x3000

/-- The blanks at the front of a text. -/
def leadingBlanks (text : List Char) : List Char :=
  text.takeWhile isBlank

def trimStart (text : List Char) : List Char :=
  text.dropWhile isBlank

def trimEnd (text : List Char) : List Char :=
  (text.reverse.dropWhile isBlank).reverse

/-- The blanks at the back of a text. -/
def trailingBlanks (text : List Char) : List Char :=
  (text.reverse.takeWhile isBlank).reverse

def trim (text : List Char) : List Char :=
  trimEnd (trimStart text)

/-- Whether a text has nothing but blanks. -/
def isAllBlank (text : List Char) : Bool :=
  text.all isBlank

theorem leadingBlanks_append_trimStart (text : List Char) :
    leadingBlanks text ++ trimStart text = text :=
  List.takeWhile_append_dropWhile

theorem trimEnd_append_trailingBlanks (text : List Char) :
    trimEnd text ++ trailingBlanks text = text := by
  rw [trimEnd, trailingBlanks, ← List.reverse_append, List.takeWhile_append_dropWhile,
    List.reverse_reverse]

theorem isBlank_of_mem_leadingBlanks {text : List Char} : ∀ c ∈ leadingBlanks text, isBlank c = true :=
  List.all_eq_true.mp List.all_takeWhile

theorem isBlank_of_mem_trailingBlanks {text : List Char} :
    ∀ c ∈ trailingBlanks text, isBlank c = true := by
  intro c hc
  rw [trailingBlanks, List.mem_reverse] at hc
  exact List.all_eq_true.mp List.all_takeWhile c hc

theorem isBlank_of_isAsciiBlank {c : Char} (hblank : isAsciiBlank c = true) : isBlank c = true := by
  simp only [isAsciiBlank, Bool.or_eq_true, beq_iff_eq] at hblank
  rcases hblank with (((rfl | rfl) | rfl) | rfl) | rfl <;> rfl

section Surrounded

variable {blanks : List Char} (hblanks : ∀ c ∈ blanks, isBlank c = true)
include hblanks

theorem leadingBlanks_append (text : List Char) :
    leadingBlanks (blanks ++ text) = blanks ++ leadingBlanks text :=
  List.takeWhile_append_of_pos hblanks

theorem trimStart_append (text : List Char) : trimStart (blanks ++ text) = trimStart text :=
  List.dropWhile_append_of_pos hblanks

theorem trailingBlanks_append (text : List Char) :
    trailingBlanks (text ++ blanks) = trailingBlanks text ++ blanks := by
  rw [trailingBlanks, List.reverse_append, List.takeWhile_append_of_pos (by simpa using hblanks),
    List.reverse_append, List.reverse_reverse, trailingBlanks]

theorem trimEnd_append (text : List Char) : trimEnd (text ++ blanks) = trimEnd text := by
  rw [trimEnd, List.reverse_append, List.dropWhile_append_of_pos (by simpa using hblanks), trimEnd]

end Surrounded

section Trimmed

variable {text : List Char} (htrimmed : trim text = text)
include htrimmed

theorem trimStart_eq_self : trimStart text = text := by
  -- What trimming leaves is no longer than what it leaves at the front.
  have hlength := congrArg List.length htrimmed
  have hend := congrArg List.length (trimEnd_append_trailingBlanks (trimStart text))
  have hstart := congrArg List.length (leadingBlanks_append_trimStart text)
  rw [List.length_append] at hend hstart
  rw [trim] at hlength
  have hnone : leadingBlanks text = [] := List.length_eq_zero_iff.mp (by omega)
  conv => rhs; rw [← leadingBlanks_append_trimStart text, hnone, List.nil_append]

theorem trimEnd_eq_self : trimEnd text = text := by
  rw [trim, trimStart_eq_self htrimmed] at htrimmed
  exact htrimmed

theorem leadingBlanks_eq_nil : leadingBlanks text = [] := by
  have happend := leadingBlanks_append_trimStart text
  rwa [trimStart_eq_self htrimmed, List.append_left_eq_self] at happend

theorem trailingBlanks_eq_nil : trailingBlanks text = [] := by
  have happend := trimEnd_append_trailingBlanks text
  rwa [trimEnd_eq_self htrimmed, List.append_right_eq_self] at happend

theorem head?_of_trimmed : ∀ c ∈ text.head?, isBlank c = false := by
  intro c hc
  have hhead := List.head?_dropWhile_not isBlank text
  rw [← trimStart, trimStart_eq_self htrimmed, Option.mem_def.mp hc] at hhead
  exact hhead

theorem getLast?_of_trimmed : ∀ c ∈ text.getLast?, isBlank c = false := by
  intro c hc
  have hhead := List.head?_dropWhile_not isBlank text.reverse
  rw [← List.reverse_reverse (text.reverse.dropWhile isBlank), ← trimEnd,
    trimEnd_eq_self htrimmed, List.head?_reverse, Option.mem_def.mp hc] at hhead
  exact hhead

/-- A trimmed text that is not empty ends what stands before it. -/
theorem trimEnd_append_of_trimmed (hne : text ≠ []) (front : List Char) :
    trimEnd (front ++ text) = front ++ text := by
  obtain ⟨init, last, rfl⟩ := (List.eq_nil_or_concat text).resolve_left hne
  have hlast := getLast?_of_trimmed htrimmed last (by simp)
  simp [trimEnd, hlast]

theorem trailingBlanks_append_of_trimmed (hne : text ≠ []) (front : List Char) :
    trailingBlanks (front ++ text) = [] := by
  have happend := trimEnd_append_trailingBlanks (front ++ text)
  rwa [trimEnd_append_of_trimmed htrimmed hne, List.append_right_eq_self] at happend

/-- A trimmed text that is not empty begins what stands after it. -/
theorem trimStart_append_of_trimmed (hne : text ≠ []) (back : List Char) :
    trimStart (text ++ back) = text ++ back := by
  obtain ⟨c, rest, rfl⟩ := List.exists_cons_of_ne_nil hne
  rw [trimStart, List.cons_append, List.dropWhile_cons_of_neg]
  simp [head?_of_trimmed htrimmed c rfl]

theorem leadingBlanks_append_of_trimmed (hne : text ≠ []) (back : List Char) :
    leadingBlanks (text ++ back) = [] := by
  have happend := leadingBlanks_append_trimStart (text ++ back)
  rwa [trimStart_append_of_trimmed htrimmed hne, List.append_left_eq_self] at happend

end Trimmed

theorem head?_trim (text : List Char) : ∀ c ∈ (trim text).head?, isBlank c = false := by
  intro c hc
  have happend := trimEnd_append_trailingBlanks (trimStart text)
  have hstart := List.head?_dropWhile_not isBlank text
  obtain ⟨rest, hrest⟩ := List.head?_eq_some_iff.mp hc
  rw [trim] at hrest
  rw [← trimStart, ← happend, hrest] at hstart
  exact hstart

theorem getLast?_trim (text : List Char) : ∀ c ∈ (trim text).getLast?, isBlank c = false := by
  intro c hc
  have hend := List.head?_dropWhile_not isBlank (trimStart text).reverse
  rw [trim, trimEnd, List.getLast?_reverse] at hc
  rw [Option.mem_def.mp hc] at hend
  exact hend

/-- A text with no blank at either end is trimmed. -/
theorem trim_eq_self {text : List Char} (hfirst : ∀ c ∈ text.head?, isBlank c = false)
    (hlast : ∀ c ∈ text.getLast?, isBlank c = false) : trim text = text := by
  have hstart : trimStart text = text := by
    cases text with
    | nil => rfl
    | cons c text => rw [trimStart, List.dropWhile_cons_of_neg (by simp [hfirst c rfl])]
  rw [trim, hstart, trimEnd]
  rw [List.getLast?_eq_head?_reverse] at hlast
  cases hreverse : text.reverse with
  | nil => exact (List.reverse_eq_nil_iff.mp hreverse).symm
  | cons c rest =>
    rw [hreverse] at hlast
    rw [List.dropWhile_cons_of_neg (by simp [hlast c rfl]), ← hreverse, List.reverse_reverse]

/-! ### Cutting by a class of characters -/

theorem head?_append_eq {first rest other : List Char}
    (hother : first = [] → other.head? = rest.head?) :
    (first ++ other).head? = (first ++ rest).head? := by
  cases first with
  | nil => exact hother rfl
  | cons c first => rfl

/-- The characters up to the first one without a property are cut off alike in front of every text that
begins without it. -/
theorem span_append {p : Char → Bool} {front other : List Char} (hfront : ∀ c ∈ front, p c = true)
    (hother : ∀ c ∈ other.head?, p c = false) :
    (front ++ other).takeWhile p = front ∧ (front ++ other).dropWhile p = other := by
  rw [List.takeWhile_append_of_pos hfront, List.dropWhile_append_of_pos hfront]
  cases other with
  | nil => simp
  | cons c other => simp [hother c rfl]

theorem eq_false_of_head?_dropWhile {p : Char → Bool} {text : List Char} :
    ∀ c ∈ (text.dropWhile p).head?, p c = false := by
  intro c hc
  have hhead := List.head?_dropWhile_not p text
  rw [Option.mem_def.mp hc] at hhead
  exact hhead

end StyleMigration.Text
