import StyleMigration.Component.Staging

/-!
Putting sections back. A component with other texts in place of its sections is the component cut into
gaps and contents with each content exchanged and the gaps as they were (`Substituted`). That is what
splicing gives whenever it does not fail (`substituted_of_splice`), since a range that fits was cut at
its own bytes.
-/

set_option autoImplicit false

namespace StyleMigration.Component

open Text

/-- A position behind the front of a text cuts the rest of it. -/
theorem exists_gap {front rest : List Char} {offset : Nat} (horder : byteLength front ≤ offset)
    (hboundary : isBoundary (front ++ rest) offset = true) :
    ∃ gap more, rest = gap ++ more ∧ byteLength (front ++ gap) = offset := by
  obtain ⟨whole, back, htext, rfl⟩ := isBoundary_iff.mp hboundary
  rcases List.append_eq_append_iff.mp htext with ⟨gap, rfl, rfl⟩ | ⟨excess, rfl, rfl⟩
  · exact ⟨gap, back, rfl, rfl⟩
  · cases excess with
    | nil => exact ⟨[], rest, rfl, by simp⟩
    | cons c excess =>
      have hpositive := c.utf8Size_pos
      simp only [byteLength_append, byteLength] at horder
      omega

/-- `Substituted cursor source parts output` says that `output` is the text `source`, which starts at
the byte `cursor`, with the content of each section in `parts` exchanged for the text beside it. -/
inductive Substituted : Nat → List Char → List (Section × List Char) → List Char → Prop where
  | nil (cursor : Nat) (rest : List Char) : Substituted cursor rest [] rest
  | cons {cursor : Nat} {gap rest output new : List Char} {sec : Section}
      {parts : List (Section × List Char)} :
      sec.start = cursor + byteLength gap → sec.stop = sec.start + byteLength sec.content →
      Substituted sec.stop rest parts output →
        Substituted cursor (gap ++ sec.content ++ rest) ((sec, new) :: parts) (gap ++ new ++ output)

namespace Substituted

variable {cursor : Nat} {rest output : List Char} {parts : List (Section × List Char)}

theorem prepend {gap : List Char}
    (hsubstituted : Substituted (cursor + byteLength gap) rest parts output) :
    Substituted cursor (gap ++ rest) parts (gap ++ output) := by
  cases hsubstituted with
  | nil => exact .nil _ _
  | @cons _ inner rest output new sec parts hstart hstop htail =>
    have hjoined : Substituted cursor ((gap ++ inner) ++ sec.content ++ rest) ((sec, new) :: parts)
        ((gap ++ inner) ++ new ++ output) :=
      .cons (by rw [hstart, byteLength_append, Nat.add_assoc]) hstop htail
    simpa only [List.append_assoc] using hjoined

theorem le_start (hsubstituted : Substituted cursor rest parts output) :
    ∀ part ∈ parts, cursor ≤ part.1.start := by
  induction hsubstituted with
  | nil => simp
  | @cons cursor gap rest output new sec parts hstart hstop _ ih =>
    have hcursor : cursor ≤ sec.start := by omega
    refine List.forall_mem_cons.mpr ⟨hcursor, fun part hmem => ?_⟩
    have hafter := ih part hmem
    omega

theorem pairwise (hsubstituted : Substituted cursor rest parts output) :
    parts.Pairwise fun first second => first.1.stop ≤ second.1.start := by
  induction hsubstituted with
  | nil => exact .nil
  | cons _ _ htail ih => exact .cons htail.le_start ih

theorem isBoundary {front : List Char}
    (hsubstituted : Substituted (byteLength front) rest parts output) :
    ∀ part ∈ parts, Text.isBoundary (front ++ rest) part.1.start = true ∧
      Text.isBoundary (front ++ rest) part.1.stop = true := by
  generalize hcursor : byteLength front = cursor at hsubstituted
  induction hsubstituted generalizing front with
  | nil => simp
  | @cons cursor gap rest output new sec parts hstart hstop _ ih =>
    subst hcursor
    rw [← byteLength_append] at hstart
    rw [hstart, ← byteLength_append] at hstop
    have hrest := ih hstop.symm
    simp only [List.append_assoc] at hrest hstart hstop ⊢
    refine List.forall_mem_cons.mpr ⟨⟨?_, ?_⟩, hrest⟩
    · exact isBoundary_iff.mpr ⟨front ++ gap, sec.content ++ rest, by simp, hstart.symm⟩
    · exact isBoundary_iff.mpr ⟨front ++ (gap ++ sec.content), rest, by simp, hstop.symm⟩

theorem eq_of_contents (hsubstituted : Substituted cursor rest parts output)
    (hcontents : ∀ part ∈ parts, part.2 = part.1.content) : output = rest := by
  induction hsubstituted with
  | nil => rfl
  | @cons cursor gap rest output new sec parts _ _ _ ih =>
    rw [List.forall_mem_cons] at hcontents
    have hnew : new = sec.content := hcontents.1
    rw [ih hcontents.2, hnew]

end Substituted

/-- The replacement that exchanges the content of a section. -/
def exchange (part : Section × List Char) : Replacement :=
  ⟨part.1.start, part.1.stop, part.2⟩

theorem substituted_of_spliceFrom {front rest output : List Char}
    {parts : List (Section × List Char)}
    (hcontent : ∀ part ∈ parts,
      part.1.content = slice (front ++ rest) part.1.start part.1.stop)
    (hsplice : spliceFrom (front ++ rest) (byteLength front) (parts.map exchange) = .ok output) :
    Substituted (byteLength front) rest parts output := by
  induction parts generalizing front rest output with
  | nil =>
    rw [List.map_nil, spliceFrom, fromByte_append] at hsplice
    cases hsplice
    exact .nil _ _
  | cons part parts ih =>
    obtain ⟨sec, new⟩ := part
    rw [List.forall_mem_cons] at hcontent
    rw [List.map_cons, spliceFrom] at hsplice
    split at hsplice
    · cases hsplice
    rename_i hafter
    split at hsplice
    · cases hsplice
    rename_i hfits
    simp only [exchange, Replacement.fits, Bool.not_eq_true', Bool.not_eq_false, Bool.and_eq_true,
      Nat.not_lt] at hafter hfits
    obtain ⟨⟨⟨horder, -⟩, hstart⟩, hstop⟩ := hfits
    -- The range starts behind the cursor and stops behind its start, so it cuts the rest in three.
    obtain ⟨gap, more, rfl, hgap⟩ := exists_gap hafter hstart
    rw [← List.append_assoc] at hcontent hsplice hstop
    obtain ⟨old, rest, rfl, hold⟩ := exists_gap (hgap ▸ of_decide_eq_true horder) hstop
    rw [← List.append_assoc] at hcontent hsplice
    have hsec : sec.content = old := by
      rw [hcontent.1, ← hgap, ← hold]
      exact slice_append (front ++ gap) old rest
    have hbetween : slice (front ++ gap ++ old ++ rest) (byteLength front) sec.start = gap := by
      rw [← hgap, List.append_assoc _ old]
      exact slice_append front gap (old ++ rest)
    simp only [exchange, hbetween] at hsplice
    cases hrest : spliceFrom (front ++ gap ++ old ++ rest) sec.stop (parts.map exchange) with
    | error failure =>
      rw [hrest] at hsplice
      cases hsplice
    | ok tail =>
      rw [hrest] at hsplice
      cases hsplice
      rw [← hold] at hrest
      have htail := ih hcontent.2 hrest
      rw [hold] at htail
      subst hsec
      rw [← List.append_assoc]
      refine .cons ?_ ?_ htail
      · rw [← hgap, byteLength_append]
      · rw [← hold, ← hgap, byteLength_append]

/-- Splicing exchanges the contents of sections, which may come in any order. -/
theorem substituted_of_splice {source output : List Char} {parts : List (Section × List Char)}
    (hcontent : ∀ part ∈ parts, part.1.content = slice source part.1.start part.1.stop)
    (hsplice : splice source (parts.map exchange) = .ok output) :
    ∃ ordered, ordered.Perm parts ∧ Substituted 0 source ordered output := by
  have hordered : (parts.mergeSort fun first second => first.1.start ≤ second.1.start).map exchange =
      (parts.map exchange).mergeSort fun first second => first.start ≤ second.start :=
    List.map_mergeSort fun _ _ _ _ => rfl
  have hperm := List.mergeSort_perm parts fun first second => first.1.start ≤ second.1.start
  rw [splice, ← hordered] at hsplice
  exact ⟨_, hperm, @substituted_of_spliceFrom [] source output _
    (fun part hmem => hcontent part (hperm.mem_iff.mp hmem)) hsplice⟩

end StyleMigration.Component
