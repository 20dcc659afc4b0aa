import StyleMigration.Component.Staging
import StyleMigration.Proofs.Files.Paths

/-!
The names of staging files. The mark, the number and the language of a section are added to the path of
its component, so they can be read back from the end (`stagingPath_inj`), and the staging file stands
beside its component under a name of its own (`stagingPath_pathFrom`), whose extension is the language
(`ofPath_stagingPath`).
-/

set_option autoImplicit false

namespace StyleMigration.Component

open FileTree

/-- What the path of a component gets added. -/
def stagingSuffix (index : Nat) (language : Language) : String :=
  "." ++ stagingMark ++ "." ++ toString index ++ "." ++ language.name

theorem stagingPath_eq (component : String) (index : Nat) (language : Language) :
    stagingPath component index language = component ++ stagingSuffix index language := by
  simp only [stagingPath, stagingSuffix, String.append_assoc]

/-- The text of a staging path, cut at its last two dots. -/
theorem toList_stagingPath (component : String) (index : Nat) (language : Language) :
    (stagingPath component index language).toList =
      (component.toList ++ ("." ++ stagingMark).toList ++ '.' :: Nat.toDigits 10 index) ++
        '.' :: language.name.toList := by
  simp [stagingPath]

theorem dot_notMem_name (language : Language) : '.' ∉ language.name.toList := by
  cases language <;> decide

theorem notMem_toDigits {c : Char} (hc : c.isDigit = false) (index : Nat) :
    c ∉ Nat.toDigits 10 index := by
  intro hmem
  rw [Nat.isDigit_of_mem_toDigits (by decide) (by decide) hmem] at hc
  cases hc

theorem toDigits_inj {index other : Nat} (hdigits : Nat.toDigits 10 index = Nat.toDigits 10 other) :
    index = other := by
  have hread := congrArg (Nat.ofDigitChars 10 · 0) hdigits
  simpa only [Nat.ofDigitChars_ten_toDigits] using hread

theorem name_inj {language other : Language} (hname : language.name = other.name) :
    language = other := by
  cases language <;> cases other <;> first | rfl | exact absurd hname (by decide)

/-- Two texts that are the same up to the last of a character are the same. -/
theorem append_cons_inj {front back front' back' : List Char} {c : Char} (hback : c ∉ back)
    (hback' : c ∉ back') (htext : front ++ c :: back = front' ++ c :: back') :
    front = front' ∧ back = back' := by
  rcases List.append_eq_append_iff.mp htext with ⟨more, rfl, hmore⟩ | ⟨more, rfl, hmore⟩
  · cases more with
    | nil => exact ⟨(List.append_nil _).symm, (List.cons.inj hmore).2⟩
    | cons d more =>
      rw [List.cons_append, List.cons.injEq] at hmore
      exact absurd (hmore.2 ▸ List.mem_append_right more List.mem_cons_self) hback
  · cases more with
    | nil => exact ⟨List.append_nil _, (List.cons.inj hmore).2.symm⟩
    | cons d more =>
      rw [List.cons_append, List.cons.injEq] at hmore
      exact absurd (hmore.2 ▸ List.mem_append_right more List.mem_cons_self) hback'

theorem stagingPath_inj {component other : String} {index number : Nat}
    {language tongue : Language}
    (hpath : stagingPath component index language = stagingPath other number tongue) :
    component = other ∧ index = number ∧ language = tongue := by
  have htext := congrArg String.toList hpath
  rw [toList_stagingPath, toList_stagingPath] at htext
  obtain ⟨hfront, hname⟩ := append_cons_inj (dot_notMem_name _) (dot_notMem_name _) htext
  have hdot : ('.').isDigit = false := rfl
  obtain ⟨hfront, hindex⟩ :=
    append_cons_inj (notMem_toDigits hdot _) (notMem_toDigits hdot _) hfront
  exact ⟨String.toList_inj.mp (List.append_cancel_right hfront), toDigits_inj hindex,
    name_inj (String.toList_inj.mp hname)⟩

/-- The key of the staging file for a section of the component with a key. -/
def stagingKey (key : Key) (index : Nat) (language : Language) : Key :=
  key.dropLast ++ (key.getLast?.map (stagingPath · index language)).toList

theorem stagingKey_concat (front : Key) (name : String) (index : Nat) (language : Language) :
    stagingKey (front ++ [name]) index language = front ++ [stagingPath name index language] := by
  simp [stagingKey]

theorem stagingKey_append (front : Key) {names : Key} (hnames : names ≠ []) (index : Nat)
    (language : Language) :
    stagingKey (front ++ names) index language = front ++ stagingKey names index language := by
  obtain ⟨before, name, rfl⟩ : ∃ before name, names = before ++ [name] :=
    ⟨_, _, (List.dropLast_concat_getLast hnames).symm⟩
  rw [← List.append_assoc, stagingKey_concat, stagingKey_concat, List.append_assoc]

theorem stagingKey_inj {key other : Key} (hkey : key ≠ []) (hother : other ≠ []) {index number : Nat}
    {language tongue : Language}
    (hstaging : stagingKey key index language = stagingKey other number tongue) :
    key = other ∧ index = number ∧ language = tongue := by
  obtain ⟨front, name, rfl⟩ : ∃ front name, key = front ++ [name] :=
    ⟨_, _, (List.dropLast_concat_getLast hkey).symm⟩
  obtain ⟨front', name', rfl⟩ : ∃ front name, other = front ++ [name] :=
    ⟨_, _, (List.dropLast_concat_getLast hother).symm⟩
  rw [stagingKey_concat, stagingKey_concat] at hstaging
  obtain ⟨rfl, hlast⟩ := List.append_inj' hstaging rfl
  obtain ⟨rfl, hindex, hlanguage⟩ := stagingPath_inj (List.singleton_inj.mp hlast)
  exact ⟨rfl, hindex, hlanguage⟩

/-- A staging file stands beside its component. -/
theorem stagingPath_pathFrom (root : String) {names : Key} (hnames : names ≠ []) (index : Nat)
    (language : Language) :
    stagingPath (pathFrom root names) index language =
      pathFrom root (stagingKey names index language) := by
  obtain ⟨front, name, rfl⟩ : ∃ front name, names = front ++ [name] :=
    ⟨_, _, (List.dropLast_concat_getLast hnames).symm⟩
  rw [stagingKey_concat, stagingPath_eq, stagingPath_eq, pathFrom_append]

theorem two_lt_length_stagingPath (name : String) (index : Nat) (language : Language) :
    2 < (stagingPath name index language).toList.length := by
  rw [toList_stagingPath]
  simp [stagingMark]
  omega

theorem slash_notMem_stagingSuffix (index : Nat) (language : Language) :
    '/' ∉ (stagingSuffix index language).toList := by
  have hslash : ('/').isDigit = false := rfl
  have hlanguage : '/' ∉ language.name.toList := by cases language <;> decide
  simp [stagingSuffix, notMem_toDigits hslash, hlanguage, stagingMark]

theorem isName_stagingPath {name : String} (hname : IsName name) (index : Nat)
    (language : Language) : IsName (stagingPath name index language) := by
  have hlength := two_lt_length_stagingPath name index language
  constructor
  · intro h
    simp [h] at hlength
  · intro h
    simp [h] at hlength
  · intro h
    simp [h] at hlength
  · rw [stagingPath_eq, String.toList_append, List.mem_append, not_or]
    exact ⟨hname.noSlash, slash_notMem_stagingSuffix index language⟩

theorem isHidden_stagingPath {name : String} (hname : name ≠ "") (index : Nat)
    (language : Language) : isHidden (stagingPath name index language) = isHidden name := by
  cases hlist : name.toList with
  | nil => exact absurd (String.toList_eq_nil_iff.mp hlist) hname
  | cons c rest => simp [isHidden, toList_stagingPath, hlist]

theorem stagingMark_isInfix (name : String) (index : Nat) (language : Language) :
    stagingMark.toList <:+: (stagingPath name index language).toList := by
  refine ⟨name.toList ++ ['.'], '.' :: Nat.toDigits 10 index ++ '.' :: language.name.toList, ?_⟩
  simp [toList_stagingPath]

/-- The extension of a staging path is its language, even where the component is empty, ends on a slash or
leads upwards: what is added to it makes a name of its own then. -/
theorem extension?_stagingPath (component : String) (index : Nat) (language : Language) :
    Path.extension? (stagingPath component index language) = some language.name := by
  have hslash := slash_notMem_stagingSuffix index language
  have hlong : 2 < (stagingSuffix index language).toList.length := by
    have hempty := two_lt_length_stagingPath "" index language
    rwa [stagingPath_eq, String.empty_append] at hempty
  obtain ⟨last, hlast⟩ := Path.fileName?_append component.toList hslash hlong
  have hname : last ++ (stagingSuffix index language).toList =
      (stagingPath (String.ofList last) index language).toList := by
    rw [stagingPath_eq, String.toList_append, String.toList_ofList]
  rw [Path.extension?, stagingPath_eq, String.toList_append, hlast, Option.bind_some, hname,
    toList_stagingPath, Path.nameExtension?_append (by simp) (dot_notMem_name language),
    Option.map_some, String.ofList_toList]

theorem ofPath_stagingPath (component : String) (index : Nat) (language : Language) :
    Language.ofPath (stagingPath component index language) = .ok language := by
  rw [Language.ofPath, extension?_stagingPath]
  cases language <;> rfl

/-- Staging paths are the same only for the same section of the same component in the same language, and
the language can be told from the path. -/
theorem stagingPath_unambiguous (component other : String) (index number : Nat)
    (language tongue : Language) :
    (stagingPath component index language = stagingPath other number tongue ↔
      component = other ∧ index = number ∧ language = tongue) ∧
      Language.ofPath (stagingPath component index language) = .ok language := by
  refine ⟨⟨stagingPath_inj, ?_⟩, ofPath_stagingPath component index language⟩
  rintro ⟨rfl, rfl, rfl⟩
  rfl

end StyleMigration.Component
