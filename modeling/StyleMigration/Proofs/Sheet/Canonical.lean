import StyleMigration.Proofs.Selector.Weight
import StyleMigration.Proofs.Sheet.Compositional

/-!
Which stylesheets a migration leaves alone. A rule is canonical if its selector has no legacy
combinator and no unclosed argument, and none of its branches ends on `:deep` while a child rule
appends to it. A stylesheet comes out of a migration as it went in just when all its rules are
canonical (`migrate_eq_self_iff`).

That canonical rules stay is plain. For the other direction several changes might make up for each
other in the text of the whole sheet, so the rules cannot be looked at one by one. Here the weight
helps: no rule gets heavier, and a rule gets lighter if a legacy combinator is replaced, an argument
hoisted or a child dropped (`weight_recastAll`). If the text is the same then nothing of this
happened, and all that is left to happen is that arguments get closed, which makes the text longer
(`completes_recastAll`).

Hence a second migration changes nothing just when the first one left all rules canonical. It does
not always: of `:deep(:deep(x))` the hoisted argument ends on `:deep` again.
-/

set_option autoImplicit false

namespace StyleMigration.Sheet

open Selector

variable {site : RuleSite}

/-! ### Canonical rules -/

/-- A rule with nothing to replace, to hoist or to drop. -/
structure RuleSite.IsSettled (site : RuleSite) : Prop where
  modern : ∀ leaf ∈ listLeaves (Selector.read site.selector), leaf.isLegacy = false
  appendable : site.children.any isConcatenating →
    ∀ branch ∈ Selector.read site.selector, branch.endsOnDeep = false

instance (site : RuleSite) : Decidable site.IsSettled :=
  decidable_of_iff (_ ∧ _) ⟨fun h => ⟨h.1, h.2⟩, fun h => ⟨h.modern, h.appendable⟩⟩

/-- A settled rule with no argument to close. -/
structure RuleSite.IsCanonical (site : RuleSite) : Prop extends site.IsSettled where
  closed : unclosed site.selector = 0

/-- What becomes of a rule that can be changed. Without an appending child only its legacy
combinators are replaced; with one the arguments of `:deep` are hoisted too, and appending children
are dropped if one of them could not be. -/
theorem RuleSite.change_cases {change : RuleChange} (hchange : site.change = .ok change) :
    (site.children.any isConcatenating = false ∧
        change = ⟨listText (modernizeList (Selector.read site.selector)), false⟩) ∨
      (site.children.any isConcatenating = true ∧
        change.selector = listText
          ((modernizeList (Selector.read site.selector)).map fun branch => branch.hoist.2) ∧
        (change.drops = false ↔ ∀ branch ∈ modernizeList (Selector.read site.selector),
          branch.hoist.1 ≠ .impossible)) := by
  simp only [RuleSite.change, ruleChange] at hchange
  split at hchange
  · rename_i happends
    split at hchange
    · cases hchange
    · refine Or.inr ⟨happends, ?_⟩
      rw [← Except.ok.inj hchange]
      simp only [List.map_map, Function.comp_def, decide_eq_false_iff_not, Nat.not_lt,
        Nat.le_zero_eq, List.length_eq_zero_iff, List.filter_eq_nil_iff, List.forall_mem_map,
        decide_eq_true_eq, ne_eq, and_self]
  · rename_i happends
    exact Or.inl ⟨by simpa using happends, (Except.ok.inj hchange).symm⟩

/-- Of a settled rule only the unclosed arguments change. -/
theorem RuleSite.IsSettled.change (hsettled : site.IsSettled) :
    site.change = .ok ⟨listText (Selector.read site.selector), false⟩ := by
  have hmodern := modernizeList_eq_self _ hsettled.modern
  simp only [RuleSite.change, ruleChange, hmodern]
  split
  · rename_i happends
    have hneedless : ∀ branch ∈ Selector.read site.selector,
        branch.hoist = (.needless, branch) := by
      intro branch hmem
      have hends := hsettled.appendable happends branch hmem
      have hfirst := branch.hoist_eq_needless_iff.mpr hends
      exact Prod.ext hfirst (Branch.hoist_of_needless hfirst)
    rw [List.map_congr_left hneedless]
    simp [List.filter_map, Function.comp_def]
  · rfl

theorem RuleSite.IsSettled.failure?_eq_none (hsettled : site.IsSettled) :
    site.failure? = none := by
  rw [RuleSite.failure?, hsettled.change]

theorem RuleSite.IsSettled.drops_eq_false (hsettled : site.IsSettled) :
    site.drops = false := by
  rw [RuleSite.drops, hsettled.change]

/-- A settled rule keeps its selector but for the parentheses put in. A blank selector would be
lost, but a tree that was read has none. -/
theorem RuleSite.IsSettled.completes (hsettled : site.IsSettled)
    (htidy : Text.isAllBlank site.selector → site.selector = []) :
    Completes (unclosed site.selector) site.selector site.rewritten := by
  rw [RuleSite.rewritten, hsettled.change]
  cases hblank : Text.isAllBlank site.selector with
  | false => exact completes_read hblank
  | true =>
    have hempty := htidy hblank
    have hnone : unclosed [] = 0 := by
      rw [unclosed_eq]
      rfl
    rw [read_of_isAllBlank hblank, hempty, hnone, listText]
    exact Completes.nil

/-! ### What a change weighs -/

theorem RuleSite.exists_change (hnone : site.failure? = none) :
    ∃ change, site.change = .ok change ∧ site.rewritten = change.selector ∧
      site.drops = change.drops := by
  cases hchange : site.change with
  | error ambiguity => simp [RuleSite.failure?, hchange] at hnone
  | ok change =>
    refine ⟨change, rfl, ?_, ?_⟩
    · rw [RuleSite.rewritten, hchange]
    · rw [RuleSite.drops, hchange]

/-- A rule is settled if it has no legacy combinator, and no argument of its branches is hoisted or
would have to be. -/
theorem RuleSite.isSettled_of_hoist
    (hlegacy : (listLeaves (Selector.read site.selector)).countP Leaf.isLegacy = 0)
    (hhoist : site.children.any isConcatenating →
      ∀ branch ∈ modernizeList (Selector.read site.selector), branch.hoist.1 = .needless) :
    site.IsSettled := by
  have hmodern : ∀ leaf ∈ listLeaves (Selector.read site.selector), leaf.isLegacy = false := by
    simpa using List.countP_eq_zero.mp hlegacy
  rw [modernizeList_eq_self _ hmodern] at hhoist
  exact ⟨hmodern, fun happends branch hmem =>
    (Branch.hoist_eq_needless_iff branch).mp (hhoist happends branch hmem)⟩

/-- No rule gets heavier, and one that is not settled gets lighter unless it drops children. -/
theorem RuleSite.weight_rewritten (hnone : site.failure? = none) :
    weight site.rewritten + (if site.IsSettled ∨ site.drops then 0 else 1) ≤
      weight site.selector := by
  obtain ⟨change, hchange, hrewritten, hdrops⟩ := RuleSite.exists_change hnone
  have hread := weight_listText_read site.selector
  have hmodern := weight_modernizeList (Selector.read site.selector) fun leaf hmem hlegacy =>
    weight_pos_of_isLegacy hmem hlegacy
  rw [hrewritten]
  rcases RuleSite.change_cases hchange with ⟨hplain, rfl⟩ | ⟨happends, hselector, hkeeps⟩
  · have hlegacy : ¬ site.IsSettled →
        0 < (listLeaves (Selector.read site.selector)).countP Leaf.isLegacy := by
      intro hunsettled
      refine Nat.pos_of_ne_zero fun hzero => hunsettled ?_
      exact RuleSite.isSettled_of_hoist hzero fun happends => by simp [hplain] at happends
    split
    · exact Nat.le_trans (Nat.le_of_add_right_le hmodern) (Nat.le_of_eq hread)
    · rename_i hneither
      have hpositive := hlegacy fun hsettled => hneither (Or.inl hsettled)
      rw [hread] at hmodern
      exact Nat.le_trans (Nat.add_le_add_left hpositive _) hmodern
  · have hhoist := weight_listText_hoist (modernizeList (Selector.read site.selector))
    rw [hselector]
    split
    · omega
    · rename_i hneither
      obtain ⟨hunsettled, hkept⟩ := not_or.mp hneither
      have hcounts : 0 < (listLeaves (Selector.read site.selector)).countP Leaf.isLegacy +
          (modernizeList (Selector.read site.selector)).countP
            (fun branch => branch.hoist.1 = .done) := by
        refine Nat.pos_of_ne_zero fun hzero => hunsettled ?_
        refine RuleSite.isSettled_of_hoist (by omega) fun _ branch hmem => ?_
        have hdone := List.countP_eq_zero.mp (Nat.eq_zero_of_add_eq_zero_left hzero) branch hmem
        have himpossible := hkeeps.mp (by rw [← hdrops]; simpa using hkept) branch hmem
        cases hresult : branch.hoist.1 <;> simp_all
      omega

theorem Node.weight_pos_of_isAppending {node : Node} (happends : node.isAppending) :
    0 < weight node.print := by
  match node with
  | .text content => cases happends
  | .group (.block content) enclosure body => cases happends
  | .group (.rule before selector between) enclosure body =>
    have hselector : 0 < weight selector := weight_pos_of_isConcatenating happends
    simp only [Node.print, Header.text, weight_append]
    omega

/-- A rule only drops children if it has one to drop. -/
theorem RuleSite.countP_pos_of_drops {selector : List Char} {body : List Node}
    (hdrops : (RuleSite.mk selector (selectors body)).drops) :
    0 < body.countP Node.isAppending := by
  have happends : (selectors body).any isConcatenating := by
    cases hchange : (RuleSite.mk selector (selectors body)).change with
    | error ambiguity => simp [RuleSite.drops, hchange] at hdrops
    | ok change =>
      rw [RuleSite.drops, hchange] at hdrops
      rcases RuleSite.change_cases hchange with ⟨-, rfl⟩ | ⟨happends, -⟩
      · cases hdrops
      · exact happends
  simp only [selectors, List.any_eq_true, List.mem_filterMap] at happends
  obtain ⟨child, ⟨node, hmem, hchild⟩, happends⟩ := happends
  refine List.countP_pos_iff.mpr ⟨node, hmem, ?_⟩
  simp [Node.isAppending, hchild, happends]

mutual

theorem Node.weight_recast (node : Node) (hnone : ∀ site ∈ node.sites, site.failure? = none) :
    weight (node.recast RuleSite.rewritten).print +
        node.sites.countP (fun site => ¬ site.IsSettled) ≤ weight node.print := by
  match node with
  | .text content => simp [Node.recast, Node.sites]
  | .group (.block content) enclosure body =>
    rw [Node.sites] at hnone
    have hbody := weight_recastAll false body hnone
    simp only [Node.recast, Node.sites, Node.print, weight_append]
    omega
  | .group (.rule before selector between) enclosure body =>
    simp only [Node.sites, List.forall_mem_cons] at hnone
    have hselector := RuleSite.weight_rewritten hnone.1
    have hbody := weight_recastAll _ body hnone.2
    simp only [Node.recast, Node.sites, Node.print, Header.text, weight_append, List.countP_cons,
      decide_eq_true_eq]
    -- A rule that is not settled is lighter itself, or by a child.
    by_cases hsettled : (RuleSite.mk selector (selectors body)).IsSettled
    · simp only [hsettled, true_or, not_true_eq_false, if_true, if_false] at hselector ⊢
      omega
    · cases hdrops : (RuleSite.mk selector (selectors body)).drops with
      | true =>
        have hchild := RuleSite.countP_pos_of_drops hdrops
        simp only [hsettled, hdrops, or_true, not_false_eq_true, if_true] at hselector hbody ⊢
        omega
      | false =>
        simp only [hsettled, hdrops, Bool.false_eq_true, or_self, not_false_eq_true, if_true,
          if_false] at hselector hbody ⊢
        omega

/-- No stylesheet gets heavier, and every rule that is not settled takes some weight away, as does
every child that is dropped. -/
theorem weight_recastAll (drops : Bool) (nodes : List Node)
    (hnone : ∀ site ∈ sitesIn drops nodes, site.failure? = none) :
    weight (print (recastAll RuleSite.rewritten drops nodes)) +
        (sitesIn drops nodes).countP (fun site => ¬ site.IsSettled) +
        (if drops then nodes.countP Node.isAppending else 0) ≤ weight (print nodes) := by
  match nodes with
  | [] => simp [recastAll, sitesIn]
  | node :: nodes =>
    rw [sitesIn] at hnone
    rw [recastAll, sitesIn, print, weight_append]
    by_cases hdropped : drops && node.isAppending
    · rw [if_pos hdropped] at hnone ⊢
      rw [if_pos hdropped]
      have hothers := weight_recastAll drops nodes hnone
      obtain ⟨rfl, happends⟩ := Bool.and_eq_true_iff.mp hdropped
      have hfirst := node.weight_pos_of_isAppending happends
      rw [List.countP_cons_of_pos happends]
      simp only [if_true] at hothers ⊢
      omega
    · rw [if_neg hdropped] at hnone ⊢
      rw [if_neg hdropped, print, weight_append, List.countP_append]
      rw [List.forall_mem_append] at hnone
      have hfirst := node.weight_recast hnone.1
      have hothers := weight_recastAll drops nodes hnone.2
      have hsame : (if drops then (node :: nodes).countP Node.isAppending else 0) =
          if drops then nodes.countP Node.isAppending else 0 := by
        cases drops <;> simp_all
      omega

end

/-! ### What closing arguments adds -/

mutual

theorem Node.completes_recast (node : Node) (hsettled : ∀ site ∈ node.sites, site.IsSettled)
    (htidy : ∀ header ∈ node.walk listing, header.IsTidy) :
    Completes (node.sites.map fun site => unclosed site.selector).sum node.print
      (node.recast RuleSite.rewritten).print := by
  match node with
  | .text content =>
    rw [Node.sites, Node.recast]
    exact Completes.refl _
  | .group (.block content) enclosure body =>
    simp only [Node.sites] at hsettled
    simp only [Node.walk, List.forall_mem_append] at htidy
    have hbody := completes_recastAll body hsettled htidy.1.2
    simp only [Node.sites, Node.recast, Node.print]
    exact (hbody.prepend _).append (Completes.refl _)
  | .group (.rule before selector between) enclosure body =>
    simp only [Node.sites, List.forall_mem_cons] at hsettled
    simp only [Node.walk, List.forall_mem_append] at htidy
    have hdrops := hsettled.1.drops_eq_false
    rw [hdrops] at hsettled
    have hselector := hsettled.1.completes (htidy.1.1 _ List.mem_cons_self)
    have hbody := completes_recastAll body hsettled.2 htidy.1.2
    have hheader := (hselector.prepend before).append
      (Completes.refl (between ++ enclosure.opening))
    have hall := (hheader.append hbody).append (Completes.refl enclosure.closing)
    simpa [Node.sites, Node.recast, Node.print, Header.text, hdrops] using hall

/-- If all rules are settled, a stylesheet keeps its text but for the parentheses put in. -/
theorem completes_recastAll (nodes : List Node)
    (hsettled : ∀ site ∈ sitesIn false nodes, site.IsSettled)
    (htidy : ∀ header ∈ headers nodes, header.IsTidy) :
    Completes ((sitesIn false nodes).map fun site => unclosed site.selector).sum (print nodes)
      (print (recastAll RuleSite.rewritten false nodes)) := by
  match nodes with
  | [] =>
    simp only [sitesIn, recastAll, print]
    exact Completes.nil
  | node :: nodes =>
    simp only [sitesIn, Bool.false_and, Bool.false_eq_true, if_false, List.forall_mem_append]
      at hsettled
    rw [headers, walk, List.forall_mem_append] at htidy
    have hfirst := node.completes_recast hsettled.1 htidy.1
    have hothers := completes_recastAll nodes hsettled.2 htidy.2
    simp only [sitesIn, recastAll, Bool.false_and, Bool.false_eq_true, if_false, print,
      List.map_append, List.sum_append_nat]
    exact hfirst.append hothers

end

/-! ### Migrations that change nothing -/

/-- What a migration gives, in terms of the rules it looks at. -/
theorem migrate_eq_ok_iff {language : Language} {text output : List Char} :
    migrate language text = .ok output ↔
      (∀ site ∈ sitesIn false (read language text), site.failure? = none) ∧
        print (recastAll RuleSite.rewritten false (read language text)) = output := by
  have hstopped := migrateAll_stopped false (read language text)
  rw [migrate]
  cases hreason : (migrateAll false (read language text)).stopped with
  | some ambiguity =>
    rw [hreason] at hstopped
    obtain ⟨site, hmem, hfailure⟩ := List.exists_of_findSome?_eq_some hstopped.symm
    simp only [reduceCtorEq, false_iff, not_and]
    intro hnone
    rw [hnone site hmem] at hfailure
    cases hfailure
  | none =>
    rw [hreason, eq_comm, List.findSome?_eq_none_iff] at hstopped
    simp only [migrateAll_result false _ hreason, Except.ok.injEq]
    exact ⟨fun hprint => ⟨hstopped, hprint⟩, fun h => h.2⟩

/-- A migration gives the text it was given just when all rules in it are canonical. -/
theorem migrate_eq_self_iff (language : Language) (text : List Char) :
    migrate language text = .ok text ↔
      ∀ site ∈ sitesIn false (read language text), site.IsCanonical := by
  have hprint := print_read language text
  have htidy : ∀ header ∈ headers (read language text), header.IsTidy :=
    fun header hmem => isTidy_of_mem_headers hmem
  have hclosed :
      ((sitesIn false (read language text)).map fun site => unclosed site.selector).sum = 0 ↔
        ∀ site ∈ sitesIn false (read language text), unclosed site.selector = 0 := by
    rw [List.sum_eq_zero_iff_forall_eq_nat, List.forall_mem_map]
  rw [migrate_eq_ok_iff]
  constructor
  · rintro ⟨hnone, hsame⟩
    have hsettled : ∀ site ∈ sitesIn false (read language text), site.IsSettled := by
      have hweight := weight_recastAll false _ hnone
      rw [hsame, hprint] at hweight
      have hcount :
          (sitesIn false (read language text)).countP (fun site => ¬ site.IsSettled) = 0 := by
        omega
      simpa using hcount
    have hbytes := (completes_recastAll _ hsettled htidy).byteLength
    rw [hsame, hprint] at hbytes
    exact fun site hmem => ⟨hsettled site hmem, hclosed.mp (by omega) site hmem⟩
  · intro hcanonical
    have hsettled := fun site hmem => (hcanonical site hmem).toIsSettled
    have hcompletes := completes_recastAll _ hsettled htidy
    rw [hclosed.mpr fun site hmem => (hcanonical site hmem).closed, hprint] at hcompletes
    exact ⟨fun site hmem => (hsettled site hmem).failure?_eq_none, hcompletes.eq_of_zero⟩

/-- A second migration gives what the first one gave just when the first one left all rules
canonical. -/
theorem migrate_twice_iff (language : Language) (source : List Char) :
    (∀ output, migrate language source = .ok output → migrate language output = .ok output) ↔
      ∀ output, migrate language source = .ok output →
        ∀ site ∈ sitesIn false (read language output), site.IsCanonical := by
  constructor
  · intro hagain output houtput
    exact (migrate_eq_self_iff language output).mp (hagain output houtput)
  · intro hcanonical output houtput
    exact (migrate_eq_self_iff language output).mpr (hcanonical output houtput)

/-- An argument that ends on `:deep` is hoisted by the first migration, and its own argument by the
second. -/
theorem migrate_hoists_twice :
    migrate .scss ".a:deep(:deep(.b)){&-c{}}".toList = .ok ".a:deep :deep(.b){&-c{}}".toList ∧
      migrate .scss ".a:deep :deep(.b){&-c{}}".toList = .ok ".a:deep :deep .b{&-c{}}".toList := by
  have htokens :
      braceTokens true ".a:deep(:deep(.b)){&-c{}}".toList =
        [.opening [] ".a:deep(:deep(.b))".toList, .opening [] "&-c".toList, .closing, .closing] ∧
      braceTokens true ".a:deep :deep(.b){&-c{}}".toList =
        [.opening [] ".a:deep :deep(.b)".toList, .opening [] "&-c".toList, .closing, .closing] := by
    simp [braceTokens, takeTokens, takeTrivia, takeComment?, takeStatement, scanStatement,
      Scanned.cons, BraceToken.ofText, Text.isAsciiBlank]
  rw [migrate_eq_ok_iff, migrate_eq_ok_iff, Sheet.read, readBraces, readBraces, htokens.1,
    htokens.2]
  decide +kernel

end StyleMigration.Sheet
