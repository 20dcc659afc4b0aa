import StyleMigration.Proofs.Sheet.Canonical

/-!
Stylesheets with nothing to migrate. A rule is untouched if no legacy combinator is written anywhere
in its selector and none of its direct child rules appends to it. A migration has no reason to change
such a rule, yet it writes the selector from the tree it read, and a tree is written with every
argument closed. So a stylesheet of untouched rules always comes out, with a closing parenthesis put
in for each argument that was read as unclosed, and as it went in just when there is none
(`migrate_of_untouched`).

Unclosed arguments are not only found in broken selectors. The scan that finds the end of a header
passes over comments, and the scan that finds the end of an argument does not, so a parenthesis in a
comment leaves an argument open that a reader of the stylesheet sees closed.
-/

set_option autoImplicit false

namespace StyleMigration.Sheet

open Selector

mutual

/-- The rules of a node in the order of the text, each before those inside it. -/
def Node.rules : Node → List RuleSite
  | .text _ => []
  | .group (.block _) _ body => rulesIn body
  | .group (.rule _ selector _) _ body => ⟨selector, selectors body⟩ :: rulesIn body

/-- The rules of a list of nodes, at any depth, in the order of the text. -/
def rulesIn : List Node → List RuleSite
  | [] => []
  | node :: nodes => node.rules ++ rulesIn nodes

end

/-- A rule that no change is meant for: its selector mentions no legacy combinator, and no direct
child rule appends to it. -/
structure RuleSite.IsUntouched (site : RuleSite) : Prop where
  unsigned : ∀ sign ∈ legacySigns, ¬ sign <:+: site.selector
  unappended : ∀ child ∈ site.children, isConcatenating child = false

instance (site : RuleSite) : Decidable site.IsUntouched :=
  decidable_of_iff (_ ∧ _) ⟨fun h => ⟨h.1, h.2⟩, fun h => ⟨h.unsigned, h.unappended⟩⟩

theorem RuleSite.IsUntouched.isSettled {site : RuleSite} (huntouched : site.IsUntouched) :
    site.IsSettled := by
  constructor
  · intro leaf hmem
    cases hlegacy : leaf.isLegacy with
    | false => rfl
    | true =>
      obtain ⟨sign, hsign, hinfix⟩ := exists_sign_of_isLegacy hmem hlegacy
      exact absurd hinfix (huntouched.unsigned sign hsign)
  · intro happends
    obtain ⟨child, hmem, hconcatenating⟩ := List.any_eq_true.mp happends
    rw [huntouched.unappended child hmem] at hconcatenating
    cases hconcatenating

mutual

theorem Node.sites_eq_rules (node : Node) (hkeeps : ∀ site ∈ node.rules, site.drops = false) :
    node.sites = node.rules := by
  match node with
  | .text content => rw [Node.sites, Node.rules]
  | .group (.block content) enclosure body =>
    rw [Node.rules] at hkeeps
    rw [Node.sites, Node.rules, sitesIn_eq_rulesIn body hkeeps]
  | .group (.rule before selector between) enclosure body =>
    rw [Node.rules, List.forall_mem_cons] at hkeeps
    simp only [Node.sites, Node.rules, hkeeps.1, sitesIn_eq_rulesIn body hkeeps.2]

/-- Where no rule drops a child, all rules are looked at. -/
theorem sitesIn_eq_rulesIn (nodes : List Node)
    (hkeeps : ∀ site ∈ rulesIn nodes, site.drops = false) :
    sitesIn false nodes = rulesIn nodes := by
  match nodes with
  | [] => rw [sitesIn, rulesIn]
  | node :: nodes =>
    rw [rulesIn, List.forall_mem_append] at hkeeps
    rw [sitesIn, Bool.false_and, if_neg Bool.false_ne_true, rulesIn, node.sites_eq_rules hkeeps.1,
      sitesIn_eq_rulesIn nodes hkeeps.2]

end

/-- A stylesheet of untouched rules is migrated without a failure. Its text gets a closing
parenthesis for every unclosed argument in a selector, so it stays as it is just when no selector has
one. -/
theorem migrate_of_untouched (language : Language) (source : List Char)
    (huntouched : ∀ site ∈ rulesIn (read language source), site.IsUntouched) :
    ∃ output, migrate language source = .ok output ∧
      Completes ((rulesIn (read language source)).map fun site => unclosed site.selector).sum
        source output ∧
      (output = source ↔ ∀ site ∈ rulesIn (read language source), unclosed site.selector = 0) := by
  have hsettled : ∀ site ∈ rulesIn (read language source), site.IsSettled :=
    fun site hmem => (huntouched site hmem).isSettled
  have hsites := sitesIn_eq_rulesIn (read language source) fun site hmem =>
    (hsettled site hmem).drops_eq_false
  rw [← hsites] at hsettled ⊢
  have hcompletes := completes_recastAll _ hsettled fun header hmem => isTidy_of_mem_headers hmem
  rw [print_read] at hcompletes
  refine ⟨_, migrate_eq_ok_iff.mpr ⟨fun site hmem => (hsettled site hmem).failure?_eq_none, rfl⟩,
    hcompletes, ?_⟩
  have hself := migrate_eq_self_iff language source
  rw [migrate_eq_ok_iff] at hself
  constructor
  · intro hsame site hmem
    have hcanonical := hself.mp ⟨fun site hmem => (hsettled site hmem).failure?_eq_none, hsame⟩
    exact (hcanonical site hmem).closed
  · intro hclosed
    exact (hself.mpr fun site hmem => ⟨hsettled site hmem, hclosed site hmem⟩).2

/-- A header ends where a reader sees it end, whatever is in its comments. -/
theorem read_parenthesis_in_comment :
    read .css "a:not(/*(*/.b) c{}".toList =
      [.group (.rule [] "a:not(/*(*/.b) c".toList []) .braces []] := by
  have htokens :
      braceTokens false "a:not(/*(*/.b) c{}".toList =
        [.opening [] "a:not(/*(*/.b) c".toList, .closing] := by
    simp [braceTokens, takeTokens, takeTrivia, takeComment?, takeStatement, scanStatement,
      Scanned.cons, BraceToken.ofText, Text.isAsciiBlank]
  rw [Sheet.read, readBraces, htokens]
  rfl

theorem migrate_of_untouched_parenthesis_in_comment :
    (∀ site ∈ rulesIn (read .css "a:not(/*(*/.b) c{}".toList), site.IsUntouched) ∧
      ∃ output, migrate .css "a:not(/*(*/.b) c{}".toList = .ok output ∧
        Completes ((rulesIn (read .css "a:not(/*(*/.b) c{}".toList)).map fun site =>
          unclosed site.selector).sum "a:not(/*(*/.b) c{}".toList output ∧
        (output = "a:not(/*(*/.b) c{}".toList ↔
          ∀ site ∈ rulesIn (read .css "a:not(/*(*/.b) c{}".toList), unclosed site.selector = 0) := by
  have huntouched :
      ∀ site ∈ rulesIn (read .css "a:not(/*(*/.b) c{}".toList), site.IsUntouched := by
    rw [read_parenthesis_in_comment]
    decide +kernel
  exact ⟨huntouched, migrate_of_untouched _ _ huntouched⟩

/-- An untouched rule changes: the parenthesis in the comment opens one more level, so the argument
runs to the end of the selector and gets a closing parenthesis there. -/
theorem migrate_closes_parenthesis_in_comment :
    (∀ site ∈ rulesIn (read .css "a:not(/*(*/.b) c{}".toList), site.IsUntouched) ∧
      migrate .css "a:not(/*(*/.b) c{}".toList = .ok "a:not(/*(*/.b) c){}".toList := by
  rw [migrate_eq_ok_iff, read_parenthesis_in_comment]
  decide +kernel

end StyleMigration.Sheet
