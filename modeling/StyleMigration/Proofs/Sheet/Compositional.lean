import StyleMigration.Sheet.Migration
import StyleMigration.Proofs.Sheet.Lossless

/-!
What a migration decides on. Rules are changed in place, each before those inside it: a rule gets
its new selector and loses children while the rules around it are changed already and those inside
it are not. Still no decision sees a change. What becomes of a rule follows from its own selector
and those of its direct child rules as they were read (`RuleSite`), because a rule is changed before
any of its children, and its children are dropped or kept as they stand.

`sweepAll` changes a tree in place, one rule after the other, and `sweepAll_eq` says that this is
the recursion `migrateAll`, which hands the decision to drop children down instead of carrying it
out. The rules that are looked at are those of `sitesIn`; the first of them that fails is the one
reported (`migrateAll_stopped`). When none fails, the result is the tree with other selectors and
without the dropped children (`migrateAll_result`), and all else stands where it stood
(`walk_framing_recastAll`).
-/

set_option autoImplicit false

namespace StyleMigration.Sheet

open Selector

/-! ### Changing a tree in place -/

theorem sizeOf_filter_le (keeps : Node → Bool) (nodes : List Node) :
    sizeOf (nodes.filter keeps) ≤ sizeOf nodes := by
  induction nodes with
  | nil => simp
  | cons node nodes ih =>
    rw [List.filter_cons]
    split
    · simp only [List.cons.sizeOf_spec]
      omega
    · simp only [List.cons.sizeOf_spec]
      omega

theorem sizeOf_kept_le (drops : Bool) (body : List Node) :
    sizeOf (kept drops body) ≤ sizeOf body := by
  rw [kept]
  split
  · exact sizeOf_filter_le _ body
  · exact Nat.le_refl _

@[simp] theorem kept_nil (drops : Bool) : kept drops [] = [] := by
  simp [kept]

theorem kept_cons (drops : Bool) (node : Node) (nodes : List Node) :
    kept drops (node :: nodes) =
      if drops && node.isAppending then kept drops nodes else node :: kept drops nodes := by
  cases drops <;> cases h : node.isAppending <;> simp [kept, h]

/-- Changing one rule follows its change, and drops children as they stand. -/
theorem Node.migrateRule_rule (before selector between : List Char) (enclosure : Enclosure)
    (body : List Node) :
    (Node.group (.rule before selector between) enclosure body).migrateRule =
      (ruleChange selector (selectors body)).map fun change =>
        .group (.rule before change.selector between) enclosure (kept change.drops body) := by
  rw [Node.migrateRule]
  cases ruleChange selector (selectors body) <;> rfl

/-- Changing one rule never makes a body larger. -/
theorem Node.sizeOf_lt_of_migrateRule {node : Node} {header : Header} {enclosure : Enclosure}
    {body : List Node} (hchanged : node.migrateRule = .ok (.group header enclosure body)) :
    sizeOf body < sizeOf node := by
  match node with
  | .text content => cases hchanged
  | .group (.block content) old inner =>
    obtain ⟨rfl, rfl, rfl⟩ := Node.group.inj (Except.ok.inj hchanged)
    simp only [Node.group.sizeOf_spec]
    omega
  | .group (.rule before selector between) old inner =>
    rw [Node.migrateRule_rule] at hchanged
    cases hchange : ruleChange selector (selectors inner) with
    | error ambiguity =>
      rw [hchange] at hchanged
      cases hchanged
    | ok change =>
      rw [hchange] at hchanged
      obtain ⟨rfl, rfl, rfl⟩ := Node.group.inj (Except.ok.inj hchanged)
      have hkept := sizeOf_kept_le change.drops inner
      simp only [Node.group.sizeOf_spec]
      omega

mutual

/-- Changes a node in place: its own rule first, then what is left in its body. -/
def Node.sweep (node : Node) : Migrated Node :=
  match _hchanged : node.migrateRule with
  | .error ambiguity => ⟨node, some ambiguity⟩
  | .ok (.text text) => ⟨.text text, none⟩
  | .ok (.group header enclosure body) =>
    let inner := sweepAll body
    ⟨.group header enclosure inner.result, inner.stopped⟩
termination_by sizeOf node
decreasing_by exact node.sizeOf_lt_of_migrateRule _hchanged

/-- Changes nodes in place, one after the other, up to the first rule that is ambiguous. -/
def sweepAll : List Node → Migrated (List Node)
  | [] => ⟨[], none⟩
  | node :: nodes =>
    let first := node.sweep
    match first.stopped with
    | some ambiguity => ⟨first.result :: nodes, some ambiguity⟩
    | none =>
      let others := sweepAll nodes
      ⟨first.result :: others.result, others.stopped⟩
termination_by nodes => sizeOf nodes

end

mutual

theorem Node.sweep_eq (node : Node) : node.sweep = node.migrate := by
  match node with
  | .text content => simp [Node.sweep, Node.migrateRule, Node.migrate]
  | .group (.block content) enclosure body =>
    have hbody := sweepAll_kept false body
    rw [kept, if_neg Bool.false_ne_true] at hbody
    simp only [Node.sweep, Node.migrateRule, Node.migrate, hbody]
  | .group (.rule before selector between) enclosure body =>
    have hrule := Node.migrateRule_rule before selector between enclosure body
    rw [Node.sweep, Node.migrate]
    cases hchange : ruleChange selector (selectors body) with
    | error ambiguity =>
      rw [hchange] at hrule
      split <;> rename_i hchanged <;> cases hrule.symm.trans hchanged
      rfl
    | ok change =>
      rw [hchange] at hrule
      split <;> rename_i hchanged <;> cases hrule.symm.trans hchanged
      rw [sweepAll_kept change.drops body]

/-- A body from which the children to be dropped are gone is swept as the recursion goes through
the whole body. -/
theorem sweepAll_kept (drops : Bool) (nodes : List Node) :
    sweepAll (kept drops nodes) = migrateAll drops nodes := by
  match nodes with
  | [] => simp [sweepAll, migrateAll]
  | node :: nodes =>
    rw [kept_cons, migrateAll]
    split
    · exact sweepAll_kept drops nodes
    · cases hfirst : node.migrate.stopped with
      | some ambiguity => simp only [sweepAll, node.sweep_eq, hfirst]
      | none => simp only [sweepAll, node.sweep_eq, hfirst, sweepAll_kept drops nodes]

end

theorem sweepAll_eq (nodes : List Node) : sweepAll nodes = migrateAll false nodes := by
  have hkept := sweepAll_kept false nodes
  rwa [kept, if_neg Bool.false_ne_true] at hkept

/-! ### What is decided on which rule -/

/-- All that a decision on a rule may look at: its selector and those of its direct child rules, as
they were read. -/
structure RuleSite where
  selector : List Char
  children : List (List Char)

namespace RuleSite

def change (site : RuleSite) : Except Ambiguity RuleChange :=
  ruleChange site.selector site.children

/-- Why the rule cannot be changed, if it cannot. -/
def failure? (site : RuleSite) : Option Ambiguity :=
  match site.change with
  | .error ambiguity => some ambiguity
  | .ok _ => none

/-- Whether the rule loses its appending children. -/
def drops (site : RuleSite) : Bool :=
  match site.change with
  | .error _ => false
  | .ok change => change.drops

/-- The new selector of the rule. -/
def rewritten (site : RuleSite) : List Char :=
  match site.change with
  | .error _ => site.selector
  | .ok change => change.selector

end RuleSite

mutual

/-- The rules of a node in the order of the text, each before those inside it, without those inside
dropped children. -/
def Node.sites : Node → List RuleSite
  | .text _ => []
  | .group (.block _) _ body => sitesIn false body
  | .group (.rule _ selector _) _ body =>
    let site := ⟨selector, selectors body⟩
    site :: sitesIn site.drops body

/-- The rules of a body that are not dropped, where `drops` says whether the rule around it loses
its appending children. -/
def sitesIn (drops : Bool) : List Node → List RuleSite
  | [] => []
  | node :: nodes =>
    if drops && node.isAppending then sitesIn drops nodes
    else node.sites ++ sitesIn drops nodes

end

mutual

/-- A node with the selectors that `select` gives to its rules, and without dropped children. Both
are decided on the node as it is. -/
def Node.recast (select : RuleSite → List Char) : Node → Node
  | .text content => .text content
  | .group (.block content) enclosure body =>
    .group (.block content) enclosure (recastAll select false body)
  | .group (.rule before selector between) enclosure body =>
    let site := ⟨selector, selectors body⟩
    .group (.rule before (select site) between) enclosure (recastAll select site.drops body)

def recastAll (select : RuleSite → List Char) (drops : Bool) : List Node → List Node
  | [] => []
  | node :: nodes =>
    if drops && node.isAppending then recastAll select drops nodes
    else node.recast select :: recastAll select drops nodes

end

mutual

theorem Node.migrate_stopped (node : Node) :
    node.migrate.stopped = node.sites.findSome? RuleSite.failure? := by
  match node with
  | .text content => rw [Node.migrate, Node.sites, List.findSome?_nil]
  | .group (.block content) enclosure body =>
    rw [Node.migrate, Node.sites]
    exact migrateAll_stopped false body
  | .group (.rule before selector between) enclosure body =>
    rw [Node.migrate, Node.sites, List.findSome?_cons]
    cases hchange : ruleChange selector (selectors body) with
    | error ambiguity => simp only [RuleSite.failure?, RuleSite.change, hchange]
    | ok change =>
      simp only [RuleSite.failure?, RuleSite.drops, RuleSite.change, hchange]
      exact migrateAll_stopped change.drops body

/-- A migration stops at the first rule, in the order of the text, that cannot be changed. -/
theorem migrateAll_stopped (drops : Bool) (nodes : List Node) :
    (migrateAll drops nodes).stopped = (sitesIn drops nodes).findSome? RuleSite.failure? := by
  match nodes with
  | [] => rw [migrateAll, sitesIn, List.findSome?_nil]
  | node :: nodes =>
    rw [migrateAll, sitesIn]
    split
    · exact migrateAll_stopped drops nodes
    · rw [List.findSome?_append, ← node.migrate_stopped, ← migrateAll_stopped drops nodes]
      cases hfirst : node.migrate.stopped <;> simp [hfirst]

end

mutual

theorem Node.migrate_result (node : Node) (hnone : node.migrate.stopped = none) :
    node.migrate.result = node.recast RuleSite.rewritten := by
  match node with
  | .text content => rw [Node.migrate, Node.recast]
  | .group (.block content) enclosure body =>
    rw [Node.migrate] at hnone ⊢
    rw [Node.recast, migrateAll_result false body hnone]
  | .group (.rule before selector between) enclosure body =>
    rw [Node.migrate] at hnone ⊢
    rw [Node.recast]
    cases hchange : ruleChange selector (selectors body) with
    | error ambiguity =>
      rw [hchange] at hnone
      cases hnone
    | ok change =>
      rw [hchange] at hnone
      simp only [RuleSite.rewritten, RuleSite.drops, RuleSite.change, hchange]
      rw [migrateAll_result change.drops body hnone]

/-- A migration that does not stop gives every rule its new selector and drops children, all decided
on the nodes as they are. -/
theorem migrateAll_result (drops : Bool) (nodes : List Node)
    (hnone : (migrateAll drops nodes).stopped = none) :
    (migrateAll drops nodes).result = recastAll RuleSite.rewritten drops nodes := by
  match nodes with
  | [] => rw [migrateAll, recastAll]
  | node :: nodes =>
    rw [migrateAll] at hnone ⊢
    rw [recastAll]
    split
    · rename_i hdropped
      rw [if_pos hdropped] at hnone
      exact migrateAll_result drops nodes hnone
    · rename_i hkept
      rw [if_neg hkept] at hnone
      cases hfirst : node.migrate.stopped with
      | some ambiguity => simp [hfirst] at hnone
      | none =>
        simp only [hfirst] at hnone
        simp only [hfirst]
        rw [node.migrate_result hfirst, migrateAll_result drops nodes hnone]

end

/-! ### What stays -/

/-- Something in a stylesheet that is no selector. -/
inductive Fixture where
  | text (content : List Char)
  /-- The opening of a group, the selector of its header left out. -/
  | opening (header : Header) (enclosure : Enclosure)
  | closing (enclosure : Enclosure)

def Header.withoutSelector : Header → Header
  | .rule before _ between => .rule before [] between
  | .block content => .block content

/-- The walk that collects all but the selectors. -/
def framing : Walk Fixture where
  onText content := [.text content]
  onOpening header enclosure := [.opening header.withoutSelector enclosure]
  onClosing enclosure := [.closing enclosure]

mutual

theorem Node.walk_framing_recast (first second : RuleSite → List Char) (node : Node) :
    (node.recast first).walk framing = (node.recast second).walk framing := by
  match node with
  | .text content => simp only [Node.recast]
  | .group (.block content) enclosure body =>
    simp only [Node.recast, Node.walk, walk_framing_recastAll first second false body]
  | .group (.rule before selector between) enclosure body =>
    simp only [Node.recast, Node.walk, walk_framing_recastAll first second _ body]
    rfl

/-- Which selectors the rules get does not matter for anything else. -/
theorem walk_framing_recastAll (first second : RuleSite → List Char) (drops : Bool)
    (nodes : List Node) :
    walk framing (recastAll first drops nodes) = walk framing (recastAll second drops nodes) := by
  match nodes with
  | [] => simp only [recastAll]
  | node :: nodes =>
    simp only [recastAll]
    split
    · exact walk_framing_recastAll first second drops nodes
    · simp only [walk, node.walk_framing_recast first second,
        walk_framing_recastAll first second drops nodes]

end

mutual

theorem Node.walk_framing_recast_sublist (select : RuleSite → List Char) (node : Node) :
    ((node.recast select).walk framing).Sublist (node.walk framing) := by
  match node with
  | .text content => simp [Node.recast]
  | .group (.block content) enclosure body =>
    rw [Node.recast, Node.walk, Node.walk]
    exact ((walk_framing_recastAll_sublist select false body).append_left _).append_right _
  | .group (.rule before selector between) enclosure body =>
    rw [Node.recast, Node.walk, Node.walk]
    exact ((walk_framing_recastAll_sublist select _ body).append_left _).append_right _

/-- What is not dropped stands in its old order. -/
theorem walk_framing_recastAll_sublist (select : RuleSite → List Char) (drops : Bool)
    (nodes : List Node) :
    (walk framing (recastAll select drops nodes)).Sublist (walk framing nodes) := by
  match nodes with
  | [] => simp [recastAll]
  | node :: nodes =>
    rw [recastAll]
    split
    · rw [walk]
      exact (walk_framing_recastAll_sublist select drops nodes).trans
        (List.sublist_append_right _ _)
    · rw [walk, walk]
      exact (node.walk_framing_recast_sublist select).append
        (walk_framing_recastAll_sublist select drops nodes)

end

/-- The rules of a list of nodes, changed in place one after the other, come to what a recursion
gives that decides on each rule by its own selector and those of its direct child rules as they were
read. The failure reported is that of the first rule that cannot be changed among those not dropped.
Without one, every rule has its new selector, and all else that is not dropped is as it was and
where it was. -/
theorem migrateAll_compositional (nodes : List Node) :
    sweepAll nodes = migrateAll false nodes ∧
      (migrateAll false nodes).stopped = (sitesIn false nodes).findSome? RuleSite.failure? ∧
      ((migrateAll false nodes).stopped = none →
        (migrateAll false nodes).result = recastAll RuleSite.rewritten false nodes ∧
        walk framing (migrateAll false nodes).result =
          walk framing (recastAll RuleSite.selector false nodes) ∧
        (walk framing (migrateAll false nodes).result).Sublist (walk framing nodes)) := by
  refine ⟨sweepAll_eq nodes, migrateAll_stopped false nodes, fun hnone => ?_⟩
  have hresult := migrateAll_result false nodes hnone
  rw [hresult]
  exact ⟨rfl, walk_framing_recastAll _ _ false nodes,
    walk_framing_recastAll_sublist _ false nodes⟩

end StyleMigration.Sheet
