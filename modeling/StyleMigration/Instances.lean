/-!
The instances with which numbers, lists, bytes and results are added and compared, and lists and their
members are searched. They are named here, so that a sum, a comparison or a decision is the same one
in every module, whatever else the module imports.
-/

set_option autoImplicit false

namespace StyleMigration

/-- The sum of no numbers. -/
instance instZeroNat : Zero Nat :=
  ⟨0⟩

/-- Lists are ordered as words are. -/
instance instLEList {α : Type} [LT α] : LE (List α) :=
  List.instLE

/-- What all members of a list have is decided member by member, also where the type is finite. -/
instance (priority := 1100) instDecidableForallMem {α : Type} (p : α → Prop) [DecidablePred p]
    (items : List α) : Decidable (∀ item ∈ items, p item) :=
  List.decidableBAll p items

instance (priority := 1100) instDecidableForallMemOption {α : Type} (p : α → Prop)
    [DecidablePred p] (item? : Option α) : Decidable (∀ item ∈ item?, p item) :=
  Option.decidableForallMem item?

instance instDecidableIsInfix {α : Type} [DecidableEq α] (part whole : List α) :
    Decidable (part <:+: whole) :=
  List.instDecidableIsInfixOfDecidableEq part whole

instance instDecidableEqByteArray : DecidableEq ByteArray :=
  ByteArray.instDecidableEq

instance instDecidableEqExcept {ε α : Type} [DecidableEq ε] [DecidableEq α] :
    DecidableEq (Except ε α)
  | .error cause, .error other => decidable_of_iff (cause = other) (by rw [Except.error.injEq])
  | .ok value, .ok other => decidable_of_iff (value = other) (by rw [Except.ok.injEq])
  | .error _, .ok _ => isFalse nofun
  | .ok _, .error _ => isFalse nofun

end StyleMigration
