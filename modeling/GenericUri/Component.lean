import GenericUri.Error

/-!
# Component — kinds of text with a grammar

A component is read from text and written as text.  `parse` is reading with the whole text in the error.
-/

namespace GenericUri

class Component (α : Type) where
  read : Text → Except Fault α
  render : α → Text

export Component (render)

def parse (α : Type) [Component α] (t : Text) : Except ParseError α :=
  (Component.read t).mapError (ParseError.mk t)

variable {α : Type} [Component α] {t : Text}

theorem parse_eq_ok_iff {a : α} : parse α t = .ok a ↔ Component.read t = .ok a := by
  unfold parse
  cases (Component.read t : Except Fault α) with
  | ok b =>
    constructor <;>
    · intro h
      cases h
      rfl
  | error f => exact ⟨nofun, nofun⟩

theorem parse_eq_error_iff {e : ParseError} :
    parse α t = .error e ↔ e.input = t ∧ (Component.read t : Except Fault α) = .error e.fault := by
  unfold parse
  cases (Component.read t : Except Fault α) with
  | ok b => exact ⟨nofun, nofun⟩
  | error f =>
    constructor
    · intro h
      cases h
      exact ⟨rfl, rfl⟩
    · rintro ⟨rfl, h⟩
      cases h
      rfl

end GenericUri
