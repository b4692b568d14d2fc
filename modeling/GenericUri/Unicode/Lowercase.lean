import GenericUri.Text
import GenericUri.Unicode.CaseMapping
import GenericUri.Unicode.CaseProperties

/-!
# Lowercase — full lower-casing of text

One character goes to its lower case by the table `lowerRanges`.  Two rules go beyond it: a capital I with a dot above
becomes an `i` and a combining dot, and a capital sigma becomes `ς` at the end of a word and `σ` elsewhere.
-/

namespace GenericUri.Unicode

def CaseRange.contains (r : CaseRange) (n : Nat) : Bool :=
  r.first ≤ n && n ≤ r.last && (n - r.first) % r.step == 0

def isCased (c : Char) : Bool := casedRanges.any fun (a, b) => a ≤ c.toNat && c.toNat ≤ b

def isCaseIgnorable (c : Char) : Bool := caseIgnorableRanges.any fun (a, b) => a ≤ c.toNat && c.toNat ≤ b

/-- The lower case of a character on its own, where that is one character. -/
def simpleLower (c : Char) : Char :=
  match lowerRanges.find? (·.contains c.toNat) with
  | some r => Char.ofNat (c.toNat + r.shift).toNat
  | none => c

/-- The lower case of a character on its own. -/
def lowerChar (c : Char) : Text := if c = 'İ' then ['i', '\u0307'] else [simpleLower c]

/-- Whether a letter with case comes first in `t`, ignorable characters apart. -/
def meetsCased (t : Text) : Bool := (t.dropWhile isCaseIgnorable).head?.any isCased

/-- The lower case of a capital sigma; `before` is what precedes it, nearest character first. -/
def lowerSigma (before after : Text) : Char :=
  if meetsCased before && !meetsCased after then 'ς' else 'σ'

/-- The lower case of a text; `before` is what precedes it, nearest character first. -/
def lowerAfter (before : Text) : Text → Text
  | [] => []
  | c :: t => (if c = 'Σ' then [lowerSigma before t] else lowerChar c) ++ lowerAfter (c :: before) t

def lowercase (t : Text) : Text := lowerAfter [] t

end GenericUri.Unicode
