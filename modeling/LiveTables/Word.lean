import LiveTables.Keys.Set

/-!
# Machine words

Keys, numbers of keys and positions of rows are machine words, and `maxKey` is the greatest one. A
sum or a difference is exact (`Word.add?`, `Word.sub?`), and there is none where the exact one is
not a word. A sum that nobody checks is taken modulo the number of words (`Word.wrapAdd`).
-/

namespace LiveTables.Word

variable {a b c : Nat}

/-- The sum of two words. -/
def add? (a b : Nat) : Option Nat := if a + b ≤ maxKey then some (a + b) else none

/-- The difference of two words. -/
def sub? (a b : Nat) : Option Nat := if b ≤ a then some (a - b) else none

/-- The sum of two words, as far as it goes into a word. -/
def wrapAdd (a b : Nat) : Nat := (a + b) % (maxKey + 1)

theorem add?_eq_some_iff : add? a b = some c ↔ a + b ≤ maxKey ∧ a + b = c := by
  rw [add?, Option.ite_none_right_eq_some, Option.some_inj]

theorem sub?_eq_some_iff : sub? a b = some c ↔ b ≤ a ∧ a - b = c := by
  rw [sub?, Option.ite_none_right_eq_some, Option.some_inj]

theorem add?_eq_some (h : a + b ≤ maxKey) : add? a b = some (a + b) := if_pos h

theorem add?_eq_none (h : maxKey < a + b) : add? a b = none := if_neg (Nat.not_le.mpr h)

theorem wrapAdd_eq (h : a + b ≤ maxKey) : wrapAdd a b = a + b :=
  Nat.mod_eq_of_lt (Nat.lt_succ_of_le h)

/-- A sum of two words that is not a word has lost the number of words once. -/
theorem wrapAdd_of_lt (ha : a ≤ maxKey) (hb : b ≤ maxKey) (h : maxKey < a + b) :
    wrapAdd a b + (maxKey + 1) = a + b := by
  rw [wrapAdd, Nat.mod_eq_sub_mod h, Nat.mod_eq_of_lt (by omega)]
  omega

theorem sub?_eq_some (h : b ≤ a) : sub? a b = some (a - b) := if_pos h

end LiveTables.Word
