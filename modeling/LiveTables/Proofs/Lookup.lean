import Mathlib.Data.List.Nodup

/-!
# Values bound to keys

A list of distinct keys, zipped with a list of values, binds the value at each position to the key
at this position. `List.lookup` finds the value of a key. Keys and values are zipped in several
places: rows with the cells that are written to them, keys with rows, and modified keys with their
new cells. A list of names with what they are bound to can also be worked on as a whole: each value
can be changed, and a name can be dropped.
-/

namespace LiveTables

variable {κ κ' α : Type} [BEq κ] [LawfulBEq κ] [BEq κ'] [LawfulBEq κ'] {keys : List κ}
  {vals : List α} {k : κ}

/-- A key is bound to the value at its position. -/
theorem lookup_zip_of_getElem? {i : Nat} (h : keys.Nodup) (hi : keys[i]? = some k) :
    (keys.zip vals).lookup k = vals[i]? := by
  induction keys generalizing i vals with
  | nil => cases hi
  | cons a keys ih =>
    obtain ⟨ha, hkeys⟩ := List.nodup_cons.mp h
    cases vals with
    | nil => rfl
    | cons x vals =>
      cases i with
      | zero =>
        obtain rfl := Option.some.inj hi
        rw [List.zip_cons_cons, List.lookup_cons_self]
        rfl
      | succ i =>
        rw [List.getElem?_cons_succ] at hi
        have hne : (k == a) = false := by
          rw [beq_eq_false_iff_ne]
          rintro rfl
          exact ha (List.mem_of_getElem? hi)
        rw [List.zip_cons_cons, List.lookup_cons, hne, List.getElem?_cons_succ]
        exact ih hkeys hi

/-- A key that is not there is bound to nothing. -/
theorem lookup_zip_of_not_mem (h : k ∉ keys) : (keys.zip vals).lookup k = none := by
  rw [List.lookup_eq_none_iff]
  rintro ⟨a, x⟩ hmem
  rw [bne_iff_ne]
  rintro rfl
  exact h (List.of_mem_zip hmem).1

/-- Keys further up are bound to what the keys before have left of the values. -/
theorem zip_append_left {κ : Type} (front back : List κ) (vals : List α) :
    (front ++ back).zip vals =
      front.zip (vals.take front.length) ++ back.zip (vals.drop front.length) := by
  induction front generalizing vals with
  | nil => rfl
  | cons a front ih =>
    cases vals with
    | nil => simp
    | cons x vals =>
      rw [List.cons_append, List.zip_cons_cons, ih]
      rfl

/-- What is bound to keys stands in their order. -/
theorem pairwise_zip {κ : Type} {R : κ → κ → Prop} {keys : List κ} (h : keys.Pairwise R)
    (vals : List α) : (keys.zip vals).Pairwise fun e f => R e.1 f.1 := by
  induction keys generalizing vals with
  | nil => exact .nil
  | cons a keys ih =>
    obtain ⟨ha, hkeys⟩ := List.pairwise_cons.mp h
    cases vals with
    | nil => exact .nil
    | cons x vals => exact .cons (fun e he => ha e.1 (List.of_mem_zip he).1) (ih hkeys vals)

/-- Renaming keys apart leaves their values. -/
theorem lookup_zip_map {f : κ → κ'}
    (h : ∀ a ∈ keys, f k = f a → k = a) :
    ((keys.map f).zip vals).lookup (f k) = (keys.zip vals).lookup k := by
  induction keys generalizing vals with
  | nil => rfl
  | cons a keys ih =>
    obtain ⟨ha, hkeys⟩ := List.forall_mem_cons.mp h
    cases vals with
    | nil => rfl
    | cons x vals =>
      have hbeq : (f k == f a) = (k == a) := by
        rw [Bool.eq_iff_iff, beq_iff_eq, beq_iff_eq]
        exact ⟨ha, congrArg f⟩
      rw [List.map_cons, List.zip_cons_cons, List.zip_cons_cons, List.lookup_cons,
        List.lookup_cons, hbeq, ih hkeys]

/-- Where all values are changed a key is bound to the changed value. -/
theorem lookup_map_snd {κ β : Type} [BEq κ] {k : κ} {f : α → β} (l : List (κ × α)) :
    (l.map fun e => (e.1, f e.2)).lookup k = (l.lookup k).map f := by
  induction l with
  | nil => rfl
  | cons e l ih =>
    rw [List.map_cons, List.lookup_cons, List.lookup_cons]
    split
    · rfl
    · exact ih

/-- Where a key is dropped the other ones are bound to what they were. -/
theorem lookup_filter_ne [DecidableEq κ] {a : κ} (l : List (κ × α)) (h : k ≠ a) :
    (l.filter fun e => e.1 ≠ a).lookup k = l.lookup k := by
  induction l with
  | nil => rfl
  | cons e l ih =>
    by_cases he : e.1 = a
    · have hne : (k == e.1) = false := by
        rw [beq_eq_false_iff_ne, he]
        exact h
      rw [List.filter_cons_of_neg (by simpa using he), List.lookup_cons, hne, ih]
    · rw [List.filter_cons_of_pos (by simpa using he), List.lookup_cons, List.lookup_cons, ih]

end LiveTables
