import LiveTables.Column.Copying
import LiveTables.Proofs.Column.Kept

/-!
# Copies that agree

Gathering and scattering are put together of single steps. So what each step keeps is kept by the
whole, and if there are two ways to keep rows, and each step comes to the same in both, the whole
does. `Copier.Simulates` says this of the steps, and the lemmas about it of the whole: one for each
loop, by induction on what is left to copy, and one for each copy with the checks in front of it.

The copies between storages are an instance (`Storage.gather_eq` and so on).
-/

namespace LiveTables

/-! ## Members of lists -/

section Members

variable {α β : Type} {src dest : List α} {atOnce : Bool} {places : List (Nat × Nat)} {r : Run}
  {i : Nat} {x : α}

theorem mem_copyEach (hx : x ∈ copyEach src places dest) : x ∈ dest ∨ x ∈ src := by
  induction places generalizing dest with
  | nil => exact .inl hx
  | cons p places ih =>
    rw [copyEach] at hx
    rcases ih hx with hx | hx
    · cases hp : src[p.1]? with
      | none =>
        rw [hp] at hx
        exact .inl hx
      | some y =>
        rw [hp] at hx
        rcases List.mem_or_eq_of_mem_set hx with hx | rfl
        · exact .inl hx
        · exact .inr (List.mem_of_getElem? hp)
    · exact .inr hx

/-- What is there after a copy was there before, or was copied. -/
theorem mem_copyMembers (hx : x ∈ copyMembers atOnce src r i dest) : x ∈ dest ∨ x ∈ src := by
  rw [copyMembers] at hx
  split at hx
  · simp only [List.mem_append] at hx
    rcases hx with (hx | hx) | hx
    · exact .inl (List.mem_of_mem_take hx)
    · exact .inr (List.mem_of_mem_drop (List.mem_of_mem_take hx))
    · exact .inl (List.mem_of_mem_drop hx)
  · exact mem_copyEach hx

theorem map_copyEach (f : α → β) : (copyEach src places dest).map f =
    copyEach (src.map f) places (dest.map f) := by
  induction places generalizing dest with
  | nil => rfl
  | cons p places ih =>
    rw [copyEach, copyEach, ih, List.getElem?_map]
    cases src[p.1]? with
    | none => rfl
    | some y =>
      rw [Option.elim_some, List.map_set]
      rfl

/-- Images are copied as what they are images of. -/
theorem map_copyMembers (f : α → β) : (copyMembers atOnce src r i dest).map f =
    copyMembers atOnce (src.map f) r i (dest.map f) := by
  rw [copyMembers, copyMembers]
  split
  · simp only [List.map_append, List.map_take, List.map_drop, List.length_take, List.length_drop,
      List.length_map]
  · exact map_copyEach f

end Members

namespace Cells

variable {src dest : Cells} {r : Run} {i : Nat}

/-- Cells that are put one by one are put as members of lists. -/
theorem foldl_set_eq (places : List (Nat × Nat)) :
    places.foldl (fun dest p => (src.get? p.1).elim dest fun x => dest.set p.2 x) dest =
      ofList dest.backing (copyEach src.toList places dest.toList) := by
  induction places generalizing dest with
  | nil => exact ext (backing_ofList ..).symm (toList_ofList ..).symm
  | cons p places ih =>
    rw [List.foldl_cons, ih, copyEach, get?_eq]
    cases src.toList[p.1]? with
    | none => rfl
    | some x => rw [Option.elim_some, Option.elim_some, backing_set, toList_set]

/-- Stored cells are copied as members of lists. -/
theorem copyRun_eq_copyMembers : src.copyRun r i dest = ofList dest.backing
    (copyMembers (src.backing = .array ∧ dest.backing = .array) src.toList r i dest.toList) := by
  unfold copyRun
  split
  · exact ext (by simp) (by simp [copyMembers, backing])
  · rename_i hnot
    have hone : ¬ (src.backing = .array ∧ dest.backing = .array) := by
      rintro ⟨hsrc, hdest⟩
      cases src with
      | array block =>
        cases dest with
        | array block' => exact hnot block block' rfl rfl
        | persistent _ => cases hdest
      | persistent _ => cases hsrc
    rw [foldl_set_eq, copyMembers, if_neg (by simpa using hone)]

end Cells

/-! ## Work on two sides -/

namespace Worked

variable {δ ε α : Type} {P : δ → Prop} {h : δ → ε} {d : δ} {w : Worked δ} {w' : Worked ε}

/-- Work that keeps what `P` says, and that comes to the same on the other side. -/
structure Agrees (P : δ → Prop) (h : δ → ε) (w : Worked δ) (w' : Worked ε) : Prop where
  keeps : P w.2
  same : w' = w.map id h

/-- Where nothing is done nothing changes. -/
theorem Agrees.refl (hd : P d) (outcome : Except Error Unit) :
    Agrees P h (outcome, d) (outcome, h d) :=
  ⟨hd, rfl⟩

/-- Work that keeps what `P` says agrees with itself. -/
theorem Agrees.self (hw : P w.2) : Agrees P id w w := ⟨hw, rfl⟩

/-- A check in front is the same one on both sides. -/
theorem Agrees.after {check : Except Error α} {work : α → δ → Worked δ}
    {work' : α → ε → Worked ε} (hd : P d)
    (hwork : ∀ found, check = .ok found → Agrees P h (work found d) (work' found (h d))) :
    Agrees P h (after check work d) (after check work' (h d)) := by
  cases check with
  | ok found => exact hwork found rfl
  | error e => exact .refl hd _

/-- Work after work that agrees goes on from there. -/
theorem Agrees.andThen {work : δ → Worked δ} {work' : ε → Worked ε} (hw : Agrees P h w w')
    (hwork : ∀ d, P d → Agrees P h (work d) (work' (h d))) :
    Agrees P h (w.andThen work) (w'.andThen work') := by
  obtain ⟨hkeeps, rfl⟩ := hw
  obtain ⟨outcome, d⟩ := w
  cases outcome with
  | ok _ => exact hwork d hkeeps
  | error e => exact .refl hkeeps _

end Worked

/-! ## Copiers -/

namespace Copier

variable {δ ε : Type} {m : Copier δ} {m' : Copier ε} {P : δ → Prop} {h : δ → ε} {src d : δ}

/-- The steps of copies from `src` keep what `P` says, and come to the same on the other side. -/
structure Simulates (m : Copier δ) (m' : Copier ε) (P : δ → Prop) (h : δ → ε) (src : δ) :
    Prop where
  source : m'.size (h src) = m.size src
  size {d : δ} : P d → m'.size (h d) = m.size d
  copyRun {d : δ} (r : Run) (i : Nat) : P d →
    Worked.Agrees P h (m.copyRun src r i d) (m'.copyRun (h src) r i (h d))
  keeps_growTo {d : δ} (n : Nat) : P d → P (m.growTo n d)
  growTo {d : δ} (n : Nat) : P d → m'.growTo n (h d) = h (m.growTo n d)

namespace Simulates

variable (hsim : Simulates m m' P h src)
include hsim

theorem gatherRuns (rs : List Run) (i : Nat) (hd : P d) :
    Worked.Agrees P h (m.gatherRuns src rs i d) (m'.gatherRuns (h src) rs i (h d)) := by
  induction rs generalizing i d with
  | nil => exact .refl hd _
  | cons r rs ih =>
    rw [Copier.gatherRuns, Copier.gatherRuns, hsim.source]
    exact .after hd fun _ _ => (hsim.copyRun r i hd).andThen fun _ hd => ih _ hd

theorem gatherRows (rows : List Nat) (i : Nat) (hd : P d) :
    Worked.Agrees P h (m.gatherRows src rows i d) (m'.gatherRows (h src) rows i (h d)) := by
  induction rows generalizing i d with
  | nil => exact .refl hd _
  | cons row rows ih =>
    exact (hsim.copyRun ⟨row, row + 1⟩ i hd).andThen fun _ hd => ih _ hd

theorem scatterRuns (size : Nat) (rs : List Run) (i : Nat) (hd : P d) :
    Worked.Agrees P h (m.scatterRuns src size rs i d)
      (m'.scatterRuns (h src) size rs i (h d)) := by
  induction rs generalizing i d with
  | nil => exact .refl hd _
  | cons r rs ih =>
    exact .after hd fun _ _ =>
      (hsim.copyRun ⟨i, i + r.width⟩ r.start hd).andThen fun _ hd => ih _ hd

theorem scatterRows (size : Nat) (rows : List Nat) (i : Nat) (hd : P d) :
    Worked.Agrees P h (m.scatterRows src size rows i d)
      (m'.scatterRows (h src) size rows i (h d)) := by
  induction rows generalizing i d with
  | nil => exact .refl hd _
  | cons row rows ih =>
    exact .after hd fun _ _ => (hsim.copyRun ⟨i, i + 1⟩ row hd).andThen fun _ hd => ih _ hd

theorem gather (rows : KeySet) (hd : P d) :
    Worked.Agrees P h (m.gather src rows d) (m'.gather (h src) rows (h d)) := by
  rw [Copier.gather, Copier.gather, hsim.source, hsim.size hd]
  exact .after hd fun _ _ => hsim.gatherRuns rows.runs 0 hd

theorem gatherEach (rows : List Nat) (hd : P d) :
    Worked.Agrees P h (m.gatherEach src rows d) (m'.gatherEach (h src) rows (h d)) := by
  rw [Copier.gatherEach, Copier.gatherEach, hsim.source, hsim.size hd]
  exact .after hd fun _ _ => hsim.gatherRows rows 0 hd

theorem scatter (rows : KeySet) (hd : P d) :
    Worked.Agrees P h (m.scatter src rows d) (m'.scatter (h src) rows (h d)) := by
  rw [Copier.scatter, Copier.scatter, hsim.source]
  refine .after hd fun needed _ => ?_
  cases needed with
  | none => exact .refl hd _
  | some size =>
    simp only [hsim.growTo size hd]
    exact hsim.scatterRuns size rows.runs 0 (hsim.keeps_growTo size hd)

theorem scatterEach (rows : List Nat) (hd : P d) :
    Worked.Agrees P h (m.scatterEach src rows d) (m'.scatterEach (h src) rows (h d)) := by
  rw [Copier.scatterEach, Copier.scatterEach, hsim.source]
  refine .after hd fun needed _ => ?_
  cases needed with
  | none => exact .refl hd _
  | some size =>
    simp only [hsim.growTo size hd]
    exact hsim.scatterRows size rows 0 (hsim.keeps_growTo size hd)

end Simulates

end Copier

/-! ## Storages -/

namespace Storage

variable (src : Storage)

theorem gatherRuns_eq (rs : List Run) : src.gatherRuns rs = copier.gatherRuns src rs := by
  induction rs with
  | nil => rfl
  | cons r rs ih =>
    funext i d
    rw [gatherRuns, Copier.gatherRuns, ih]
    rfl

theorem gatherRows_eq (rows : List Nat) : src.gatherRows rows = copier.gatherRows src rows := by
  induction rows with
  | nil => rfl
  | cons row rows ih =>
    funext i d
    rw [gatherRows, Copier.gatherRows, ih]
    rfl

theorem scatterRuns_eq (size : Nat) (rs : List Run) :
    src.scatterRuns size rs = copier.scatterRuns src size rs := by
  induction rs with
  | nil => rfl
  | cons r rs ih =>
    funext i d
    rw [scatterRuns, Copier.scatterRuns, ih]
    rfl

theorem scatterRows_eq (size : Nat) (rows : List Nat) :
    src.scatterRows size rows = copier.scatterRows src size rows := by
  induction rows with
  | nil => rfl
  | cons row rows ih =>
    funext i d
    rw [scatterRows, Copier.scatterRows, ih]
    rfl

theorem gather_eq (rows : KeySet) : src.gather rows = copier.gather src rows := by
  funext d
  rw [gather, Copier.gather, gatherRuns_eq]
  rfl

theorem gatherEach_eq (rows : List Nat) : src.gatherEach rows = copier.gatherEach src rows := by
  funext d
  rw [gatherEach, Copier.gatherEach, gatherRows_eq]
  rfl

theorem scatter_eq (rows : KeySet) : src.scatter rows = copier.scatter src rows := by
  funext d
  refine after_congr fun needed _ => ?_
  cases needed with
  | none => rfl
  | some size =>
    simp only [scatterRuns_eq]
    rfl

theorem scatterEach_eq (rows : List Nat) : src.scatterEach rows = copier.scatterEach src rows := by
  funext d
  refine after_congr fun needed _ => ?_
  cases needed with
  | none => rfl
  | some size =>
    simp only [scatterRows_eq]
    rfl

end Storage

end LiveTables
