import LiveTables.Proofs.Column.Converting
import LiveTables.Proofs.Column.Weight

/-!
# A library of arrays

What columns rely on (`ArrayLibrary.Lawful`) can be had. In the library here an array is converted
with all of its items, seen or not; an array that is made of others is laid out anew, and panics if
there are not enough offsets for it.
-/

namespace LiveTables

/-- A library that lays out arrays in a plain way. -/
def ArrayLibrary.plain : ArrayLibrary where
  name := reprStr
  cast _ a := a.convert
  concat
    | [] => .error (.error (.conversion (.other "no arrays to join")))
    | part :: parts =>
      let cells := (part :: parts).flatMap Layout.cells
      if part.encoding.fits cells then .ok (.ofCells part.encoding cells) else .error .panic
  empty e := .ofCells e []
  listArray field _ nullable offsets bits items :=
    .ok (.lists false field nullable offsets bits items)

theorem ArrayLibrary.plain_lawful : plain.Lawful where
  cast ha htype hb := Layout.convert_spec ha htype hb
  concat {parts type} hparts htwo hlight := by
    cases parts with
    | nil => cases htwo
    | cons part parts =>
      have hfits := hlight.fits hparts
      rw [← (hparts part (List.mem_cons_self ..)).2] at hfits
      exact ⟨_, if_pos hfits⟩
  joined {parts type b} hparts hb := by
    cases parts with
    | nil => cases hb
    | cons part parts =>
      have he := (hparts part (List.mem_cons_self ..)).2
      simp only [plain] at hb
      split at hb
      · rename_i hfits
        obtain rfl := Except.ok.inj hb
        rw [he] at hfits ⊢
        refine Layout.ofCells_spec (fun c hc => ?_) hfits
        obtain ⟨p, hp, hc⟩ := List.mem_flatMap.mp hc
        obtain ⟨hsound, hencoding⟩ := hparts p hp
        exact hencoding ▸ hsound.holds_cells c hc
      · cases hb
  empty type := Layout.ofCells_spec (fun c hc => absurd hc List.not_mem_nil) (by
    induction type with
    | list element ih => exact ih
    | _ => rfl)
  listArray _ _ _ _ := rfl

end LiveTables
