import Mathlib.Data.List.Forall2

/-!
# Outcomes of fallible steps

The operations of the library are sequences of steps that each may fail, and a walk over a list is a
step per member. The lemmas here take the success of the whole apart into the successes of its
steps, and put it together again.
-/

namespace LiveTables

variable {ε α β γ : Type}

/-! ## Lists side by side -/

/-- What is so for members of two lists and for members of the first and a third is so for members
of the other two. -/
theorem forall₂_glue {R : α → β → Prop} {S : α → γ → Prop} {T : β → γ → Prop} {l : List α}
    {bs : List β} {cs : List γ} (h : ∀ a b c, R a b → S a c → T b c) (hR : List.Forall₂ R l bs)
    (hS : List.Forall₂ S l cs) : List.Forall₂ T bs cs := by
  induction hR generalizing cs with
  | nil =>
    obtain rfl := List.forall₂_nil_left_iff.mp hS
    exact .nil
  | cons hab _ ih =>
    obtain ⟨c, cs, hac, hcs, rfl⟩ := List.forall₂_cons_left_iff.mp hS
    exact .cons (h _ _ _ hab hac) (ih hcs)

theorem forall_mem_right {R : α → β → Prop} {P : β → Prop} {l : List α} {bs : List β}
    (h : ∀ a b, R a b → P b) (hR : List.Forall₂ R l bs) : ∀ b ∈ bs, P b := by
  induction hR with
  | nil => exact fun b hb => absurd hb List.not_mem_nil
  | cons hab _ ih => exact List.forall_mem_cons.mpr ⟨h _ _ hab, ih⟩

/-- Each member of the first list has one beside it. -/
theorem exists_of_forall₂ {R : α → β → Prop} {l : List α} {bs : List β} (h : List.Forall₂ R l bs)
    {a : α} (ha : a ∈ l) : ∃ b ∈ bs, R a b := by
  induction h with
  | nil => cases ha
  | @cons a' b l bs hab _ ih =>
    rcases List.mem_cons.mp ha with rfl | ha
    · exact ⟨b, List.mem_cons_self .., hab⟩
    · obtain ⟨b', hb', hab'⟩ := ih ha
      exact ⟨b', List.mem_cons_of_mem _ hb', hab'⟩

/-- Where each member can have one beside it there is a list beside the whole. -/
theorem exists_forall₂ {R : α → β → Prop} {l : List α} (h : ∀ a ∈ l, ∃ b, R a b) :
    ∃ bs, List.Forall₂ R l bs := by
  induction l with
  | nil => exact ⟨[], .nil⟩
  | cons a l ih =>
    obtain ⟨⟨b, hb⟩, hl⟩ := List.forall_mem_cons.mp h
    obtain ⟨bs, hbs⟩ := ih hl
    exact ⟨b :: bs, .cons hb hbs⟩

/-- Lists stand side by side just if they have one length and the members at each position do. -/
theorem forall₂_iff_getElem? {R : α → β → Prop} {l : List α} {bs : List β} :
    List.Forall₂ R l bs ↔
      l.length = bs.length ∧ ∀ (i : Nat) a b, l[i]? = some a → bs[i]? = some b → R a b := by
  rw [List.forall₂_iff_get]
  refine and_congr_right fun _ => ⟨?_, ?_⟩
  · intro h i a b ha hb
    obtain ⟨hi, rfl⟩ := List.getElem?_eq_some_iff.mp ha
    obtain ⟨hi', rfl⟩ := List.getElem?_eq_some_iff.mp hb
    exact h i hi hi'
  · intro h i hi hi'
    exact h i _ _ (List.getElem?_eq_getElem hi) (List.getElem?_eq_getElem hi')

/-! ## Steps and walks -/

/-- A sequence of two steps succeeds just if both do. -/
theorem bind_eq_ok {x : Except ε β} {f : β → Except ε γ} {c : γ} :
    (x >>= f) = .ok c ↔ ∃ b, x = .ok b ∧ f b = .ok c := by
  cases x <;> simp [bind, Except.bind]

@[simp] theorem ok_bind (b : β) (f : β → Except ε γ) : (Except.ok b >>= f) = f b := rfl

@[simp] theorem error_bind (e : ε) (f : β → Except ε γ) :
    (Except.error e >>= f) = .error e := rfl

@[simp] theorem pure_eq_ok {b c : β} : (pure b : Except ε β) = .ok c ↔ b = c :=
  ⟨fun h => Except.ok.inj h, fun h => congrArg Except.ok h⟩

/-- A sequence of two steps fails just if the first one does, or the second one after it. -/
theorem bind_eq_error {x : Except ε β} {f : β → Except ε γ} {e : ε} :
    (x >>= f) = .error e ↔ x = .error e ∨ ∃ b, x = .ok b ∧ f b = .error e := by
  cases x <;> simp

/-- A walk that collects answers succeeds just if it does at each member. -/
theorem mapM_eq_ok {f : α → Except ε β} {l : List α} {bs : List β} :
    l.mapM f = .ok bs ↔ List.Forall₂ (fun a b => f a = .ok b) l bs := by
  induction l generalizing bs with
  | nil => rw [List.mapM_nil, pure_eq_ok, List.forall₂_nil_left_iff, eq_comm]
  | cons a l ih =>
    rw [List.mapM_cons, List.forall₂_cons_left_iff, bind_eq_ok]
    refine exists_congr fun b => ?_
    rw [bind_eq_ok]
    refine ⟨?_, ?_⟩
    · rintro ⟨hb, bs', hbs, hc⟩
      exact ⟨bs', hb, ih.mp hbs, (pure_eq_ok.mp hc).symm⟩
    · rintro ⟨bs', hb, hbs, rfl⟩
      exact ⟨hb, bs', ih.mpr hbs, rfl⟩

/-- A walk succeeds if it does at each member, and its answers have what each of them has. -/
theorem exists_mapM_eq_ok {f : α → Except ε β} {l : List α} {R : α → β → Prop}
    (h : ∀ a ∈ l, ∃ b, f a = .ok b ∧ R a b) : ∃ bs, l.mapM f = .ok bs ∧ List.Forall₂ R l bs := by
  induction l with
  | nil => exact ⟨[], rfl, .nil⟩
  | cons a l ih =>
    obtain ⟨⟨b, hb, hab⟩, hl⟩ := List.forall_mem_cons.mp h
    obtain ⟨bs, hbs, hall⟩ := ih hl
    refine ⟨b :: bs, ?_, .cons hab hall⟩
    rw [List.mapM_cons, hb, ok_bind, hbs]
    rfl

/-- A walk that collects answers fails at the first member at which a step does. -/
theorem mapM_eq_error {f : α → Except ε β} {l : List α} {e : ε} (h : l.mapM f = .error e) :
    ∃ (i : Nat) (a : α), l[i]? = some a ∧ f a = .error e ∧
      ∀ j < i, ∀ a, l[j]? = some a → ∃ b, f a = .ok b := by
  induction l with
  | nil => cases h
  | cons a l ih =>
    rw [List.mapM_cons] at h
    cases hb : f a with
    | error e' =>
      rw [hb, error_bind] at h
      obtain rfl := Except.error.inj h
      exact ⟨0, a, rfl, hb, fun j hj => absurd hj (Nat.not_lt_zero j)⟩
    | ok b =>
      rw [hb, ok_bind] at h
      cases hbs : l.mapM f with
      | ok bs =>
        rw [hbs] at h
        cases h
      | error e' =>
        rw [hbs, error_bind] at h
        obtain ⟨i, a', hi, herror, hbefore⟩ := ih (hbs.trans h)
        refine ⟨i + 1, a', hi, herror, fun j hj a'' hj' => ?_⟩
        cases j with
        | zero => exact ⟨b, Option.some.inj hj' ▸ hb⟩
        | succ j => exact hbefore j (Nat.lt_of_succ_lt_succ hj) a'' hj'

/-- A walk whose steps answer something on the side succeeds just if its first step does, and then
the others from what that has left. -/
theorem foldlM_snd_cons_eq_ok {f : β → α → Except ε (γ × β)} {a : α} {l : List α} {b c : β} :
    (a :: l).foldlM (fun b a => return (← f b a).2) b = .ok c ↔
      ∃ answer b', f b a = .ok (answer, b') ∧
        l.foldlM (fun b a => return (← f b a).2) b' = .ok c := by
  rw [List.foldlM_cons, bind_eq_ok]
  refine ⟨?_, ?_⟩
  · rintro ⟨b', hfirst, hrest⟩
    obtain ⟨⟨answer, b''⟩, hstep, hb⟩ := bind_eq_ok.mp hfirst
    obtain rfl : b'' = b' := pure_eq_ok.mp hb
    exact ⟨answer, b'', hstep, hrest⟩
  · rintro ⟨answer, b', hstep, hrest⟩
    exact ⟨b', bind_eq_ok.mpr ⟨_, hstep, rfl⟩, hrest⟩

/-- Walks whose steps do the same at each member do the same. -/
theorem mapM_congr_left {f f' : α → Except ε β} {l : List α} (h : ∀ a ∈ l, f a = f' a) :
    l.mapM f = l.mapM f' := by
  induction l with
  | nil => rfl
  | cons a l ih =>
    obtain ⟨ha, hl⟩ := List.forall_mem_cons.mp h
    rw [List.mapM_cons, List.mapM_cons, ha, ih hl]

/-- A walk along a list of images whose steps answer with images answers with the images of what the
walk along the list does. -/
theorem mapM_map_eq {δ : Type} {f : α → Except ε β} {f' : γ → Except ε δ} {g : α → γ} {h : β → δ}
    (hf : ∀ a, f' (g a) = h <$> f a) (l : List α) :
    (l.map g).mapM f' = List.map h <$> l.mapM f := by
  induction l with
  | nil => rfl
  | cons a l ih =>
    simp only [List.map_cons, List.mapM_cons, hf, ih, bind_map_left, map_bind, map_pure]

/-- A walk that starts from an image, and whose steps lead from images to images, leads to the image
of what the walk from the start itself leads to. -/
theorem foldlM_map_eq {f : β → α → Except ε β} {f' : γ → α → Except ε γ} {g : β → γ}
    (hf : ∀ b a, f' (g b) a = g <$> f b a) (l : List α) (b : β) :
    l.foldlM f' (g b) = g <$> l.foldlM f b := by
  induction l generalizing b with
  | nil => rfl
  | cons a l ih => simp only [List.foldlM_cons, hf, ih, bind_map_left, map_bind]

/-- A walk that only checks succeeds just if every check does. -/
theorem forM_eq_ok {f : α → Except ε Unit} {l : List α} :
    l.forM f = .ok () ↔ ∀ a ∈ l, f a = .ok () := by
  rw [List.forM_eq_forM]
  induction l with
  | nil => simp
  | cons a l ih =>
    rw [List.forM_cons, bind_eq_ok, List.forall_mem_cons, ← ih]
    refine ⟨?_, ?_⟩
    · rintro ⟨⟨⟩, ha, hl⟩
      exact ⟨ha, hl⟩
    · rintro ⟨ha, hl⟩
      exact ⟨(), ha, hl⟩

/-- A walk that only checks fails in one of its checks. -/
theorem forM_eq_error {f : α → Except ε Unit} {l : List α} {e : ε} (h : l.forM f = .error e) :
    ∃ a ∈ l, f a = .error e := by
  rw [List.forM_eq_forM] at h
  induction l with
  | nil => cases h
  | cons a l ih =>
    rw [List.forM_cons, bind_eq_error] at h
    rcases h with hfirst | ⟨-, -, hrest⟩
    · exact ⟨a, List.mem_cons_self .., hfirst⟩
    · obtain ⟨a', ha', herror⟩ := ih hrest
      exact ⟨a', List.mem_cons_of_mem _ ha', herror⟩

/-- A walk fails in one of its steps, and what every step keeps is still so there. -/
theorem foldlM_eq_error {f : β → α → Except ε β} {l : List α} {b : β} {e : ε} (Inv : β → Prop)
    (hkeep : ∀ b a b', Inv b → f b a = .ok b' → Inv b') (hb : Inv b)
    (h : l.foldlM f b = .error e) : ∃ b', ∃ a ∈ l, Inv b' ∧ f b' a = .error e := by
  induction l generalizing b with
  | nil => cases h
  | cons a l ih =>
    rw [List.foldlM_cons, bind_eq_error] at h
    rcases h with hfirst | ⟨b', hb', hrest⟩
    · exact ⟨b, a, List.mem_cons_self .., hb, hfirst⟩
    · obtain ⟨b'', a', ha', hinv, herror⟩ := ih (hkeep b a b' hb hb') hrest
      exact ⟨b'', a', List.mem_cons_of_mem _ ha', hinv, herror⟩

/-- The failure of what failed. -/
def fault? : Except ε α → Option ε
  | .ok _ => none
  | .error e => some e

theorem fault?_eq_some_iff {x : Except ε α} {e : ε} : fault? x = some e ↔ x = .error e := by
  cases x <;> simp [fault?]

theorem fault?_map {f : α → β} {x : Except ε α} : fault? (f <$> x) = fault? x := by
  cases x <;> rfl

/-- A walk fails as its first step does that fails. -/
theorem fault?_mapM {f : α → Except ε β} {l : List α} :
    fault? (l.mapM f) = l.findSome? fun a => fault? (f a) := by
  induction l with
  | nil => rfl
  | cons a l ih =>
    rw [List.mapM_cons, List.findSome?_cons, ← ih]
    cases f a with
    | error e => rfl
    | ok b =>
      cases l.mapM f <;> rfl

/-- A search through lists that stand one behind the other goes through one after the other. -/
theorem findSome?_flatMap {f : α → List β} {g : β → Option γ} {l : List α} :
    (l.flatMap f).findSome? g = l.findSome? fun a => (f a).findSome? g := by
  induction l with
  | nil => rfl
  | cons a l ih =>
    rw [List.flatMap_cons, List.findSome?_append, List.findSome?_cons, ih]
    cases (f a).findSome? g <;> rfl

/-- A walk that checks members with their positions succeeds just if every check does. -/
theorem forM_zipIdx_eq_ok {f : α × Nat → Except ε Unit} {l : List α} :
    l.zipIdx.forM f = .ok () ↔ ∀ i a, l[i]? = some a → f (a, i) = .ok () := by
  rw [forM_eq_ok]
  refine ⟨?_, ?_⟩
  · intro h i a hi
    exact h (a, i) (List.mk_mem_zipIdx_iff_getElem?.mpr hi)
  · rintro h ⟨a, i⟩ hp
    exact h i a (List.mk_mem_zipIdx_iff_getElem?.mp hp)

end LiveTables
