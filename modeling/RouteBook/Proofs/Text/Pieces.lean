import Mathlib.Data.List.Forall2
import RouteBook.Text.Utf8.Lemmas

/-! # Pieces of a text and their separator

Splitting undoes joining where no piece holds the separator, and where empty pieces are dropped it
undoes any writing of the pieces with runs of separators between and around them. A reader that
works piece by piece succeeds where it succeeds on every piece. -/

namespace RouteBook.Text

variable {sep : Char}

/-! ## Splitting and joining -/

theorem split_cons_sep (rest : Text) : split sep (sep :: rest) = [] :: split sep rest := by
  simp [split]

theorem split_cons_of_ne {c : Char} (h : c ≠ sep) {rest piece : Text} {pieces : List Text}
    (hs : split sep rest = piece :: pieces) : split sep (c :: rest) = (c :: piece) :: pieces := by
  simp [split, h, hs]

theorem split_of_not_mem {t : Text} (h : sep ∉ t) : split sep t = [t] := by
  induction t with
  | nil => rfl
  | cons c rest ih =>
    rw [List.mem_cons, not_or] at h
    exact split_cons_of_ne (Ne.symm h.1) (ih h.2)

theorem split_append_sep (front back : Text) :
    split sep (front ++ sep :: back) = split sep front ++ split sep back := by
  induction front with
  | nil => exact split_cons_sep back
  | cons c front ih =>
    by_cases hc : c = sep
    · subst hc
      rw [List.cons_append, split_cons_sep, split_cons_sep, ih]
      rfl
    · obtain ⟨piece, pieces, hs⟩ := List.exists_cons_of_ne_nil (split_ne_nil sep front)
      rw [hs, List.cons_append] at ih
      rw [List.cons_append, split_cons_of_ne hc ih, split_cons_of_ne hc hs]
      rfl

theorem not_mem_of_mem_split {t piece : Text} (h : piece ∈ split sep t) : sep ∉ piece := by
  induction t generalizing piece with
  | nil =>
    rw [split, List.mem_singleton] at h
    simp [h]
  | cons c rest ih =>
    by_cases hc : c = sep
    · subst hc
      rw [split_cons_sep, List.mem_cons] at h
      rcases h with rfl | h
      · simp
      · exact ih h
    · obtain ⟨front, pieces, hs⟩ := List.exists_cons_of_ne_nil (split_ne_nil sep rest)
      rw [split_cons_of_ne hc hs, List.mem_cons] at h
      rcases h with rfl | h
      · have := ih (hs ▸ List.mem_cons_self)
        simp [this, Ne.symm hc]
      · exact ih (hs ▸ List.mem_cons_of_mem _ h)

theorem mem_of_mem_split {t piece : Text} {c : Char} (h : piece ∈ split sep t) (hc : c ∈ piece) :
    c ∈ t := by
  induction t generalizing piece with
  | nil =>
    rw [split, List.mem_singleton] at h
    exact h ▸ hc
  | cons d rest ih =>
    by_cases hd : d = sep
    · subst hd
      rw [split_cons_sep, List.mem_cons] at h
      rcases h with rfl | h
      · cases hc
      · exact List.mem_cons_of_mem _ (ih h hc)
    · obtain ⟨front, pieces, hs⟩ := List.exists_cons_of_ne_nil (split_ne_nil sep rest)
      rw [split_cons_of_ne hd hs, List.mem_cons] at h
      rcases h with rfl | h
      · rcases List.mem_cons.mp hc with rfl | hc
        · exact List.mem_cons_self
        · exact List.mem_cons_of_mem _ (ih (hs ▸ List.mem_cons_self) hc)
      · exact List.mem_cons_of_mem _ (ih (hs ▸ List.mem_cons_of_mem _ h) hc)

theorem join_cons_cons (piece next : Text) (rest : List Text) :
    join [sep] (piece :: next :: rest) = piece ++ sep :: join [sep] (next :: rest) := by
  simp [join, List.intercalate_cons_cons]

theorem join_cons_of_ne_nil (piece : Text) {pieces : List Text} (h : pieces ≠ []) :
    join [sep] (piece :: pieces) = piece ++ sep :: join [sep] pieces := by
  obtain ⟨next, rest, rfl⟩ := List.exists_cons_of_ne_nil h
  exact join_cons_cons piece next rest

theorem join_ne_nil {piece : Text} (h : piece ≠ []) (pieces : List Text) :
    join [sep] (piece :: pieces) ≠ [] := by
  cases pieces with
  | nil => simpa [join] using h
  | cons next rest => simp [join_cons_cons]

/-- Pieces at the end may be joined first. -/
theorem join_concat_join {rest : List Text} (h : rest ≠ []) (front : List Text) :
    join [sep] (front ++ [join [sep] rest]) = join [sep] (front ++ rest) := by
  induction front with
  | nil => simp [join]
  | cons piece front ih =>
    rw [List.cons_append, List.cons_append, join_cons_of_ne_nil piece (by simp),
      join_cons_of_ne_nil piece (by simp [h]), ih]

theorem split_join {pieces : List Text} (hne : pieces ≠ []) (h : ∀ piece ∈ pieces, sep ∉ piece) :
    split sep (join [sep] pieces) = pieces := by
  induction pieces with
  | nil => exact absurd rfl hne
  | cons piece pieces ih =>
    obtain ⟨hp, hps⟩ := List.forall_mem_cons.mp h
    cases pieces with
    | nil => simpa [join] using split_of_not_mem hp
    | cons next rest =>
      rw [join_cons_cons, split_append_sep, split_of_not_mem hp, ih (by simp) hps]
      rfl

theorem mem_join {c : Char} {between : Text} {pieces : List Text} (h : c ∈ join between pieces) :
    c ∈ between ∨ ∃ piece ∈ pieces, c ∈ piece := by
  induction pieces with
  | nil => simp [join] at h
  | cons piece pieces ih =>
    cases pieces with
    | nil => exact .inr ⟨piece, by simp, by simpa [join] using h⟩
    | cons next rest =>
      simp only [join, List.intercalate_cons_cons, List.mem_append] at h
      rcases h with (h | h) | h
      · exact .inr ⟨piece, by simp, h⟩
      · exact .inl h
      · rcases ih h with h | ⟨p, hp, hc⟩
        · exact .inl h
        · exact .inr ⟨p, List.mem_cons_of_mem _ hp, hc⟩

theorem not_mem_join {c : Char} (hc : c ≠ sep) {pieces : List Text}
    (h : ∀ piece ∈ pieces, c ∉ piece) :
    c ∉ join [sep] pieces := by
  intro hm
  rcases mem_join hm with hm | ⟨piece, hp, hm⟩
  · exact hc (List.mem_singleton.mp hm)
  · exact h piece hp hm

/-! ## Runs of separators -/

/-- The pieces in order, with one or more separators between them and any number before and
after. -/
inductive SeparatedBy (sep : Char) : Text → List Text → Prop where
  | nil : SeparatedBy sep [] []
  | last (piece : Text) : SeparatedBy sep piece [piece]
  | skip {t : Text} {pieces : List Text} :
    SeparatedBy sep t pieces → SeparatedBy sep (sep :: t) pieces
  | cons (piece : Text) {t : Text} {pieces : List Text} :
    SeparatedBy sep t pieces → SeparatedBy sep (piece ++ sep :: t) (piece :: pieces)

/-- However long the runs of separators are, they leave nothing but empty pieces behind. -/
theorem filter_split {t : Text} {pieces : List Text} (h : SeparatedBy sep t pieces)
    (hp : ∀ piece ∈ pieces, piece ≠ [] ∧ sep ∉ piece) : (split sep t).filter (· ≠ []) = pieces := by
  induction h with
  | nil => rfl
  | last piece =>
    obtain ⟨hne, hsep⟩ := hp piece (by simp)
    rw [split_of_not_mem hsep, List.filter_cons_of_pos (by simpa using hne), List.filter_nil]
  | skip _ ih =>
    rw [split_cons_sep, List.filter_cons_of_neg (by simp)]
    exact ih hp
  | cons piece _ ih =>
    obtain ⟨⟨hne, hsep⟩, hp⟩ := List.forall_mem_cons.mp hp
    rw [split_append_sep, split_of_not_mem hsep, List.singleton_append,
      List.filter_cons_of_pos (by simpa using hne), ih hp]

theorem separatedBy_join (pieces : List Text) : SeparatedBy sep (join [sep] pieces) pieces := by
  induction pieces with
  | nil => exact .nil
  | cons piece pieces ih =>
    cases pieces with
    | nil => simpa [join] using SeparatedBy.last piece
    | cons next rest =>
      rw [join_cons_cons]
      exact .cons piece ih

/-! ## Cutting -/

theorem cut?_append {front : Text} (h : sep ∉ front) (back : Text) :
    cut? sep (front ++ sep :: back) = some (front, back) := by
  induction front with
  | nil => simp [cut?]
  | cons c front ih =>
    rw [List.mem_cons, not_or] at h
    rw [List.cons_append, cut?, if_neg (Ne.symm h.1), ih h.2]
    rfl

/-- A text is cut at its first separator in one way only. -/
theorem eq_of_append_sep {front front' back back' : Text} (h : sep ∉ front) (h' : sep ∉ front')
    (he : front ++ sep :: back = front' ++ sep :: back') : front = front' ∧ back = back' := by
  have hcut := cut?_append h back
  rw [he, cut?_append h'] at hcut
  obtain ⟨rfl, rfl⟩ := Prod.mk.inj (Option.some.inj hcut)
  exact ⟨rfl, rfl⟩

theorem cut?_eq_none_iff {t : Text} : cut? sep t = none ↔ sep ∉ t := by
  induction t with
  | nil => simp [cut?]
  | cons c rest ih =>
    by_cases hc : c = sep
    · simp [cut?, hc]
    · simp [cut?, hc, ih, Ne.symm hc]

/-! ## Reading piece by piece -/

theorem mapM_eq_some_iff {α β : Type} {f : α → Option β} {xs : List α} {ys : List β} :
    xs.mapM f = some ys ↔ xs.map f = ys.map some := by
  rw [← Utf8.mapM_id_eq_some_iff, List.mapM_map]
  rfl

/-- Reading fails where the reading of one piece fails. -/
theorem mapM_eq_none_iff {α β : Type} {f : α → Option β} {xs : List α} :
    xs.mapM f = none ↔ ∃ x ∈ xs, f x = none := by
  induction xs with
  | nil => simp
  | cons x xs ih =>
    rw [List.mapM_cons, List.exists_mem_cons_iff, ← ih]
    cases hx : f x with
    | none => simp
    | some y => cases xs.mapM f <;> simp

/-- What holds of a piece and what it is read as holds of the lists. -/
theorem map_eq_of_mapM {α β γ : Type} {f : α → Option β} {g : α → γ} {k : β → γ}
    (hfg : ∀ x y, f x = some y → g x = k y) {xs : List α} {ys : List β} (h : xs.mapM f = some ys) :
    xs.map g = ys.map k := by
  rw [mapM_eq_some_iff] at h
  induction xs generalizing ys with
  | nil => cases ys <;> simp_all
  | cons x xs ih =>
    cases ys with
    | nil => simp at h
    | cons y ys =>
      rw [List.map_cons, List.map_cons, List.cons.injEq] at h
      rw [List.map_cons, List.map_cons, hfg x y h.1, ih h.2]

/-- What holds of the pieces and of what they are read as holds of the lists. -/
theorem mapM_of_forall₂ {α β : Type} {f : α → Option β} {R : α → β → Prop} {P : α → Prop}
    {xs : List α} {ys : List β} (h : List.Forall₂ R xs ys)
    (hR : ∀ x, ∀ y ∈ ys, R x y → f x = some y ∧ P x) :
    xs.mapM f = some ys ∧ ∀ x ∈ xs, P x := by
  rw [mapM_eq_some_iff]
  induction h with
  | nil => exact ⟨rfl, nofun⟩
  | @cons x y xs ys hxy _ ih =>
    obtain ⟨hf, hP⟩ := hR x y List.mem_cons_self hxy
    obtain ⟨hmap, hall⟩ := ih fun x z hz => hR x z (List.mem_cons_of_mem _ hz)
    exact ⟨by rw [List.map_cons, List.map_cons, hf, hmap], List.forall_mem_cons.mpr ⟨hP, hall⟩⟩

/-- Pieces that are written as `R` says, with runs of separators around them, are
read back one by one. -/
theorem mapM_filter_split {α : Type} {read : Text → Option α} {R : Text → α → Prop} {t : Text}
    {pieces : List Text} {values : List α} (ht : SeparatedBy sep t pieces)
    (h : List.Forall₂ R pieces values)
    (hR : ∀ piece, ∀ value ∈ values, R piece value →
      read piece = some value ∧ piece ≠ [] ∧ sep ∉ piece) :
    ((split sep t).filter (· ≠ [])).mapM read = some values := by
  obtain ⟨hread, hok⟩ := mapM_of_forall₂ h hR
  rw [filter_split ht hok, hread]

theorem mapM_eq_ok_iff {ε α β : Type} {f : α → Except ε β} {xs : List α} {ys : List β} :
    xs.mapM f = .ok ys ↔ xs.map f = ys.map .ok := by
  induction xs generalizing ys with
  | nil => cases ys <;> simp [pure, Except.pure]
  | cons x xs ih =>
    rw [List.mapM_cons]
    cases hx : f x with
    | error e => cases ys <;> simp [hx, bind, Except.bind]
    | ok y =>
      cases ys with
      | nil => cases xs.mapM f <;> simp [bind, Except.bind, pure, Except.pure]
      | cons z zs =>
        have := @ih zs
        cases hxs : xs.mapM f <;>
          simp_all [bind, Except.bind, pure, Except.pure]

theorem mapM_eq_ok_iff_forall₂ {ε α β : Type} {f : α → Except ε β} {xs : List α} {ys : List β} :
    xs.mapM f = .ok ys ↔ List.Forall₂ (fun x y => f x = .ok y) xs ys := by
  rw [mapM_eq_ok_iff, ← List.forall₂_eq_eq_eq, List.forall₂_map_left_iff,
    List.forall₂_map_right_iff]

/-- The error is that of the first element that has one. -/
theorem mapM_eq_error_iff {ε α β : Type} {f : α → Except ε β} {xs : List α} {e : ε} :
    xs.mapM f = .error e ↔
      ∃ front x back, xs = front ++ x :: back ∧ (∀ y ∈ front, ∃ z, f y = .ok z) ∧
        f x = .error e := by
  induction xs with
  | nil => simp [pure, Except.pure]
  | cons x xs ih =>
    rw [List.mapM_cons]
    cases hx : f x with
    | error other =>
      constructor
      · intro h
        obtain rfl := Except.error.inj h
        exact ⟨[], x, xs, rfl, by simp, hx⟩
      · intro ⟨front, y, back, he, hfront, hy⟩
        cases front with
        | nil =>
          obtain ⟨rfl, rfl⟩ := List.cons.inj he
          rw [hx] at hy
          cases hy
          rfl
        | cons z front =>
          obtain ⟨rfl, rfl⟩ := List.cons.inj he
          obtain ⟨w, hw⟩ := hfront x List.mem_cons_self
          rw [hx] at hw
          cases hw
    | ok y =>
      have hrest : (do let ys ← xs.mapM f; pure (y :: ys) : Except ε (List β)) = .error e ↔
          xs.mapM f = .error e := by
        cases xs.mapM f <;> simp [bind, Except.bind, pure, Except.pure]
      refine hrest.trans (ih.trans ?_)
      constructor
      · intro ⟨front, z, back, he, hfront, hz⟩
        exact ⟨x :: front, z, back, by rw [he]; rfl, List.forall_mem_cons.mpr ⟨⟨y, hx⟩, hfront⟩, hz⟩
      · intro ⟨front, z, back, he, hfront, hz⟩
        cases front with
        | nil =>
          obtain ⟨rfl, rfl⟩ := List.cons.inj he
          rw [hx] at hz
          cases hz
        | cons w front =>
          obtain ⟨rfl, rfl⟩ := List.cons.inj he
          exact ⟨front, z, back, rfl, (List.forall_mem_cons.mp hfront).2, hz⟩

end RouteBook.Text
